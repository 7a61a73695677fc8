import Mathlib.Algebra.GroupWithZero.Nat
import Mathlib.Data.List.TakeWhile
import MissionIndex.Proofs.Path.Normal
import MissionIndex.Range

/-!
# Places and offsets

A place is given by a line and a character on it, and a text is cut at offsets. The place after a
text is here what its definition says, the number of line feeds and of the characters after the last
of them, and walking over the text comes to it (`advance_after`). The other way, `Position.offset`
finds a place in a text by going through its lines, so that a range picks out a part of the text
(`Range.slice`).
-/

namespace MissionIndex

open Text

namespace Position

/-- The place after a text: how many line feeds are in it, and how many characters come after the
last of them. -/
def after (text : List Char) : Position :=
  ⟨text.count '\n', (text.reverse.takeWhile (· != '\n')).length⟩

/-- The number of characters in front of a place: those of the lines before it, each with its line
feed, and those before it on its own line. -/
def offset (text : List Char) (p : Position) : Nat :=
  (((lines text).take p.line).map (·.length + 1)).sum + p.character

theorem after_concat (text : List Char) (c : Char) : after (text ++ [c]) = (after text).next c := by
  by_cases hc : c = '\n'
  · simp [after, next, hc]
  · simp [after, next, hc]

theorem advance_after (before raw : List Char) :
    (after before).advance raw = after (before ++ raw) := by
  induction raw generalizing before with
  | nil => rw [List.append_nil, advance, List.foldl_nil]
  | cons c raw ih =>
    have hstep : (after before).advance (c :: raw) = ((after before).next c).advance raw := rfl
    rw [hstep, ← after_concat, ih, List.append_assoc, List.singleton_append]

/-! ### Lines -/

theorem lines_cons_of_ne {c : Char} (hc : c ≠ '\n') (text : List Char) :
    ∃ first rest, lines text = first :: rest ∧ lines (c :: text) = (c :: first) :: rest := by
  cases hlines : lines text with
  | nil => exact absurd hlines (Path.splitAt_ne_nil '\n' text)
  | cons first rest =>
    refine ⟨first, rest, rfl, ?_⟩
    rw [lines] at hlines ⊢
    rw [splitAt, if_neg hc, hlines]

/-- There is one more line than line feeds, and the lines with their line feeds, of which the last
one has none, are the text. -/
theorem sum_lines (text : List Char) :
    (lines text).length = text.count '\n' + 1 ∧ ((lines text).map (·.length + 1)).sum
      = text.length + 1 := by
  induction text with
  | nil => exact ⟨rfl, rfl⟩
  | cons c text ih =>
    by_cases hc : c = '\n'
    · have hlines : lines (c :: text) = [] :: lines text := by rw [lines, splitAt, if_pos hc, lines]
      rw [hlines, List.length_cons, List.map_cons, List.sum_cons, ih.1, ih.2, hc,
        List.count_cons_self, List.length_cons, List.length_nil]
      omega
    · obtain ⟨first, rest, hlines, hlines'⟩ := lines_cons_of_ne hc text
      rw [hlines] at ih
      rw [hlines', List.count_cons_of_ne hc]
      simp only [List.length_cons, List.map_cons, List.sum_cons] at ih ⊢
      omega

theorem exists_lastLine (text : List Char) :
    ∃ last, '\n' ∉ last ∧ (text = last ∨ ∃ front, text = front ++ '\n' :: last) := by
  induction text with
  | nil => exact ⟨[], List.not_mem_nil, .inl rfl⟩
  | cons c text ih =>
    obtain ⟨last, hlast, rfl | ⟨front, rfl⟩⟩ := ih
    · by_cases hc : c = '\n'
      · exact ⟨text, hlast, .inr ⟨[], congrArg (· :: text) hc⟩⟩
      · refine ⟨c :: text, fun hmem ↦ ?_, .inl rfl⟩
        exact (List.mem_cons.mp hmem).elim (fun he ↦ hc he.symm) hlast
    · exact ⟨last, hlast, .inr ⟨c :: front, rfl⟩⟩

theorem after_line {last : List Char} (h : '\n' ∉ last) : after last = ⟨0, last.length⟩ := by
  have htake : last.reverse.takeWhile (· != '\n') = last.reverse :=
    List.takeWhile_eq_self_iff.mpr fun c hc ↦ bne_iff_ne.mpr fun he ↦
    h (he ▸ List.mem_reverse.mp hc)
  rw [after, List.count_eq_zero.mpr h, htake, List.length_reverse]

theorem after_append_line (front : List Char) {last : List Char} (h : '\n' ∉ last) :
    after (front ++ '\n' :: last) = ⟨front.count '\n' + 1, last.length⟩ := by
  have hlast : ∀ c ∈ last.reverse, (c != '\n') = true := fun c hc ↦
    bne_iff_ne.mpr fun he ↦ h (he ▸ List.mem_reverse.mp hc)
  rw [after, List.reverse_append, List.reverse_cons, List.append_assoc,
    List.takeWhile_append_of_pos hlast, List.singleton_append,
    List.takeWhile_cons_of_neg (by decide), List.append_nil, List.length_reverse,
    List.count_append, List.count_cons_self, List.count_eq_zero.mpr h]

/-- **The offset of the place after a piece of text is the length of the piece.** -/
theorem offset_after (before rest : List Char) :
    offset (before ++ rest) (after before) = before.length := by
  obtain ⟨last, hlast, rfl | ⟨front, rfl⟩⟩ := exists_lastLine before
  · rw [offset, after_line hlast, List.take_zero, List.map_nil, List.sum_nil, Nat.zero_add]
  · obtain ⟨hcount, hsum⟩ := sum_lines front
    have hlines : lines (front ++ '\n' :: last ++ rest) = lines front ++ lines (last ++ rest) := by
      rw [List.append_assoc, List.cons_append]
      exact Path.splitAt_append '\n' front (last ++ rest)
    simp only [offset, after_append_line front hlast, hlines, ← hcount, List.take_left, hsum,
      List.length_append, List.length_cons]
    omega

end Position

theorem extract_middle (before raw rest : List Char) :
    (before ++ (raw ++ rest)).extract before.length (before ++ raw).length = raw := by
  rw [List.extract_eq_take_drop, List.drop_left, List.length_append, Nat.add_sub_cancel_left,
    List.take_left]

def Range.slice (text : List Char) (r : Range) : List Char :=
  text.extract (r.start.offset text) (r.stop.offset text)

theorem Range.slice_after (before raw rest : List Char) :
    Range.slice (before ++ (raw ++ rest)) ⟨.after before, .after (before ++ raw)⟩ = raw := by
  rw [slice, Position.offset_after, ← List.append_assoc, Position.offset_after, List.append_assoc,
    extract_middle]

end MissionIndex
