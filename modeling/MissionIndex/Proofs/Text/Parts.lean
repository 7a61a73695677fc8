import MissionIndex.Proofs.Text.Offsets
import MissionIndex.Proofs.Text.Trimming
import MissionIndex.Text.Parts

/-!
# The first part of a text

Taking a text apart may give no part at all. But a text that does not start with a blank has a first
word (`exists_words_eq`), each text has a first paragraph (`exists_paragraphs_eq`), and a text has
two halves wherever the pattern occurs (`exists_halves_eq`).
-/

namespace MissionIndex.Text

variable {pat word line cs : List Char} {rest : List (List Char)} {c : Char}

/-! ## Halves -/

theorem occursIn_eq_isSome (pat cs : List Char) : occursIn pat cs = (cut? pat cs).isSome := by
  induction cs with
  | nil =>
    rw [occursIn, cut?]
    split
    · next hpat => exact hpat
    · next hpat => exact Bool.eq_false_iff.mpr hpat
  | cons c cs ih =>
    rw [occursIn, cut?, ih]
    split
    · next hstart => rw [hstart, Bool.true_or, Option.isSome_some]
    · next hstart => rw [Bool.eq_false_iff.mpr hstart, Bool.false_or, Option.isSome_map]

theorem exists_halves_eq (h : occursIn pat cs = true) :
    ∃ before after, cut? pat cs = some (before, after) ∧ halves pat cs = [before, after] := by
  rw [occursIn_eq_isSome] at h
  obtain ⟨⟨before, after⟩, hcut⟩ := Option.isSome_iff_exists.mp h
  exact ⟨before, after, hcut, by rw [halves, hcut]⟩

/-! ## Words -/

theorem exists_wordsFrom_eq (hword : word ≠ []) (cs : List Char) :
    ∃ more, wordsFrom word cs = (word ++ cs.takeWhile fun c ↦ !isBlank c) :: more := by
  induction cs generalizing word with
  | nil => exact ⟨[], by rw [wordsFrom, oneWord, if_neg hword, List.takeWhile_nil, List.append_nil]⟩
  | cons c cs ih =>
    rw [wordsFrom]
    cases hc : isBlank c with
    | true =>
      refine ⟨wordsFrom [] cs, ?_⟩
      rw [if_pos rfl, oneWord, if_neg hword, List.takeWhile_cons_of_neg (by rw [hc]; decide),
        List.append_nil, List.singleton_append]
    | false =>
      have hlonger : word ++ [c] ≠ [] := List.append_ne_nil_of_right_ne_nil _ (List.cons_ne_nil _ _)
      obtain ⟨more, hmore⟩ := ih hlonger
      refine ⟨more, ?_⟩
      rw [if_neg Bool.false_ne_true, hmore, List.takeWhile_cons_of_pos (by rw [hc]; rfl),
        List.append_assoc, List.singleton_append]

theorem exists_words_eq (hne : cs ≠ []) (h : ∀ c ∈ cs.head?, isBlank c = false) :
    ∃ more, words cs = (cs.takeWhile fun c ↦ !isBlank c) :: more := by
  obtain ⟨c, rest, rfl⟩ := List.exists_cons_of_ne_nil hne
  have hc : isBlank c = false := h c rfl
  obtain ⟨more, hmore⟩ := exists_wordsFrom_eq (List.cons_ne_nil c []) rest
  refine ⟨more, ?_⟩
  rw [words, wordsFrom, if_neg (Bool.eq_false_iff.mp hc), List.nil_append, hmore,
    List.takeWhile_cons_of_pos (by rw [hc]; rfl), List.singleton_append]

/-! ## Paragraphs -/

theorem lines_feed (cs : List Char) : lines ('\n' :: cs) = [] :: lines cs :=
  by rw [lines, splitAt, if_pos rfl, lines]

/-- There is a line feed among the blanks at the front just if the first line is blank and not the
last one. -/
theorem lastFeed_pos_iff (h : lines cs = line :: rest) :
    0 < lastFeed cs ↔ trim line = [] ∧ rest ≠ [] := by
  induction cs generalizing line rest with
  | nil =>
    obtain ⟨-, rfl⟩ := List.cons.inj h
    exact iff_of_false (Nat.lt_irrefl 0) fun hrest ↦ hrest.2 rfl
  | cons c cs ih =>
    by_cases hfeed : c = '\n'
    · subst hfeed
      rw [lines_feed] at h
      obtain ⟨rfl, rfl⟩ := List.cons.inj h
      refine iff_of_true ?_ ⟨rfl, Path.splitAt_ne_nil '\n' cs⟩
      rw [lastFeed, if_pos (by decide)]
      split
      · exact Nat.succ_pos _
      · exact Nat.one_pos
    · obtain ⟨next, more, hnext, hcons⟩ := Position.lines_cons_of_ne hfeed cs
      obtain ⟨rfl, rfl⟩ := List.cons.inj (hcons.symm.trans h)
      rw [lastFeed, trim_eq_nil_iff, List.forall_mem_cons, ← trim_eq_nil_iff, and_assoc, ← ih hnext]
      cases hc : isBlank c with
      | true => by_cases hpos : 0 < lastFeed cs <;> simp [hpos, hfeed]
      | false => simp

/-- The first paragraph has the first line, and of the others those up to the first blank one. -/
theorem exists_paragraphs_eq (h : lines cs = line :: rest) :
    ∃ part parts more, paragraphs cs = part :: parts ∧ lines part = line :: more ∧
      (more.map trim).filter (· != []) = (rest.map trim).takeWhile (· != []) := by
  induction cs generalizing line rest with
  | nil =>
    obtain ⟨rfl, rfl⟩ := List.cons.inj h
    exact ⟨[], [], [], by rw [paragraphs], rfl, rfl⟩
  | cons c cs ih =>
    rw [paragraphs]
    by_cases hfeed : c = '\n'
    · subst hfeed
      rw [lines_feed] at h
      obtain ⟨rfl, rfl⟩ := List.cons.inj h
      obtain ⟨next, later, hnext⟩ := List.exists_cons_of_ne_nil (Path.splitAt_ne_nil '\n' cs)
      have hlines : lines cs = next :: later := hnext
      rw [hlines]
      by_cases hblank : 0 < lastFeed cs
      · -- A blank line comes next, so the paragraph ends here.
        refine ⟨[], _, [], if_pos ⟨rfl, hblank⟩, rfl, ?_⟩
        rw [List.map_cons, ((lastFeed_pos_iff hlines).mp hblank).1]
        rfl
      · obtain ⟨part, parts, more, hparts, hpart, hmore⟩ := ih hlines
        rw [if_neg fun hend ↦ hblank hend.2, hparts]
        refine ⟨_, _, next :: more, rfl, by rw [lines_feed, hpart], ?_⟩
        by_cases htrim : trim next = []
        · -- The next line is blank but the last one, so nothing of it is kept either way.
          have hlater : later = [] := by
            by_contra hne
            exact hblank ((lastFeed_pos_iff hlines).mpr ⟨htrim, hne⟩)
          rw [hlater] at hmore ⊢
          simpa [htrim] using hmore
        · simpa [htrim] using hmore
    · obtain ⟨first, later, hfirst, hcons⟩ := Position.lines_cons_of_ne hfeed cs
      obtain ⟨rfl, rfl⟩ := List.cons.inj (hcons.symm.trans h)
      obtain ⟨part, parts, more, hparts, hpart, hmore⟩ := ih hfirst
      obtain ⟨front, behind, hfront, hpartcons⟩ := Position.lines_cons_of_ne hfeed part
      obtain ⟨rfl, rfl⟩ := List.cons.inj (hpart.symm.trans hfront)
      rw [if_neg fun hend ↦ hfeed hend.1, hparts]
      exact ⟨_, _, more, rfl, hpartcons, hmore⟩

end MissionIndex.Text
