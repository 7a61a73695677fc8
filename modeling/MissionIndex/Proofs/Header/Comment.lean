import Mathlib.Logic.IsEmpty.Basic
import Mathlib.Tactic.MkIffOfInductiveProp
import Mathlib.Tactic.SplitIfs
import MissionIndex.Header.Comment
import MissionIndex.Proofs.Text.Cutting

/-!
# Where the header of a script stands

A script has a header just if its text falls into a *preamble*, a block comment and a rest. Such a
division is a value here (`Headed`), and a text has one at most. What is found is the inside of the
comment (`comment_found_iff`).

A preamble is a row of pieces, and the next character or the two next ones say which piece it is: so
two preambles of one text are equal as far as the shorter one goes, and the longer one would have to
go on with `/*`, which begins no piece.
-/

namespace MissionIndex.Header

open Text

variable {c : Char} {cs text front rest line content inside : List Char}

/-! ## Preambles -/

/-- A whole line that may stand in front of a header, with the line feed that ends it. -/
def IsRemark (line : List Char) : Prop :=
  ∃ content, line = content ++ ['\n'] ∧ '\n' ∉ content ∧
  (['/', '/'] <+: content ∨ ['#'] <+: content)

/-- What may stand in front of a header: blanks and whole lines, in any order. -/
@[mk_iff] inductive IsPreamble : List Char → Prop
  | nil : IsPreamble []
  | blank {c : Char} {rest : List Char} : isBlank c = true → IsPreamble rest →
      IsPreamble (c :: rest)
  | remark {line rest : List Char} : IsRemark line → IsPreamble rest → IsPreamble (line ++ rest)

theorem IsRemark.exists_cons (h : IsRemark line) :
    ∃ c more, line = c :: more ∧ (c = '#' ∨ c = '/' ∧ more.head? = some '/') := by
  obtain ⟨content, rfl, -, ⟨more, rfl⟩ | ⟨more, rfl⟩⟩ := h
  · exact ⟨'/', '/' :: more ++ ['\n'], rfl, .inr ⟨rfl, rfl⟩⟩
  · exact ⟨'#', more ++ ['\n'], rfl, .inl rfl⟩

theorem IsRemark.unique {line' rest' : List Char} (h : IsRemark line) (h' : IsRemark line')
    (htext : line ++ rest = line' ++ rest') : line = line' ∧ rest = rest' := by
  obtain ⟨content, rfl, hfeed, -⟩ := h
  obtain ⟨content', rfl, hfeed', -⟩ := h'
  simp only [List.append_assoc, List.singleton_append] at htext
  have hcut : cut? ['\n'] (content ++ '\n' :: rest) = some (content, rest) :=
    cut?_singleton_eq_some_iff.mpr ⟨rfl, hfeed⟩
  rw [htext, cut?_singleton_eq_some_iff.mpr ⟨rfl, hfeed'⟩] at hcut
  obtain ⟨rfl, rfl⟩ := Prod.mk.inj (Option.some.inj hcut)
  exact ⟨rfl, rfl⟩

theorem isPreamble_cons_iff (hc : isBlank c = true) : IsPreamble (c :: cs) ↔ IsPreamble cs := by
  refine ⟨fun h ↦ ?_, .blank hc⟩
  rcases (isPreamble_iff _).mp h with hnil | ⟨d, rest, -, hrest, htext⟩ | ⟨line, rest,
    hline, -, htext⟩
  · cases hnil
  · exact (List.cons.inj htext).2 ▸ hrest
  · obtain ⟨d, more, rfl, hd⟩ := hline.exists_cons
    obtain ⟨rfl, -⟩ := List.cons.inj htext
    rcases hd with rfl | ⟨rfl, -⟩ <;> exact absurd hc (by decide)

theorem isPreamble_append_remark_iff (hline : IsRemark line) :
    IsPreamble (line ++ cs) ↔ IsPreamble cs := by
  refine ⟨fun h ↦ ?_, .remark hline⟩
  obtain ⟨d, more, hcons, hd⟩ := hline.exists_cons
  rcases (isPreamble_iff _).mp h with hnil | ⟨e, rest, he, -, htext⟩ | ⟨line', rest, hline',
    hrest, htext⟩
  · rw [hcons] at hnil
    cases hnil
  · rw [hcons] at htext
    obtain ⟨rfl, -⟩ := List.cons.inj htext
    rcases hd with rfl | ⟨rfl, -⟩ <;> exact absurd he (by decide)
  · exact (hline.unique hline' htext).2 ▸ hrest

theorem IsPreamble.append_iff (h : IsPreamble front) :
    IsPreamble (front ++ rest) ↔ IsPreamble rest := by
  induction h with
  | nil => rfl
  | blank hc _ ih => exact (isPreamble_cons_iff hc).trans ih
  | remark hline _ ih =>
    rw [List.append_assoc]
    exact (isPreamble_append_remark_iff hline).trans ih

theorem IsPreamble.eq_nil (h : IsPreamble front) (htext : front ++ rest = '/' :: '*' :: cs) :
    front = [] := by
  cases h with
  | nil => rfl
  | blank hc _ =>
    obtain ⟨rfl, -⟩ := List.cons.inj htext
    exact absurd hc (by decide)
  | remark hline _ =>
    obtain ⟨d, more, rfl, rfl | ⟨rfl, hmore⟩⟩ := hline.exists_cons
    · exact absurd (List.cons.inj htext).1 (by decide)
    · obtain ⟨more, rfl⟩ := List.head?_eq_some_iff.mp hmore
      exact absurd (List.cons.inj (List.cons.inj htext).2).1 (by decide)

theorem IsPreamble.unique {front' cs' : List Char} (h : IsPreamble front) (h' : IsPreamble front')
    (htext : front ++ '/' :: '*' :: cs = front' ++ '/' :: '*' :: cs') : front = front' := by
  rcases List.append_eq_append_iff.mp htext with ⟨more, rfl, hmore⟩ | ⟨more, rfl, hmore⟩
  · rw [(h.append_iff.mp h').eq_nil hmore.symm, List.append_nil]
  · rw [(h'.append_iff.mp h).eq_nil hmore.symm, List.append_nil]

/-! ## Texts with a header -/

/-- A division of a text into a preamble, a block comment and a rest. The comment ends at the first
`*/` behind its start. -/
@[ext] structure Headed (text : List Char) where
  front : List Char
  inside : List Char
  behind : List Char
  text_eq : text = front ++ '/' :: '*' :: (inside ++ (commentEnd ++ behind))
  isPreamble : IsPreamble front
  endsFirst : OccursFirst commentEnd inside

namespace Headed

instance (text : List Char) : Subsingleton (Headed text) where
  allEq h h' := by
    have htext := h.text_eq.symm.trans h'.text_eq
    have hfront := h.isPreamble.unique h'.isPreamble htext
    have hcut : cut? commentEnd (h.inside ++ (commentEnd ++ h.behind))
        = some (h.inside, h.behind) :=
      cut?_eq_some_iff.mpr ⟨rfl, h.endsFirst⟩
    rw [hfront] at htext
    rw [(List.cons.inj (List.cons.inj (List.append_cancel_left htext)).2).2,
      cut?_eq_some_iff.mpr ⟨rfl, h'.endsFirst⟩] at hcut
    obtain ⟨hinside, hbehind⟩ := Prod.mk.inj (Option.some.inj hcut)
    exact Headed.ext hfront hinside.symm hbehind.symm

/-- The same header with more in front of it. -/
def below (front : List Char) (hfront : IsPreamble front) (h : Headed text) :
    Headed (front ++ text) where
  front := front ++ h.front
  inside := h.inside
  behind := h.behind
  text_eq := by rw [List.append_assoc, ← h.text_eq]
  isPreamble := hfront.append_iff.mpr h.isPreamble
  endsFirst := h.endsFirst

end Headed

/-! ## Looking for a header -/

theorem startsRemark_iff : startsRemark cs = true ↔ ['/', '/'] <+: cs ∨ ['#'] <+: cs := by
  rw [startsRemark, Bool.or_eq_true, List.isPrefixOf_iff_prefix, List.isPrefixOf_iff_prefix]

theorem not_isBlank_of_startsRemark (h : startsRemark (c :: cs) = true) : isBlank c = false := by
  rcases startsRemark_iff.mp h with ⟨more, hmore⟩ | ⟨more, hmore⟩ <;>
    rw [← (List.cons.inj hmore).1] <;> decide

theorem commentFrom_line (c : Char) (cs : List Char) :
    commentFrom true (c :: cs) = commentFrom (c != '\n') cs := by
  rw [commentFrom, if_pos rfl]

theorem commentFrom_append_feed (h : '\n' ∉ content) (rest : List Char) :
    commentFrom true (content ++ '\n' :: rest) = commentFrom false rest := by
  induction content with
  | nil => exact commentFrom_line '\n' rest
  | cons c content ih =>
    obtain ⟨hc, hcontent⟩ := not_or.mp (List.mem_cons.not.mp h)
    rw [List.cons_append, commentFrom_line, bne_iff_ne.mpr (Ne.symm hc), ih hcontent]

theorem commentFrom_of_notMem (h : '\n' ∉ cs) : commentFrom true cs = none := by
  induction cs with
  | nil => rfl
  | cons c cs ih =>
    obtain ⟨hc, hcs⟩ := not_or.mp (List.mem_cons.not.mp h)
    rw [commentFrom_line, bne_iff_ne.mpr (Ne.symm hc), ih hcs]

theorem commentFrom_blank (hc : isBlank c = true) (cs : List Char) :
    commentFrom false (c :: cs) = commentFrom false cs := by
  rw [commentFrom, if_neg Bool.false_ne_true, if_pos hc]

theorem commentFrom_startsRemark (h : startsRemark (c :: cs) = true) :
    commentFrom false (c :: cs) = commentFrom true cs := by
  rw [commentFrom, if_neg Bool.false_ne_true,
    if_neg (Bool.eq_false_iff.mp (not_isBlank_of_startsRemark h)), if_pos h]

theorem commentFrom_start (cs : List Char) :
    commentFrom false ('/' :: '*' :: cs) = (cut? commentEnd cs).map Prod.fst := by
  rw [commentFrom, if_neg Bool.false_ne_true, if_neg (by decide), if_neg (by simp [startsRemark]),
    if_pos (by simp [commentStart])]
  rfl

theorem commentFrom_remark (hline : IsRemark line) (rest : List Char) :
    commentFrom false (line ++ rest) = commentFrom false rest := by
  obtain ⟨content, rfl, hfeed, hstart⟩ := hline
  cases content with
  | nil => rcases hstart with h | h <;> exact absurd (List.prefix_nil.mp h) (by simp)
  | cons c content =>
    have hremark : startsRemark (c :: (content ++ '\n' :: rest)) = true :=
      startsRemark_iff.mpr (hstart.imp (·.trans (List.prefix_append _ _))
        (·.trans (List.prefix_append _ _)))
    rw [List.append_assoc, List.cons_append, List.singleton_append,
      commentFrom_startsRemark hremark, commentFrom_append_feed fun hmem ↦
      hfeed (List.mem_cons_of_mem c hmem)]

theorem commentFrom_preamble (hfront : IsPreamble front) (rest : List Char) :
    commentFrom false (front ++ rest) = commentFrom false rest := by
  induction hfront with
  | nil => rfl
  | blank hc _ ih => rw [List.cons_append, commentFrom_blank hc, ih]
  | remark hline _ ih => rw [List.append_assoc, commentFrom_remark hline, ih]

theorem Headed.commentFrom_eq (h : Headed text) : commentFrom false text = some h.inside := by
  have hcut : cut? commentEnd (h.inside ++ (commentEnd ++ h.behind)) = some (h.inside, h.behind) :=
    cut?_eq_some_iff.mpr ⟨rfl, h.endsFirst⟩
  calc commentFrom false text
      = commentFrom false (h.front ++ '/' :: '*' :: (h.inside ++ (commentEnd ++ h.behind))) := by
        rw [← h.text_eq]
    _ = (cut? commentEnd (h.inside ++ (commentEnd ++ h.behind))).map Prod.fst := by
      rw [commentFrom_preamble h.isPreamble, commentFrom_start]
    _ = some h.inside := by rw [hcut, Option.map_some]

theorem exists_of_commentFrom_line (h : commentFrom true cs = some inside) :
    ∃ content rest, cs = content ++ '\n' :: rest ∧ '\n' ∉ content ∧
    commentFrom false rest = some inside := by
  by_cases hfeed : '\n' ∈ cs
  · obtain ⟨content, rest, rfl, hcontent⟩ := List.eq_append_cons_of_mem hfeed
    exact ⟨content, rest, rfl, hcontent, by rwa [commentFrom_append_feed hcontent] at h⟩
  · rw [commentFrom_of_notMem hfeed] at h
    cases h

/-- What is found is a header. -/
theorem exists_headed (h : commentFrom false text = some inside) :
    ∃ found : Headed text, found.inside = inside := by
  induction hlength : text.length using Nat.strongRecOn generalizing text with
  | _ n ih =>
    -- Behind a piece of the preamble, the text goes on as a shorter one.
    have hbelow : ∀ front rest, text = front ++ rest → front ≠ [] → IsPreamble front →
        commentFrom false rest = some inside → ∃ found : Headed text, found.inside = inside := by
      rintro front rest rfl hne hfront hrest
      have hpos := List.length_pos_iff.mpr hne
      rw [List.length_append] at hlength
      obtain ⟨found, hfound⟩ := ih rest.length (by omega) hrest rfl
      exact ⟨found.below front hfront, hfound⟩
    cases text with
    | nil => cases h
    | cons c cs =>
      rw [commentFrom, if_neg Bool.false_ne_true] at h
      split_ifs at h with hblank hremark hstart
      · exact hbelow [c] cs rfl (List.cons_ne_nil _ _) (.blank hblank .nil) h
      · obtain ⟨content, rest, rfl, hcontent, hrest⟩ := exists_of_commentFrom_line h
        have hline : IsRemark (c :: content ++ ['\n']) := by
          refine ⟨c :: content, rfl, ?_, ?_⟩
          · rw [List.mem_cons, not_or]
            exact ⟨fun he ↦ absurd (not_isBlank_of_startsRemark hremark) (by rw [← he]; decide),
              hcontent⟩
          · rw [startsRemark_iff, ← List.cons_append, prefix_append_cons_iff (by decide),
              prefix_append_cons_iff (by decide)] at hremark
            exact hremark
        have hone := IsPreamble.remark hline .nil
        rw [List.append_nil] at hone
        exact hbelow (c :: content ++ ['\n']) rest (by simp) (by simp) hone hrest
      · obtain ⟨rest, hrest⟩ := List.isPrefixOf_iff_prefix.mp hstart
        rw [← hrest, List.drop_left] at h
        obtain ⟨⟨inside', behind⟩, hcut, rfl⟩ := Option.map_eq_some_iff.mp h
        obtain ⟨rfl, hfirst⟩ := cut?_eq_some_iff.mp hcut
        exact ⟨⟨[], inside', behind, hrest.symm, .nil, hfirst⟩, rfl⟩

/-- **The header of a script is the one division of its text.** What is found is the inside of the
block comment, nothing is found just if the text cannot be divided, and there are no two ways to
divide it. -/
theorem comment_found_iff (script : List Char) :
    (∀ inside, comment? script = some inside ↔ ∃ h : Headed (dropMarks script), h.inside = inside) ∧
      (comment? script = none ↔ IsEmpty (Headed (dropMarks script))) ∧
      Subsingleton (Headed (dropMarks script)) := by
  have hfound : ∀ inside, comment? script = some inside ↔ ∃ h : Headed (dropMarks script), h.inside
      = inside := by
    intro inside
    refine ⟨exists_headed, ?_⟩
    rintro ⟨h, rfl⟩
    exact h.commentFrom_eq
  refine ⟨hfound, ?_, inferInstance⟩
  rw [Option.eq_none_iff_forall_ne_some]
  constructor
  · exact fun hnone ↦ ⟨fun h ↦ hnone h.inside ((hfound _).mpr ⟨h, rfl⟩)⟩
  · exact fun hempty inside hsome ↦ let ⟨h, _⟩ := (hfound inside).mp hsome; hempty.false h

/-- The start of a comment in a skipped line does not count, and neither does an asterisk of the
start for the end. -/
example : comment? "// a /* b\n#c\n/*/ d **/ e */".toList = some "/ d *".toList := by decide +kernel

end MissionIndex.Header
