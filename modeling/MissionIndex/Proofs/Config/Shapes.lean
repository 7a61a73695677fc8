import Mathlib.Data.List.Chain
import MissionIndex.Proofs.Config.Splicing

/-!
# The shapes of lexemes

Cutting a lexeme off is said here once and for all, without the order in which the cases are tried:
`Shape` says of a lexeme what it is made of and what may come after it, and a text is cut into a
lexeme and a rest just where the lexeme has its shape in front of the rest (`cutLexeme_eq_iff`).
What the shapes say of the characters comes below: a word holds nothing that has a meaning of its
own (`IsWord`), and a block comment ends where it first can.
-/

namespace MissionIndex.Config

open Text

/-- A lexeme is made of what it should be made of, in front of `rest`. -/
inductive Lexeme.Shape (fresh : Bool) (rest : List Char) : Lexeme → Prop
  | blank {c : Char} : isBlank c = true → Shape fresh rest (.blank c)
  | lineComment {body : List Char} : '\n' ∉ body → AtLineEnd rest →
      Shape fresh rest (.comment ('/' :: '/' :: body))
  | blockComment {body : List Char} : spanComment (body ++ rest) = some (body, rest) →
      Shape fresh rest (.comment ('/' :: '*' :: body))
  | directive {body line : List Char} : fresh = true →
      spanDirective (body ++ rest) = (body, line, rest) →
      Shape fresh rest (.directive ('#' :: body) ('#' :: line))
  | quoted {q : Char} {body value : List Char} : isQuote q = true →
      spanQuoted q (body ++ rest) = some (body, value, rest) →
      Shape fresh rest (.quoted (q :: body) value)
  | mark {m : Mark} : Shape fresh rest (.mark m)
  | word {w : List Char} : w ≠ [] → spanWord (w ++ rest) = (w, rest) →
      (w.head? = some '#' → fresh = false) →
      Shape fresh rest (.word w)
  | openComment {body : List Char} : spanComment body = none → rest = [] →
      Shape fresh rest (.openComment ('/' :: '*' :: body))
  | openQuote {q : Char} {body : List Char} : isQuote q = true →
      spanQuoted q body = none → rest = [] →
      Shape fresh rest (.openQuote (q :: body))

/-! ## Cutting and shapes -/

theorem isQuote_iff {c : Char} : isQuote c = true ↔ c = '"' ∨ c = '\'' := by
  simp [isQuote]

theorem head_beq_iff {cs : List Char} {d : Char} :
    (cs.head? == some d) = true ↔ ∃ more, cs = d :: more := by
  rw [beq_iff_eq, List.head?_eq_some_iff]

theorem spanLine_eq_iff {cs body rest : List Char} :
    spanLine cs = (body, rest) ↔ body ++ rest = cs ∧ '\n' ∉ body ∧ AtLineEnd rest := by
  constructor
  · intro h
    have hend := atLineEnd_spanLine cs
    rw [h] at hend
    obtain ⟨rfl, rfl⟩ := Prod.mk.inj h
    refine ⟨List.takeWhile_append_dropWhile, fun hmem ↦ ?_, hend⟩
    have hne := List.mem_takeWhile_imp hmem
    exact absurd hne (by decide)
  · rintro ⟨rfl, hbody, hrest⟩
    induction body with
    | nil => exact spanLine_of_atLineEnd hrest
    | cons c body ih =>
      rw [List.mem_cons, not_or] at hbody
      rw [List.cons_append, spanLine_of_ne (Ne.symm hbody.1), ih hbody.2]

theorem spanWord_cons_of_not_endsWord {c : Char} {cs : List Char} (h : endsWord (c :: cs) = false) :
    spanWord (c :: cs) = (c :: (spanWord cs).1, (spanWord cs).2) := by
  rw [spanWord, if_neg (Bool.eq_false_iff.mp h)]

theorem shape_of_cutLexeme {fresh : Bool} {c : Char} {cs rest : List Char} {lexeme : Lexeme}
    (h : cutLexeme fresh c cs = (lexeme, rest)) : lexeme.Shape fresh rest := by
  rw [cutLexeme] at h
  by_cases hblank : isBlank c = true
  · rw [if_pos hblank] at h
    obtain ⟨rfl, rfl⟩ := Prod.mk.inj h
    exact .blank hblank
  rw [if_neg hblank] at h
  by_cases hline : (decide (c = '/') && cs.head? == some '/') = true
  · rw [if_pos hline] at h
    obtain ⟨hc, hcs⟩ := Bool.and_eq_true_iff.mp hline
    obtain rfl := of_decide_eq_true hc
    obtain ⟨more, rfl⟩ := head_beq_iff.mp hcs
    cases hspan : spanLine more with | mk body after =>
    obtain ⟨-, hbody, hafter⟩ := spanLine_eq_iff.mp hspan
    rw [spanLine_of_ne (by decide), hspan] at h
    obtain ⟨rfl, rfl⟩ := Prod.mk.inj h
    exact .lineComment hbody hafter
  rw [if_neg hline] at h
  by_cases hcomment : (decide (c = '/') && cs.head? == some '*') = true
  · rw [if_pos hcomment] at h
    obtain ⟨hc, hcs⟩ := Bool.and_eq_true_iff.mp hcomment
    obtain rfl := of_decide_eq_true hc
    obtain ⟨more, rfl⟩ := head_beq_iff.mp hcs
    rw [List.tail_cons] at h
    cases hspan : spanComment more with
    | none =>
      rw [hspan] at h
      obtain ⟨rfl, rfl⟩ := Prod.mk.inj h
      exact .openComment hspan rfl
    | some span =>
      rw [hspan] at h
      obtain ⟨rfl, rfl⟩ := Prod.mk.inj h
      exact .blockComment (by rwa [spanComment_append hspan])
  rw [if_neg hcomment] at h
  by_cases hdirective : (decide (c = '#') && fresh) = true
  · rw [if_pos hdirective] at h
    obtain ⟨hc, hfresh⟩ := Bool.and_eq_true_iff.mp hdirective
    obtain rfl := of_decide_eq_true hc
    have happend := spanDirective_append cs
    obtain ⟨rfl, rfl⟩ := Prod.mk.inj h
    exact .directive hfresh (by rw [happend])
  rw [if_neg hdirective] at h
  by_cases hquote : isQuote c = true
  · rw [if_pos hquote] at h
    cases hspan : spanQuoted c cs with
    | none =>
      rw [hspan] at h
      obtain ⟨rfl, rfl⟩ := Prod.mk.inj h
      exact .openQuote hquote hspan rfl
    | some span =>
      rw [hspan] at h
      obtain ⟨rfl, rfl⟩ := Prod.mk.inj h
      exact .quoted hquote (by rwa [spanQuoted_append hspan])
  rw [if_neg hquote] at h
  by_cases hplus : (decide (c = '+') && cs.head? == some '=') = true
  · rw [if_pos hplus] at h
    obtain ⟨rfl, rfl⟩ := Prod.mk.inj h
    exact .mark
  rw [if_neg hplus] at h
  cases hmark : Mark.ofChar? c with
  | some m =>
    rw [hmark] at h
    obtain ⟨rfl, rfl⟩ := Prod.mk.inj h
    exact .mark
  | none =>
    rw [hmark] at h
    have hend : endsWord (c :: cs) = false := by
      simp only [Bool.not_eq_true] at hblank hline hcomment hquote hplus
      simp [endsWord, isMark, hblank, hquote, hmark, Bool.and_or_distrib_left, hline,
        hcomment, hplus]
    have hspan := spanWord_cons_of_not_endsWord hend
    have happend := spanWord_append (c :: cs)
    obtain ⟨rfl, rfl⟩ := Prod.mk.inj h
    rw [hspan] at happend
    refine .word (List.cons_ne_nil _ _) (by rw [happend, hspan]) fun hc ↦ ?_
    rw [List.head?_cons, Option.some.injEq] at hc
    rw [Bool.eq_false_iff]
    exact fun hfresh ↦ hdirective (by simp [hc, hfresh])

theorem endsWord_of_spanWord {c : Char} {w rest : List Char}
    (h : spanWord (c :: (w ++ rest)) = (c :: w, rest)) :
    endsWord (c :: (w ++ rest)) = false ∧ spanWord (w ++ rest) = (w, rest) := by
  cases hend : endsWord (c :: (w ++ rest)) with
  | true =>
    rw [spanWord, if_pos hend] at h
    cases (Prod.mk.inj h).1
  | false =>
    rw [spanWord_cons_of_not_endsWord hend] at h
    obtain ⟨hw, hrest⟩ := Prod.mk.inj h
    exact ⟨rfl, Prod.ext (List.cons.inj hw).2 hrest⟩

theorem cutLexeme_comment (fresh : Bool) (cs : List Char) :
    cutLexeme fresh '/' ('*' :: cs) = match spanComment cs with
      | some (raw, rest) => (.comment ('/' :: '*' :: raw), rest)
      | none => (.openComment ('/' :: '*' :: cs), []) := rfl

theorem cutLexeme_quote {q : Char} (hq : isQuote q = true) (fresh : Bool) (cs : List Char) :
    cutLexeme fresh q cs = match spanQuoted q cs with
      | some (raw, value, rest) => (.quoted (q :: raw) value, rest)
      | none => (.openQuote (q :: cs), []) := by
  rcases isQuote_iff.mp hq with rfl | rfl <;> rfl

theorem cutLexeme_of_shape {fresh : Bool} {c : Char} {cs rest : List Char} {lexeme : Lexeme}
    (h : lexeme.Shape fresh rest) (hraw : c :: cs = lexeme.raw ++ rest) :
    cutLexeme fresh c cs = (lexeme, rest) := by
  cases h with
  | blank hblank =>
    obtain ⟨rfl, rfl⟩ := List.cons.inj hraw
    rw [cutLexeme, if_pos hblank]
  | @lineComment body hbody hrest =>
    obtain ⟨rfl, rfl⟩ := List.cons.inj hraw
    have hspan : spanLine ('/' :: (body ++ rest)) = ('/' :: body, rest) := by
      rw [spanLine_of_ne (by decide), spanLine_eq_iff.mpr ⟨rfl, hbody, hrest⟩]
    exact congrArg (fun p : List Char × List Char ↦ (Lexeme.comment ('/' :: p.1), p.2)) hspan
  | @blockComment body hspan =>
    obtain ⟨rfl, rfl⟩ := List.cons.inj hraw
    exact (cutLexeme_comment fresh (body ++ rest)).trans (by rw [hspan])
  | @directive body line hfresh hspan =>
    obtain ⟨rfl, rfl⟩ := List.cons.inj hraw
    subst hfresh
    exact congrArg (fun p : List Char × List Char × List Char ↦
      (Lexeme.directive ('#' :: p.1) ('#' :: p.2.1), p.2.2)) hspan
  | @quoted q body value hq hspan =>
    obtain ⟨rfl, rfl⟩ := List.cons.inj hraw
    exact (cutLexeme_quote hq fresh (body ++ rest)).trans (by rw [hspan])
  | @mark m =>
    cases m <;>
      (obtain ⟨rfl, rfl⟩ := List.cons.inj hraw
       rfl)
  | @word w hne hspan hfresh =>
    obtain ⟨d, w, rfl⟩ := List.exists_cons_of_ne_nil hne
    obtain ⟨rfl, hcs⟩ := List.cons.inj hraw
    obtain rfl : cs = w ++ rest := hcs
    obtain ⟨hend, hw⟩ := endsWord_of_spanWord hspan
    simp only [endsWord, isMark, Bool.or_eq_false_iff, Bool.and_or_distrib_left] at hend
    obtain ⟨⟨⟨⟨hblank, hmark⟩, hquote⟩, hline, hcomment⟩, hplus⟩ := hend
    have hdirective : (decide (c = '#') && fresh) = false := by
      by_cases hc : c = '#'
      · rw [hfresh (congrArg some hc), Bool.and_false]
      · rw [decide_eq_false hc, Bool.false_and]
    rw [Option.isSome_eq_false_iff, Option.isNone_iff_eq_none] at hmark
    rw [cutLexeme, hblank, hline, hcomment, hdirective, hquote, hplus, hmark, hw]
    rfl
  | @openComment body hspan hrest =>
    subst hrest
    rw [List.append_nil] at hraw
    obtain ⟨rfl, rfl⟩ := List.cons.inj hraw
    exact (cutLexeme_comment fresh body).trans (by rw [hspan])
  | @openQuote q body hq hspan hrest =>
    subst hrest
    rw [List.append_nil] at hraw
    obtain ⟨rfl, rfl⟩ := List.cons.inj hraw
    exact (cutLexeme_quote hq fresh cs).trans (by rw [hspan])

/-- **A text is cut into a lexeme and a rest just where the lexeme has its shape in front of the
rest.** -/
theorem cutLexeme_eq_iff {fresh : Bool} {c : Char} {cs rest : List Char} {lexeme : Lexeme} :
    cutLexeme fresh c cs = (lexeme, rest) ↔ lexeme.Shape fresh rest ∧
    c :: cs = lexeme.raw ++ rest := by
  constructor
  · intro h
    have happend := cutLexeme_append fresh c cs
    rw [h] at happend
    exact ⟨shape_of_cutLexeme h, happend.symm⟩
  · rintro ⟨hshape, hraw⟩
    exact cutLexeme_of_shape hshape hraw

theorem Lexeme.Shape.raw_ne_nil {fresh : Bool} {rest : List Char} {lexeme : Lexeme}
    (h : lexeme.Shape fresh rest) :
    lexeme.raw ≠ [] := by
  cases h with
  | @mark m => exact List.ne_nil_of_length_pos m.raw_length_pos
  | word hne => exact hne
  | _ => simp [Lexeme.raw]

theorem lexemesFrom_append {fresh : Bool} {lexeme : Lexeme} {rest : List Char}
    (h : lexeme.Shape fresh rest) :
    lexemesFrom fresh (lexeme.raw ++ rest) = lexeme ::
      lexemesFrom (lexeme.staysFresh fresh) rest := by
  obtain ⟨c, raw, hraw⟩ := List.exists_cons_of_ne_nil h.raw_ne_nil
  have hcut : cutLexeme fresh c (raw ++ rest) = (lexeme, rest) :=
    cutLexeme_eq_iff.mpr ⟨h, congrArg (· ++ rest) hraw.symm⟩
  rw [hraw, List.cons_append, lexemesFrom, hcut]

/-! ## Words -/

/-- Two characters that open a comment, or are `+=`. -/
def IsPair (a b : Char) : Prop := a = '/' ∧ (b = '/' ∨ b = '*') ∨ a = '+' ∧ b = '='

/-- A text that can be written as a word: it is not empty, and nothing in it has a meaning of its
own. -/
structure IsWord (w : List Char) : Prop where
  ne_nil : w ≠ []
  chars : ∀ c ∈ w, isBlank c = false ∧ isMark c = false ∧ isQuote c = false
  pairs : w.IsChain fun a b ↦ ¬ IsPair a b

instance : DecidableRel IsPair := fun a b ↦
  inferInstanceAs (Decidable (a = '/' ∧ (b = '/' ∨ b = '*') ∨ a = '+' ∧ b = '='))

instance (w : List Char) : Decidable (IsWord w) :=
  -- Only the characters of the word are gone through, and not all that there are.
  letI := List.decidableBAll (fun c ↦ isBlank c = false ∧ isMark c = false ∧ isQuote c = false) w
  decidable_of_iff (w ≠ [] ∧ (∀ c ∈ w, isBlank c = false ∧ isMark c = false ∧ isQuote c = false) ∧
      w.IsChain fun a b ↦ ¬ IsPair a b)
    ⟨fun ⟨hne, hchars, hpairs⟩ ↦ ⟨hne, hchars, hpairs⟩, fun ⟨hne, hchars, hpairs⟩ ↦
      ⟨hne, hchars, hpairs⟩⟩

theorem endsWord_cons_eq_false_iff {c : Char} {cs : List Char} :
    endsWord (c :: cs) = false ↔
      (isBlank c = false ∧ isMark c = false ∧ isQuote c = false) ∧
      ∀ d ∈ cs.head?, ¬ IsPair c d := by
  cases cs with
  | nil => simp [endsWord, and_assoc]
  | cons d cs =>
    simp only [endsWord, IsPair, List.head?_cons, Option.mem_some_iff, forall_eq',
      Bool.or_eq_false_iff]
    simp only [Bool.and_eq_false_iff, Bool.or_eq_false_iff, decide_eq_false_iff_not,
      beq_eq_false_iff_ne, ne_eq, Option.some.injEq]
    tauto

theorem isWord_of_spanWord {w rest : List Char} (hne : w ≠ [])
    (h : spanWord (w ++ rest) = (w, rest)) :
    IsWord w := by
  suffices hw : (∀ c ∈ w, isBlank c = false ∧ isMark c = false ∧ isQuote c = false) ∧
      w.IsChain fun a b ↦ ¬ IsPair a b from ⟨hne, hw.1, hw.2⟩
  clear hne
  induction w with
  | nil => exact ⟨nofun, .nil⟩
  | cons c w ih =>
    obtain ⟨hend, hw⟩ := endsWord_of_spanWord h
    obtain ⟨hc, hpair⟩ := endsWord_cons_eq_false_iff.mp hend
    obtain ⟨hchars, hchain⟩ := ih hw
    refine ⟨List.forall_mem_cons.mpr ⟨hc, hchars⟩,
      List.isChain_cons.mpr ⟨fun d hd ↦ hpair d ?_, hchain⟩⟩
    rw [Option.mem_def] at hd ⊢
    rw [List.head?_append, hd, Option.some_or]

/-- A word is taken for one, if it cannot go on and does not make a pair with what comes next. -/
theorem spanWord_of_isWord {w rest : List Char} (hw : IsWord w) (hend : endsWord rest = true)
    (hpair : ∀ d ∈ rest.head?, ∀ a, ¬ IsPair a d) : spanWord (w ++ rest) = (w, rest) := by
  obtain ⟨-, hchars, hchain⟩ := hw
  induction w with
  | nil => exact spanWord_of_endsWord hend
  | cons c w ih =>
    obtain ⟨hc, hchars⟩ := List.forall_mem_cons.mp hchars
    obtain ⟨hnext, hchain⟩ := List.isChain_cons.mp hchain
    have hgoes : endsWord (c :: (w ++ rest)) = false := by
      refine endsWord_cons_eq_false_iff.mpr ⟨hc, fun d hd ↦ ?_⟩
      cases w with
      | nil => exact hpair d hd c
      | cons e w => exact hnext d hd
    rw [List.cons_append, spanWord_cons_of_not_endsWord hgoes, ih hchars hchain]

/-! ## Comments -/

/-- A block comment ends at the first sign that can end it. -/
theorem exists_inner_of_spanComment {cs body rest : List Char}
    (h : spanComment cs = some (body, rest)) :
    ∃ inner, body = inner ++ ['*', '/'] ∧ ¬ ['*', '/'] <:+: inner ++ ['*'] := by
  fun_induction spanComment cs generalizing body with
  | case1 => cases h
  | case2 =>
    cases h
    exact ⟨[], rfl, by decide⟩
  | case3 c cs hc ih =>
    obtain ⟨⟨body, rest⟩, hspan, heq⟩ := Option.map_eq_some_iff.mp h
    cases heq
    obtain ⟨inner, rfl, hinner⟩ := ih hspan
    refine ⟨c :: inner, rfl, fun hinfix ↦ ?_⟩
    rw [List.cons_append, List.infix_cons_iff] at hinfix
    rcases hinfix with hprefix | hinfix
    · -- The comment would have ended here.
      obtain ⟨rfl, hslash⟩ := List.cons_prefix_cons.mp hprefix
      cases inner with
      | nil => exact absurd hslash (by decide)
      | cons d inner =>
        obtain ⟨rfl, -⟩ := List.cons_prefix_cons.mp hslash
        exact hc _ rfl (spanComment_append hspan).symm
    · exact hinner hinfix

end MissionIndex.Config
