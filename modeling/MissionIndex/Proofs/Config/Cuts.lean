import MissionIndex.Proofs.Config.Shapes

/-!
# Texts cut in two

A text that is cut into lexemes may be divided between two of them. The first part is then a row of
lexemes each of which has its shape in front of what comes next (`IsCut`), and another text may be
put behind it in the place of the second part. Little of this other text matters: the character it
starts with, and whether a word can end in front of it.
-/

namespace MissionIndex.Config

open Text

/-- The text of a row of lexemes. -/
def rawOf (ls : List Lexeme) : List Char := ls.flatMap Lexeme.raw

@[simp] theorem rawOf_nil : rawOf [] = [] := rfl

@[simp] theorem rawOf_cons (lexeme : Lexeme) (ls : List Lexeme) :
    rawOf (lexeme :: ls) = lexeme.raw ++ rawOf ls :=
  List.flatMap_cons

@[simp] theorem rawOf_append (ls ls' : List Lexeme) : rawOf (ls ++ ls') = rawOf ls ++ rawOf ls' :=
  List.flatMap_append

/-- Whether only blanks stand on the line behind a row of lexemes. -/
def freshAfter (fresh : Bool) (ls : List Lexeme) : Bool := ls.foldl Lexeme.staysFresh fresh

/-- A row of lexemes is cut off in front of `after`: each has its shape in front of what comes
next. -/
def IsCut (after : List Char) : Bool → List Lexeme → Prop
  | _, [] => True
  | fresh, lexeme :: ls => lexeme.Shape fresh (rawOf ls ++ after) ∧
      IsCut after (lexeme.staysFresh fresh) ls

namespace IsCut

variable {after after' : List Char} {fresh : Bool} {ls ls' : List Lexeme}

theorem append_iff : IsCut after fresh (ls ++ ls') ↔
    IsCut (rawOf ls' ++ after) fresh ls ∧ IsCut after (freshAfter fresh ls) ls' := by
  induction ls generalizing fresh with
  | nil => exact (and_iff_right trivial).symm
  | cons lexeme ls ih =>
    simp only [List.cons_append, IsCut, rawOf_append, List.append_assoc, ih, and_assoc]
    rfl

theorem lexemesFrom_eq (h : IsCut after fresh ls) :
    lexemesFrom fresh (rawOf ls ++ after) = ls ++ lexemesFrom (freshAfter fresh ls) after := by
  induction ls generalizing fresh with
  | nil => rfl
  | cons lexeme ls ih =>
    rw [rawOf_cons, List.append_assoc, lexemesFrom_append h.1, ih h.2]
    rfl

end IsCut

/-- What a text is cut into is cut off, wherever it is divided. -/
theorem isCut_of_lexemesFrom {fresh : Bool} {text : List Char} {ls ls' : List Lexeme}
    (h : lexemesFrom fresh text = ls ++ ls') :
    text = rawOf ls ++ rawOf ls' ∧ IsCut (rawOf ls') fresh ls ∧
      lexemesFrom (freshAfter fresh ls) (rawOf ls') = ls' := by
  induction ls generalizing fresh text with
  | nil =>
    have htext := flatMap_raw_lexemesFrom fresh text
    rw [h] at htext
    obtain rfl : rawOf ls' = text := htext
    exact ⟨rfl, trivial, h⟩
  | cons lexeme ls ih =>
    cases text with
    | nil =>
      rw [lexemesFrom] at h
      cases h
    | cons c cs =>
      cases hcut : cutLexeme fresh c cs with | mk first rest =>
      rw [lexemesFrom, hcut] at h
      obtain ⟨rfl, hrest⟩ := List.cons.inj h
      obtain ⟨hshape, hraw⟩ := cutLexeme_eq_iff.mp hcut
      obtain ⟨rfl, hcuts, hmore⟩ := ih hrest
      refine ⟨?_, ⟨hshape, hcuts⟩, hmore⟩
      rw [hraw, rawOf_cons, List.append_assoc]

/-! ## Another text behind -/

theorem Lexeme.Shape.endsWord_append {fresh : Bool} {rest : List Char} {lexeme : Lexeme}
    (h : lexeme.Shape fresh rest) (hend : endsWord (lexeme.raw ++ rest) = true)
    (rest' : List Char) :
    endsWord (lexeme.raw ++ rest') = true := by
  obtain ⟨c, raw, hraw⟩ := List.exists_cons_of_ne_nil h.raw_ne_nil
  rw [hraw, List.cons_append] at hend
  exact endsWord_cutLexeme (cutLexeme_eq_iff.mpr ⟨h, congrArg (· ++ rest) hraw.symm⟩) hend rest'

/-- A lexeme keeps its shape in front of another text that starts with the same character, and in
which a word can end if it could in the first one. -/
theorem Lexeme.Shape.congr {fresh : Bool} {rest rest' : List Char} {lexeme : Lexeme}
    (h : lexeme.Shape fresh rest) (hhead : rest'.head? = rest.head?) (hend : endsWord rest = true →
      endsWord rest' = true) :
    lexeme.Shape fresh rest' := by
  have hstart : SameStart rest rest' := .inl hhead
  have hnil : rest = [] → rest' = [] :=
    fun hrest ↦ List.head?_eq_none_iff.mp (by rw [hhead, hrest]; rfl)
  cases h with
  | blank hblank => exact .blank hblank
  | lineComment hbody hrest => exact .lineComment hbody (hstart.atLineEnd hrest)
  | blockComment hspan => exact .blockComment (spanComment_splice hspan rest')
  | @directive body line hfresh hspan =>
    refine .directive hfresh ?_
    have hrest := atLineEnd_spanDirective (body ++ rest)
    rw [hspan] at hrest
    cases rest with
    | nil =>
      rw [hnil rfl]
      exact hspan
    | cons d more =>
      obtain rfl : d = '\n' := hrest
      exact spanDirective_splice hspan rfl hhead
  | quoted hq hspan =>
    refine .quoted hq (spanQuoted_splice hspan ?_)
    rw [hhead]
    exact head_of_spanQuoted hspan
  | mark => exact .mark
  | @word w hne hspan hfresh =>
    have hends := endsWord_spanWord (w ++ rest)
    have hsame : SameStart (spanWord (w ++ rest)).2 rest' := by
      rw [hspan]
      exact hstart
    have hsplice := spanWord_splice (w ++ rest) hsame
    rw [hspan] at hends hsplice
    exact .word hne (hsplice (hend hends)) hfresh
  | openComment hspan hrest => exact .openComment hspan (hnil hrest)
  | openQuote hq hspan hrest => exact .openQuote hq hspan (hnil hrest)

theorem IsCut.congr {after after' : List Char} {fresh : Bool} {ls : List Lexeme}
    (h : IsCut after fresh ls) (hhead : after'.head? = after.head?) (hend : endsWord after = true →
      endsWord after' = true) :
    IsCut after' fresh ls := by
  induction ls generalizing fresh with
  | nil => trivial
  | cons lexeme ls ih =>
    obtain ⟨hshape, hcut⟩ := h
    refine ⟨?_, ih hcut⟩
    cases ls with
    | nil => exact hshape.congr hhead hend
    | cons next ls =>
      have hnext := hcut.1.raw_ne_nil
      rw [rawOf_cons, List.append_assoc] at hshape ⊢
      refine hshape.congr ?_ fun hends ↦ hcut.1.endsWord_append hends _
      rw [List.head?_append_of_ne_nil _ hnext, List.head?_append_of_ne_nil _ hnext]

end MissionIndex.Config
