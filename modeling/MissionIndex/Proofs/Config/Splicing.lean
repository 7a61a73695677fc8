import Mathlib.Data.List.DropRight
import MissionIndex.Proofs.Config.Places

/-!
# Texts put in a row

Where one lexeme ends may depend on what comes after it, but on little of it: mostly on the next
character, and at the end of a text on there being none. So a text in front of the end of a line is
cut up there as it is by itself (`cutLexeme_splice`).

There is one exception. A directive that ends its text in a backslash goes on over the line feed put
after it. It takes no more than that if the next line is empty, and then the same tokens are left
(`spanDirective_atLineEnd`).
-/

namespace MissionIndex.Config

open Text

/-! ## Ends of lines -/

/-- A text at the end of a line: there is no more text, or a line feed comes next. -/
def AtLineEnd : List Char → Prop
  | [] => True
  | c :: _ => c = '\n'

/-- A text at the end of a line after which there is no line or an empty one. -/
def BeforeEmptyLine : List Char → Prop
  | [] => True
  | c :: rest => c = '\n' ∧ AtLineEnd rest

theorem BeforeEmptyLine.atLineEnd {cs : List Char} (h : BeforeEmptyLine cs) : AtLineEnd cs := by
  cases cs with
  | nil => trivial
  | cons c rest => exact h.1

/-- What follows a piece of text looks the same up to its first character, except that the end of a
line before an empty one may stand for the end of the text. -/
def SameStart (cs cs' : List Char) : Prop := cs'.head? = cs.head? ∨ cs = [] ∧ BeforeEmptyLine cs'

namespace SameStart

variable {cs cs' : List Char}

theorem append (h : SameStart cs cs') (front : List Char) :
    SameStart (front ++ cs) (front ++ cs') := by
  cases front with
  | nil => exact h
  | cons c front => exact .inl rfl

theorem head_beq (h : SameStart cs cs') {c : Char} (hc : c ≠ '\n') :
    (cs'.head? == some c) = (cs.head? == some c) := by
  rcases h with h | ⟨rfl, h⟩
  · rw [h]
  · cases cs' with
    | nil => rfl
    | cons d rest =>
      obtain rfl : d = '\n' := h.1
      exact beq_eq_false_iff_ne.mpr fun he ↦ hc (Option.some.inj he).symm

theorem head_ne_iff (h : SameStart cs cs') {c : Char} (hc : c ≠ '\n') :
    cs'.head? ≠ some c ↔ cs.head? ≠ some c := by
  rw [← beq_eq_false_iff_ne, h.head_beq hc, beq_eq_false_iff_ne]

theorem atLineEnd (h : SameStart cs cs') (hcs : AtLineEnd cs) : AtLineEnd cs' := by
  rcases h with h | ⟨-, h⟩
  · cases cs' with
    | nil => trivial
    | cons d rest =>
      cases cs with
      | nil => cases h
      | cons c rest' =>
        obtain rfl : d = c := Option.some.inj h
        exact hcs
  · exact h.atLineEnd

theorem endsWord_cons (h : SameStart cs cs') (c : Char) :
    endsWord (c :: cs') = endsWord (c :: cs) := by
  simp only [endsWord, h.head_beq (c := '/') (by decide), h.head_beq (c := '*') (by decide),
    h.head_beq (c := '=') (by decide)]

end SameStart

theorem endsWord_of_atLineEnd {cs : List Char} (h : AtLineEnd cs) : endsWord cs = true := by
  cases cs with
  | nil => rfl
  | cons c rest =>
    obtain rfl : c = '\n' := h
    rfl

/-! ## Parts of lexemes -/

theorem endsWord_spanWord (cs : List Char) : endsWord (spanWord cs).2 = true := by
  induction cs with
  | nil => rfl
  | cons c cs ih =>
    rw [spanWord]
    split
    · assumption
    · exact ih

theorem spanWord_of_endsWord {cs : List Char} (h : endsWord cs = true) :
    spanWord cs = ([], cs) := by
  cases cs with
  | nil => rfl
  | cons c cs => rw [spanWord, if_pos h]

theorem spanWord_splice (cs : List Char) {rest' : List Char}
    (hstart : SameStart (spanWord cs).2 rest') (hend : endsWord rest' = true) :
    spanWord ((spanWord cs).1 ++ rest') = ((spanWord cs).1, rest') := by
  induction cs with
  | nil => exact spanWord_of_endsWord hend
  | cons c cs ih =>
    by_cases hc : endsWord (c :: cs) = true
    · rw [spanWord, if_pos hc]
      exact spanWord_of_endsWord hend
    · rw [spanWord, if_neg hc] at hstart ⊢
      have hsame : SameStart cs ((spanWord cs).1 ++ rest') := by
        have happend := hstart.append (spanWord cs).1
        rwa [spanWord_append] at happend
      rw [List.cons_append, spanWord, hsame.endsWord_cons c, if_neg hc, ih hstart]

theorem ne_nil_of_spanComment {cs raw rest : List Char} (h : spanComment cs = some (raw, rest)) :
    raw ≠ [] := by
  fun_induction spanComment cs with
  | case1 => cases h
  | case2 =>
    cases h
    exact List.cons_ne_nil _ _
  | case3 c cs hc =>
    obtain ⟨⟨a, b⟩, -, heq⟩ := Option.map_eq_some_iff.mp h
    cases heq
    exact List.cons_ne_nil _ _

theorem spanComment_splice {cs raw rest : List Char} (h : spanComment cs = some (raw, rest))
    (rest' : List Char) : spanComment (raw ++ rest') = some (raw, rest') := by
  fun_induction spanComment cs generalizing raw with
  | case1 => cases h
  | case2 =>
    cases h
    rfl
  | case3 c cs hc ih =>
    obtain ⟨⟨a, b⟩, hab, heq⟩ := Option.map_eq_some_iff.mp h
    cases heq
    rw [List.cons_append, spanComment, ih hab]
    · rfl
    -- The end of the comment does not move up to here, since its text begins as it did.
    · rintro more rfl hmore
      obtain ⟨d, a, rfl⟩ := List.exists_cons_of_ne_nil (ne_nil_of_spanComment hab)
      rw [List.cons_append] at hmore
      obtain ⟨rfl, -⟩ := List.cons.inj hmore
      exact hc _ rfl (spanComment_append hab).symm

theorem head_of_spanQuoted {q : Char} {cs raw value rest : List Char}
    (h : spanQuoted q cs = some (raw, value, rest)) : rest.head? ≠ some q := by
  fun_induction spanQuoted q cs generalizing raw value with
  | case1 => cases h
  | case2 =>
    cases h
    rintro ⟨⟩
  | case3 ds ih =>
    obtain ⟨⟨a, v, b⟩, hab, heq⟩ := Option.map_eq_some_iff.mp h
    cases heq
    exact ih hab
  | case4 d ds hd =>
    cases h
    exact fun he ↦ hd (Option.some.inj he)
  | case5 c cs _ ih =>
    obtain ⟨⟨a, v, b⟩, hab, heq⟩ := Option.map_eq_some_iff.mp h
    cases heq
    exact ih hab

theorem spanQuoted_closed {q : Char} {rest : List Char} (h : rest.head? ≠ some q) :
    spanQuoted q (q :: rest) = some ([q], [], rest) := by
  cases rest with
  | nil => simp only [spanQuoted, if_true]
  | cons d rest =>
    have hd : d ≠ q := fun he ↦ h (congrArg some he)
    simp only [spanQuoted, if_true, if_neg hd]

theorem spanQuoted_of_ne {q c : Char} (hc : c ≠ q) (cs : List Char) :
    spanQuoted q (c :: cs)
      = (spanQuoted q cs).map fun (raw, value, rest) ↦ (c :: raw, c :: value, rest) := by
  cases cs <;> simp only [spanQuoted, if_neg hc]

theorem spanQuoted_splice {q : Char} {cs raw value rest : List Char}
    (h : spanQuoted q cs = some (raw, value, rest)) {rest' : List Char}
    (hrest : rest'.head? ≠ some q) :
    spanQuoted q (raw ++ rest') = some (raw, value, rest') := by
  fun_induction spanQuoted q cs generalizing raw value with
  | case1 => cases h
  | case2 =>
    cases h
    exact spanQuoted_closed hrest
  | case3 ds ih =>
    obtain ⟨⟨a, v, b⟩, hab, heq⟩ := Option.map_eq_some_iff.mp h
    cases heq
    simp only [List.cons_append, spanQuoted, if_true, ih hab, Option.map_some]
  | case4 d ds hd =>
    cases h
    exact spanQuoted_closed hrest
  | case5 c cs hc ih =>
    obtain ⟨⟨a, v, b⟩, hab, heq⟩ := Option.map_eq_some_iff.mp h
    cases heq
    rw [List.cons_append, spanQuoted_of_ne hc, ih hab, Option.map_some]

theorem spanLine_of_atLineEnd {cs : List Char} (h : AtLineEnd cs) : spanLine cs = ([], cs) := by
  cases cs with
  | nil => rfl
  | cons c rest =>
    obtain rfl : c = '\n' := h
    rfl

theorem spanLine_of_ne {c : Char} (hc : c ≠ '\n') (cs : List Char) :
    spanLine (c :: cs) = (c :: (spanLine cs).1, (spanLine cs).2) := by
  have hp : (c != '\n') = true := bne_iff_ne.mpr hc
  simp only [spanLine, List.takeWhile_cons, List.dropWhile_cons, hp, if_true]

theorem spanLine_splice (cs : List Char) {rest' : List Char} (hrest : AtLineEnd rest') :
    spanLine ((spanLine cs).1 ++ rest') = ((spanLine cs).1, rest') := by
  induction cs with
  | nil => exact spanLine_of_atLineEnd hrest
  | cons c cs ih =>
    by_cases hc : c = '\n'
    · have hend : AtLineEnd (c :: cs) := hc
      rw [spanLine_of_atLineEnd hend]
      exact spanLine_of_atLineEnd hrest
    · rw [spanLine_of_ne hc, List.cons_append, spanLine_of_ne hc, ih]

theorem atLineEnd_spanLine (cs : List Char) : AtLineEnd (spanLine cs).2 := by
  induction cs with
  | nil => trivial
  | cons c cs ih =>
    by_cases hc : c = '\n'
    · have hend : AtLineEnd (c :: cs) := hc
      rwa [spanLine_of_atLineEnd hend]
    · rwa [spanLine_of_ne hc]

/-! ## Directives -/

theorem atLineEnd_spanDirective (cs : List Char) : AtLineEnd (spanDirective cs).2.2 := by
  fun_induction spanDirective cs with
  | case1 => trivial
  | case2 cs raw line rest h ih => rwa [h] at ih
  | case3 cs raw line rest h ih => rwa [h] at ih
  | case4 => rfl
  | case5 c cs _ _ _ raw line rest h ih => rwa [h] at ih

/-- A text that starts with the end of a line. -/
def StartsWithBreak (cs : List Char) : Prop :=
  cs.head? = some '\n' ∨ cs.head? = some '\r' ∧ cs.tail.head? = some '\n'

theorem startsWithBreak_append {rest rest' : List Char} (h : rest'.head? = rest.head?)
    (a : List Char) (hr : rest.head? ≠ some '\r') :
    StartsWithBreak (a ++ rest') ↔ StartsWithBreak (a ++ rest) := by
  match a with
  | [] => simp only [StartsWithBreak, List.nil_append, h, hr, false_and]
  | [c] => simp only [StartsWithBreak, List.cons_append, List.nil_append, List.head?_cons,
      List.tail_cons, h]
  | c :: d :: a => exact Iff.rfl

theorem spanDirective_cons {c : Char} {cs : List Char} (hc : c ≠ '\n')
    (hbreak : c = '\\' → ¬ StartsWithBreak cs) :
    spanDirective (c :: cs)
      = (c :: (spanDirective cs).1, c :: (spanDirective cs).2.1, (spanDirective cs).2.2) := by
  rw [spanDirective, if_neg hc]
  · rintro more rfl rfl
    exact hbreak rfl (.inl rfl)
  · rintro more rfl rfl
    exact hbreak rfl (.inr ⟨rfl, rfl⟩)

/-- A directive in front of a line feed does not go on if there is another line feed in its
place. -/
theorem spanDirective_splice {cs raw line rest : List Char}
    (h : spanDirective cs = (raw, line, rest)) (hrest : rest.head? = some '\n') {rest' : List Char}
    (hrest' : rest'.head? = some '\n') :
    spanDirective (raw ++ rest') = (raw, line, rest') := by
  fun_induction spanDirective cs generalizing raw line with
  | case1 =>
    cases h
    cases hrest
  | case2 cs a l r hspan ih =>
    cases h
    rw [List.cons_append, List.cons_append, spanDirective, ih hspan]
  | case3 cs a l r hspan ih =>
    cases h
    rw [List.cons_append, List.cons_append, List.cons_append, spanDirective, ih hspan]
  | case4 cs =>
    cases h
    obtain ⟨more, rfl⟩ := List.head?_eq_some_iff.mp hrest'
    rfl
  | case5 c cs hlf hcrlf hc a l r hspan ih =>
    cases h
    have hcs : a ++ rest = cs := by
      have happend := spanDirective_append cs
      rwa [hspan] at happend
    rw [List.cons_append, spanDirective_cons hc, ih hspan]
    rintro rfl hbreak
    rw [startsWithBreak_append (hrest'.trans hrest.symm) a (by rw [hrest]; decide), hcs] at hbreak
    rcases hbreak with hbreak | ⟨hbreak, htail⟩
    · obtain ⟨more, rfl⟩ := List.head?_eq_some_iff.mp hbreak
      exact hlf more rfl rfl
    · obtain ⟨more, rfl⟩ := List.head?_eq_some_iff.mp hbreak
      obtain ⟨more, rfl⟩ := List.head?_eq_some_iff.mp htail
      exact hcrlf more rfl rfl

/-- A directive at the end of a text takes at most one of two line feeds put after it, and has then
lost the end of its text. -/
theorem spanDirective_atLineEnd {cs line post : List Char} (h : spanDirective cs = (cs, line, []))
    (hpost : AtLineEnd post) :
    spanDirective (cs ++ '\n' :: post) = (cs, line, '\n' :: post) ∨
      ∃ line', spanDirective (cs ++ '\n' :: post) = (cs ++ ['\n'], line', post) ∧
      line' <+: line := by
  have hstop : spanDirective post = ([], [], post) := by
    cases post with
    | nil => rfl
    | cons c more =>
      obtain rfl : c = '\n' := hpost
      rfl
  fun_induction spanDirective cs generalizing line with
  | case1 =>
    cases h
    exact .inl rfl
  | case2 cs a l r hspan ih =>
    cases h
    rcases ih hspan with ih | ⟨line', ih, hline⟩
    · refine .inl ?_
      rw [List.cons_append, List.cons_append, spanDirective, ih]
    · refine .inr ⟨line', ?_, hline⟩
      rw [List.cons_append, List.cons_append, spanDirective, ih]
      rfl
  | case3 cs a l r hspan ih =>
    cases h
    rcases ih hspan with ih | ⟨line', ih, hline⟩
    · refine .inl ?_
      rw [List.cons_append, List.cons_append, List.cons_append, spanDirective, ih]
    · refine .inr ⟨line', ?_, hline⟩
      rw [List.cons_append, List.cons_append, List.cons_append, spanDirective, ih]
      rfl
  | case4 cs => cases h
  | case5 c cs hlf hcrlf hc a l r hspan ih =>
    cases h
    by_cases hend : c = '\\' ∧ (cs = [] ∨ cs = ['\r'])
    -- The backslash at the end of the text is what takes the line feed.
    · obtain ⟨rfl, rfl | rfl⟩ := hend
      · exact .inr ⟨[],
          by rw [List.cons_append, List.nil_append, spanDirective, hstop]; rfl, List.nil_prefix⟩
      · exact .inr ⟨[],
          by simp only [List.cons_append, List.nil_append]; rw [spanDirective, hstop],
          List.nil_prefix⟩
    · have hbreak : c = '\\' → ¬ StartsWithBreak (cs ++ '\n' :: post) := by
        rintro rfl hbreak
        have hends := fun hcs ↦ hend ⟨rfl, hcs⟩
        match cs with
        | [] => exact hends (.inl rfl)
        | [d] =>
          rcases hbreak with hbreak | ⟨hbreak, -⟩
          · exact hlf [] rfl (congrArg (· :: []) (Option.some.inj hbreak))
          · exact hends (.inr (congrArg (· :: []) (Option.some.inj hbreak)))
        | d :: e :: more =>
          rcases hbreak with hbreak | ⟨hbreak, htail⟩
          · exact hlf (e :: more) rfl (congrArg (· :: e :: more) (Option.some.inj hbreak))
          · obtain rfl := Option.some.inj hbreak
            obtain rfl := Option.some.inj htail
            exact hcrlf more rfl rfl
      rw [List.cons_append, spanDirective_cons hc hbreak]
      rcases ih hspan with ih | ⟨line', ih, hline⟩
      · exact .inl (by rw [ih])
      · refine .inr ⟨c :: line', by rw [ih]; rfl, ?_⟩
        exact List.cons_prefix_cons.mpr ⟨rfl, hline⟩

/-! ## Lexemes -/

/-- What a lexeme amounts to where it is no fault and asks for no file: tokens without places. -/
def Lexeme.signs? : Lexeme → Option (List Token)
  | .blank _ | .comment _ => some []
  | .word raw => some [⟨.word, String.ofList raw, default⟩]
  | .quoted raw value => some [⟨.quoted (String.ofList value), String.ofList raw, default⟩]
  | .mark m => some [⟨.mark m, m.text, default⟩]
  | .directive _ line => if includeWord.isPrefixOf (trim line) then none else some []
  | .openComment _ | .openQuote _ => none

/-- What a row of lexemes amounts to, where there is no fault and no file is asked for. -/
def signsOf? : List Lexeme → Option (List Token)
  | [] => some []
  | lexeme :: rest => lexeme.signs?.bind fun ts ↦ (signsOf? rest).map (ts ++ ·)

/-- What a text amounts to, where there is no fault and no file is asked for. -/
def signsFrom? (fresh : Bool) (text : List Char) : Option (List Token) :=
  signsOf? (lexemesFrom fresh text)

theorem signsFrom?_of_cutLexeme {fresh : Bool} {c : Char} {cs rest : List Char} {lexeme : Lexeme}
    (h : cutLexeme fresh c cs = (lexeme, rest)) :
    signsFrom? fresh (c :: cs)
      = lexeme.signs?.bind fun ts ↦ (signsFrom? (lexeme.staysFresh fresh) rest).map (ts ++ ·) := by
  rw [signsFrom?, lexemesFrom, h]
  rfl

theorem signsFrom?_blank {c : Char} (hc : isBlank c = true) (fresh : Bool) (rest : List Char) :
    signsFrom? fresh (c :: rest) = signsFrom? (c = '\n' || fresh) rest := by
  have hcut : cutLexeme fresh c rest = (.blank c, rest) := by rw [cutLexeme, if_pos hc]
  rw [signsFrom?_of_cutLexeme hcut]
  simp [Lexeme.signs?, Lexeme.staysFresh]

theorem signsFrom?_atLineEnd {cs : List Char} (h : AtLineEnd cs) (fresh fresh' : Bool) :
    signsFrom? fresh cs = signsFrom? fresh' cs := by
  cases cs with
  | nil => rw [signsFrom?, signsFrom?, lexemesFrom, lexemesFrom]
  | cons c rest =>
    obtain rfl : c = '\n' := h
    rw [signsFrom?_blank (by decide), signsFrom?_blank (by decide)]
    rfl

/-- A lexeme other than a blank or a directive that does not go on forever is cut off in the same
way where what follows it looks the same. -/
theorem cutLexeme_splice {fresh : Bool} {c : Char} {front rest rest' : List Char} {lexeme : Lexeme}
    (h : cutLexeme fresh c (front ++ rest) = (lexeme, rest)) (hraw : lexeme.raw = c :: front)
    (hblank : isBlank c = false) (hdirective : (c = '#' && fresh) = false) {ts : List Token}
    (hts : lexeme.signs? = some ts) (hstart : SameStart rest rest')
    (hend : endsWord rest = true → endsWord rest' = true) :
    cutLexeme fresh c (front ++ rest') = (lexeme, rest') := by
  have hsame := hstart.append front
  rw [cutLexeme, hblank, hdirective, if_neg Bool.false_ne_true] at h ⊢
  rw [hsame.head_beq (c := '/') (by decide), hsame.head_beq (c := '*') (by decide),
    hsame.head_beq (c := '=') (by decide)]
  by_cases hline : (decide (c = '/') && (front ++ rest).head? == some '/') = true
  · rw [if_pos hline] at h ⊢
    cases hspan : spanLine (front ++ rest) with | mk raw after =>
    rw [hspan] at h
    obtain ⟨rfl, rfl⟩ := Prod.mk.inj h
    obtain rfl : raw = front := (List.cons.inj hraw).2
    have hafter := atLineEnd_spanLine (raw ++ after)
    rw [hspan] at hafter
    have hsplice := spanLine_splice (raw ++ after) (hstart.atLineEnd hafter)
    rw [hspan] at hsplice
    rw [hsplice]
  rw [if_neg hline] at h ⊢
  by_cases hcomment : (decide (c = '/') && (front ++ rest).head? == some '*') = true
  · rw [if_pos hcomment] at h ⊢
    cases hspan : spanComment (front ++ rest).tail with
    | none =>
      rw [hspan] at h
      obtain ⟨rfl, -⟩ := Prod.mk.inj h
      cases hts
    | some span =>
      obtain ⟨raw, after⟩ := span
      rw [hspan] at h
      obtain ⟨rfl, rfl⟩ := Prod.mk.inj h
      obtain rfl : '*' :: raw = front := (List.cons.inj hraw).2
      have hsplice := spanComment_splice hspan rest'
      rw [List.cons_append, List.tail_cons, hsplice]
  rw [if_neg hcomment] at h ⊢
  by_cases hquote : isQuote c = true
  · rw [if_neg Bool.false_ne_true, if_pos hquote] at h ⊢
    have hc : c ≠ '\n' := by
      rintro rfl
      exact absurd hquote (by decide)
    cases hspan : spanQuoted c (front ++ rest) with
    | none =>
      rw [hspan] at h
      obtain ⟨rfl, -⟩ := Prod.mk.inj h
      cases hts
    | some span =>
      obtain ⟨raw, value, after⟩ := span
      rw [hspan] at h
      obtain ⟨rfl, rfl⟩ := Prod.mk.inj h
      obtain rfl : raw = front := (List.cons.inj hraw).2
      have hclosed : after.head? ≠ some c := head_of_spanQuoted hspan
      rw [spanQuoted_splice hspan ((hstart.head_ne_iff hc).mpr hclosed)]
  rw [if_neg Bool.false_ne_true, if_neg hquote] at h ⊢
  by_cases hplus : (decide (c = '+') && (front ++ rest).head? == some '=') = true
  · rw [if_pos hplus] at h ⊢
    obtain ⟨rfl, -⟩ := Prod.mk.inj h
    obtain rfl : ['='] = front := (List.cons.inj hraw).2
    rfl
  rw [if_neg hplus] at h ⊢
  cases hmark : Mark.ofChar? c with
  | some m =>
    rw [hmark] at h
    obtain ⟨rfl, -⟩ := Prod.mk.inj h
    rw [Lexeme.raw, Mark.raw_of_ofChar? hmark] at hraw
    obtain rfl : [] = front := (List.cons.inj hraw).2
    rfl
  | none =>
    rw [hmark] at h
    cases hspan : spanWord (front ++ rest) with | mk word after =>
    rw [hspan] at h
    obtain ⟨rfl, rfl⟩ := Prod.mk.inj h
    obtain rfl : word = front := (List.cons.inj hraw).2
    have hends := endsWord_spanWord (word ++ after)
    rw [hspan] at hends
    have hsplice := spanWord_splice (word ++ after) (by rw [hspan]; exact hstart) (hend hends)
    rw [hspan] at hsplice
    rw [hsplice]

/-- Blanks at the end of a text are not part of what it starts with. -/
theorem isPrefix_dropEnd {w cs : List Char} (hw : w.getLast?.all (!isBlank ·)) (h : w <+: cs) :
    w <+: dropEnd isBlank cs := by
  obtain ⟨more, rfl⟩ := h
  have hdrop : ∀ l, dropEnd isBlank l = l.rdropWhile isBlank := fun _ ↦ rfl
  rw [hdrop]
  induction more using List.reverseRecOn with
  | nil =>
    rw [List.append_nil, List.rdropWhile_eq_self_iff.mpr]
    intro hne
    rw [List.getLast?_eq_some_getLast hne] at hw
    simpa using hw
  | append_singleton more c ih =>
    rw [← List.append_assoc, List.rdropWhile_concat]
    split
    · exact ih
    · rw [List.append_assoc]
      exact List.prefix_append w _

theorem isPrefixOf_trim_iff (line : List Char) :
    includeWord.isPrefixOf (trim ('#' :: line)) = true ↔ includeWord <+: '#' :: line := by
  have htrim : trim ('#' :: line) = dropEnd isBlank ('#' :: line) := rfl
  rw [List.isPrefixOf_iff_prefix, htrim]
  constructor
  · exact fun h ↦ h.trans (List.rdropWhile_prefix isBlank _)
  · exact isPrefix_dropEnd (by decide)

/-- A directive starts a line, and goes on to the end of one. -/
theorem fresh_of_cutLexeme {fresh : Bool} {c : Char} {cs raw line rest : List Char}
    (h : cutLexeme fresh c cs = (.directive raw line, rest)) : fresh = true ∧ AtLineEnd rest := by
  rw [cutLexeme] at h
  split at h
  · cases h
  split at h
  · cases h
  split at h
  · split at h <;> cases h
  split at h
  · next hfresh =>
    obtain ⟨-, rfl⟩ := Prod.mk.inj h
    exact ⟨(Bool.and_eq_true_iff.mp hfresh).2, atLineEnd_spanDirective cs⟩
  split at h
  · split at h <;> cases h
  split at h
  · cases h
  split at h <;> cases h

theorem staysFresh_of_cutLexeme {fresh : Bool} {c : Char} {cs rest : List Char} {lexeme : Lexeme}
    (h : cutLexeme fresh c cs = (lexeme, rest)) (hc : isBlank c = false) :
    lexeme.staysFresh fresh = false := by
  cases lexeme with
  | blank d =>
    rw [cutLexeme, hc, if_neg Bool.false_ne_true] at h
    repeat' split at h
    all_goals cases h
  | _ => rfl

theorem exists_front_of_cutLexeme {fresh : Bool} {c : Char} {cs rest : List Char} {lexeme : Lexeme}
    (h : cutLexeme fresh c cs = (lexeme, rest)) :
    ∃ front, lexeme.raw = c :: front ∧ front ++ rest = cs := by
  have happend := cutLexeme_append fresh c cs
  have hlength := cutLexeme_length fresh c cs
  rw [h] at happend hlength
  dsimp only at happend hlength
  cases hraw : lexeme.raw with
  | nil =>
    rw [hraw, List.nil_append] at happend
    rw [happend, List.length_cons] at hlength
    omega
  | cons d front =>
    rw [hraw] at happend
    obtain ⟨rfl, hfront⟩ := List.cons.inj happend
    exact ⟨front, rfl, hfront⟩

theorem raw_cutLexeme_of_pair (fresh : Bool) {c d : Char}
    (h : c = '/' ∧ (d = '/' ∨ d = '*') ∨ c = '+' ∧ d = '=') (more : List Char) :
    ∃ tail, (cutLexeme fresh c (d :: more)).1.raw = c :: d :: tail := by
  rcases h with ⟨rfl, rfl | rfl⟩ | ⟨rfl, rfl⟩
  · exact ⟨(spanLine more).1, rfl⟩
  · cases hspan : spanComment more with
    | none =>
      refine ⟨more, ?_⟩
      rw [cutLexeme, List.tail_cons, hspan]
      rfl
    | some span =>
      refine ⟨span.1, ?_⟩
      rw [cutLexeme, List.tail_cons, hspan]
      rfl
  · exact ⟨[], rfl⟩

/-- A text that a word cannot go into still is one when what follows its first lexeme changes. -/
theorem endsWord_cutLexeme {fresh : Bool} {c : Char} {cs rest : List Char} {lexeme : Lexeme}
    (h : cutLexeme fresh c cs = (lexeme, rest)) (hend : endsWord (c :: cs) = true)
    (rest' : List Char) :
    endsWord (lexeme.raw ++ rest') = true := by
  obtain ⟨front, hraw, rfl⟩ := exists_front_of_cutLexeme h
  rw [hraw]
  cases front with
  | cons d front => exact hend
  | nil =>
    by_cases hc : (isBlank c || isMark c || isQuote c) = true
    · simp only [List.cons_append, endsWord, hc, Bool.true_or]
    · rw [Bool.not_eq_true] at hc
      simp only [List.nil_append, endsWord, hc, Bool.false_or] at hend
      -- What is left is the starts of comments and of `+=`, and these lexemes are longer.
      obtain ⟨d, more, rfl, hpair⟩ : ∃ d more, rest = d :: more ∧
          (c = '/' ∧ (d = '/' ∨ d = '*') ∨ c = '+' ∧ d = '=') := by
        cases rest with
        | nil => simp at hend
        | cons d more => exact ⟨d, more, rfl, by simpa using hend⟩
      obtain ⟨tail, htail⟩ := raw_cutLexeme_of_pair fresh hpair more
      rw [List.nil_append] at h
      rw [h, hraw] at htail
      cases htail

/-- A directive that is no include stands for nothing, also where it takes the end of its line with
it. -/
theorem signsFrom?_splice_directive {raw line rest rest' : List Char}
    (h : spanDirective (raw ++ rest) = (raw, line, rest)) (hline : ¬ includeWord <+: '#' :: line)
    (hstart : SameStart rest rest') :
    signsFrom? true ('#' :: (raw ++ rest')) = signsFrom? false rest' := by
  have hcut : ∀ {cs raw line rest}, spanDirective cs = (raw, line, rest) →
    ¬ includeWord <+: '#' :: line →
      signsFrom? true ('#' :: cs) = signsFrom? false rest := by
    intro cs raw line rest hspan hline
    have hcut : cutLexeme true '#' cs = (.directive ('#' :: raw) ('#' :: line), rest) := by
      rw [cutLexeme, hspan]
      rfl
    rw [signsFrom?_of_cutLexeme hcut, Lexeme.signs?,
      if_neg (mt (isPrefixOf_trim_iff line).mp hline)]
    exact Option.map_id'
  have hend := atLineEnd_spanDirective (raw ++ rest)
  rw [h] at hend
  rcases hstart with hhead | ⟨rfl, hempty⟩
  · cases rest with
    | nil =>
      obtain rfl := List.head?_eq_none_iff.mp hhead
      exact hcut h hline
    | cons d rest =>
      obtain rfl : d = '\n' := hend
      exact hcut (spanDirective_splice h rfl hhead) hline
  · rw [List.append_nil] at h
    cases rest' with
    | nil =>
      rw [List.append_nil]
      exact hcut h hline
    | cons d post =>
      obtain ⟨rfl, hpost⟩ := hempty
      rcases spanDirective_atLineEnd h hpost with h | ⟨line', h, hprefix⟩
      · exact hcut h hline
      · have hline' : ¬ includeWord <+: '#' :: line' := fun hw ↦
          hline (hw.trans (List.cons_prefix_cons.mpr ⟨rfl, hprefix⟩))
        rw [hcut h hline', signsFrom?_blank (by decide)]
        exact signsFrom?_atLineEnd hpost _ _

/-- **A text stands for what its first lexeme stands for and what the rest of it does**, also where
the rest has been put in the place of another one. -/
theorem signsFrom?_splice {fresh : Bool} {c : Char} {cs rest rest' : List Char} {lexeme : Lexeme}
    (h : cutLexeme fresh c cs = (lexeme, rest)) {ts : List Token} (hts : lexeme.signs? = some ts)
    (hstart : isBlank c = false → SameStart rest rest')
    (hend : isBlank c = false → endsWord rest = true → endsWord rest' = true) :
    signsFrom? fresh (lexeme.raw ++ rest') = (signsFrom? (lexeme.staysFresh fresh) rest').map
      (ts ++ ·) := by
  obtain ⟨front, hraw, rfl⟩ := exists_front_of_cutLexeme h
  rw [hraw, List.cons_append]
  by_cases hblank : isBlank c = true
  · rw [cutLexeme, if_pos hblank] at h
    obtain ⟨rfl, hrest⟩ := Prod.mk.inj h
    obtain rfl : [] = front := (List.cons.inj hraw).2
    cases hts
    rw [List.nil_append, signsFrom?_blank hblank]
    exact Option.map_id'.symm
  rw [Bool.not_eq_true] at hblank
  by_cases hdirective : (decide (c = '#') && fresh) = true
  · obtain ⟨hc, rfl⟩ := Bool.and_eq_true_iff.mp hdirective
    obtain rfl := of_decide_eq_true hc
    cases hspan : spanDirective (front ++ rest) with | mk raw span =>
    obtain ⟨line, after⟩ := span
    rw [cutLexeme, hspan, hblank] at h
    obtain ⟨rfl, rfl⟩ := Prod.mk.inj h
    obtain rfl : raw = front := (List.cons.inj hraw).2
    rw [Lexeme.signs?] at hts
    split at hts
    · cases hts
    · next hline =>
      cases hts
      rw [signsFrom?_splice_directive hspan (mt (isPrefixOf_trim_iff line).mpr hline)
        (hstart hblank)]
      exact Option.map_id'.symm
  · rw [Bool.not_eq_true] at hdirective
    have hcut := cutLexeme_splice h hraw hblank hdirective hts (hstart hblank) (hend hblank)
    rw [signsFrom?_of_cutLexeme hcut, hts]
    rfl

end MissionIndex.Config
