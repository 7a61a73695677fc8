import MissionIndex.Proofs.Config.Cuts
import MissionIndex.Proofs.Config.Likeness
import MissionIndex.Proofs.Config.Unstopped
import MissionIndex.Proofs.Text.Trimming

/-!
# Comments between tokens

A comment behind a token has no effect: where the token ends, a blank and a comment that stays on
its line may be inserted into the text of any file, and a parse gives the same apart from places. So
it is for every token, in every state in which a comment can start.

## The end of an include

Behind an include directive there is no token, and what comes there still belongs to the directive.
A comment is not told from the name of the file then, and the directive with it asks for no file:
the parse fails when it comes to it. So a parse with such a comment gives something just where the
parse without it does, and does not open the file.
-/

namespace MissionIndex.Config

open Text

/-! ## Comments and where they stand -/

/-- A comment that stays on its line, as it may be put in front of `after`: a block comment, or a
line comment where only blanks are left of the line. -/
inductive IsComment (after : List Char) : List Char → Prop
  | block {inner : List Char} : '\n' ∉ inner → ¬ ['*', '/'] <:+: inner ++ ['*'] →
      IsComment after ('/' :: '*' :: (inner ++ ['*', '/']))
  | line {body : List Char} : '\n' ∉ body → (∀ c ∈ (spanLine after).1, isBlank c = true) →
      IsComment after ('/' :: '/' :: body)

/-- A lexeme is a token: a word, a quoted text or a mark. -/
def Lexeme.IsToken : Lexeme → Prop
  | .word _ | .quoted _ _ | .mark _ => True
  | _ => False

/-- Of the two parts of a text, the first one ends with a token of the text. -/
def EndsToken (front after : List Char) : Prop :=
  ∃ before token more, token.IsToken ∧ lexemes (dropMarks (front ++ after)) = before ++
  token :: more ∧
    dropMarks front = rawOf (before ++ [token])

/-- A text with a blank and a comment between its two parts. -/
def commented (front comment after : List Char) : List Char := front ++ (' ' :: (comment ++ after))

theorem spanComment_of_inner {inner : List Char} (h : ¬ ['*', '/'] <:+: inner ++ ['*'])
    (after : List Char) :
    spanComment (inner ++ ['*', '/'] ++ after) = some (inner ++ ['*', '/'], after) := by
  induction inner with
  | nil => rfl
  | cons c inner ih =>
    rw [List.cons_append, List.infix_cons_iff, not_or] at h
    obtain ⟨hopens, hinner⟩ := h
    rw [List.cons_append, List.cons_append, spanComment, ih hinner]
    · rfl
    · rintro more rfl hmore
      refine hopens (List.cons_prefix_cons.mpr ⟨rfl, ?_⟩)
      cases inner with
      | nil => cases hmore
      | cons d inner =>
        obtain ⟨rfl, -⟩ := List.cons.inj hmore
        exact List.cons_prefix_cons.mpr ⟨rfl, List.nil_prefix⟩

theorem lexemesFrom_blanks {blanks : List Char} (h : ∀ c ∈ blanks, isBlank c = true)
    (hfeed : '\n' ∉ blanks) (rest : List Char) :
    lexemesFrom false (blanks ++ rest) = blanks.map Lexeme.blank ++ lexemesFrom false rest := by
  induction blanks with
  | nil => rfl
  | cons c blanks ih =>
    obtain ⟨hc, hblanks⟩ := List.forall_mem_cons.mp h
    obtain ⟨hne, hfeed⟩ := not_or.mp (List.mem_cons.not.mp hfeed)
    have hfirst : lexemesFrom false ([c] ++ (blanks ++ rest))
        = .blank c :: lexemesFrom ((Lexeme.blank c).staysFresh false) (blanks ++ rest) :=
      lexemesFrom_append (.blank hc)
    have hstays : (Lexeme.blank c).staysFresh false = false := by
      rw [Lexeme.staysFresh, decide_eq_false (Ne.symm hne)]
      rfl
    rw [List.cons_append, ← List.singleton_append, hfirst, hstays, ih hblanks hfeed]
    rfl

/-! ## Texts with a comment -/

/-- In a text that does not start a line, a comment amounts to nothing. -/
theorem pieces_comment {after comment : List Char} (h : IsComment after comment) :
    (lexemesFrom false (comment ++ after)).filterMap Lexeme.piece?
      = (lexemesFrom false after).filterMap Lexeme.piece? := by
  cases h with
  | @block inner hfeed hinner =>
    have hshape : (Lexeme.comment ('/' :: '*' :: (inner ++ ['*', '/']))).Shape false after :=
      .blockComment (spanComment_of_inner hinner after)
    have hcut := lexemesFrom_append hshape
    rw [Lexeme.raw] at hcut
    rw [hcut]
    rfl
  | @line body hfeed hblank =>
    -- The comment takes the blanks with it that are left of the line.
    obtain ⟨blanks, rest, hspan⟩ : ∃ blanks rest, spanLine after = (blanks, rest) := ⟨_, _, rfl⟩
    obtain ⟨rfl, hblanks, hrest⟩ := spanLine_eq_iff.mp hspan
    rw [hspan] at hblank
    have hshape : (Lexeme.comment ('/' :: '/' :: (body ++ blanks))).Shape false rest :=
      .lineComment (fun hmem ↦ (List.mem_append.mp hmem).elim hfeed hblanks) hrest
    have hcut := lexemesFrom_append hshape
    simp only [Lexeme.raw, List.cons_append, List.append_assoc] at hcut
    have hnothing : (blanks.map Lexeme.blank).filterMap Lexeme.piece? = [] := by
      rw [List.filterMap_map]
      exact List.filterMap_eq_nil_iff.mpr fun _ _ ↦ rfl
    rw [List.cons_append, List.cons_append, hcut, lexemesFrom_blanks hblank hblanks,
      List.filterMap_append, hnothing]
    rfl

theorem Lexeme.Shape.token_space {fresh : Bool} {rest : List Char} {token : Lexeme}
    (h : token.Shape fresh rest) (htoken : token.IsToken) (rest' : List Char) :
    token.Shape fresh (' ' :: rest') := by
  cases h with
  | mark => exact .mark
  | quoted hq hspan =>
    refine .quoted hq (spanQuoted_splice hspan ?_)
    rcases isQuote_iff.mp hq with rfl | rfl <;> exact fun hspace ↦
      absurd (Option.some.inj hspace) (by decide)
  | word hne hspan hfresh =>
    refine .word hne (spanWord_of_isWord (isWord_of_spanWord hne hspan) rfl
      fun d hd a hpair ↦ ?_) hfresh
    obtain rfl := Option.some.inj hd
    rcases hpair with ⟨-, hd | hd⟩ | ⟨-, hd⟩ <;> exact absurd hd (by decide)
  | _ => cases htoken

theorem IsCut.token_space {after : List Char} {fresh : Bool} {before : List Lexeme} {token : Lexeme}
    (h : IsCut after fresh (before ++ [token])) (htoken : token.IsToken) (after' : List Char) :
    IsCut (' ' :: after') fresh (before ++ [token]) := by
  obtain ⟨hbefore, hshape, -⟩ := IsCut.append_iff.mp h
  refine IsCut.append_iff.mpr ⟨?_, hshape.token_space htoken _, trivial⟩
  rw [rawOf_cons, rawOf_nil, List.append_nil] at hbefore ⊢
  refine hbefore.congr ?_ fun hend ↦ hshape.endsWord_append hend _
  rw [List.head?_append_of_ne_nil _ hshape.raw_ne_nil,
    List.head?_append_of_ne_nil _ hshape.raw_ne_nil]

theorem dropMarks_append {cs : List Char} (h : dropMarks cs ≠ []) (cs' : List Char) :
    dropMarks (cs ++ cs') = dropMarks cs ++ cs' := by
  rw [dropMarks, dropMarks, List.dropWhile_append, if_neg]
  rwa [List.isEmpty_iff]

/-- **Behind a token, a comment changes nothing but places.** -/
theorem pieces_commented {front comment after : List Char} (htoken : EndsToken front after)
    (hcomment : IsComment after comment) (file : String) :
    (pieces file (commented front comment after)).map Piece.unplaced
      = (pieces file (front ++ after)).map Piece.unplaced := by
  obtain ⟨before, token, more, htoken, hlexemes, hfront⟩ := htoken
  have hsplit : before ++ token :: more = (before ++ [token]) ++ more := by simp
  rw [hsplit] at hlexemes
  obtain ⟨htext, hcut, hmore⟩ := isCut_of_lexemesFrom hlexemes
  obtain ⟨-, hshape, -⟩ := IsCut.append_iff.mp hcut
  have hne : dropMarks front ≠ [] := by
    rw [hfront, rawOf_append, rawOf_cons]
    simp [hshape.raw_ne_nil]
  rw [dropMarks_append hne, hfront] at htext
  obtain rfl : after = rawOf more := List.append_cancel_left htext
  have hstays : freshAfter true (before ++ [token]) = false := by
    rw [freshAfter, List.foldl_append]
    cases token <;> first | rfl | cases htoken
  -- Up to the end of the token both texts are cut in the same way.
  have hcut' : IsCut (' ' :: (comment ++ rawOf more)) true (before ++ [token]) :=
    hcut.token_space htoken _
  have hspace : lexemesFrom false (' ' :: (comment ++ rawOf more))
      = .blank ' ' :: lexemesFrom false (comment ++ rawOf more) :=
    lexemesFrom_append (.blank (by decide) : (Lexeme.blank ' ').Shape false _)
  rw [commented, pieces, pieces, dropMarks_append hne, unplaced_piecesFrom, unplaced_piecesFrom,
    hfront, lexemes, hcut'.lexemesFrom_eq, dropMarks_append hne, hfront, lexemes,
    hcut.lexemesFrom_eq, hstays, hspace]
  have hrest : (Lexeme.blank ' ' :: lexemesFrom false (comment ++ rawOf more)).filterMap
    Lexeme.piece?
      = (lexemesFrom false (rawOf more)).filterMap Lexeme.piece? := pieces_comment hcomment
  generalize before ++ [token] = upToToken
  rw [List.filterMap_append, List.filterMap_append, hrest]

/-! ## Behind an include -/

/-- Of the two parts of a text, the first one ends with the closing delimiter of an include
directive: but for blanks and continuations, the directive ends there. -/
def EndsInclude (front after : List Char) : Prop :=
  ∃ before raw shown more body line, (Lexeme.directive raw shown).target?.isSome = true ∧
    lexemes (dropMarks (front ++ after)) = before ++ .directive raw shown :: more ∧
    dropMarks front = rawOf before ++ '#' :: body ∧ spanDirective body = (body, line, []) ∧
    trim shown = '#' :: line ∧ (body.getLast? = some '"' ∨ body.getLast? = some '>')

/-- A comment does not look like the end of an include, or of a line that goes on: the last
character that is not blank is neither a delimiter nor a backslash. Each block comment is like
that. -/
def Unlike (comment : List Char) : Prop :=
  ∀ c ∈ (trimEnd comment).getLast?, c ≠ '"' ∧ c ≠ '>' ∧ c ≠ '\\'

theorem Continues.getLast?_trimEnd {line : List Char} (h : Continues line) :
    (trimEnd line).getLast? = some '\\' := by
  rcases h with ⟨front, rfl⟩ | ⟨front, rfl⟩
  · rw [trimEnd_append front (c := '\\') (by decide) (by simp), List.getLast?_concat]
  · have hreturn : ∀ b ∈ ['\r'], isBlank b = true := List.forall_mem_singleton.mpr (by decide)
    rw [trimEnd_append front (c := '\\') (by decide) hreturn, List.getLast?_concat]

theorem not_continues_of_getLast? {line : List Char} {c : Char} (hc : isBlank c = false)
    (hne : c ≠ '\\') (hlast : line.getLast? = some c) : ¬ Continues line := by
  intro hcontinues
  have hbackslash := hcontinues.getLast?_trimEnd
  obtain ⟨start, rfl⟩ := List.getLast?_eq_some_iff.mp hlast
  rw [trimEnd_append start hc (List.forall_mem_nil _), List.getLast?_concat] at hbackslash
  exact hne (Option.some.inj hbackslash)

/-- A line break at the start of a longer text is in the text itself, unless the text ends in the
middle of it. -/
theorem exists_break_of_append {cs after : List Char} (hends : ¬ (cs = [] ∨ cs = ['\r']))
    (h : (cs ++ after).head? = some '\n' ∨ (cs ++ after).head? = some '\r' ∧
      (cs ++ after).tail.head? = some '\n') :
    (∃ rest, cs = '\n' :: rest) ∨ ∃ rest, cs = '\r' :: '\n' :: rest := by
  obtain ⟨hnil, hreturn⟩ := not_or.mp hends
  obtain ⟨d, cs, rfl⟩ := List.exists_cons_of_ne_nil hnil
  rcases h with h | ⟨h, htail⟩
  · obtain rfl := Option.some.inj h
    exact .inl ⟨cs, rfl⟩
  · obtain rfl := Option.some.inj h
    obtain ⟨e, rest, rfl⟩ := List.exists_cons_of_ne_nil fun hcs ↦ hreturn (congrArg _ hcs)
    obtain rfl := Option.some.inj htail
    exact .inr ⟨rest, rfl⟩

/-- A directive that does not go on in the next line is read before what comes behind it. -/
theorem spanDirective_append_of_not_continues {cs line : List Char}
    (h : spanDirective cs = (cs, line, [])) (hends : ¬ Continues cs) (after : List Char) :
    spanDirective (cs ++ after)
      = (cs ++ (spanDirective after).1, line ++ (spanDirective after).2.1,
        (spanDirective after).2.2) := by
  fun_induction spanDirective cs generalizing line with
  | case1 =>
    cases h
    rfl
  | case2 cs a l r hspan ih =>
    cases h
    have hcs : ¬ Continues cs := fun hcs ↦ hends ((hcs.cons _).cons _)
    rw [List.cons_append, List.cons_append, spanDirective, ih hspan hcs]
    rfl
  | case3 cs a l r hspan ih =>
    cases h
    have hcs : ¬ Continues cs := fun hcs ↦ hends (((hcs.cons _).cons _).cons _)
    rw [List.cons_append, List.cons_append, List.cons_append, spanDirective, ih hspan hcs]
    rfl
  | case4 cs => cases h
  | case5 c cs hlf hcrlf hc a l r hspan ih =>
    cases h
    rw [continues_cons_iff, not_or] at hends
    rw [List.cons_append, spanDirective_cons hc, ih hspan hends.2]
    · rfl
    · rintro rfl hbreak
      obtain ⟨rest, rfl⟩ | ⟨rest, rfl⟩ := exists_break_of_append (not_and.mp hends.1 rfl) hbreak
      · exact hlf rest rfl rfl
      · exact hcrlf rest rfl rfl

theorem IsComment.starts {after comment : List Char} (h : IsComment after comment) :
    '\n' ∉ comment ∧ comment.head? = some '/' := by
  cases h with
  | @block inner hfeed => exact ⟨by simp [hfeed], rfl⟩
  | @line body hfeed => exact ⟨by simp [hfeed], rfl⟩

theorem spanDirective_of_notMem {cs : List Char} (h : '\n' ∉ cs) :
    spanDirective cs = (cs, cs, []) := by
  induction cs with
  | nil => rfl
  | cons c cs ih =>
    obtain ⟨hc, hcs⟩ := not_or.mp (List.mem_cons.not.mp h)
    rw [spanDirective_cons (Ne.symm hc), ih hcs]
    rintro - (hbreak | ⟨-, hbreak⟩)
    · exact hcs (List.mem_of_mem_head? hbreak)
    · exact hcs (List.mem_of_mem_tail (List.mem_of_mem_head? hbreak))

/-- What an include asks for stands between delimiters, and so it is nothing if the line ends in
something else. -/
theorem includeTarget?_eq_none {line : List Char} {c : Char}
    (h : (trim (line.drop includeWord.length)).getLast? = some c) (hc : c ≠ '"' ∧ c ≠ '>') :
    includeTarget? line = none := by
  rw [includeTarget?]
  cases htrim : trim (line.drop includeWord.length) with
  | nil => rfl
  | cons opener rest =>
    rw [htrim, List.getLast?_cons] at h
    cases hrest : rest.getLast? with
    | none => simp only [hrest]
    | some closer =>
      rw [hrest] at h
      obtain rfl : closer = c := Option.some.inj h
      simp [hrest, hc]

theorem exists_place_of_mem (file : String) (p : Position) {ls : List Lexeme} {lexeme : Lexeme}
    (h : lexeme ∈ ls) :
    ∃ q, ∀ piece, pieceAt file q lexeme = some piece → piece ∈ piecesFrom file p ls := by
  induction ls generalizing p with
  | nil => cases h
  | cons first ls ih =>
    rcases List.mem_cons.mp h with rfl | h
    · exact ⟨p, fun piece hpiece ↦ List.mem_append_left _ (Option.mem_toList.mpr hpiece)⟩
    · obtain ⟨q, hq⟩ := ih (p.advance first.raw) h
      exact ⟨q, fun piece hpiece ↦ List.mem_append_right _ (hq piece hpiece)⟩

/-- An include with a comment behind what it asks for is malformed. -/
theorem pieceAt_commented {line comment tail : List Char} (hline : includeWord <+: '#' :: line)
    (hcomment : comment.head? = some '/') (hunlike : Unlike comment)
    (htail : ∀ c ∈ tail, isBlank c = true) (file : String) (p : Position) (raw : List Char) :
    ∃ shown location, pieceAt file p (.directive raw ('#' :: (line ++ (' ' :: (comment ++ tail)))))
      = some (.fault ⟨.malformedInclude shown, location⟩) := by
  obtain ⟨blanks, hsplit, hblanks, hlast⟩ := exists_trimEnd_append comment
  -- The comment ends in this character, apart from blanks.
  obtain ⟨core, c, hcore⟩ : ∃ core c, trimEnd comment = core ++ [c] := by
    refine (List.eq_nil_or_concat' (trimEnd comment)).resolve_left fun hnil ↦ ?_
    rw [hnil, List.nil_append] at hsplit
    have hslash := hblanks '/' (hsplit ▸ List.mem_of_mem_head? hcomment)
    exact absurd hslash (by decide)
  have hc : (trimEnd comment).getLast? = some c := by rw [hcore, List.getLast?_concat]
  have hends := hunlike c hc
  have hnotBlank := hlast c hc
  obtain ⟨more, hmore⟩ := hline
  have hshown : trim ('#' :: (line ++ (' ' :: (comment ++ tail)))) = includeWord ++
      (more ++ ' ' :: core ++ [c]) := by
    have hregroup : '#' :: (line ++ (' ' :: (comment ++ tail)))
        = (includeWord ++ (more ++ ' ' :: core)) ++ c :: (blanks ++ tail) := by
      rw [hsplit, hcore, ← List.cons_append, ← hmore]
      simp
    have hstart : ∀ cs, trim ('#' :: cs) = trimEnd ('#' :: cs) := fun _ ↦ rfl
    rw [hstart, hregroup, trimEnd_append _ hnotBlank (List.forall_mem_append.mpr ⟨hblanks, htail⟩)]
    simp
  have hnone : includeTarget? (includeWord ++ (more ++ ' ' :: core ++ [c])) = none := by
    refine includeTarget?_eq_none (c := c) ?_ ⟨hends.1, hends.2.1⟩
    rw [List.drop_left]
    exact getLast?_trim _ hnotBlank
  have hword : includeWord.isPrefixOf (includeWord ++ (more ++ ' ' :: core ++ [c])) = true :=
    List.isPrefixOf_iff_prefix.mpr (List.prefix_append _ _)
  simp only [pieceAt, hshown, hword, hnone, if_true]
  exact ⟨_, _, rfl⟩

/-- Behind the closing delimiter of an include only blanks belong to the directive. -/
theorem EndsInclude.exists_directive {front after : List Char} (h : EndsInclude front after) :
    ∃ before body line rawTail tail rest, dropMarks front = rawOf before ++ '#' :: body ∧
      IsCut ('#' :: (body ++ after)) true before ∧ freshAfter true before = true ∧
      spanDirective body = (body, line, []) ∧ ¬ Continues body ∧ includeWord <+: '#' :: line ∧
      spanDirective after = (rawTail, tail, rest) ∧ ∀ c ∈ tail, isBlank c = true := by
  obtain ⟨before, raw, shown, more, body, line, htarget, hlexemes, hfront, hbody, hshown,
    hdelimiter⟩ := h
  obtain ⟨htext, hcut, hmore⟩ := isCut_of_lexemesFrom hlexemes
  have hne : dropMarks front ≠ [] := by
    rw [hfront]
    exact List.append_ne_nil_of_right_ne_nil _ (List.cons_ne_nil _ _)
  rw [dropMarks_append hne, hfront, List.append_assoc, List.cons_append] at htext
  have hafter := List.append_cancel_left htext
  rw [← hafter] at hcut
  rw [← List.singleton_append] at hmore
  obtain ⟨-, ⟨hshape, -⟩, -⟩ := isCut_of_lexemesFrom hmore
  rw [rawOf_nil, List.nil_append] at hshape
  have hbodyEnds : ¬ Continues body := hdelimiter.elim
    (not_continues_of_getLast? (by decide) (by decide))
      (not_continues_of_getLast? (by decide) (by decide))
  have hline : includeWord <+: '#' :: line := by
    obtain ⟨target, htarget⟩ := Option.isSome_iff_exists.mp htarget
    rw [← hshown]
    simp only [Lexeme.target?, Option.ite_none_right_eq_some] at htarget
    exact List.isPrefixOf_iff_prefix.mp htarget.1
  obtain ⟨rawTail, tail, rest, htail⟩ : ∃ rawTail tail rest, spanDirective after
      = (rawTail, tail, rest) :=
    ⟨_, _, _, rfl⟩
  refine ⟨before, body, line, rawTail, tail, rest, hfront, hcut, ?_⟩
  cases hshape with
  | @directive rawBody whole hfresh hspan =>
    rw [rawOf_cons, Lexeme.raw, List.cons_append] at hafter
    rw [← (List.cons.inj hafter).2, spanDirective_append_of_not_continues hbody hbodyEnds,
      htail] at hspan
    obtain rfl : line ++ tail = whole := (Prod.mk.inj (Prod.mk.inj hspan).2).1
    refine ⟨hfresh, hbody, hbodyEnds, hline, htail, ?_⟩
    obtain ⟨blanks, hblanks, hblank, -⟩ := exists_trimEnd_append ('#' :: (line ++ tail))
    have htrim : trimEnd ('#' :: (line ++ tail)) = '#' :: line := hshown
    rw [htrim, List.cons_append] at hblanks
    rw [List.append_cancel_left (List.cons.inj hblanks).2]
    exact hblank

theorem spanDirective_comment {body line comment after rawTail tail rest : List Char}
    (hbody : spanDirective body = (body, line, [])) (hends : ¬ Continues body)
    (hafter : spanDirective after = (rawTail, tail, rest)) (hfeed : '\n' ∉ comment)
    (hunlike : Unlike comment) :
    spanDirective (body ++ (' ' :: (comment ++ after)))
      = (body ++ (' ' :: comment ++ rawTail), line ++ (' ' :: (comment ++ tail)), rest) := by
  have hspace : '\n' ∉ ' ' :: comment := List.mem_cons.not.mpr (not_or.mpr ⟨by decide, hfeed⟩)
  have hcommentEnds : ¬ Continues (' ' :: comment) := by
    rw [continues_cons_iff]
    rintro (⟨hc, -⟩ | hcontinues)
    · exact absurd hc (by decide)
    · exact (hunlike _ hcontinues.getLast?_trimEnd).2.2 rfl
  rw [spanDirective_append_of_not_continues hbody hends, ← List.cons_append,
    spanDirective_append_of_not_continues (spanDirective_of_notMem hspace) hcommentEnds, hafter]
  rfl

/-- **Behind an include, a comment becomes part of the directive**, which asks for no file then. -/
theorem fault_mem_pieces_commented {front comment after : List Char}
    (hinclude : EndsInclude front after) (hcomment : IsComment after comment)
    (hunlike : Unlike comment) (file : String) :
    ∃ line location, .fault ⟨.malformedInclude line, location⟩
      ∈ pieces file (commented front comment after) := by
  obtain ⟨before, body, line, rawTail, tail, rest, hfront, hcut, hfresh, hbody, hends, hline,
      hafter, hblank⟩ :=
    hinclude.exists_directive
  obtain ⟨hfeed, hslash⟩ := hcomment.starts
  have hspan := spanDirective_comment hbody hends hafter hfeed hunlike
  have hne : dropMarks front ≠ [] := by
    rw [hfront]
    exact List.append_ne_nil_of_right_ne_nil _ (List.cons_ne_nil _ _)
  have htext : dropMarks (commented front comment after)
      = rawOf before ++ '#' :: (body ++ (' ' :: (comment ++ after))) := by
    rw [commented, dropMarks_append hne, hfront, List.append_assoc, List.cons_append]
  have hbefore : IsCut ('#' :: (body ++ (' ' :: (comment ++ after)))) true before :=
    hcut.congr rfl id
  have hsplit : body ++ (' ' :: comment ++ rawTail) ++ rest = body ++
      (' ' :: (comment ++ after)) := by
    have happend := spanDirective_append (body ++ (' ' :: (comment ++ after)))
    rwa [hspan] at happend
  have hmem : .directive ('#' :: (body ++ (' ' :: comment ++ rawTail))) ('#' ::
    (line ++ (' ' :: (comment ++ tail))))
      ∈ lexemes (dropMarks (commented front comment after)) := by
    have hfirst := lexemesFrom_append (Lexeme.Shape.directive rfl (hsplit.symm ▸ hspan))
    rw [Lexeme.raw, List.cons_append, hsplit] at hfirst
    rw [htext, lexemes, hbefore.lexemesFrom_eq, hfresh, hfirst]
    exact List.mem_append_right _ List.mem_cons_self
  obtain ⟨p, hpiece⟩ := exists_place_of_mem file .zero hmem
  obtain ⟨shown, location, hfault⟩ := pieceAt_commented hline hslash hunlike hblank file p _
  exact ⟨shown, location, hpiece _ hfault⟩

/-! ## Parses with a comment -/

section

variable {ε : Type} (sources : Sources ε)

theorem exists_ok_of_isOk {r : Except (Stop ε) ConfigClass} (h : r.isOk = true) :
    ∃ tree, r = .ok tree := by
  cases r with
  | error stop => cases h
  | ok tree => exact ⟨tree, rfl⟩

/-- Sources that differ in the text of one file, and there in places only, are alike. -/
theorem Sources.alike_withText (file : String) {text text' : List Char}
    (h : ∀ name, (pieces name text').map Piece.unplaced = (pieces name text).map Piece.unplaced) :
    (sources.withText file text).Alike (sources.withText file text') where
  disk := rfl
  mappings := rfl
  missing path := by
    simp only [Sources.withText]
    split <;> rfl
  pieces path blame := by
    simp only [Sources.textOf, Sources.withText]
    by_cases hpath : sources.disk.absolute path = sources.disk.absolute file
    · simp only [if_pos hpath]
      exact congrArg Except.ok (h path)
    · simp only [if_neg hpath]

/-- A text with a fault spoils just the parses that open it. -/
theorem Sources.parse_withText_of_fault (root file : String) (text : List Char) {text' : List Char}
    (hfault : ∀ name, ∃ e, .fault e ∈ pieces name text') :
    ((sources.withText file text').parse root).result.isOk = true ↔
      ((sources.withText file text).parse root).result.isOk = true ∧
        ∀ f ∈ ((sources.withText file text).parse root).opened,
          sources.disk.absolute f ≠ sources.disk.absolute file := by
  -- Where the file is not opened, a parse that gives something does not see its text.
  have hunseen : ∀ {before after : List Char} {tree : ConfigClass},
      ((sources.withText file before).parse root).result = .ok tree →
      (∀ f ∈ ((sources.withText file before).parse root).opened,
        sources.disk.absolute f ≠ sources.disk.absolute file) →
      (sources.withText file after).parse root = (sources.withText file before).parse root := by
    intro before after tree htree hopened
    refine (sources.withText file before).parse_congr (.inl ⟨_, htree⟩) fun f hf ↦ ?_
    simp only [Sources.withText, if_neg (hopened f hf)]
  constructor
  · intro hok
    obtain ⟨tree, htree⟩ := exists_ok_of_isOk hok
    have hopened : ∀ f ∈ ((sources.withText file text').parse root).opened,
        sources.disk.absolute f ≠ sources.disk.absolute file := by
      intro f hf hfile
      obtain ⟨read, hread, hnone⟩ := Sources.faultless_of_parse htree f hf
      obtain ⟨e, he⟩ := hfault f
      have htext : (sources.withText file text').text? f = some text' := by
        simp only [Sources.text?, Sources.textOf, Sources.withText, if_pos hfile]
        rfl
      obtain rfl : text' = read := Option.some.inj (htext.symm.trans hread)
      exact hnone e he
    rw [hunseen htree hopened]
    exact ⟨hok, hopened⟩
  · rintro ⟨hok, hopened⟩
    obtain ⟨tree, htree⟩ := exists_ok_of_isOk hok
    rw [hunseen htree hopened]
    exact hok

/-- **Behind a token a comment has no effect on a parse, and behind an include it spoils the
parse.** Whichever file it is put in, the parse opens the same files, and gives the same apart from
places, with a comment behind a token. With one behind an include it gives something just where the
parse without the comment does so without the file. -/
theorem parse_commented (root file : String) {front comment after : List Char}
    (hcomment : IsComment after comment) :
    (EndsToken front after →
      ((sources.withText file (commented front comment after)).parse root).opened
          = ((sources.withText file (front ++ after)).parse root).opened ∧
        ((sources.withText file (commented front comment after)).parse root).announced
          = ((sources.withText file (front ++ after)).parse root).announced ∧
        SameApartFromPlaces ((sources.withText file (front ++ after)).parse root).result
          ((sources.withText file (commented front comment after)).parse root).result) ∧
    (EndsInclude front after → Unlike comment →
      (((sources.withText file (commented front comment after)).parse root).result.isOk = true ↔
        ((sources.withText file (front ++ after)).parse root).result.isOk = true ∧
          ∀ f ∈ ((sources.withText file (front ++ after)).parse root).opened,
            sources.disk.absolute f ≠ sources.disk.absolute file)) := by
  refine ⟨fun htoken ↦ ?_, fun hinclude hunlike ↦ ?_⟩
  · exact (sources.alike_withText file (pieces_commented htoken hcomment)).parse root
  · refine sources.parse_withText_of_fault root file (front ++ after) fun name ↦ ?_
    obtain ⟨line, location, hfault⟩ := fault_mem_pieces_commented hinclude hcomment hunlike name
    exact ⟨_, hfault⟩

end

/-- A mission whose description includes another file. -/
def noting : Sources String where
  disk.files :=
    [(["m", "description.ext"], .bytes (encodeUtf8 "#include \"a.hpp\"".toList)),
      (["m", "a.hpp"], .bytes [])]

/-- The description without a comment, up to the end of its include. -/
def including : List Char := "#include \"a.hpp\"".toList

theorem endsInclude_including : EndsInclude including [] :=
  ⟨[], including, including, [], including.tail, including.tail, by decide, by decide +kernel, by
    decide, by decide, by decide, .inl (by decide)⟩

/-- Behind an include even the comment `// note` spoils a parse. -/
theorem include_spoiled_by_note :
    IsComment [] "// note".toList ∧ EndsInclude including [] ∧
      ((noting.withText "/m/description.ext" including).parse "/m/description.ext").result.isOk
        = true ∧
      ((noting.withText "/m/description.ext" (commented including "// note".toList [])).parse
        "/m/description.ext").result.isOk = false :=
  ⟨.line (by decide) (by simp [spanLine]), endsInclude_including, by decide +kernel, by
    decide +kernel⟩

/-- Between a class and its contents a comment with signs in it, and one behind the include. -/
theorem parse_commented_noting :
    let before := "class A\x7bx=1".toList
    let after := ";\x7d;\n#include \"a.hpp\"".toList
    let parseWith (text : List Char) : Outcome String :=
      (noting.withText "/m/description.ext" text).parse "/m/description.ext"
    (parseWith (commented before "/* ' // */".toList after)).opened
      = ["/m/description.ext", "/m/a.hpp"] ∧
      (parseWith (commented before "/* ' // */".toList after)).result.isOk = true ∧
      SameApartFromPlaces (parseWith (before ++ after)).result
        (parseWith (commented before "/* ' // */".toList after)).result ∧
    ((parseWith (commented including "// note".toList [])).result.isOk = true ↔
      (parseWith including).result.isOk = true ∧ ∀ f ∈ (parseWith including).opened,
        noting.disk.absolute f ≠ noting.disk.absolute "/m/description.ext") := by
  intro before after parseWith
  have htoken : EndsToken before after :=
    ⟨(lexemes before).dropLast, .word "1".toList, lexemes after, trivial, by decide +kernel, by
      decide +kernel⟩
  have hblock : IsComment after ('/' :: '*' :: (" ' // ".toList ++ ['*', '/'])) :=
    .block (by decide) (by decide)
  obtain ⟨hopened, -, hsame⟩ :=
    (parse_commented noting "/m/description.ext" "/m/description.ext" hblock).1 htoken
  refine ⟨hopened.trans (by decide +kernel), by decide +kernel, hsame, ?_⟩
  have hunlike : Unlike "// note".toList := by
    intro c hc
    obtain rfl : 'e' = c := Option.some.inj hc
    decide
  exact (parse_commented noting "/m/description.ext" "/m/description.ext"
    (.line (by decide) (by simp [spanLine]))).2
    endsInclude_including hunlike

end MissionIndex.Config
