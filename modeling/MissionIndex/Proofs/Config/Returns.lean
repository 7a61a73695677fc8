import MissionIndex.Proofs.Config.Layout
import MissionIndex.Proofs.Config.Relabelling
import MissionIndex.Proofs.Text.Returns

/-!
# Lexemes without carriage returns

A text and the same text without its carriage returns are cut into the same lexemes, but for the
carriage returns in them. By itself a carriage return is a blank, and it is lost; inside of
comments, directives and quoted texts it goes with the line feed after it. So the tokens are the
same, in the same places, up to the line ends in quoted texts (`lineEnds`).

## Which text is walked through

The lexemes are those of the text with carriage returns, and each of them has its shape in front of
the rest without (`Lexeme.Shape.dropReturns`). So the order in which the cases of a cut are tried
plays no part.
-/

namespace MissionIndex.Config

open Text

variable {cs : List Char}

/-! ## Parts of lexemes -/

theorem endsWord_dropReturns (h : PairsReturns cs) : endsWord (dropReturns cs) = endsWord cs := by
  cases cs with
  | nil => rfl
  | cons c cs =>
    obtain ⟨hpair, hcs⟩ := pairsReturns_cons.mp h
    by_cases hc : c = '\r'
    · obtain ⟨more, rfl⟩ := List.head?_eq_some_iff.mp (hpair hc)
      rw [hc]
      rfl
    · have hhead : ∀ d : Char, d ≠ '\r' ∧ d ≠ '\n' →
          ((dropReturns cs).head? == some d) = (cs.head? == some d) := fun d hd ↦ by
        rw [Bool.eq_iff_iff, beq_iff_eq, beq_iff_eq, head?_dropReturns_eq_iff hcs hd]
      rw [dropReturns_cons hc]
      simp only [endsWord, hhead '/' (by decide), hhead '*' (by decide), hhead '=' (by decide)]

theorem spanWord_dropReturns (h : PairsReturns cs) :
    spanWord (dropReturns cs) = ((spanWord cs).1, dropReturns (spanWord cs).2) := by
  induction cs with
  | nil => rfl
  | cons c cs ih =>
    cases hend : endsWord (c :: cs) with
    | true =>
      have hend' : endsWord (dropReturns (c :: cs)) = true := by rw [endsWord_dropReturns h, hend]
      rw [spanWord_of_endsWord hend, spanWord_of_endsWord hend']
    | false =>
      have hc : c ≠ '\r' := fun hc ↦ by
        rw [hc] at hend
        cases hend
      have hend' := endsWord_dropReturns h
      rw [dropReturns_cons hc, hend] at hend'
      rw [dropReturns_cons hc, spanWord_cons_of_not_endsWord hend',
        spanWord_cons_of_not_endsWord hend, ih (pairsReturns_cons.mp h).2]

theorem spanComment_dropReturns (h : PairsReturns cs) :
    spanComment (dropReturns cs)
      = (spanComment cs).map fun (raw, rest) ↦ (dropReturns raw, dropReturns rest) := by
  fun_induction spanComment cs with
  | case1 => rfl
  | case2 rest => rfl
  | case3 c cs hne ih =>
    obtain ⟨hpair, hcs⟩ := pairsReturns_cons.mp h
    rw [Option.map_map]
    by_cases hc : c = '\r'
    · rw [hc, dropReturns_return, ih hcs]
      rfl
    · rw [dropReturns_cons hc, spanComment, ih hcs, Option.map_map]
      · congr 1
        funext span
        exact congrArg (·, dropReturns span.2) (dropReturns_cons hc span.1).symm
      -- The end of the comment does not come forward.
      · intro more hstar hmore
        have hslash : cs.head? = some '/' := by
          rw [← head?_dropReturns_eq_iff hcs (by decide), hmore]
          rfl
        obtain ⟨more, rfl⟩ := List.head?_eq_some_iff.mp hslash
        exact hne more hstar rfl

theorem spanQuoted_dropReturns {q : Char} (hq : q ≠ '\r' ∧ q ≠ '\n') (h : PairsReturns cs) :
    spanQuoted q (dropReturns cs) = (spanQuoted q cs).map fun (raw, value, rest) ↦
      (dropReturns raw, dropReturns value, dropReturns rest) := by
  have hself : ∀ ds, dropReturns (q :: ds) = q :: dropReturns ds := dropReturns_cons hq.1
  have hquote : dropReturns [q] = [q] := hself []
  fun_induction spanQuoted q cs with
  | case1 => rfl
  | case2 =>
    rw [hself, Option.map_some]
    exact (spanQuoted_closed (by rintro ⟨⟩)).trans (by simp only [hquote, dropReturns_nil])
  | case3 ds ih =>
    have hds := (pairsReturns_cons.mp (pairsReturns_cons.mp h).2).2
    rw [hself, hself, spanQuoted, if_pos rfl, if_pos rfl, ih hds, Option.map_map, Option.map_map]
    congr 1
    funext span
    simp only [Function.comp_apply, hself]
  | case4 d ds hd =>
    have hhead : (dropReturns (d :: ds)).head? ≠ some q := fun hhead ↦ hd <| by
      rw [head?_dropReturns_eq_iff (pairsReturns_cons.mp h).2 hq] at hhead
      exact Option.some.inj hhead
    rw [hself, Option.map_some]
    exact (spanQuoted_closed hhead).trans (by simp only [hquote, dropReturns_nil])
  | case5 c cs hne ih =>
    obtain ⟨-, hcs⟩ := pairsReturns_cons.mp h
    rw [Option.map_map]
    by_cases hc : c = '\r'
    · rw [hc, dropReturns_return, ih hcs]
      rfl
    · rw [dropReturns_cons hc, spanQuoted_of_ne hne, ih hcs, Option.map_map]
      congr 1
      funext span
      simp only [Function.comp_apply, dropReturns_cons hc]

theorem spanDirective_dropReturns (h : PairsReturns cs) :
    spanDirective (dropReturns cs)
      = (dropReturns (spanDirective cs).1, dropReturns (spanDirective cs).2.1,
        dropReturns (spanDirective cs).2.2) := by
  have hbackslash : ∀ ds, dropReturns ('\\' :: ds) = '\\' :: dropReturns ds :=
    dropReturns_cons (by decide)
  have hfeed : ∀ ds, dropReturns ('\n' :: ds) = '\n' :: dropReturns ds :=
    dropReturns_cons (by decide)
  fun_induction spanDirective cs with
  | case1 => rfl
  | case2 cs raw line rest hspan ih =>
    have hcs := (pairsReturns_cons.mp (pairsReturns_cons.mp h).2).2
    rw [hspan] at ih
    rw [hbackslash, hfeed, spanDirective, ih hcs, hbackslash, hfeed]
  | case3 cs raw line rest hspan ih =>
    have hcs := (pairsReturns_cons.mp (pairsReturns_cons.mp (pairsReturns_cons.mp h).2).2).2
    rw [hspan] at ih
    rw [hbackslash, dropReturns_return, hfeed, spanDirective, ih hcs, hbackslash,
      dropReturns_return, hfeed]
  | case4 cs =>
    rw [hfeed, spanDirective]
    · rfl
    all_goals exact fun _ hc ↦ absurd hc (by decide)
  | case5 c cs hlf hcrlf hne raw line rest hspan ih =>
    obtain ⟨hpair, hcs⟩ := pairsReturns_cons.mp h
    rw [hspan] at ih
    by_cases hc : c = '\r'
    · rw [hc, dropReturns_return, ih hcs]
      rfl
    · rw [dropReturns_cons hc, spanDirective_cons hne, ih hcs, dropReturns_cons hc,
        dropReturns_cons hc]
      rintro rfl hbreak
      -- A line that goes on without the carriage return went on with it.
      have hhead : (dropReturns cs).head? = some '\n' := by
        rcases hbreak with hbreak | ⟨hbreak, -⟩
        · exact hbreak
        · exact absurd (List.mem_of_mem_head? hbreak) (return_notMem_dropReturns cs)
      rw [head?_dropReturns hcs] at hhead
      split at hhead
      · next hreturn =>
        obtain ⟨more, rfl⟩ := List.head?_eq_some_iff.mp hreturn
        obtain ⟨more, rfl⟩ := List.head?_eq_some_iff.mp ((pairsReturns_cons.mp hcs).1 rfl)
        exact hcrlf more rfl rfl
      · obtain ⟨more, rfl⟩ := List.head?_eq_some_iff.mp hhead
        exact hlf more rfl rfl

/-- A carriage return can only be at the end of a directive. -/
theorem dropReturns_of_spanDirective {raw line rest : List Char} (h : PairsReturns cs)
    (hspan : spanDirective cs = (raw, line, rest)) :
    dropReturns line = line ∨ line = dropReturns line ++ ['\r'] := by
  fun_induction spanDirective cs generalizing raw line with
  | case1 =>
    cases hspan
    exact .inl rfl
  | case2 cs a l r hspan' ih =>
    cases hspan
    exact ih (pairsReturns_cons.mp (pairsReturns_cons.mp h).2).2 hspan'
  | case3 cs a l r hspan' ih =>
    cases hspan
    exact ih (pairsReturns_cons.mp (pairsReturns_cons.mp (pairsReturns_cons.mp h).2).2).2 hspan'
  | case4 cs =>
    cases hspan
    exact .inl rfl
  | case5 c cs hlf hcrlf hne a l r hspan' ih =>
    cases hspan
    obtain ⟨hpair, hcs⟩ := pairsReturns_cons.mp h
    by_cases hc : c = '\r'
    · obtain ⟨more, rfl⟩ := List.head?_eq_some_iff.mp (hpair hc)
      cases hspan'
      rw [hc]
      exact .inr rfl
    · rw [dropReturns_cons hc]
      exact (ih hcs hspan').imp (congrArg (c :: ·)) (congrArg (c :: ·))

/-- What a quoted text means has its carriage returns in pairs, too. -/
theorem pairsReturns_of_spanQuoted {q : Char} (hq : q ≠ '\r' ∧ q ≠ '\n')
    {raw value rest : List Char} (h : PairsReturns cs)
    (hspan : spanQuoted q cs = some (raw, value, rest)) :
    PairsReturns value ∧ raw.getLast? = some q := by
  fun_induction spanQuoted q cs generalizing raw value with
  | case1 => cases hspan
  | case2 =>
    cases hspan
    exact ⟨pairsReturns_nil, rfl⟩
  | case3 ds ih =>
    obtain ⟨⟨a, v, b⟩, hab, heq⟩ := Option.map_eq_some_iff.mp hspan
    cases heq
    obtain ⟨hvalue, hlast⟩ := ih (pairsReturns_cons.mp (pairsReturns_cons.mp h).2).2 hab
    refine ⟨pairsReturns_cons.mpr ⟨fun hc ↦ absurd hc hq.1, hvalue⟩, ?_⟩
    rw [List.getLast?_cons_cons, List.getLast?_cons, hlast, Option.getD_some]
  | case4 d ds hd =>
    cases hspan
    exact ⟨pairsReturns_nil, rfl⟩
  | case5 c cs hne ih =>
    obtain ⟨⟨a, v, b⟩, hab, heq⟩ := Option.map_eq_some_iff.mp hspan
    cases heq
    obtain ⟨hpair, hcs⟩ := pairsReturns_cons.mp h
    obtain ⟨hvalue, hlast⟩ := ih hcs hab
    refine ⟨pairsReturns_cons.mpr ⟨fun hc ↦ ?_, hvalue⟩, ?_⟩
    · -- The line feed after the carriage return is no quote, so it comes next in the meaning.
      obtain ⟨more, rfl⟩ := List.head?_eq_some_iff.mp (hpair hc)
      rw [spanQuoted_of_ne hq.2.symm] at hab
      obtain ⟨⟨a', v', b'⟩, -, heq⟩ := Option.map_eq_some_iff.mp hab
      cases heq
      rfl
    · rw [List.getLast?_cons, hlast, Option.getD_some]

/-! ## Lexemes -/

def Lexeme.dropReturns : Lexeme → Lexeme
  | .blank c => .blank c
  | .comment raw => .comment (Text.dropReturns raw)
  | .directive raw line => .directive (Text.dropReturns raw) (Text.dropReturns line)
  | .quoted raw value => .quoted (Text.dropReturns raw) (Text.dropReturns value)
  | .mark m => .mark m
  | .word raw => .word raw
  | .openComment raw => .openComment (Text.dropReturns raw)
  | .openQuote raw => .openQuote (Text.dropReturns raw)

theorem isBlank_return : isBlank '\r' = true := by decide

theorem return_notMem_of_isWord {w : List Char} (h : IsWord w) : '\r' ∉ w := fun hmem ↦ by
  have hblank := (h.chars _ hmem).1
  rw [isBlank_return] at hblank
  cases hblank

theorem ne_of_isQuote {q : Char} (h : isQuote q = true) : q ≠ '\r' ∧ q ≠ '\n' := by
  rcases isQuote_iff.mp h with rfl | rfl <;> decide

/-- **A lexeme without carriage returns has its shape** in front of the rest without carriage
returns. -/
theorem Lexeme.Shape.dropReturns {fresh : Bool} {rest : List Char} {lexeme : Lexeme}
    (hshape : lexeme.Shape fresh rest) (h : PairsReturns (lexeme.raw ++ rest))
    (hne : lexeme ≠ .blank '\r') :
    lexeme.dropReturns.Shape fresh (Text.dropReturns rest) ∧
    lexeme.dropReturns.raw = Text.dropReturns lexeme.raw := by
  cases hshape with
  | @blank c hblank =>
    have hc : c ≠ '\r' := fun hc ↦ hne (congrArg Lexeme.blank hc)
    exact ⟨.blank hblank, (dropReturns_cons hc []).symm⟩
  | @lineComment body hbody hrest =>
    refine ⟨.lineComment (fun hmem ↦ hbody (List.mem_filter.mp hmem).1) ?_, rfl⟩
    cases rest with
    | nil => trivial
    | cons d rest =>
      obtain rfl : d = '\n' := hrest
      rfl
  | @blockComment body hspan =>
    have hbody : PairsReturns (body ++ rest) := (pairsReturns_cons.mp (pairsReturns_cons.mp h).2).2
    have hraw : Text.dropReturns ('/' :: '*' :: body) = '/' :: '*' :: Text.dropReturns body := rfl
    rw [Lexeme.dropReturns, hraw]
    refine ⟨.blockComment ?_, hraw.symm⟩
    rw [← dropReturns_append, spanComment_dropReturns hbody, hspan]
    rfl
  | @directive body line hfresh hspan =>
    have hbody : PairsReturns (body ++ rest) := (pairsReturns_cons.mp h).2
    have hraw : ∀ ds, Text.dropReturns ('#' :: ds) = '#' :: Text.dropReturns ds := fun _ ↦ rfl
    rw [Lexeme.dropReturns, hraw, hraw]
    refine ⟨.directive hfresh ?_, (hraw body).symm⟩
    rw [← dropReturns_append, spanDirective_dropReturns hbody, hspan]
  | @quoted q body value hq hspan =>
    have hbody : PairsReturns (body ++ rest) := (pairsReturns_cons.mp h).2
    have hraw : Text.dropReturns (q :: body) = q :: Text.dropReturns body :=
      dropReturns_cons (ne_of_isQuote hq).1 body
    rw [Lexeme.dropReturns, hraw]
    refine ⟨.quoted hq ?_, hraw.symm⟩
    rw [← dropReturns_append, spanQuoted_dropReturns (ne_of_isQuote hq) hbody, hspan]
    rfl
  | @mark m => exact ⟨.mark, by cases m <;> rfl⟩
  | @word w hw hspan hfresh =>
    have hsame : Text.dropReturns w = w :=
      dropReturns_of_notMem (return_notMem_of_isWord (isWord_of_spanWord hw hspan))
    have hspan' := spanWord_dropReturns h
    rw [Lexeme.raw, hspan, dropReturns_append, hsame] at hspan'
    exact ⟨.word hw hspan' hfresh, hsame.symm⟩
  | @openComment body hspan hrest =>
    rw [hrest, List.append_nil] at h
    have hbody : PairsReturns body := (pairsReturns_cons.mp (pairsReturns_cons.mp h).2).2
    have hraw : Text.dropReturns ('/' :: '*' :: body) = '/' :: '*' :: Text.dropReturns body := rfl
    rw [Lexeme.dropReturns, hraw]
    refine ⟨.openComment ?_ (by rw [hrest]; rfl), hraw.symm⟩
    rw [spanComment_dropReturns hbody, hspan]
    rfl
  | @openQuote q body hq hspan hrest =>
    rw [hrest, List.append_nil] at h
    have hbody : PairsReturns body := (pairsReturns_cons.mp h).2
    have hraw : Text.dropReturns (q :: body) = q :: Text.dropReturns body :=
      dropReturns_cons (ne_of_isQuote hq).1 body
    rw [Lexeme.dropReturns, hraw]
    refine ⟨.openQuote hq ?_ (by rw [hrest]; rfl), hraw.symm⟩
    rw [spanQuoted_dropReturns (ne_of_isQuote hq) hbody, hspan]
    rfl

/-! ## Pieces -/

/-- The change of line ends in quoted texts and values: every CR LF becomes a line feed. -/
def lineEnds : Relabelling where
  text s := String.ofList (unifyPairs s.toList)
  location l := l
  text_intercalate texts := by
    have hmap : (texts.map fun s ↦ String.ofList (unifyPairs s.toList)).map String.toList
        = (texts.map String.toList).map unifyPairs := by
      simp only [List.map_map, Function.comp_def, String.toList_ofList]
    apply String.toList_injective
    rw [String.toList_ofList, String.toList_intercalate, String.toList_intercalate, hmap]
    exact unifyPairs_intercalate (texts.map String.toList)

theorem lineEnds_text_of_notMem {s : String} (h : '\r' ∉ s.toList) : lineEnds.text s = s := by
  simp only [lineEnds, unifyPairs_of_notMem h, String.ofList_toList]

theorem lineEnds_text_dropReturns (h : PairsReturns cs) :
    lineEnds.text (String.ofList (dropReturns cs)) = lineEnds.text (String.ofList cs) := by
  simp only [lineEnds, String.toList_ofList, unifyPairs_eq h,
    unifyPairs_of_notMem (return_notMem_dropReturns cs)]

def Piece.relabel (φ : Relabelling) : Piece → Piece
  | .token t => .token (t.relabel φ)
  | piece => piece

/-- A lexeme and the same without carriage returns amount to the same up to line ends. -/
theorem pieceAt_dropReturns (file : String) {fresh : Bool} {before rest : List Char}
    {lexeme : Lexeme} (hshape : lexeme.Shape fresh rest)
    (h : PairsReturns (before ++ (lexeme.raw ++ rest))) :
    (pieceAt file (.after (dropReturns before)) lexeme.dropReturns).map (Piece.relabel lineEnds)
      = (pieceAt file (.after before) lexeme).map (Piece.relabel lineEnds) := by
  have hraw : PairsReturns (lexeme.raw ++ rest) := h.append_right
  -- A lexeme that amounts to something neither starts with a line feed nor ends in a carriage
  -- return.
  have hstart : lexeme.raw.head? ≠ some '\n' → Position.after (dropReturns before)
      = .after before := by
    intro hhead
    refine after_dropReturns (h.append_left_of_head ?_)
    rwa [List.head?_append_of_ne_nil _ hshape.raw_ne_nil]
  have hstop : lexeme.raw.head? ≠ some '\n' → lexeme.raw.getLast? ≠ some '\r' →
      (Position.after before).advance (dropReturns lexeme.raw)
      = (Position.after before).advance lexeme.raw := by
    intro hhead hlast
    have hlast' : (before ++ lexeme.raw).getLast? ≠ some '\r' := by
      rwa [List.getLast?_append_of_ne_nil _ hshape.raw_ne_nil]
    rw [← List.append_assoc] at h
    have hwhole := after_dropReturns (h.append_left hlast')
    rwa [dropReturns_append, ← Position.advance_after, ← Position.advance_after, hstart hhead]
      at hwhole
  cases hshape with
  | blank | lineComment | blockComment => rfl
  | @directive body line hfresh hspan =>
    have htrim : trim (dropReturns ('#' :: line)) = trim ('#' :: line) := by
      have hhash : dropReturns ('#' :: line) = '#' :: dropReturns line := rfl
      rw [hhash]
      rcases dropReturns_of_spanDirective (pairsReturns_cons.mp hraw).2 hspan with hline | hline
      · rw [hline]
      · conv_rhs => rw [hline, ← List.cons_append, trim_concat _ isBlank_return]
    simp only [Lexeme.dropReturns, pieceAt, htrim, hstart (by simp [Lexeme.raw])]
  | @quoted q body value hq hspan =>
    obtain ⟨hvalue, hlast⟩ :=
      pairsReturns_of_spanQuoted (ne_of_isQuote hq) (pairsReturns_cons.mp hraw).2 hspan
    have hhead : (q :: body).head? ≠ some '\n' := by simp [(ne_of_isQuote hq).2]
    have hne : (q :: body).getLast? ≠ some '\r' := by
      simp [List.getLast?_cons, hlast, (ne_of_isQuote hq).1]
    have hwhole : PairsReturns (q :: body) := hraw.append_left hne
    have hend := hstop hhead hne
    rw [Lexeme.raw] at hend
    simp only [Lexeme.dropReturns, pieceAt, Option.map_some, Piece.relabel, Token.relabel,
      Token.Kind.relabel, lineEnds_text_dropReturns hvalue,
      lineEnds_text_dropReturns hwhole, Lexeme.raw,
      hstart hhead, hend]
  | @mark m =>
    have hhead : m.raw.head? ≠ some '\n' := by cases m <;> decide
    simp only [Lexeme.dropReturns, pieceAt, Lexeme.raw, hstart hhead]
  | @word w hw hspan =>
    have hhead : w.head? ≠ some '\n' := fun hhead ↦ by
      have hblank := ((isWord_of_spanWord hw hspan).chars _ (List.mem_of_mem_head? hhead)).1
      cases hblank
    simp only [Lexeme.dropReturns, pieceAt, Lexeme.raw, hstart hhead]
  | openComment => simp only [Lexeme.dropReturns, pieceAt, hstart (by simp [Lexeme.raw])]
  | openQuote hq => simp only [Lexeme.dropReturns, pieceAt,
      hstart (by simp [Lexeme.raw, (ne_of_isQuote hq).2])]

theorem staysFresh_dropReturns (fresh : Bool) (lexeme : Lexeme) :
    lexeme.dropReturns.staysFresh fresh = lexeme.staysFresh fresh := by
  cases lexeme <;> rfl

/-- A text and the same without carriage returns come to the same pieces up to line ends. -/
theorem piecesFrom_dropReturns (file : String) (fresh : Bool) (before text : List Char)
    (h : PairsReturns (before ++ text)) :
    (piecesFrom file (.after (dropReturns before)) (lexemesFrom fresh (dropReturns text))).map
        (Piece.relabel lineEnds)
      = (piecesFrom file (.after before) (lexemesFrom fresh text)).map
        (Piece.relabel lineEnds) := by
  fun_induction lexemesFrom fresh text generalizing before with
  | case1 => rw [dropReturns_nil, lexemesFrom.eq_def]; rfl
  | case2 fresh c cs ih =>
    cases hcut : cutLexeme fresh c cs with | mk lexeme rest =>
    obtain ⟨hshape, htext⟩ := cutLexeme_eq_iff.mp hcut
    rw [hcut] at ih
    rw [htext] at h ⊢
    have ih := ih (before ++ lexeme.raw) (by rwa [List.append_assoc])
    rw [piecesFrom, Position.advance_after, List.map_append, ← ih]
    by_cases hreturn : lexeme = .blank '\r'
    · have hnone : dropReturns ['\r'] = [] := rfl
      have hstays : (Lexeme.blank '\r').staysFresh fresh = fresh := rfl
      rw [hreturn, Lexeme.raw, hstays, dropReturns_append, dropReturns_append, hnone,
        List.append_nil]
      rfl
    · obtain ⟨hshape', hraw⟩ := hshape.dropReturns h.append_right hreturn
      rw [dropReturns_append, ← hraw, lexemesFrom_append hshape', staysFresh_dropReturns,
        piecesFrom, List.map_append, Position.advance_after, hraw, ← dropReturns_append]
      congr 1
      have hpiece := congrArg Option.toList (pieceAt_dropReturns file hshape h)
      rwa [Option.toList_map, Option.toList_map] at hpiece

/-- **Apart from line ends in quoted texts, the pieces of a file do not depend on carriage returns**
before line feeds. -/
theorem pieces_dropReturns (file : String) {text : List Char} (h : PairsReturns text) :
    (pieces file (dropReturns text)).map (Piece.relabel lineEnds)
      = (pieces file text).map (Piece.relabel lineEnds) := by
  have hsplit : PairsReturns (text.takeWhile (· == byteOrderMark) ++ dropMarks text) := by
    rwa [dropMarks, List.takeWhile_append_dropWhile]
  rw [pieces, pieces, dropMarks_dropReturns h]
  exact piecesFrom_dropReturns file true [] (dropMarks text) hsplit.append_right

end MissionIndex.Config
