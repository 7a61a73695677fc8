import MissionIndex.Proofs.Config.Anchors

/-!
# Errors lie in their files

A parse error has a range in a file, and the range lies in the text of that file: it starts at a
place of the text and ends there, on a line that is there, and no further than the line goes.

## Continued includes

With one exception. An include reports the place of its directive, as a range on one line that is as
long as the directive is without its continuations. If it goes on in further lines, its own line may
be shorter than that, and then the range ends behind the end of the line (`Range.Overhangs`).
-/

namespace MissionIndex

open Text

/-! ## Places in a text -/

/-- A place comes no later than another one. -/
instance : LE Position where
  le p q := p.line < q.line ∨ p.line = q.line ∧ p.character ≤ q.character

/-- A place is in a text: on one of its lines, and no further than the end of the line. -/
def Position.StandsIn (text : List Char) (p : Position) : Prop :=
  ∃ line, (lines text)[p.line]? = some line ∧ p.character ≤ line.length

namespace Position

theorem after_le_append (before raw : List Char) : after before ≤ after (before ++ raw) := by
  obtain ⟨last, hlast, hraw | ⟨front, hraw⟩⟩ := exists_lastLine raw
  · have hends : ∀ c ∈ raw.reverse, (c != '\n') = true := fun c hc ↦
      bne_iff_ne.mpr fun he ↦ hlast (hraw ▸ he ▸ List.mem_reverse.mp hc)
    refine .inr ⟨?_, ?_⟩
    · simp only [after, List.count_append, List.count_eq_zero.mpr (hraw ▸ hlast), Nat.add_zero]
    · simp only [after, List.reverse_append, List.takeWhile_append_of_pos hends, List.length_append]
      exact Nat.le_add_left _ _
  · left
    rw [hraw, ← List.append_assoc, after_append_line _ hlast, List.count_append, after]
    exact Nat.lt_succ_of_le (Nat.le_add_right _ _)

theorem le_right (p : Position) (n : Nat) : p ≤ p.right n := .inr ⟨rfl, Nat.le_add_right _ _⟩

protected theorem le_refl (p : Position) : p ≤ p := .inr ⟨rfl, le_rfl⟩

theorem exists_lines_eq_cons (text : List Char) :
    ∃ more, lines text = text.takeWhile (· != '\n') :: more := by
  induction text with
  | nil => exact ⟨[], rfl⟩
  | cons c text ih =>
    obtain ⟨more, hmore⟩ := ih
    by_cases hc : c = '\n'
    · refine ⟨lines text, ?_⟩
      rw [List.takeWhile_cons_of_neg (by simp [hc]), lines, splitAt, if_pos hc, lines]
    · obtain ⟨first, rest, hlines, hcons⟩ := lines_cons_of_ne hc text
      obtain ⟨rfl, rfl⟩ := List.cons.inj (hmore.symm.trans hlines)
      refine ⟨more, ?_⟩
      rw [hcons, List.takeWhile_cons_of_pos (by simp [hc])]

/-- The line of the place after a piece of text goes on up to the next line feed. -/
theorem exists_line_after (before rest : List Char) : ∃ last,
    (lines (before ++ rest))[(after before).line]? = some (last ++ rest.takeWhile (· != '\n')) ∧
      last.length = (after before).character := by
  obtain ⟨last, hlast, hbefore⟩ := exists_lastLine before
  have htake : (last ++ rest).takeWhile (· != '\n') = last ++ rest.takeWhile (· != '\n') :=
    List.takeWhile_append_of_pos fun c hc ↦ bne_iff_ne.mpr fun he ↦ hlast (he ▸ hc)
  obtain ⟨more, hmore⟩ := exists_lines_eq_cons (last ++ rest)
  rw [htake] at hmore
  refine ⟨last, ?_⟩
  rcases hbefore with rfl | ⟨front, rfl⟩
  · rw [after_line hlast, hmore]
    exact ⟨rfl, rfl⟩
  · have hlines : lines (front ++ '\n' :: last ++ rest) = lines front ++ lines (last ++ rest) := by
      rw [List.append_assoc, List.cons_append]
      exact Path.splitAt_append '\n' front (last ++ rest)
    rw [after_append_line front hlast, hlines, hmore, ← (sum_lines front).1,
      List.getElem?_append_right le_rfl, Nat.sub_self]
    exact ⟨rfl, rfl⟩

theorem standsIn_right_iff (before rest : List Char) (n : Nat) :
    ((after before).right n).StandsIn (before ++ rest) ↔
    n ≤ (rest.takeWhile (· != '\n')).length := by
  obtain ⟨last, hline, hlength⟩ := exists_line_after before rest
  constructor
  · rintro ⟨line, hline', hle⟩
    obtain rfl := Option.some.inj (hline.symm.trans hline')
    rw [List.length_append, hlength] at hle
    exact Nat.add_le_add_iff_left.mp hle
  · intro hle
    refine ⟨_, hline, ?_⟩
    rw [List.length_append, hlength]
    exact Nat.add_le_add_left hle _

theorem standsIn_after (before rest : List Char) : (after before).StandsIn (before ++ rest) :=
  (standsIn_right_iff before rest 0).mpr (Nat.zero_le _)

end Position

/-- A range lies in a text: it goes from a place of the text to another one, not before it. -/
structure Range.LiesIn (text : List Char) (r : Range) : Prop where
  start : r.start.StandsIn text
  ordered : r.start ≤ r.stop
  stop : r.stop.StandsIn text

namespace Range

theorem liesIn_after (before raw rest : List Char) :
    LiesIn (before ++ (raw ++ rest)) ⟨.after before, .after (before ++ raw)⟩ := by
  refine ⟨Position.standsIn_after _ _, Position.after_le_append _ _, ?_⟩
  rw [← List.append_assoc]
  exact Position.standsIn_after _ _

theorem liesIn_ofLength {before rest : List Char} {n : Nat}
    (h : n ≤ (rest.takeWhile (· != '\n')).length) :
    LiesIn (before ++ rest) (.ofLength (.after before) n) :=
  ⟨Position.standsIn_after _ _, Position.le_right _ _, (Position.standsIn_right_iff _ _ _).mpr h⟩

theorem LiesIn.end {text : List Char} {r : Range} (h : r.LiesIn text) :
    LiesIn text ⟨r.stop, r.stop⟩ :=
  ⟨h.stop, Position.le_refl _, h.stop⟩

end Range

namespace Config

/-! ## Ranges of pieces -/

/-- An include directive that goes on in further lines has this range, and without its continuations
it is longer than its own line. -/
def Overhangs (text : List Char) (r : Range) : Prop :=
  ∃ before raw line rest, text = before ++ (raw ++ rest) ∧ StartsLine before ∧
    (Lexeme.directive raw line).Shape true rest ∧ includeWord <+: trim line ∧
      r = .ofLength (.after before) (trim line).length ∧
      (spanLine raw).1.length < (trim line).length

/-- The line of a directive goes no further than the first line of its text. -/
theorem takeWhile_directive {raw line rest : List Char}
    (h : (Lexeme.directive raw line).Shape true rest) :
    (raw ++ rest).takeWhile (· != '\n') = (spanLine raw).1 := by
  have hrest : AtLineEnd rest := by
    cases h with
    | @directive body line hfresh hspan =>
      have hend := atLineEnd_spanDirective (body ++ rest)
      rwa [hspan] at hend
  rw [spanLine, List.takeWhile_append]
  split
  · next hwhole =>
    have htake : rest.takeWhile (· != '\n') = [] := by
      cases rest with
      | nil => rfl
      | cons d more =>
        obtain rfl : d = '\n' := hrest
        rfl
    rw [htake, List.append_nil]
    exact ((List.takeWhile_prefix _).eq_of_length hwhole).symm
  · rfl

/-- A range that overhangs starts in the text and stays on its line, but does not end in the
text. -/
theorem Overhangs.start_and_stop {text : List Char} {r : Range} (h : Overhangs text r) :
    r.start.StandsIn text ∧ r.start ≤ r.stop ∧ r.stop.line = r.start.line ∧
    ¬ r.stop.StandsIn text := by
  obtain ⟨before, raw, line, rest, rfl, -, hshape, -, rfl, hlength⟩ := h
  refine ⟨Position.standsIn_after _ _, Position.le_right _ _, rfl, ?_⟩
  rw [Range.ofLength, Position.standsIn_right_iff, takeWhile_directive hshape]
  exact not_le.mpr hlength

/-- A range lies in the text, or it is that of an include that is longer than its line. -/
def Fits (text : List Char) (r : Range) : Prop := r.LiesIn text ∨ Overhangs text r

theorem fits_include {before raw line rest : List Char} (hbefore : StartsLine before)
    (hshape : (Lexeme.directive raw line).Shape true rest) (hinclude : includeWord <+: trim line) :
    Fits (before ++ (raw ++ rest)) (.ofLength (.after before) (trim line).length) := by
  by_cases hlength : (trim line).length ≤ (spanLine raw).1.length
  · refine .inl (Range.liesIn_ofLength ?_)
    rwa [takeWhile_directive hshape]
  · exact .inr ⟨before, raw, line, rest, rfl, hbefore, hshape, hinclude, rfl, not_le.mp hlength⟩

def Piece.Fits (text : List Char) : Piece → Prop
  | .token t => t.location.range.LiesIn text
  | .include _ range => Config.Fits text range
  | .fault e => Config.Fits text e.location.range

theorem fits_pieceAt {file : String} {fresh : Bool} {before rest : List Char} {lexeme : Lexeme}
    {piece : Piece} (hshape : lexeme.Shape fresh rest) (hfresh : fresh = true → StartsLine before)
    (h : pieceAt file (.after before) lexeme = some piece) :
    piece.Fits (before ++ (lexeme.raw ++ rest)) := by
  cases hshape with
  | blank | lineComment | blockComment => cases h
  | word | quoted | mark =>
    cases h
    rw [Piece.Fits, Position.advance_after]
    exact Range.liesIn_after _ _ _
  | openComment =>
    cases h
    exact .inl (Range.liesIn_ofLength (Nat.le_add_left 2 _))
  | openQuote hq =>
    cases h
    refine .inl (Range.liesIn_ofLength ?_)
    rcases isQuote_iff.mp hq with rfl | rfl <;> exact Nat.le_add_left 1 _
  | @directive body line hline hspan =>
    simp only [pieceAt] at h
    split at h
    · next hinclude =>
      have hfits := fits_include (hfresh hline) (.directive rfl hspan)
        (List.isPrefixOf_iff_prefix.mp hinclude)
      split at h <;>
        · obtain rfl := Option.some.inj h
          exact hfits
    · cases h

theorem fits_of_mem_pieces {file : String} {text : List Char} {piece : Piece}
    (h : piece ∈ pieces file text) :
    piece.Fits (dropMarks text) := by
  suffices hfrom : ∀ (before text : List Char) (fresh : Bool), (fresh = true → StartsLine before) →
      piece ∈ piecesFrom file (.after before) (lexemesFrom fresh text) →
      piece.Fits (before ++ text) from
    hfrom [] (dropMarks text) true (fun _ ↦ nofun) h
  intro before text fresh hfresh h
  fun_induction lexemesFrom fresh text generalizing before with
  | case1 => cases h
  | case2 fresh c cs ih =>
    cases hcut : cutLexeme fresh c cs with | mk lexeme rest =>
    obtain ⟨hshape, htext⟩ := cutLexeme_eq_iff.mp hcut
    rw [hcut] at ih h
    rw [piecesFrom, Position.advance_after, List.mem_append, Option.mem_toList] at h
    rw [htext]
    rcases h with hpiece | hmore
    · exact fits_pieceAt hshape hfresh hpiece
    · rw [← List.append_assoc]
      exact ih _ (startsLine_of_staysFresh hshape hfresh) hmore

/-! ## Ranges in the files of an expansion -/

section

variable {ε : Type} (sources : Sources ε)

/-- The range of a location is like `P` for the text of its file. -/
def Sources.At (P : List Char → Range → Prop) (l : Location) : Prop :=
  ∃ text, sources.text? l.file = some text ∧ P (dropMarks text) l.range

/-- The tokens of an expansion lie in their files, and its error fits there. -/
structure Expansion.Fits (e : Expansion ε) : Prop where
  tokens : ∀ t ∈ e.tokens, sources.At (fun text r ↦ r.LiesIn text) t.location
  error : ∀ err, e.stop = some (.error err) → sources.At Config.Fits err.location

variable {sources}

namespace Expansion

theorem Fits.andThen {a : Expansion ε} {b : Unit → Expansion ε} (ha : a.Fits sources)
    (hb : (b ()).Fits sources) :
    (a.andThen b).Fits sources := by
  rw [Expansion.andThen]
  split
  · exact ha
  · exact ⟨List.forall_mem_append.mpr ⟨ha.tokens, hb.tokens⟩, hb.error⟩

theorem fits_failed {cause : Cause} {location : Location} (h : sources.At Config.Fits location) :
    (failed cause location : Expansion ε).Fits sources := by
  refine ⟨List.forall_mem_nil _, fun err he ↦ ?_⟩
  cases he
  exact h

theorem fits_ofPieces {enter : String → Range → Expansion ε} {file : String} {text : List Char}
    (htext : sources.text? file = some text)
    (henter : ∀ target range, sources.At Config.Fits ⟨file, range⟩ →
      (enter target range).Fits sources)
    {ps : List Piece} (hps : ∀ piece ∈ ps, piece.StandsIn file ∧ piece.Fits (dropMarks text)) :
    (ofPieces enter ps).Fits sources := by
  induction ps with
  | nil => exact ⟨List.forall_mem_nil _, fun err he ↦ by cases he⟩
  | cons piece rest ih =>
    obtain ⟨⟨hfile, hrange⟩, hrest⟩ := List.forall_mem_cons.mp hps
    cases piece with
    | token t =>
      have htoken : ({ tokens := [t] } : Expansion ε).Fits sources := by
        refine ⟨List.forall_mem_singleton.mpr ⟨text, ?_, hrange⟩, fun err he ↦ by cases he⟩
        rwa [show t.location.file = file from hfile]
      exact htoken.andThen (ih hrest)
    | «include» target range => exact (henter target range ⟨text, htext, hrange⟩).andThen (ih hrest)
    | fault e =>
      refine ⟨List.forall_mem_nil _, fun err he ↦ ?_⟩
      cases he
      refine ⟨text, ?_, hrange⟩
      rwa [show e.location.file = file from hfile]

end Expansion

namespace Sources

theorem location_of_textOf_eq_error {path : String} {blame : Location} {e : ParseError}
    (h : sources.textOf path blame = .error (.error e)) :
    e.location = blame ∧ sources.text? path = none := by
  constructor
  · rw [textOf] at h
    split at h
    · cases h
    · cases h
    · split at h <;> cases h
      rfl
  · rw [text?]
    cases htext : sources.textOf path default with
    | error stop => rfl
    | ok text => cases h.symm.trans (sources.textOf_eq_ok htext)

theorem fits_openFile {enter : String → Range → Expansion ε} {path : String} {blame : Location}
    (henter : ∀ target range, sources.At Config.Fits ⟨path, range⟩ →
      (enter target range).Fits sources)
    (hblame : sources.text? path = none → sources.At Config.Fits blame) :
    (sources.openFile enter path blame).Fits sources := by
  rw [openFile]
  cases htext : sources.textOf path blame with
  | ok text =>
    have htext' : sources.text? path = some text := by
      rw [text?, sources.textOf_eq_ok htext]
      rfl
    have hopened : ({ announced := [path], opened := [path] } : Expansion ε).Fits sources :=
      ⟨List.forall_mem_nil _, fun err he ↦ by cases he⟩
    exact hopened.andThen (Expansion.fits_ofPieces htext' henter fun piece hpiece ↦
      ⟨standsIn_of_mem_pieces hpiece, fits_of_mem_pieces hpiece⟩)
  | error stop =>
    refine ⟨List.forall_mem_nil _, fun err he ↦ ?_⟩
    cases he
    obtain ⟨hlocation, hnone⟩ := location_of_textOf_eq_error htext
    rw [hlocation]
    exact hblame hnone

/-- What an include contributes fits, as the include itself does, which its errors are reported
at. -/
theorem fits_expandInclude (rootFolder : String) (room : Nat) (within : List String)
    (file target : String) (range : Range) (hrange : sources.At Config.Fits ⟨file, range⟩) :
    (sources.expandInclude rootFolder room within file target range).Fits sources := by
  induction room generalizing within file target range with
  | zero => exact Expansion.fits_failed hrange
  | succ room ih =>
    rw [expandInclude]
    split
    · exact Expansion.fits_failed hrange
    · split
      · exact ⟨List.forall_mem_nil _, fun err he ↦ by cases he⟩
      · split
        · exact Expansion.fits_failed hrange
        · exact fits_openFile (fun target range ↦ ih _ _ target range) fun _ ↦ hrange

theorem fits_expandRoot {file : String} (hfile : (sources.text? file).isSome = true) :
    (sources.expandRoot file).Fits sources := by
  rw [expandRoot_eq]
  refine fits_openFile (fun target range ↦ fits_expandInclude _ _ _ _ target range) fun hnone ↦ ?_
  rw [hnone] at hfile
  cases hfile

end Sources

/-! ## Errors of a parse -/

/-- What is wrong with statements is wrong at a token, or behind the last one. -/
theorem location_of_readStatements_eq_error {file : String} {ts : List Token} {e : ParseError}
    (h : readStatements file ts = .error e) :
    ∃ t ∈ ts, e.location = t.location ∨
      e.location = ⟨t.location.file, t.location.range.stop, t.location.range.stop⟩ := by
  rw [readStatements] at h
  split at h
  · next hrun =>
    cases h
    obtain ⟨t, ht, he⟩ := Reader.location_of_run_eq_error hrun
    exact ⟨t, ht, .inl he⟩
  · next r hrun =>
    split at h
    · cases h
    · next cause hfinish =>
      cases h
      rw [endOfInput]
      cases hlast : ts.getLast? with
      | some t => exact ⟨t, List.mem_of_getLast? hlast, .inr rfl⟩
      | none =>
        -- Without tokens there are no statements, and nothing is wrong with that.
        obtain rfl := List.getLast?_eq_none_iff.mp hlast
        cases hrun
        cases hfinish

/-- **Errors lie in their files.** Where the root can be read, a parse error has its range in the
text of its file: it starts at a place of the text and ends on one of its lines, not before its
start. It ends at a place of the text just where it is not that of an include directive that goes on
in further lines and is longer than its own line. -/
theorem errors_lie_in_files (root : String)
    (hroot : (sources.text? (sources.disk.absolute root)).isSome = true)
    {e : ParseError} (h : (sources.parse root).result = .error (.error e)) :
    ∃ text, sources.text? e.location.file = some text ∧
      e.location.range.start.StandsIn (dropMarks text) ∧
      e.location.range.start ≤ e.location.range.stop ∧
      e.location.range.stop.line < (lines (dropMarks text)).length ∧
      (e.location.range.stop.StandsIn (dropMarks text) ↔
        ¬ Overhangs (dropMarks text) e.location.range) := by
  have hexpand := Sources.fits_expandRoot hroot
  have hfits : sources.At Config.Fits e.location := by
    simp only [Sources.parse] at h
    split at h
    · next stop hstop =>
      cases h
      exact hexpand.error e hstop
    · split at h
      · cases h
      · next hread =>
        cases h
        obtain ⟨t, ht, he⟩ := location_of_readStatements_eq_error hread
        obtain ⟨text, htext, hlies⟩ := hexpand.tokens t ht
        rcases he with he | he <;> rw [he]
        · exact ⟨text, htext, .inl hlies⟩
        · exact ⟨text, htext, .inl hlies.end⟩
  obtain ⟨text, htext, hrange⟩ := hfits
  refine ⟨text, htext, ?_⟩
  have hline : ∀ {p : Position}, p.StandsIn (dropMarks text) →
      p.line < (lines (dropMarks text)).length := by
    rintro p ⟨line, hline, -⟩
    exact (List.getElem?_eq_some_iff.mp hline).1
  rcases hrange with hlies | hoverhangs
  · exact ⟨hlies.start, hlies.ordered, hline hlies.stop,
      iff_of_true hlies.stop fun hoverhangs ↦ hoverhangs.start_and_stop.2.2.2 hlies.stop⟩
  · obtain ⟨hstart, hordered, hsame, hnot⟩ := hoverhangs.start_and_stop
    exact ⟨hstart, hordered, hsame ▸ hline hstart, iff_of_false hnot fun hnone ↦ hnone hoverhangs⟩

end

/-- A mission in which an included file has a byte order mark and a quoted text without an end, and
another root with an include that goes on in the next line, of a file that is not there. -/
def unclosed : Sources String where
  disk.files :=
    [(["m", "description.ext"],
      .bytes (encodeUtf8 "class A \x7b\n#include \"a.hpp\"\n\x7d;".toList)),
      (["m", "a.hpp"], .bytes (encodeUtf8 "\uFEFF// title\n t = \"p\nq;".toList)),
      (["m", "b.ext"], .bytes (encodeUtf8 "#include \\\n\"missing.hpp\"".toList))]

theorem errors_lie_in_files_unclosed :
    ∃ e, (unclosed.parse "/m/description.ext").result = .error (.error e) ∧
      e.location = ⟨"/m/a.hpp", ⟨1, 5⟩, ⟨1, 6⟩⟩ ∧
      ∃ text, unclosed.text? e.location.file = some text ∧
        e.location.range.start.StandsIn (dropMarks text) ∧
        e.location.range.start ≤ e.location.range.stop ∧
        e.location.range.stop.line < (lines (dropMarks text)).length ∧
        (e.location.range.stop.StandsIn (dropMarks text) ↔
          ¬ Overhangs (dropMarks text) e.location.range) := by
  have hstop : (match (unclosed.parse "/m/description.ext").result with
      | .error (.error e) => decide (e.location = ⟨"/m/a.hpp", ⟨1, 5⟩, ⟨1, 6⟩⟩)
      | _ => false) = true := by
    decide +kernel
  split at hstop
  · next e he =>
    exact ⟨e, he, of_decide_eq_true hstop,
      errors_lie_in_files "/m/description.ext" (by decide +kernel) he⟩
  · cases hstop

/-- The directive is 22 characters long without its continuation, and the first line of the text has
10. -/
theorem error_behind_line :
    ∃ e, (unclosed.parse "/m/b.ext").result = .error (.error e) ∧
      e.location = ⟨"/m/b.ext", ⟨0, 0⟩, ⟨0, 22⟩⟩ ∧
      ∃ text, unclosed.text? "/m/b.ext" = some text ∧
      ¬ e.location.range.stop.StandsIn (dropMarks text) := by
  have hstop : (match (unclosed.parse "/m/b.ext").result with
      | .error (.error e) => decide (e.location = ⟨"/m/b.ext", ⟨0, 0⟩, ⟨0, 22⟩⟩)
      | _ => false) = true := by
    decide +kernel
  split at hstop
  · next e he =>
    have hlocation := of_decide_eq_true hstop
    refine ⟨e, he, hlocation, "#include \\\n\"missing.hpp\"".toList, by decide +kernel, ?_⟩
    rintro ⟨line, hline, hlength⟩
    rw [hlocation] at hline hlength
    obtain rfl : "#include \\".toList = line := Option.some.inj hline
    exact absurd hlength (by decide)
  · cases hstop

end Config

end MissionIndex
