import MissionIndex.Proofs.Config.Locality
import MissionIndex.Proofs.Config.Shapes
import MissionIndex.Proofs.Text.Offsets

/-!
# Where the tokens of a file stand

The tokens of a file are parts of its text, in their order, and what is left between them is white
space, comments and directive lines. The places of a token are those of its ends, counted from the
start of the text.

## What belongs to a gap

Whether a part of the text is a comment or a directive line is not a matter of that part alone. A
line comment goes on to the end of its line, and so does a directive, which may take further lines
with it; and a `#` opens a directive only where its line has been blank so far. So a `Filler` is
said to stand between the text before it and the text after it, and a gap is a row of fillers
(`Filling`).
-/

namespace MissionIndex.Config

open Text

/-! ## Directive lines -/

/-- A line that ends like this goes on in the next one: a backslash stands in front of the line
feed, or a backslash and a carriage return. -/
def Continues (line : List Char) : Prop := ['\\'] <:+ line ∨ ['\\', '\r'] <:+ line

/-- A text is a directive with all its lines: each line feed in it continues a line, and if another
one comes after it, that one does not. -/
structure IsDirective (raw after : List Char) : Prop where
  opens : raw.head? = some '#'
  continued : ∀ front more, raw = front ++ '\n' :: more → Continues front
  ends : after = [] ∨ (∃ more, after = '\n' :: more) ∧ ¬ Continues raw

theorem Continues.cons {line : List Char} (h : Continues line) (c : Char) : Continues (c :: line) :=
  h.imp (fun h ↦ h.trans (List.suffix_cons c line)) fun h ↦ h.trans (List.suffix_cons c line)

theorem continues_cons_iff {c : Char} {line : List Char} :
    Continues (c :: line) ↔ c = '\\' ∧ (line = [] ∨ line = ['\r']) ∨ Continues line := by
  simp only [Continues, List.suffix_cons_iff, List.cons.injEq, List.nil_eq]
  constructor
  · rintro ((⟨rfl, rfl⟩ | h) | (⟨rfl, rfl⟩ | h))
    · exact .inl ⟨rfl, .inl rfl⟩
    · exact .inr (.inl h)
    · exact .inl ⟨rfl, .inr rfl⟩
    · exact .inr (.inr h)
  · rintro (⟨rfl, rfl | rfl⟩ | h | h)
    · exact .inl (.inl ⟨rfl, rfl⟩)
    · exact .inr (.inl ⟨rfl, rfl⟩)
    · exact .inl (.inr h)
    · exact .inr (.inr h)

/-- The line feeds in what follows the opening sign of a directive continue its lines, and one after
it does not. -/
theorem continues_of_spanDirective {cs raw line rest : List Char}
    (h : spanDirective cs = (raw, line, rest)) :
    (∀ front more, raw = front ++ '\n' :: more → Continues front) ∧
    (rest ≠ [] → ¬ Continues raw) := by
  fun_induction spanDirective cs generalizing raw line with
  | case1 =>
    cases h
    exact ⟨fun front more hraw ↦ (by simp at hraw), fun hrest ↦ absurd rfl hrest⟩
  | case2 cs a l r hspan ih =>
    cases h
    obtain ⟨hfeeds, hends⟩ := ih hspan
    refine ⟨fun front more hraw ↦ ?_, fun hrest hcontinues ↦ ?_⟩
    · rcases front with - | ⟨c, - | ⟨d, front⟩⟩
      · cases hraw
      · obtain ⟨rfl, -⟩ : '\\' = c ∧ _ := by simpa using hraw
        exact .inl (List.suffix_refl _)
      · simp only [List.cons_append, List.cons.injEq] at hraw
        exact ((hfeeds front more hraw.2.2).cons _).cons _
    · rw [continues_cons_iff, continues_cons_iff] at hcontinues
      exact hends hrest (by simpa using hcontinues)
  | case3 cs a l r hspan ih =>
    cases h
    obtain ⟨hfeeds, hends⟩ := ih hspan
    refine ⟨fun front more hraw ↦ ?_, fun hrest hcontinues ↦ ?_⟩
    · rcases front with - | ⟨c, - | ⟨d, - | ⟨e, front⟩⟩⟩
      · cases hraw
      · cases hraw
      · obtain ⟨rfl, rfl, -⟩ : '\\' = c ∧ '\r' = d ∧ _ := by simpa using hraw
        exact .inr (List.suffix_refl _)
      · simp only [List.cons_append, List.cons.injEq] at hraw
        exact (((hfeeds front more hraw.2.2.2).cons _).cons _).cons _
    · rw [continues_cons_iff, continues_cons_iff, continues_cons_iff] at hcontinues
      exact hends hrest (by simpa using hcontinues)
  | case4 cs =>
    cases h
    exact ⟨fun front more hraw ↦ (by simp at hraw), fun _ hcontinues ↦
      (by simp [Continues] at hcontinues)⟩
  | case5 c cs hlf hcrlf hc a l r hspan ih =>
    cases h
    obtain ⟨hfeeds, hends⟩ := ih hspan
    have happend : a ++ rest = cs := by
      have happend := spanDirective_append cs
      rwa [hspan] at happend
    refine ⟨fun front more hraw ↦ ?_, fun hrest hcontinues ↦ ?_⟩
    · cases front with
      | nil => exact absurd (List.cons.inj hraw).1 hc
      | cons d front => exact (hfeeds front more (List.cons.inj hraw).2).cons _
    · -- A backslash at the end of the line would have taken the line feed with it.
      obtain ⟨more, rfl⟩ : ∃ more, rest = '\n' :: more := by
        have hend := atLineEnd_spanDirective cs
        rw [hspan] at hend
        cases rest with
        | nil => exact absurd rfl hrest
        | cons d more =>
          obtain rfl : d = '\n' := hend
          exact ⟨more, rfl⟩
      rcases continues_cons_iff.mp hcontinues with ⟨hbackslash, rfl | rfl⟩ | hcontinues
      · exact hlf more hbackslash happend.symm
      · exact hcrlf more hbackslash happend.symm
      · exact hends hrest hcontinues

/-! ## Gaps -/

/-- Only blanks stand on the last line of a text. -/
def StartsLine (before : List Char) : Prop :=
  ∀ c ∈ before.reverse.takeWhile (· != '\n'), isBlank c = true

/-- What may stand between tokens, in front of `after` and behind `before`: a white-space character,
a comment or a directive line with its continuations. -/
inductive Filler (before after : List Char) : List Char → Prop
  | blank {c : Char} : isBlank c = true → Filler before after [c]
  | lineComment {body : List Char} : '\n' ∉ body → AtLineEnd after →
      Filler before after ('/' :: '/' :: body)
  | blockComment {inner : List Char} : ¬ ['*', '/'] <:+: inner ++ ['*'] →
      Filler before after ('/' :: '*' :: (inner ++ ['*', '/']))
  | directive {raw : List Char} : StartsLine before → IsDirective raw after →
      Filler before after raw

/-- A part of a text, given by the offsets of its ends, is a row of fillers. -/
inductive Filling (text : List Char) : Nat → Nat → Prop
  | nil {i : Nat} : Filling text i i
  | cons {i j k : Nat} : i ≤ j → Filler (text.take i) (text.drop j) (text.extract i j) →
      Filling text j k →
      Filling text i k

theorem startsLine_concat {before : List Char} {c : Char} (h : c = '\n' ∨ StartsLine before ∧
    isBlank c = true) :
    StartsLine (before ++ [c]) := by
  intro d hd
  rw [List.reverse_append, List.reverse_singleton, List.singleton_append] at hd
  by_cases hc : c = '\n'
  · rw [List.takeWhile_cons_of_neg (by simp [hc])] at hd
    cases hd
  · obtain ⟨hbefore, hblank⟩ := h.resolve_left hc
    rw [List.takeWhile_cons_of_pos (by simp [hc])] at hd
    rcases List.mem_cons.mp hd with rfl | hd
    · exact hblank
    · exact hbefore d hd

theorem startsLine_of_staysFresh {fresh : Bool} {before rest : List Char} {lexeme : Lexeme}
    (hshape : lexeme.Shape fresh rest) (hfresh : fresh = true → StartsLine before)
    (h : lexeme.staysFresh fresh = true) : StartsLine (before ++ lexeme.raw) := by
  cases hshape with
  | @blank c hblank =>
    refine startsLine_concat ?_
    rw [Lexeme.staysFresh, Bool.or_eq_true, decide_eq_true_iff] at h
    exact h.imp_right fun h ↦ ⟨hfresh h, hblank⟩
  | _ => cases h

/-! ## Tokens in their text -/

/-- A token of a file is the part of its text from one offset to another, and so its places are. -/
structure Token.Occupies (file : String) (text : List Char) (t : Token) (span : Nat × Nat) :
    Prop where
  lt : span.1 < span.2
  le_length : span.2 ≤ text.length
  text_eq : t.text.toList = text.extract span.1 span.2
  location_eq : t.location = ⟨file, .after (text.take span.1), .after (text.take span.2)⟩

def Piece.token? : Piece → Option Token
  | .token t => some t
  | _ => none

theorem text_mark (m : Mark) : m.text.toList = m.raw := by
  rw [Mark.text, String.toList_ofList]

theorem token_of_pieceAt {file : String} {p : Position} {lexeme : Lexeme} {t : Token}
    (h : pieceAt file p lexeme = some (.token t)) :
    t.text.toList = lexeme.raw ∧ t.location = ⟨file, p, p.advance lexeme.raw⟩ := by
  cases lexeme with
  | blank c | comment raw | openComment raw | openQuote raw => cases h
  | word raw | quoted raw value =>
    cases h
    exact ⟨String.toList_ofList, rfl⟩
  | mark m =>
    cases h
    exact ⟨text_mark m, rfl⟩
  | directive raw line =>
    rw [pieceAt] at h
    split at h
    · split at h <;> cases h
    · cases h

theorem occupies_of_pieceAt {file : String} {fresh : Bool} {before rest : List Char}
    {lexeme : Lexeme} {t : Token} (hshape : lexeme.Shape fresh rest)
    (h : pieceAt file (.after before) lexeme = some (.token t)) :
    t.Occupies file (before ++ (lexeme.raw ++ rest)) (before.length,
      (before ++ lexeme.raw).length) := by
  obtain ⟨htext, hlocation⟩ := token_of_pieceAt h
  have htake : (before ++ (lexeme.raw ++ rest)).take (before ++ lexeme.raw).length = before ++
      lexeme.raw := by
    rw [← List.append_assoc, List.take_left]
  constructor
  · rw [List.length_append]
    exact Nat.lt_add_of_pos_right (List.length_pos_of_ne_nil hshape.raw_ne_nil)
  · rw [← List.append_assoc]
    exact (List.prefix_append _ rest).length_le
  · rw [htext, extract_middle]
  · rw [hlocation, List.take_left, htake, Position.advance_after]

theorem Token.Occupies.slice_eq {file : String} {text : List Char} {t : Token} {span : Nat × Nat}
    (h : t.Occupies file text span) : t.location.range.slice text = t.text.toList := by
  obtain ⟨i, j⟩ := span
  obtain ⟨hlt, hle, htext, hlocation⟩ := h
  dsimp only at hlt hle htext hlocation
  have hmiddle : text.take i ++ text.extract i j = text.take j := by
    rw [List.extract_eq_take_drop, ← List.take_add, Nat.add_sub_cancel' hlt.le]
  have hwhole : text.take i ++ (text.extract i j ++ text.drop j) = text := by
    rw [← List.append_assoc, hmiddle, List.take_append_drop]
  have hslice := Range.slice_after (text.take i) (text.extract i j) (text.drop j)
  rw [hmiddle, hwhole] at hslice
  rw [hlocation, htext]
  exact hslice

/-- What is no token and no fault belongs to a gap. -/
theorem filler_of_pieceAt {file : String} {p : Position} {fresh : Bool} {before rest : List Char}
    {lexeme : Lexeme} (hshape : lexeme.Shape fresh rest) (hfresh : fresh = true → StartsLine before)
    (htoken : (pieceAt file p lexeme).bind Piece.token? = none)
    (hfault : ∀ e, pieceAt file p lexeme ≠ some (.fault e)) : Filler before rest lexeme.raw := by
  cases hshape with
  | blank hblank => exact .blank hblank
  | lineComment hbody hrest => exact .lineComment hbody hrest
  | blockComment hspan =>
    obtain ⟨inner, rfl, hinner⟩ := exists_inner_of_spanComment hspan
    exact .blockComment hinner
  | @directive body line hline hspan =>
    obtain ⟨hfeeds, hends⟩ := continues_of_spanDirective hspan
    have hhash : ∀ front, Continues ('#' :: front) ↔ Continues front := fun front ↦ by
      rw [continues_cons_iff, or_iff_right]
      rintro ⟨hc, -⟩
      exact absurd hc (by decide)
    refine .directive (hfresh hline) ⟨rfl, fun front more hraw ↦ ?_, ?_⟩
    · cases front with
      | nil => cases hraw
      | cons c front => exact (hfeeds front more (List.cons.inj hraw).2).cons _
    · have hrest := atLineEnd_spanDirective (body ++ rest)
      rw [hspan] at hrest
      cases rest with
      | nil => exact .inl rfl
      | cons d more =>
        obtain rfl : d = '\n' := hrest
        refine .inr ⟨⟨more, rfl⟩, fun hcontinues ↦ ?_⟩
        exact hends (List.cons_ne_nil _ more) ((hhash body).mp hcontinues)
  | quoted | mark | word => cases htoken
  | openComment | openQuote => exact absurd rfl (hfault _)

/-- **Tokens and gaps take turns.** Behind `before`, the tokens of a text without faults are parts
of it in a row, with gaps in front of them, between them and after them. -/
theorem exists_spans (file : String) {fresh : Bool} (before : List Char) {text : List Char}
    (hfresh : fresh = true → StartsLine before)
    (hfault : ∀ e, .fault e ∉ piecesFrom file (.after before) (lexemesFrom fresh text)) :
    ∃ spans : List (Nat × Nat),
      List.Forall₂ (Token.Occupies file (before ++ text))
        ((piecesFrom file (.after before) (lexemesFrom fresh text)).filterMap Piece.token?) spans ∧
      ((before.length, before.length) ::
        (spans ++ [((before ++ text).length, (before ++ text).length)])).IsChain
        fun a b ↦ a.2 ≤ b.1 ∧ Filling (before ++ text) a.2 b.1 := by
  fun_induction lexemesFrom fresh text generalizing before with
  | case1 fresh =>
    refine ⟨[], .nil, ?_⟩
    rw [List.append_nil, List.nil_append]
    exact .cons_cons ⟨le_rfl, .nil⟩ (.singleton _)
  | case2 fresh c cs ih =>
    cases hcut : cutLexeme fresh c cs with | mk lexeme rest =>
    obtain ⟨hshape, htext⟩ := cutLexeme_eq_iff.mp hcut
    rw [hcut] at ih hfault
    dsimp only at ih hfault ⊢
    rw [piecesFrom, Position.advance_after] at hfault ⊢
    obtain ⟨spans, hspans, hchain⟩ := ih _ (startsLine_of_staysFresh hshape hfresh) fun e he ↦
      hfault e (List.mem_append_right _ he)
    rw [htext]
    rw [List.append_assoc] at hspans hchain
    have hle : before.length ≤ (before ++ lexeme.raw).length := by
      rw [List.length_append]
      exact Nat.le_add_right _ _
    rw [List.filterMap_append]
    cases htoken : (pieceAt file (.after before) lexeme).bind Piece.token? with
    | none =>
      -- The first gap of the rest starts earlier.
      have hnone : (pieceAt file (.after before) lexeme).toList.filterMap Piece.token? = [] := by
        cases hpiece : pieceAt file (.after before) lexeme with
        | none => rfl
        | some piece =>
          rw [hpiece] at htoken
          exact List.filterMap_cons_none htoken
      have hfiller : Filler before rest lexeme.raw :=
          filler_of_pieceAt hshape hfresh htoken fun e he ↦
        hfault e (List.mem_append_left _ (Option.mem_toList.mpr he))
      rw [hnone, List.nil_append]
      refine ⟨spans, hspans, ?_⟩
      rw [List.isChain_cons] at hchain ⊢
      refine ⟨fun b hb ↦ ?_, hchain.2⟩
      obtain ⟨hbound, hgap⟩ := hchain.1 b hb
      refine ⟨hle.trans hbound, .cons hle ?_ hgap⟩
      rw [List.take_left, extract_middle, ← List.append_assoc, List.drop_left]
      exact hfiller
    | some t =>
      obtain ⟨piece, hpiece, hpieceToken⟩ := Option.bind_eq_some_iff.mp htoken
      obtain rfl : piece = .token t := by
        cases piece with
        | token t' => exact congrArg Piece.token (Option.some.inj hpieceToken)
        | _ => cases hpieceToken
      have hoccupies := occupies_of_pieceAt hshape hpiece
      rw [hpiece]
      refine ⟨(before.length, (before ++ lexeme.raw).length) :: spans, .cons hoccupies hspans, ?_⟩
      rw [List.cons_append]
      refine .cons_cons ⟨le_rfl, .nil⟩ ?_
      rw [List.isChain_cons] at hchain ⊢
      exact hchain

/-- Pieces that amount to something without a stop are no faults, and without includes they are
tokens. -/
theorem tokens_ofPieces {ε : Type} {enter : String → Range → Expansion ε} {ps : List Piece}
    (hstop : (Expansion.ofPieces enter ps).stop = none)
    (hinclude : ∀ target range, .include target range ∉ ps) :
    (∀ e, .fault e ∉ ps) ∧ (Expansion.ofPieces enter ps).tokens = ps.filterMap Piece.token? := by
  induction ps with
  | nil => exact ⟨nofun, rfl⟩
  | cons piece rest ih =>
    cases piece with
    | token t =>
      obtain ⟨-, hrest, -, htokens⟩ := Expansion.andThen_of_stop_eq_none hstop
      obtain ⟨hfault, hmore⟩ :=
        ih hrest fun target range h ↦ hinclude target range (List.mem_cons_of_mem _ h)
      refine ⟨fun e he ↦ ?_, ?_⟩
      · exact (List.mem_cons.mp he).elim nofun (hfault e)
      · rw [Expansion.ofPieces, htokens, hmore]
        rfl
    | «include» target range => exact absurd List.mem_cons_self (hinclude target range)
    | fault e => cases hstop

/-- **The tokens of a text partition it.** If the text of a file is without faults and asks for no
other file, then its tokens are parts of it, one behind the other, and they have the places that
their offsets say. In front of the first token, between two of them and after the last one there is
nothing but white space, whole comments and directive lines. -/
theorem tokens_partition {ε : Type} (enter : String → Range → Expansion ε) (file : String)
    (text : List Char) (hstop : (Expansion.ofPieces enter (pieces file text)).stop = none)
    (hinclude : ∀ target range, .include target range ∉ pieces file text) :
    ∃ spans : List (Nat × Nat),
      List.Forall₂ (Token.Occupies file (dropMarks text))
        (Expansion.ofPieces enter (pieces file text)).tokens spans ∧
      ((0, 0) :: (spans ++ [((dropMarks text).length, (dropMarks text).length)])).IsChain
        fun a b ↦ a.2 ≤ b.1 ∧ Filling (dropMarks text) a.2 b.1 := by
  obtain ⟨hfault, htokens⟩ := tokens_ofPieces hstop hinclude
  rw [htokens]
  exact exists_spans file [] (fun _ ↦ nofun) hfault

/-- A text with everything that takes more than one line: a continued directive, a comment and a
quoted text. -/
def crowded : List Char :=
  "\uFEFF#define X \\\r\n  y // z\r\nclass A \x7b /* a\n * b */ ".toList
    ++ "n[] += \x7b\"p\"\"q\nr\",-1\x7d; # \x7d;".toList

theorem tokens_partition_crowded :
    (Expansion.ofPieces (fun _ _ ↦ ({} : Expansion String))
        (pieces "/m/a.hpp" crowded)).tokens.length = 16 ∧
    ∃ spans : List (Nat × Nat),
      List.Forall₂ (Token.Occupies "/m/a.hpp" (dropMarks crowded))
        (Expansion.ofPieces (fun _ _ ↦ ({} : Expansion String)) (pieces "/m/a.hpp" crowded)).tokens
          spans ∧
      ((0, 0) :: (spans ++ [((dropMarks crowded).length, (dropMarks crowded).length)])).IsChain
        fun a b ↦ a.2 ≤ b.1 ∧ Filling (dropMarks crowded) a.2 b.1 := by
  have htokens : ∀ piece ∈ pieces "/m/a.hpp" crowded, piece.token?.isSome = true := by
    decide +kernel
  refine ⟨by decide +kernel,
    tokens_partition (fun _ _ ↦ {}) "/m/a.hpp" crowded (by decide +kernel) ?_⟩
  intro target range hmem
  cases htokens _ hmem

end MissionIndex.Config
