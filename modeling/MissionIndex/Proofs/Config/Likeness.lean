import MissionIndex.Proofs.Config.Saving

/-!
# Sources that are alike

Two sources may have texts that differ in little more than where things stand. If for each name they
give the same pieces apart from places, then so do the parses: they open the same files, and give
trees, or errors, that are the same apart from places.
-/

namespace MissionIndex.Config

open Text

/-! ## Pieces apart from places -/

def ParseError.unplaced (e : ParseError) : ParseError := { e with location := default }

def Piece.unplaced : Piece → Piece
  | .token t => .token t.unplaced
  | .include target _ => .include target default
  | .fault e => .fault e.unplaced

/-- What a lexeme amounts to, wherever it stands. -/
def Lexeme.piece? (lexeme : Lexeme) : Option Piece := (pieceAt "" .zero lexeme).map Piece.unplaced

theorem unplaced_pieceAt (file : String) (p : Position) (lexeme : Lexeme) :
    (pieceAt file p lexeme).map Piece.unplaced = lexeme.piece? := by
  cases lexeme with
  | directive raw line =>
    simp only [Lexeme.piece?, pieceAt]
    split
    · split <;> rfl
    · rfl
  | _ => rfl

theorem unplaced_piecesFrom (file : String) (p : Position) (ls : List Lexeme) :
    (piecesFrom file p ls).map Piece.unplaced = ls.filterMap Lexeme.piece? := by
  induction ls generalizing p with
  | nil => rfl
  | cons lexeme ls ih =>
    have hpiece := congrArg Option.toList (unplaced_pieceAt file p lexeme)
    rw [Option.toList_map] at hpiece
    rw [piecesFrom, List.map_append, ih, hpiece, List.filterMap_cons]
    cases lexeme.piece? <;> rfl

/-! ## Expansions apart from places -/

section

variable {ε : Type}

/-- A reason to stop, without the place of an error. -/
def Stop.unplaced : Stop ε → Stop ε
  | .error e => .error e.unplaced
  | .fault reason => .fault reason

namespace Expansion

/-- An expansion without the places of its tokens and its error. -/
def unplaced (e : Expansion ε) : Expansion ε :=
  { e with tokens := e.tokens.map Token.unplaced, stop := e.stop.map Stop.unplaced }

theorem unplaced_andThen (a : Expansion ε) (b : Unit → Expansion ε) :
    (a.andThen b).unplaced = a.unplaced.andThen fun _ ↦ (b ()).unplaced := by
  obtain ⟨opened, tokens, stop, announced⟩ := a
  cases stop with
  | some stop => rfl
  | none => simp only [andThen, unplaced, List.map_append, Option.map_none]

/-- Where two rows of pieces are the same apart from places, so are their expansions, since an
include only reports its place. -/
theorem unplaced_ofPieces {enter enter' : String → Range → Expansion ε}
    (henter : ∀ target range range', (enter' target range').unplaced
      = (enter target range).unplaced)
    {ps ps' : List Piece} (hps : ps'.map Piece.unplaced = ps.map Piece.unplaced) :
    (ofPieces enter' ps').unplaced = (ofPieces enter ps).unplaced := by
  induction ps generalizing ps' with
  | nil =>
    rw [List.map_eq_nil_iff.mp hps]
    rfl
  | cons piece rest ih =>
    obtain ⟨piece', rest', rfl, hpiece, hrest⟩ := List.map_eq_cons_iff.mp hps
    cases piece <;> cases piece' <;> injection hpiece
    case token.token t t' htoken =>
      have hfirst : ({ tokens := [t'] } : Expansion ε).unplaced
          = ({ tokens := [t] } : Expansion ε).unplaced :=
        congrArg (fun sign ↦ ({ tokens := [sign] } : Expansion ε)) htoken
      rw [ofPieces, ofPieces, unplaced_andThen, unplaced_andThen, ih hrest, hfirst]
    case include.include target range target' range' htarget hrange =>
      rw [ofPieces, ofPieces, unplaced_andThen, unplaced_andThen, ih hrest, htarget,
        henter target range range']
    case fault.fault e e' hfault =>
      exact congrArg (fun err ↦ ({ stop := some (.error err) } : Expansion ε)) hfault

end Expansion

/-! ## Sources -/

namespace Sources

/-- Two sources give the same for each name, apart from places. -/
structure Alike (s s' : Sources ε) : Prop where
  disk : s'.disk = s.disk
  mappings : s'.mappings = s.mappings
  missing : ∀ path, (s'.buffer path).map (fun text ↦ text.isNone && !s'.disk.isFile path)
    = (s.buffer path).map fun text ↦ text.isNone && !s.disk.isFile path
  pieces : ∀ path blame, (s'.textOf path blame).map
    (fun text ↦ (pieces path text).map Piece.unplaced)
    = (s.textOf path blame).map fun text ↦ (pieces path text).map Piece.unplaced

theorem mapError_textOf (s : Sources ε) (path : String) (blame blame' : Location) :
    (s.textOf path blame').mapError Stop.unplaced
      = (s.textOf path blame).mapError Stop.unplaced := by
  rw [textOf, textOf]
  split
  · rfl
  · rfl
  · cases s.disk.readText path <;> rfl

namespace Alike

variable {s s' : Sources ε} (h : s.Alike s')

include h

theorem openFile {enter enter' : String → Range → Expansion ε}
    (henter : ∀ target range range', (enter' target range').unplaced
      = (enter target range).unplaced) (path : String)
    (blame blame' : Location) :
    (s'.openFile enter' path blame').unplaced = (s.openFile enter path blame).unplaced := by
  have hblame := s.mapError_textOf path blame blame'
  obtain ⟨stop', htext', htext⟩ | ⟨text', text, htext', htext, hpieces⟩ :=
    cases_of_map_eq_map (h.pieces path blame')
  · rw [htext] at hblame
    cases htext₀ : s.textOf path blame with
    | ok text =>
      rw [htext₀] at hblame
      cases hblame
    | error stop =>
      rw [htext₀] at hblame
      rw [Sources.openFile, Sources.openFile, htext', htext₀]
      exact congrArg (fun stop ↦
        ({ announced := [path], opened := [path], stop := some stop } : Expansion ε))
        (Except.error.inj hblame)
  · rw [htext] at hblame
    cases htext₀ : s.textOf path blame with
    | error stop =>
      rw [htext₀] at hblame
      cases hblame
    | ok text₀ =>
      rw [htext₀] at hblame
      obtain rfl : text = text₀ := Except.ok.inj hblame
      simp only [Sources.openFile, htext', htext₀, Expansion.unplaced_andThen,
        Expansion.unplaced_ofPieces henter hpieces]

theorem expandInclude (rootFolder : String) (room : Nat) (within : List String)
    (file target : String) (range range' : Range) :
    (s'.expandInclude rootFolder room within file target range').unplaced
      = (s.expandInclude rootFolder room within file target range).unplaced := by
  induction room generalizing within file target range range' with
  | zero => rfl
  | succ room ih =>
    have hpath : s'.includePath rootFolder file target = s.includePath rootFolder file target := by
      rw [Sources.includePath, Sources.includePath, h.mappings]
    rw [Sources.expandInclude, Sources.expandInclude, hpath]
    generalize s.includePath rootFolder file target = path
    obtain ⟨reason, hbuffer', hbuffer⟩ | ⟨text', text, hbuffer', hbuffer, hmissing⟩ :=
      cases_of_map_eq_map (h.missing path)
    · rw [hbuffer', hbuffer]
      split <;> rfl
    · simp only [hbuffer', hbuffer, hmissing]
      split
      · rfl
      · split
        · rfl
        · exact h.openFile (fun target range range' ↦ ih _ _ target range range') path _ _

theorem expandRoot (file : String) :
    (s'.expandRoot file).unplaced = (s.expandRoot file).unplaced := by
  rw [expandRoot_eq, expandRoot_eq]
  exact h.openFile (fun target range range' ↦ h.expandInclude _ _ _ _ target range range') _ _ _

end Alike

end Sources

/-! ## Outcomes -/

/-- Two results are trees that are the same apart from places, or errors with the same cause, or
neither parse got as far as that. -/
inductive SameApartFromPlaces : Except (Stop ε) ConfigClass → Except (Stop ε) ConfigClass → Prop
  | tree {tree tree' : ConfigClass} :
  tree'.unplaced = tree.unplaced → SameApartFromPlaces (.ok tree) (.ok tree')
  | error {e e' : ParseError} : e'.cause = e.cause →
      SameApartFromPlaces (.error (.error e)) (.error (.error e'))
  | fault {reason : ε} : SameApartFromPlaces (.error (.fault reason)) (.error (.fault reason))

theorem Cause.relabel_unplacing (cause : Cause) : cause.relabel unplacing = cause := by
  cases cause with
  | expectedMark _ found | expectedName _ found | expectedAssignment _ found | expectedList _ found
  | expectedSeparator found | expectedValue found | unexpected found => cases found <;> rfl
  | _ => rfl

theorem sameApartFromPlaces_of_tokens (file : String) {ts ts' : List Token}
    (h : ts'.map Token.unplaced = ts.map Token.unplaced) :
    @SameApartFromPlaces ε
      (match readStatements file ts with
        | .ok statements => .ok (rootClass file statements)
        | .error e => .error (.error e))
      (match readStatements file ts' with
        | .ok statements => .ok (rootClass file statements)
        | .error e => .error (.error e)) := by
  have hread := readStatements_unplaced file ts
  have hread' := readStatements_unplaced file ts'
  rw [h, hread] at hread'
  cases hs : readStatements file ts <;> cases hs' : readStatements file ts' <;>
    simp only [hs, hs', relabelStatements, reduceCtorEq, Except.ok.injEq, Except.error.injEq]
      at hread'
  · have hcause := (ParseError.mk.inj hread').1
    rw [Cause.relabel_unplacing, Cause.relabel_unplacing] at hcause
    exact .error hcause.symm
  · refine .tree ?_
    rw [unplaced_rootClass, unplaced_rootClass, hread']

/-- **Sources that are alike give parses that are the same apart from places.** -/
theorem Sources.Alike.parse {s s' : Sources ε} (h : s.Alike s') (path : String) :
    (s'.parse path).opened = (s.parse path).opened ∧
    (s'.parse path).announced = (s.parse path).announced ∧
      SameApartFromPlaces (s.parse path).result (s'.parse path).result := by
  have hexpand := h.expandRoot (s.disk.absolute path)
  simp only [Sources.parse, h.disk]
  generalize s.disk.absolute path = file at hexpand ⊢
  generalize s.expandRoot file = expansion at hexpand ⊢
  generalize s'.expandRoot file = expansion' at hexpand ⊢
  obtain ⟨opened, tokens, stop, announced⟩ := expansion
  obtain ⟨opened', tokens', stop', announced'⟩ := expansion'
  simp only [Expansion.unplaced, Expansion.mk.injEq] at hexpand
  obtain ⟨rfl, htokens, hstop, rfl⟩ := hexpand
  refine ⟨rfl, rfl, ?_⟩
  cases stop <;> cases stop' <;> simp only [Option.map_none, Option.map_some, reduceCtorEq,
    Option.some.injEq] at hstop
  · exact sameApartFromPlaces_of_tokens file htokens
  case some stop stop' =>
    cases stop <;> cases stop' <;>
      simp only [Stop.unplaced, reduceCtorEq, Stop.error.injEq, Stop.fault.injEq,
        ParseError.unplaced, ParseError.mk.injEq] at hstop
    · exact .error hstop.1
    · exact hstop ▸ .fault

end

end MissionIndex.Config
