import MissionIndex.Proofs.Config.Anchors
import MissionIndex.Proofs.Config.Returns
import MissionIndex.Proofs.Disk
import MissionIndex.Proofs.Text.Utf8

/-!
# An open buffer and the file it is saved to

A text is parsed in an editor buffer before it is saved, and from the disk afterwards, where its
line ends are read as line feeds. Both parses come to the same, but for the line ends in quoted
texts.

## Where the two runs are compared

The buffer and the file differ in one text, but this text may be asked for under several names. So
the comparison is of sources that give the same pieces for each name, up to a relabelling
(`Sources.Matches`), and it goes through the expansion and the reading as a whole.
-/

namespace MissionIndex.Config

open Text

variable {ε : Type} {φ : Relabelling}

/-! ## Expansions -/

namespace Expansion

def relabel (φ : Relabelling) (e : Expansion ε) : Expansion ε :=
  { e with tokens := e.tokens.map (Token.relabel φ) }

theorem relabel_andThen (a : Expansion ε) (b : Unit → Expansion ε) :
    (a.andThen b).relabel φ = (a.relabel φ).andThen fun _ ↦ (b ()).relabel φ := by
  obtain ⟨opened, tokens, stop, announced⟩ := a
  cases stop with
  | some stop => rfl
  | none =>
    simp only [andThen, relabel, List.map_append]

theorem relabel_ofPieces (enter : String → Range → Expansion ε) (ps : List Piece) :
    (ofPieces enter ps).relabel φ
      = ofPieces (fun target range ↦ (enter target range).relabel φ)
        (ps.map (Piece.relabel φ)) := by
  induction ps with
  | nil => rfl
  | cons piece rest ih =>
    cases piece with
    | token t =>
      rw [ofPieces, relabel_andThen, ih]
      rfl
    | «include» target range =>
      rw [ofPieces, relabel_andThen, ih]
      rfl
    | fault e => rfl

end Expansion

/-- Results that are mapped to the same are the same error, or come from values that are mapped to
the same. -/
theorem cases_of_map_eq_map {α β γ δ : Type} {a : Except δ α} {b : Except δ β}
    {f : α → γ} {g : β → γ} (h : a.map f = b.map g) :
    (∃ e, a = .error e ∧ b = .error e) ∨ ∃ x y, a = .ok x ∧ b = .ok y ∧ f x = g y := by
  cases a with
  | error e =>
    cases b with
    | error e' => exact .inl ⟨e, rfl, congrArg Except.error (Except.error.inj h).symm⟩
    | ok y => cases h
  | ok x =>
    cases b with
    | error e => cases h
    | ok y => exact .inr ⟨x, y, rfl, rfl, Except.ok.inj h⟩

namespace Sources

/-- Two sources give the same for each name, up to a relabelling of the tokens. -/
structure Matches (φ : Relabelling) (s s' : Sources ε) : Prop where
  disk : s'.disk = s.disk
  mappings : s'.mappings = s.mappings
  missing : ∀ path, (s'.buffer path).map (fun text ↦ text.isNone && !s'.disk.isFile path)
    = (s.buffer path).map fun text ↦ text.isNone && !s.disk.isFile path
  pieces : ∀ path blame, (s'.textOf path blame).map
    (fun text ↦ (pieces path text).map (Piece.relabel φ))
    = (s.textOf path blame).map fun text ↦ (pieces path text).map (Piece.relabel φ)

namespace Matches

variable {s s' : Sources ε} (h : s.Matches φ s')

include h

theorem includePath (rootFolder file target : String) :
    s'.includePath rootFolder file target = s.includePath rootFolder file target := by
  rw [Sources.includePath, Sources.includePath, h.mappings]

theorem openFile {enter enter' : String → Range → Expansion ε}
    (henter : ∀ target range, (enter' target range).relabel φ = (enter target range).relabel φ)
    (path : String) (blame : Location) :
    (s'.openFile enter' path blame).relabel φ = (s.openFile enter path blame).relabel φ := by
  have henter' : (fun target range ↦ (enter' target range).relabel φ)
      = fun target range ↦ (enter target range).relabel φ :=
        funext fun target ↦ funext (henter target)
  obtain ⟨stop, htext', htext⟩ | ⟨text', text, htext', htext, hpieces⟩ :=
    cases_of_map_eq_map (h.pieces path blame)
  · rw [Sources.openFile, Sources.openFile, htext', htext]
  · simp only [Sources.openFile, htext', htext, Expansion.relabel_andThen,
      Expansion.relabel_ofPieces, hpieces, henter']

theorem expandInclude (rootFolder : String) (room : Nat) (within : List String)
    (file target : String) (range : Range) :
    (s'.expandInclude rootFolder room within file target range).relabel φ
      = (s.expandInclude rootFolder room within file target range).relabel φ := by
  induction room generalizing within file target range with
  | zero => rfl
  | succ room ih =>
    rw [Sources.expandInclude, Sources.expandInclude, h.includePath]
    generalize s.includePath rootFolder file target = path
    obtain ⟨reason, hbuffer', hbuffer⟩ | ⟨text', text, hbuffer', hbuffer, hmissing⟩ :=
      cases_of_map_eq_map (h.missing path)
    · rw [hbuffer', hbuffer]
    · simp only [hbuffer', hbuffer, hmissing]
      split
      · rfl
      · split
        · rfl
        · exact h.openFile (fun target range ↦ ih _ _ target range) path _

theorem expandRoot (file : String) :
    (s'.expandRoot file).relabel φ = (s.expandRoot file).relabel φ := by
  rw [expandRoot_eq, expandRoot_eq]
  exact h.openFile (fun target range ↦ h.expandInclude _ _ _ _ target range) _ _

end Matches

end Sources

/-! ## Outcomes -/

def relabelResult (φ : Relabelling) : Except (Stop ε) ConfigClass → Except (Stop ε) ConfigClass
  | .ok tree => .ok (tree.relabel φ)
  | .error (.error e) => .error (.error (e.relabel φ))
  | .error (.fault reason) => .error (.fault reason)

/-- Two results are trees with the same classes in the same places, or errors in the same place, and
the values, or what the errors say, are the same where CR LF counts as a line feed. Or neither parse
got as far as that. -/
inductive SameButForLineEnds : Except (Stop ε) ConfigClass → Except (Stop ε) ConfigClass → Prop
  | tree {tree tree' : ConfigClass} : tree'.relabel lineEnds = tree.relabel lineEnds →
      SameButForLineEnds (.ok tree) (.ok tree')
  | error {e e' : ParseError} : e'.location = e.location →
      e'.cause.relabel lineEnds = e.cause.relabel lineEnds →
      SameButForLineEnds (.error (.error e)) (.error (.error e'))
  | fault {reason : ε} : SameButForLineEnds (.error (.fault reason)) (.error (.fault reason))

theorem sameButForLineEnds_of_relabelResult {r r' : Except (Stop ε) ConfigClass}
    (h : relabelResult lineEnds r' = relabelResult lineEnds r) : SameButForLineEnds r r' := by
  rcases r with (e | reason) | tree <;> rcases r' with (e' | reason') | tree' <;>
    simp only [relabelResult, reduceCtorEq, Except.error.injEq, Except.ok.injEq, Stop.error.injEq,
      Stop.fault.injEq, ParseError.relabel, ParseError.mk.injEq] at h
  · exact .error h.2 h.1
  · exact h ▸ .fault
  · exact .tree h

theorem endOfInput_lineEnds (file : String) (ts : List Token) :
    endOfInput file (ts.map (Token.relabel lineEnds)) = lineEnds.location (endOfInput file ts) := by
  rw [endOfInput, List.getLast?_map, endOfInput]
  cases ts.getLast? <;> rfl

theorem Sources.lineEnds_text_of_mem_expandRoot (sources : Sources ε) (file : String) :
    ∀ t ∈ (sources.expandRoot file).tokens, t.kind = .word → lineEnds.text t.text = t.text :=
      fun _ ht hword ↦
  lineEnds_text_of_notMem (return_notMem_of_isWord
    (sources.spells_of_mem_expandRoot ht hword).isWord)

/-- Sources that match in all but line ends give parses that do. -/
theorem Sources.Matches.parse {s s' : Sources ε} (h : s.Matches lineEnds s') (path : String) :
    (s'.parse path).opened = (s.parse path).opened ∧
    (s'.parse path).announced = (s.parse path).announced ∧
      relabelResult lineEnds (s'.parse path).result
        = relabelResult lineEnds (s.parse path).result := by
  have hexpand := h.expandRoot (s.disk.absolute path)
  have hwords := s.lineEnds_text_of_mem_expandRoot (s.disk.absolute path)
  have hwords' := s'.lineEnds_text_of_mem_expandRoot (s.disk.absolute path)
  simp only [Sources.parse, h.disk]
  generalize s.disk.absolute path = file at hexpand hwords hwords' ⊢
  generalize s.expandRoot file = expansion at hexpand hwords ⊢
  generalize s'.expandRoot file = expansion' at hexpand hwords' ⊢
  obtain ⟨opened, tokens, stop, announced⟩ := expansion
  obtain ⟨opened', tokens', stop', announced'⟩ := expansion'
  simp only [Expansion.relabel, Expansion.mk.injEq] at hexpand
  obtain ⟨rfl, htokens, rfl, rfl⟩ := hexpand
  refine ⟨rfl, rfl, ?_⟩
  cases stop' with
  | some stop => rfl
  | none =>
    have hread := readStatements_relabel lineEnds hwords (endOfInput_lineEnds file tokens)
    have hread' := readStatements_relabel lineEnds hwords' (endOfInput_lineEnds file tokens')
    rw [htokens, hread] at hread'
    cases hs : readStatements file tokens with
    | error e =>
      cases hs' : readStatements file tokens' with
      | error e' =>
        rw [hs, hs'] at hread'
        exact congrArg (fun e ↦ Except.error (Stop.error e)) (Except.error.inj hread').symm
      | ok statements' =>
        rw [hs, hs'] at hread'
        cases hread'
    | ok statements =>
      cases hs' : readStatements file tokens' with
      | error e' =>
        rw [hs, hs'] at hread'
        cases hread'
      | ok statements' =>
        rw [hs, hs'] at hread'
        simp only [relabelResult, relabel_rootClass, Except.ok.inj hread']

/-! ## Saving -/

namespace Sources

variable (sources : Sources ε) {path : String} {text : List Char}

/-- The sources in which `path` is open with the given text wherever it is asked for and is not
found as a file that no one has opened. -/
def withTextElsewhere (path : String) (text : List Char) : Sources ε :=
  { sources with buffer := fun asked ↦
      if sources.disk.absolute asked = sources.disk.absolute path then
        match sources.buffer asked with
        | .ok none => if sources.disk.isFile asked then .ok none else .ok (some text)
        | _ => .ok (some text)
      else sources.buffer asked }

theorem buffer_withTextElsewhere (text : List Char) {asked : String}
    (hasked : sources.disk.absolute asked = sources.disk.absolute path) :
    (sources.withTextElsewhere path text).buffer asked = .ok (some text) ∨
      (sources.withTextElsewhere path text).buffer asked = .ok none ∧
      sources.buffer asked = .ok none ∧
        sources.disk.isFile asked = true := by
  simp only [withTextElsewhere, if_pos hasked]
  split
  · next hbuffer =>
    split
    · next hfile => exact .inr ⟨rfl, hbuffer, hfile⟩
    · exact .inl rfl
  · exact .inl rfl

section Saved

variable (hdisk : Path.isRooted sources.disk.workingDirectory = true)
  (hread : sources.disk.read (sources.disk.absolute path) = .ok (encodeUtf8 text))

include hdisk hread

theorem read_of_isFile {asked : String}
    (hasked : sources.disk.absolute asked = sources.disk.absolute path)
    (hfile : sources.disk.isFile asked = true) :
    sources.disk.read asked = .ok (encodeUtf8 text) := by
  have hplace : sources.disk.place asked = sources.disk.place (sources.disk.absolute path) := by
    rw [Disk.place_absolute hdisk, Disk.place, hasked, Disk.place]
  rw [Disk.read_eq_ok_iff, hplace]
  exact ⟨hplace ▸ (Disk.isFile_iff.mp hfile).1, (Disk.read_eq_ok_iff.mp hread).2⟩

/-- Sources with a text in a buffer match those with the text in the file, where it is asked for by
names that lead there. -/
theorem matches_withTextElsewhere (hreturns : PairsReturns text) :
    (sources.withText path text).Matches lineEnds (sources.withTextElsewhere path text) := by
  refine ⟨rfl, rfl, fun asked ↦ ?_, fun asked blame ↦ ?_⟩
  · by_cases hasked : sources.disk.absolute asked = sources.disk.absolute path
    · have htext : (sources.withText path text).buffer asked = .ok (some text) := if_pos hasked
      rcases sources.buffer_withTextElsewhere text hasked with hsame | ⟨hnone, -, hfile⟩
      · rw [hsame, htext]
        rfl
      · have hfile' : (sources.withTextElsewhere path text).disk.isFile asked = true := hfile
        rw [hnone, htext, Except.map, Except.map, hfile']
        rfl
    · simp only [withText, withTextElsewhere, if_neg hasked]
  · by_cases hasked : sources.disk.absolute asked = sources.disk.absolute path
    · have htext : (sources.withText path text).textOf asked blame = .ok text := by
        simp only [textOf, withText, if_pos hasked]
      rcases sources.buffer_withTextElsewhere text hasked with hsame | ⟨hnone, -, hfile⟩
      · rw [htext, textOf, hsame]
      · have hsaved : (sources.withTextElsewhere path text).disk.readText asked
            = .ok (dropReturns text) := by
          have hasked' := sources.read_of_isFile hdisk hread hasked hfile
          rw [Disk.readText]
          simp only [withTextElsewhere, hasked', Except.map, decodeReplacing_encodeUtf8,
            unifyNewlines_eq hreturns]
        rw [htext, textOf, hnone]
        simp only [hsaved]
        exact congrArg Except.ok (pieces_dropReturns asked hreturns)
    · simp only [textOf, withText, withTextElsewhere, if_neg hasked]

/-- Where all names that a text is opened by lead to its file, a parse of the file reads what is
saved there. -/
theorem parse_withTextElsewhere (hreturns : PairsReturns text)
    (hnames : ∀ asked ∈ (sources.parseText path text).opened,
      sources.disk.absolute asked = sources.disk.absolute path →
        sources.buffer asked = .ok none ∧ sources.disk.isFile asked = true) :
    (sources.withTextElsewhere path text).parse path = sources.parse path := by
  have hopened := ((sources.matches_withTextElsewhere hdisk hread hreturns).parse path).1
  suffices hback : { sources.withTextElsewhere path text with buffer := sources.buffer }.parse path
      = (sources.withTextElsewhere path text).parse path from hback.symm
  refine parse_congr _ (.inr fun asked hnone ↦ ?_) fun asked hmem ↦ ?_
  · by_cases hasked : sources.disk.absolute asked = sources.disk.absolute path
    · rcases sources.buffer_withTextElsewhere text hasked with hsome | ⟨hsaved, hbuffer, -⟩
      · exact absurd ⟨_, hsome, rfl⟩ hnone
      · rw [hsaved, hbuffer]
    · simp only [withTextElsewhere, if_neg hasked]
  · by_cases hasked : sources.disk.absolute asked = sources.disk.absolute path
    · obtain ⟨hbuffer, hfile⟩ := hnames asked (hopened ▸ hmem) hasked
      simp only [withTextElsewhere, if_pos hasked, hbuffer, hfile, if_true]
    · simp only [withTextElsewhere, if_neg hasked]

/-- **When parsing a text in a buffer and parsing the file it was saved to come to the same.** They
do if the text was opened by no name but such as lead to the file on disk and are open nowhere: both
open the same files, and give trees or errors that are the same but for line ends. They do not if it
was opened by a name that leads nowhere, as the parse of the file does not find it then. -/
theorem parseText_matches_parse (hreturns : PairsReturns text) :
    ((∀ asked ∈ (sources.parseText path text).opened,
        sources.disk.absolute asked = sources.disk.absolute path →
          sources.buffer asked = .ok none ∧ sources.disk.isFile asked = true) →
      (sources.parse path).opened = (sources.parseText path text).opened ∧
      (sources.parse path).announced = (sources.parseText path text).announced ∧
      SameButForLineEnds (sources.parseText path text).result (sources.parse path).result) ∧
    ∀ asked ∈ (sources.parseText path text).opened, sources.buffer asked = .ok none →
      sources.disk.isFile asked = false →
      (sources.parse path).opened ≠ (sources.parseText path text).opened := by
  refine ⟨fun hnames ↦ ?_, fun asked hmem hbuffer hfile hopened ↦ ?_⟩
  · have hsame := sources.parse_withTextElsewhere hdisk hread hreturns hnames
    obtain ⟨hopened, hannounced, hresult⟩ :=
      (sources.matches_withTextElsewhere hdisk hread hreturns).parse path
    rw [hsame] at hopened hannounced hresult
    exact ⟨hopened, hannounced, sameButForLineEnds_of_relabelResult hresult⟩
  · rcases sources.eq_or_finds_of_mem_opened path (hopened ▸ hmem) with rfl | ⟨buffered,
      hbuffer', hthere⟩
    · rw [Disk.isFile_of_read hread] at hfile
      cases hfile
    · obtain rfl := Except.ok.inj (hbuffer.symm.trans hbuffer')
      rw [hfile] at hthere
      cases hthere

end Saved

end Sources

/-- A text in which lines end in CR LF: behind a comment, in quoted texts and in a directive that
goes on. -/
def typed : List Char :=
  "class A \x7b // \\\r\n t = \"p\r\n\"\"q\";\r\n#if \\\r\n n[] += \r\n ".toList
    ++ "x[] = \x7b'\r\n'\x7d;\r\n\x7d;\r\n".toList

/-- The disk after saving, with another file in which a quoted text of two lines stands where no
text can. -/
def typedAndSaved : Sources String where
  disk.files :=
    [(["m", "description.ext"], .bytes (encodeUtf8 typed)),
      (["m", "torn.ext"], .bytes (encodeUtf8 "x = 1;\r\n'\r\n' y;".toList))]

theorem parseText_matches_parse_typed :
    ((typedAndSaved.parseText "/m/description.ext" typed).result.isOk = true ∧
      (typedAndSaved.parse "/m/description.ext").opened
        = (typedAndSaved.parseText "/m/description.ext" typed).opened ∧
      (typedAndSaved.parse "/m/description.ext").announced
        = (typedAndSaved.parseText "/m/description.ext" typed).announced ∧
      SameButForLineEnds (typedAndSaved.parseText "/m/description.ext" typed).result
        (typedAndSaved.parse "/m/description.ext").result) ∧
    (typedAndSaved.parseText "/m/torn.ext" "x = 1;\r\n'\r\n' y;".toList).result.isOk = false ∧
      SameButForLineEnds (typedAndSaved.parseText "/m/torn.ext" "x = 1;\r\n'\r\n' y;".toList).result
        (typedAndSaved.parse "/m/torn.ext").result := by
  have hdisk : Path.isRooted typedAndSaved.disk.workingDirectory = true := by decide +kernel
  have hfiles : ∀ asked ∈ (typedAndSaved.parseText "/m/description.ext" typed).opened,
      typedAndSaved.disk.isFile asked = true := by decide +kernel
  have hfiles' : ∀ asked ∈
      (typedAndSaved.parseText "/m/torn.ext" "x = 1;\r\n'\r\n' y;".toList).opened,
      typedAndSaved.disk.isFile asked = true := by decide +kernel
  refine ⟨⟨by decide +kernel, (typedAndSaved.parseText_matches_parse hdisk ?_ ?_).1 ?_⟩,
    by decide +kernel, ((typedAndSaved.parseText_matches_parse hdisk ?_ ?_).1 ?_).2.2⟩
  · decide +kernel
  · decide +kernel
  · exact fun asked hasked _ ↦ ⟨rfl, hfiles asked hasked⟩
  · decide +kernel
  · decide +kernel
  · exact fun asked hasked _ ↦ ⟨rfl, hfiles' asked hasked⟩

/-- A file that includes itself by way of a folder. -/
def roundabout (folder : String) : List Char :=
  ("#include \"\\x\\" ++ folder ++ "/../../m/description.ext\"").toList

/-- A mission whose file includes itself by way of a folder that is not there. -/
def astray : Sources String where
  disk.files := [(["m", "description.ext"], .bytes (encodeUtf8 (roundabout "missing")))]
  disk.folders := [["lib"]]
  mappings := [⟨"\\x\\", "/lib/"⟩]

/-- A mission whose file includes itself by a name for which another text is given. -/
def replaced : Sources String where
  disk.files := [(["m", "description.ext"], .bytes (encodeUtf8 (roundabout "a")))]
  disk.folders := [["lib", "a"]]
  mappings := [⟨"\\x\\", "/lib/"⟩]
  buffer asked := .ok (if asked = "/lib/a/../../m/description.ext" then some [] else none)

/-- A name by which only the text in the buffer is found, and one by which only this is not. -/
theorem parseText_not_matches_parse :
    (astray.disk.read "/m/description.ext" = .ok (encodeUtf8 (roundabout "missing")) ∧
      (astray.parse "/m/description.ext").opened = ["/m/description.ext"] ∧
      (astray.parseText "/m/description.ext" (roundabout "missing")).opened
        = ["/m/description.ext", "/lib/missing/../../m/description.ext"]) ∧
    replaced.disk.read "/m/description.ext" = .ok (encodeUtf8 (roundabout "a")) ∧
      replaced.buffer "/m/description.ext" = .ok none ∧
      (replaced.parse "/m/description.ext").result.isOk = true ∧
      (replaced.parseText "/m/description.ext" (roundabout "a")).result.isOk = false := by
  decide +kernel

end MissionIndex.Config
