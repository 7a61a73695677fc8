import MissionIndex.Proofs.Config.Locality
import MissionIndex.Proofs.Config.Refinement
import MissionIndex.Proofs.Path.Normal

/-!
# Where things come from

All that a parse gives has its place in a file that the parse opened: the tokens, the error if there
is one, and every class of the tree. And whoever was asked for the buffer of an opened file has
answered, unless that is why the parse failed. The files opened are those announced, in the same
order.

## Why the opened files grow along the way

An include that fails is reported in the including file, which was opened before. So what a part of
an expansion says is about the files that it opens and those *known* before it
(`Expansion.Accounts`), and what is known to a part is what was known at the start and what the
parts before it opened.
-/

namespace MissionIndex.Config

open Text

/-! ## Pieces -/

def Piece.StandsIn (file : String) : Piece → Prop
  | .token t => t.location.file = file
  | .include _ _ => True
  | .fault e => e.location.file = file

theorem standsIn_of_pieceAt {file : String} {p : Position} {lexeme : Lexeme} {piece : Piece}
    (h : pieceAt file p lexeme = some piece) : piece.StandsIn file := by
  cases lexeme with
  | blank raw | comment raw => cases h
  | word raw | quoted raw value | mark m | openComment raw | openQuote raw =>
    cases h
    exact rfl
  | directive raw line =>
    simp only [pieceAt] at h
    split at h
    · split at h
      · cases h
        trivial
      · cases h
        exact rfl
    · cases h

theorem standsIn_of_mem_pieces {file : String} {text : List Char} {piece : Piece}
    (h : piece ∈ pieces file text) : piece.StandsIn file := by
  rw [pieces] at h
  generalize Position.zero = p at h
  generalize lexemes (dropMarks text) = ls at h
  induction ls generalizing p with
  | nil => cases h
  | cons lexeme rest ih =>
    rw [piecesFrom, List.mem_append, Option.mem_toList] at h
    exact h.elim standsIn_of_pieceAt (ih _)

/-! ## Expansions -/

section Expansions

variable {ε : Type} {answers : String → Prop} {known : List String}

/-- The tokens and the error of an expansion have their places in files that are known or opened,
and the opened files have answered unless that is what failed. -/
structure Expansion.Accounts (answers : String → Prop) (known : List String) (e : Expansion ε) :
    Prop where
  tokens : ∀ t ∈ e.tokens, t.location.file ∈ known ++ e.opened
  error : ∀ err, e.stop = some (.error err) → err.location.file ∈ known ++ e.opened
  answered : (∀ reason, e.stop ≠ some (.fault reason)) → ∀ file ∈ e.opened, answers file

theorem Expansion.Accounts.mono {known' : List String} {e : Expansion ε}
    (h : e.Accounts answers known) (hsub : known ⊆ known') : e.Accounts answers known' where
  tokens t ht := List.mem_append.mpr ((List.mem_append.mp (h.tokens t ht)).imp_left
    fun hk ↦ hsub hk)
  error err he := List.mem_append.mpr ((List.mem_append.mp (h.error err he)).imp_left
    fun hk ↦ hsub hk)
  answered := h.answered

theorem Expansion.Accounts.andThen {a : Expansion ε} {b : Unit → Expansion ε}
    (ha : a.Accounts answers known) (hb : (b ()).Accounts answers (known ++ a.opened)) :
    (a.andThen b).Accounts answers known := by
  rw [Expansion.andThen]
  cases hstop : a.stop with
  | some stop => exact ha
  | none =>
    refine ⟨fun t ht ↦ ?_, fun err he ↦ ?_, fun hfault file hf ↦ ?_⟩
    · rw [← List.append_assoc]
      rcases List.mem_append.mp ht with ht | ht
      · exact List.mem_append_left _ (ha.tokens t ht)
      · exact hb.tokens t ht
    · rw [← List.append_assoc]
      exact hb.error err he
    · rcases List.mem_append.mp hf with hf | hf
      · exact ha.answered (fun reason hr ↦ by rw [hstop] at hr; cases hr) file hf
      · exact hb.answered hfault file hf

theorem Expansion.accounts_of_fault {e : Expansion ε} {reason : ε} (htokens : e.tokens = [])
    (hstop : e.stop = some (.fault reason)) : e.Accounts answers known where
  tokens t ht := by
    rw [htokens] at ht
    cases ht
  error err he := by
    rw [hstop] at he
    cases he
  answered h := absurd hstop (h reason)

theorem Expansion.accounts_failed {cause : Cause} {location : Location}
    (h : location.file ∈ known) :
    (Expansion.failed cause location : Expansion ε).Accounts answers known where
  tokens t ht := by cases ht
  error err he := by
    cases he
    exact List.mem_append_left _ h
  answered _ file hf := by cases hf

theorem Expansion.accounts_ofPieces {enter : String → Range → Expansion ε} {file : String}
    (henter : ∀ target range, (enter target range).Accounts answers [file]) {ps : List Piece}
    (hps : ∀ piece ∈ ps, piece.StandsIn file) (hfile : file ∈ known) :
    (Expansion.ofPieces enter ps).Accounts answers known := by
  induction ps generalizing known with
  | nil => exact ⟨nofun, nofun, nofun⟩
  | cons piece rest ih =>
    have hrest := fun p hp ↦ hps p (List.mem_cons_of_mem piece hp)
    have hpiece := hps piece List.mem_cons_self
    cases piece with
    | token t =>
      have htoken : ({ tokens := [t] } : Expansion ε).Accounts answers known := by
        refine ⟨fun t' ht ↦ ?_, nofun, nofun⟩
        obtain rfl := List.mem_singleton.mp ht
        rw [show t'.location.file = file from hpiece]
        exact List.mem_append_left _ hfile
      exact htoken.andThen (ih hrest (List.mem_append_left _ hfile))
    | «include» target range =>
      -- All that an include needs to know of is the file that it stands in.
      have hknown : [file] ⊆ known := List.cons_subset.mpr ⟨hfile, List.nil_subset known⟩
      exact ((henter target range).mono hknown).andThen (ih hrest (List.mem_append_left _ hfile))
    | fault e =>
      refine ⟨nofun, fun err he ↦ ?_, nofun⟩
      cases he
      rw [show e.location.file = file from hpiece]
      exact List.mem_append_left _ hfile

namespace Sources

variable (sources : Sources ε)

def Answers (file : String) : Prop := ∃ text, sources.buffer file = .ok text

theorem accounts_openFile {enter : String → Range → Expansion ε} {path : String}
    (henter : ∀ target range, (enter target range).Accounts sources.Answers [path])
    {blame : Location} (hblame : blame.file ∈ known ++ [path]) :
    (sources.openFile enter path blame).Accounts sources.Answers known := by
  rw [openFile]
  cases htext : sources.textOf path blame with
  | error stop =>
    -- The text fails where the buffer does not answer, and where the disk has no such file.
    rw [textOf] at htext
    cases hbuffer : sources.buffer path with
    | error reason =>
      rw [hbuffer] at htext
      obtain rfl := Except.error.inj htext
      exact Expansion.accounts_of_fault rfl rfl
    | ok text =>
      refine ⟨List.forall_mem_nil _, fun err he ↦ ?_, fun _ f hf ↦ ?_⟩
      · rw [hbuffer] at htext
        cases text with
        | some text => cases htext
        | none =>
          cases hread : sources.disk.readText path with
          | ok text =>
            rw [hread] at htext
            cases htext
          | error why =>
            rw [hread] at htext
            obtain rfl := Except.error.inj htext
            cases he
            exact hblame
      · obtain rfl := List.mem_singleton.mp hf
        exact ⟨text, hbuffer⟩
  | ok text =>
    have hanswers : sources.Answers path := by
      rw [textOf] at htext
      cases hbuffer : sources.buffer path with
      | error reason =>
        rw [hbuffer] at htext
        cases htext
      | ok text => exact ⟨text, hbuffer⟩
    have hopen : ({ announced := [path], opened := [path] } : Expansion ε).Accounts
        sources.Answers known := by
      refine ⟨List.forall_mem_nil _, fun _ he ↦ (by cases he), fun _ f hf ↦ ?_⟩
      obtain rfl := List.mem_singleton.mp hf
      exact hanswers
    exact hopen.andThen (Expansion.accounts_ofPieces henter (fun _ hp ↦ standsIn_of_mem_pieces hp)
      (List.mem_append_right _ (List.mem_singleton_self path)))

/-- What an include contributes stands in the files that it opens, or it fails in the including
file. -/
theorem accounts_expandInclude (rootFolder : String) (room : Nat) (within : List String)
    (file target : String) (range : Range) :
    (sources.expandInclude rootFolder room within file target range).Accounts sources.Answers
      [file] := by
  induction room generalizing within file target range with
  | zero => exact Expansion.accounts_failed (List.mem_singleton_self file)
  | succ room ih =>
    rw [expandInclude]
    split
    · exact Expansion.accounts_failed (List.mem_singleton_self file)
    · split
      · exact Expansion.accounts_of_fault rfl rfl
      · split
        · exact Expansion.accounts_failed (List.mem_singleton_self file)
        · exact sources.accounts_openFile (fun target range ↦ ih _ _ target range)
            (List.mem_append_left _ (List.mem_singleton_self file))

theorem accounts_expandRoot (file : String) :
    (sources.expandRoot file).Accounts sources.Answers [] := by
  rw [expandRoot_eq]
  exact sources.accounts_openFile
    (fun target range ↦ sources.accounts_expandInclude _ _ _ _ target range)
    (List.mem_singleton_self file)

end Sources

end Expansions

/-! ## Opened files -/

section Opened

variable {ε : Type}

theorem Expansion.mem_opened_andThen {a : Expansion ε} {b : Unit → Expansion ε} {file : String}
    (h : file ∈ (a.andThen b).opened) : file ∈ a.opened ∨ file ∈ (b ()).opened := by
  rw [Expansion.andThen] at h
  cases hstop : a.stop with
  | some stop =>
    rw [hstop] at h
    exact .inl h
  | none =>
    rw [hstop] at h
    exact List.mem_append.mp h

theorem Expansion.exists_of_mem_opened_ofPieces {enter : String → Range → Expansion ε}
    {ps : List Piece} {file : String} (h : file ∈ (Expansion.ofPieces enter ps).opened) :
    ∃ target range, file ∈ (enter target range).opened := by
  induction ps with
  | nil => cases h
  | cons piece rest ih =>
    cases piece with
    | token t =>
      rcases Expansion.mem_opened_andThen h with h | h
      · cases h
      · exact ih h
    | «include» target range =>
      rcases Expansion.mem_opened_andThen h with h | h
      · exact ⟨target, range, h⟩
      · exact ih h
    | fault e => cases h

namespace Sources

variable (sources : Sources ε)

theorem eq_or_exists_of_mem_opened_openFile {enter : String → Range → Expansion ε}
    {path file : String} {blame : Location}
    (h : file ∈ (sources.openFile enter path blame).opened) :
    file = path ∨ ∃ target range, file ∈ (enter target range).opened := by
  rw [openFile] at h
  split at h
  · exact .inl (List.mem_singleton.mp h)
  · rcases Expansion.mem_opened_andThen h with h | h
    · exact .inl (List.mem_singleton.mp h)
    · exact .inr (Expansion.exists_of_mem_opened_ofPieces h)

/-- What an include opens is there, and has a path that some include names. -/
theorem finds_of_mem_opened_expandInclude {rootFolder : String} {room : Nat} {within : List String}
    {file target opened : String} {range : Range}
    (h : opened ∈ (sources.expandInclude rootFolder room within file target range).opened) :
    sources.Finds opened ∧ ∃ includer target, opened
      = sources.includePath rootFolder includer target := by
  induction room generalizing within file target range with
  | zero => cases h
  | succ room ih =>
    rw [expandInclude] at h
    split at h
    · cases h
    · split at h
      · cases h
      · next buffered hbuffer =>
        split at h
        · cases h
        · next hthere =>
          rcases sources.eq_or_exists_of_mem_opened_openFile h with rfl | ⟨_, _, h⟩
          · exact ⟨⟨buffered, hbuffer, Bool.eq_false_iff.mpr hthere⟩, file, target, rfl⟩
          · exact ih h

theorem includePath_ne_empty (rootFolder file target : String) :
    sources.includePath rootFolder file target ≠ "" := by
  rw [includePath, Path.applyMappings]
  cases sources.mappings.find? fun m ↦ m.front.toList.isPrefixOf target.toList with
  | none => exact Path.resolve_ne_empty _ _
  | some m =>
    rw [Option.map_some, Option.getD_some]
    split
    · next habsolute =>
      -- An absolute folder is not empty, whatever is appended to it.
      intro hempty
      have hfolder : m.folder = "" := (String.append_eq_empty_iff.mp hempty).1
      rw [hfolder] at habsolute
      exact absurd habsolute (by decide +kernel)
    · exact Path.resolve_ne_empty _ _

end Sources

end Opened

/-! ## Announcements -/

section Announcements

variable {ε : Type}

theorem Expansion.announced_andThen {a : Expansion ε} {b : Unit → Expansion ε}
    (ha : a.announced = a.opened) (hb : (b ()).announced = (b ()).opened) :
    (a.andThen b).announced = (a.andThen b).opened := by
  rw [Expansion.andThen]
  split
  · exact ha
  · simp only [ha, hb]

theorem Expansion.announced_ofPieces {enter : String → Range → Expansion ε}
    (henter : ∀ target range, (enter target range).announced = (enter target range).opened)
    (ps : List Piece) : (ofPieces enter ps).announced = (ofPieces enter ps).opened := by
  induction ps with
  | nil => rfl
  | cons piece rest ih =>
    cases piece with
    | token t => exact announced_andThen rfl ih
    | «include» target range => exact announced_andThen (henter target range) ih
    | fault e => rfl

namespace Sources

variable (sources : Sources ε)

theorem announced_openFile {enter : String → Range → Expansion ε}
    (henter : ∀ target range, (enter target range).announced = (enter target range).opened)
    (path : String) (blame : Location) :
    (sources.openFile enter path blame).announced = (sources.openFile enter path blame).opened := by
  rw [openFile]
  split
  · rfl
  · exact Expansion.announced_andThen rfl (Expansion.announced_ofPieces henter _)

theorem announced_expandInclude (rootFolder : String) (room : Nat) (within : List String)
    (file target : String) (range : Range) :
    (sources.expandInclude rootFolder room within file target range).announced
      = (sources.expandInclude rootFolder room within file target range).opened := by
  induction room generalizing within file target range with
  | zero => rfl
  | succ room ih =>
    rw [expandInclude]
    split
    · rfl
    · split
      · rfl
      · split
        · rfl
        · exact sources.announced_openFile (fun target range ↦ ih _ _ target range) _ _

theorem announced_parse (path : String) :
    (sources.parse path).announced = (sources.parse path).opened := by
  simp only [parse, expandRoot_eq]
  exact sources.announced_openFile
    (fun target range ↦ sources.announced_expandInclude _ _ _ _ target range) _ _

end Sources

end Announcements

/-! ## Statements -/

section Statements

variable {P : Name → Prop}

/-- All class names that a statement declares, at any depth, satisfy `P`. -/
inductive Statement.Named (P : Name → Prop) : Statement → Prop
  | assign {name value : String} : (Statement.assign name value).Named P
  | assignList {name : String} {append : Bool} {items : List Value} :
      (Statement.assignList name append items).Named P
  | declare {name : Name} {base : Option String} : P name → (Statement.declare name base).Named P
  | define {name : Name} {base : Option String} {body : List Statement} : P name →
      (∀ s ∈ body, s.Named P) → (Statement.define name base body).Named P
  | delete {name : String} : (Statement.delete name).Named P

/-- The class names that a reader is in the middle of satisfy `P`. -/
def Awaiting.Named (P : Name → Prop) : Awaiting → Prop
  | .classHead name | .baseName name | .classBody name _ => P name
  | .classEnd done => done.Named P
  | _ => True

/-- All class names that a reader has met satisfy `P`. -/
structure Reader.Named (P : Name → Prop) (r : Reader) : Prop where
  outer : ∀ b ∈ r.outer, P b.name ∧ ∀ s ∈ b.statements, s.Named P
  statements : ∀ s ∈ r.statements, s.Named P
  awaiting : r.awaiting.Named P

namespace Reader.Named

variable {r next : Reader} {t : Token}

theorem await (h : r.Named P) {a : Awaiting} (ha : a.Named P) : { r with awaiting := a }.Named P :=
  ⟨h.outer, h.statements, ha⟩

theorem add (h : r.Named P) {s : Statement} (hs : s.Named P) : (r.add s).Named P := by
  refine ⟨h.outer, fun s' hs' ↦ ?_, trivial⟩
  rcases List.mem_append.mp hs' with hs' | hs'
  · exact h.statements s' hs'
  · obtain rfl := List.mem_singleton.mp hs'
    exact hs

theorem enter (h : r.Named P) {name : Name} (hname : P name) (base : Option String) :
    (r.enter name base).Named P := by
  refine ⟨fun b hb ↦ ?_, nofun, trivial⟩
  rcases List.mem_cons.mp hb with rfl | hb
  · exact ⟨hname, h.statements⟩
  · exact h.outer b hb

theorem closeList (h : r.Named P) (target : ListTarget) (outer : List (List Value))
    (items : List Value) : (r.closeList target outer items).Named P := by
  cases outer <;> exact h.await trivial

theorem stepStatement (h : r.Named P) (hstep : r.stepStatement t = .ok next) : next.Named P := by
  rw [Reader.stepStatement] at hstep
  split at hstep
  · cases houter : r.outer with
    | nil => simp [houter] at hstep
    | cons around outer =>
      simp only [houter, Except.ok.injEq] at hstep
      subst hstep
      obtain ⟨hname, hstatements⟩ := h.outer around (houter ▸ List.mem_cons_self)
      exact ⟨fun b hb ↦ h.outer b (houter ▸ List.mem_cons_of_mem around hb), hstatements,
        .define hname h.statements⟩
  · cases hstep
    exact h
  · split at hstep
    · cases hstep
      exact h.await trivial
    · split at hstep <;> cases hstep <;> exact h.await trivial
  · cases hstep

theorem stepItem (h : r.Named P) {target : ListTarget} {outer : List (List Value)}
    {items : List Value} (hstep : r.stepItem target outer items t = .ok next) : next.Named P := by
  rw [Reader.stepItem] at hstep
  split at hstep <;> cases hstep
  · exact h.closeList target outer items
  · exact h.await trivial
  · exact h.await trivial

theorem stepItemPart (h : r.Named P) {target : ListTarget} {outer : List (List Value)}
    {items : List Value} {parts : List Token}
    (hstep : r.stepItemPart target outer items parts t = .ok next) : next.Named P := by
  simp only [Reader.stepItemPart] at hstep
  split at hstep <;> cases hstep
  · exact h.closeList target outer _
  · exact h.await trivial
  · exact h.await trivial

theorem stepValue (h : r.Named P) {name : String} {parts : List Token}
    (hstep : r.stepValue name parts t = .ok next) : next.Named P := by
  rw [Reader.stepValue] at hstep
  split at hstep
  · split at hstep <;> cases hstep
    exact h.add .assign
  all_goals cases hstep
  exact h.await trivial

/-- A name that a step takes up is its token. -/
theorem step (h : r.Named P) (ht : t.kind = .word → P ⟨t.text, t.location⟩)
    (hstep : r.step t = .ok next) :
    next.Named P := by
  have hawaiting := h.awaiting
  cases hr : r.awaiting <;> simp only [Reader.step, hr] at hstep <;> rw [hr] at hawaiting
  case statement => exact h.stepStatement hstep
  case item => exact h.stepItem hstep
  case itemPart => exact h.stepItemPart hstep
  case value => exact h.stepValue hstep
  case className =>
    split at hstep
    · next hword =>
      cases hstep
      exact h.await (ht hword)
    · cases hstep
  case classHead =>
    split at hstep <;> cases hstep
    · exact h.await hawaiting
    · exact h.add (.declare hawaiting)
    · exact h.enter hawaiting none
  case baseName =>
    split at hstep <;> cases hstep
    exact h.await hawaiting
  case classBody =>
    split at hstep <;> cases hstep
    · exact h.add (.declare hawaiting)
    · exact h.enter hawaiting _
  case classEnd =>
    split at hstep <;> cases hstep
    exact h.add hawaiting
  case deleteEnd =>
    split at hstep <;> cases hstep
    exact h.add .delete
  case listEnd =>
    split at hstep <;> cases hstep
    exact h.add .assignList
  case separator =>
    split at hstep <;> cases hstep
    · exact h.await trivial
    · exact h.closeList _ _ _
  all_goals
    split at hstep <;> cases hstep <;> exact h.await trivial

theorem run {r final : Reader} {ts : List Token} (h : r.Named P)
    (hts : ∀ t ∈ ts, t.kind = .word → P ⟨t.text, t.location⟩) (hrun : r.run ts = .ok final) :
    final.Named P := by
  induction ts generalizing r with
  | nil =>
    cases hrun
    exact h
  | cons t rest ih =>
    rw [Reader.run] at hrun
    split at hrun
    · next r' hstep =>
      exact ih (h.step (hts t List.mem_cons_self) hstep)
        (fun t' ht' ↦ hts t' (List.mem_cons_of_mem t ht'))
        hrun
    · cases hrun

end Reader.Named

theorem named_of_readStatements {file : String} {ts : List Token} {statements : List Statement}
    (hts : ∀ t ∈ ts, t.kind = .word → P ⟨t.text, t.location⟩)
    (h : readStatements file ts = .ok statements) :
    ∀ s ∈ statements, s.Named P := by
  rw [readStatements] at h
  split at h
  · cases h
  · next r hrun =>
    have hstart : ({} : Reader).Named P := ⟨nofun, nofun, trivial⟩
    have hr := hstart.run hts hrun
    split at h
    · next hfinish =>
      cases h
      rw [Reader.finish] at hfinish
      split at hfinish <;> try cases hfinish
      split at hfinish <;> cases hfinish
      exact hr.statements
    · cases h

theorem Reader.location_of_run_eq_error {r : Reader} {ts : List Token} {e : ParseError}
    (h : r.run ts = .error e) : ∃ t ∈ ts, e.location = t.location := by
  induction ts generalizing r with
  | nil => cases h
  | cons t rest ih =>
    rw [Reader.run] at h
    split at h
    · obtain ⟨t', ht', he⟩ := ih h
      exact ⟨t', List.mem_cons_of_mem t ht', he⟩
    · cases h
      exact ⟨t, List.mem_cons_self, rfl⟩

/-- What is wrong with statements is wrong at a token, or at the end of the last file. -/
theorem file_of_readStatements_eq_error {file : String} {ts : List Token} {e : ParseError}
    (h : readStatements file ts = .error e) :
    e.location.file = file ∨ ∃ t ∈ ts, e.location.file = t.location.file := by
  rw [readStatements] at h
  split at h
  · next hrun =>
    cases h
    obtain ⟨t, ht, he⟩ := Reader.location_of_run_eq_error hrun
    exact .inr ⟨t, ht, congrArg Location.file he⟩
  · split at h
    · cases h
    · cases h
      rw [endOfInput]
      cases hlast : ts.getLast? with
      | none => exact .inl rfl
      | some t => exact .inr ⟨t, List.mem_of_getLast? hlast, rfl⟩

end Statements

/-! ## Trees -/

/-- A class stands where a name with its key does, and its own name has that key, too. -/
structure ConfigClass.Anchored (P : Name → Prop) (key : String) (c : ConfigClass) : Prop where
  lower_name : lower c.name = key
  anchor : ∃ name, P name ∧ lower name.text = key ∧ name.location = c.location

/-- All classes in a class, at any depth, are anchored by names that satisfy `P`. -/
inductive ConfigClass.Keyed (P : Name → Prop) : ConfigClass → Prop
  | intro {c : ConfigClass} : (∀ e ∈ c.body.classes, e.2.Anchored P e.1) →
      (∀ e ∈ c.body.classes, e.2.Keyed P) → c.Keyed P

/-- The classes around a class are keyed, and so they are when they are filled with it. -/
inductive Enclosed (P : Name → Prop) : ConfigClass → List Surrounding → Prop
  | nil {c : ConfigClass} : Enclosed P c []
  | cons {c : ConfigClass} {e : Surrounding} {around : List Surrounding} : c.Anchored P e.key →
      e.outer.Keyed P → Enclosed P e.outer around → Enclosed P c (e :: around)

/-- The places of a class and of all classes in it, at any depth, satisfy `P`. -/
inductive ConfigClass.Placed (P : Location → Prop) : ConfigClass → Prop
  | intro {c : ConfigClass} : P c.location → (∀ e ∈ c.body.classes, e.2.Placed P) → c.Placed P

namespace ConfigClass.Placed

variable {P : Location → Prop} {c d : ConfigClass}

theorem location (h : c.Placed P) : P c.location := by
  cases h with
  | intro hlocation _ => exact hlocation

theorem classes (h : c.Placed P) : ∀ e ∈ c.body.classes, e.2.Placed P := by
  cases h with
  | intro _ hclasses => exact hclasses

theorem lookup (h : c.Placed P) {key : String} (hl : c.body.classes.lookup key = some d) :
    d.Placed P :=
  h.classes _ (Ordered.mem_of_lookup hl)

end ConfigClass.Placed

section Trees

variable {P : Name → Prop}

theorem ConfigClass.Anchored.congr {key : String} {c d : ConfigClass} (h : c.Anchored P key)
    (hname : d.name = c.name) (hlocation : d.location = c.location) : d.Anchored P key := by
  obtain ⟨hlower, hanchor⟩ := h
  rw [← hname] at hlower
  rw [← hlocation] at hanchor
  exact ⟨hlower, hanchor⟩

theorem Enclosed.congr {c d : ConfigClass} {around : List Surrounding} (h : Enclosed P c around)
    (hname : d.name = c.name) (hlocation : d.location = c.location) : Enclosed P d around := by
  cases h with
  | nil => exact .nil
  | cons hanchored hkeyed haround => exact .cons (hanchored.congr hname hlocation) hkeyed haround

namespace ConfigClass.Keyed

variable {c d : ConfigClass} {around : List Surrounding}

theorem anchored (h : c.Keyed P) : ∀ e ∈ c.body.classes, e.2.Anchored P e.1 := by
  cases h with
  | intro hanchored _ => exact hanchored

theorem classes (h : c.Keyed P) : ∀ e ∈ c.body.classes, e.2.Keyed P := by
  cases h with
  | intro _ hclasses => exact hclasses

theorem lookup (h : c.Keyed P) {key : String} (hl : c.body.classes.lookup key = some d) :
    d.Keyed P :=
  h.classes _ (Ordered.mem_of_lookup hl)

theorem of_subset (h : c.Keyed P) (hsub : d.body.classes ⊆ c.body.classes) : d.Keyed P :=
  .intro (fun e he ↦ h.anchored e (hsub he)) fun e he ↦ h.classes e (hsub he)

theorem setClass (h : c.Keyed P) (hd : d.Keyed P) {key : String} (hkey : d.Anchored P key) :
    { c with body := c.body.setClass key d }.Keyed P := by
  refine .intro (fun e he ↦ ?_) fun e he ↦ ?_
  · rcases Ordered.mem_of_mem_put he with rfl | he
    · exact hkey
    · exact h.anchored e he
  · rcases Ordered.mem_of_mem_put he with rfl | he
    · exact hd
    · exact h.classes e he

theorem visible (h : c.Keyed P) (haround : Enclosed P c around) {key : String}
    (hd : c.visible? key around = some d) : d.Keyed P := by
  induction around generalizing c with
  | nil => exact h.lookup hd
  | cons e around ih =>
    rw [visible?, Option.or_eq_some_iff] at hd
    obtain hd | ⟨-, hd⟩ := hd
    · exact h.lookup hd
    · cases haround with
      | cons hanchored houter haround =>
        have hfill : (e.fill c).Keyed P := houter.setClass h hanchored
        exact ih hfill (haround.congr rfl rfl) hd

theorem started (h : c.Keyed P) (haround : Enclosed P c around) (name : Name)
    (base : Option String) :
    (c.started around name base).Keyed P := by
  rw [ConfigClass.started]
  split
  · next b hb =>
    obtain ⟨base, -, hb⟩ := Option.bind_eq_some_iff.mp hb
    exact (h.visible haround hb).of_subset fun _ he ↦ he
  · exact .intro nofun nofun

theorem reopened (h : c.Keyed P) (haround : Enclosed P c around) {name : Name} (hname : P name)
    (base : Option String) :
    (c.reopened around name base).Keyed P ∧
    (c.reopened around name base).Anchored P (lower name.text) := by
  rw [ConfigClass.reopened]
  split
  · next old hold =>
    have hold' := h.anchored _ (Ordered.mem_of_lookup hold)
    exact ⟨(h.lookup hold).of_subset fun _ he ↦ he, hold'.lower_name, name, hname, rfl, rfl⟩
  · exact ⟨h.started haround name base, rfl, name, hname, rfl, rfl⟩

theorem placed {Q : Location → Prop} (h : c.Keyed P) (hP : ∀ name, P name → Q name.location)
    (hlocation : Q c.location) : c.Placed Q := by
  induction h with
  | @intro c hanchored _ ih =>
    refine .intro hlocation fun e he ↦ ih e he ?_
    obtain ⟨name, hname, -, hplace⟩ := (hanchored e he).anchor
    exact hplace ▸ hP name hname

end ConfigClass.Keyed

theorem Statement.effect_name_location (statement : Statement) (around : List Surrounding)
    (c : ConfigClass) :
    (statement.effect around c).name = c.name ∧ (statement.effect around c).location
      = c.location := by
  cases statement with
  | declare name base =>
    rw [effect]
    split <;> exact ⟨rfl, rfl⟩
  | _ =>
    rw [effect]
    exact ⟨rfl, rfl⟩

theorem Statement.effectAll_name_location (statements : List Statement) (around : List Surrounding)
    (c : ConfigClass) : (Statement.effectAll around c statements).name = c.name ∧
      (Statement.effectAll around c statements).location = c.location := by
  induction statements generalizing c with
  | nil =>
    rw [effectAll]
    exact ⟨rfl, rfl⟩
  | cons s rest ih =>
    obtain ⟨hname, hlocation⟩ := s.effect_name_location around c
    rw [effectAll, ← hname, ← hlocation]
    exact ih _

mutual

/-- The classes that a statement makes are anchored by the names in it. -/
theorem keyed_effect (statement : Statement) {around : List Surrounding} {c : ConfigClass}
    (hs : statement.Named P) (haround : Enclosed P c around) (h : c.Keyed P) :
    (statement.effect around c).Keyed P := by
  cases hs with
  | assign =>
    rw [Statement.effect]
    exact h.of_subset fun _ he ↦ he
  | assignList =>
    rw [Statement.effect]
    refine h.of_subset fun e he ↦ ?_
    split at he <;> exact he
  | @declare name base hname =>
    rw [Statement.effect]
    split
    · exact h
    · exact h.setClass (h.started haround name base) ⟨rfl, name, hname, rfl, rfl⟩
  | @define name base body hname hbody =>
    rw [Statement.effect]
    obtain ⟨hopened, hanchored⟩ := h.reopened haround hname base
    obtain ⟨hsame, hstays⟩ :=
      Statement.effectAll_name_location body (⟨c, lower name.text⟩ :: around)
      (c.reopened around name base)
    exact h.setClass (keyed_effectAll body hbody (.cons hanchored h haround) hopened)
      (hanchored.congr hsame hstays)
  | delete =>
    rw [Statement.effect]
    exact h.of_subset (Ordered.erase_sublist _ _).subset

theorem keyed_effectAll (statements : List Statement) {around : List Surrounding} {c : ConfigClass}
    (hs : ∀ s ∈ statements, s.Named P) (haround : Enclosed P c around) (h : c.Keyed P) :
    (Statement.effectAll around c statements).Keyed P := by
  cases statements with
  | nil =>
    rw [Statement.effectAll]
    exact h
  | cons s rest =>
    rw [Statement.effectAll]
    obtain ⟨hname, hlocation⟩ := s.effect_name_location around c
    exact keyed_effectAll rest (fun s' hs' ↦ hs s' (List.mem_cons_of_mem s hs'))
      (haround.congr hname hlocation)
      (keyed_effect s (hs s List.mem_cons_self) haround h)

end

end Trees

/-! ## Parses -/

namespace Sources

variable {ε : Type} (sources : Sources ε) (path : String)

theorem mem_opened_parse : sources.disk.absolute path ∈ (sources.parse path).opened := by
  simp only [parse, expandRoot_eq, openFile]
  split
  · exact List.mem_singleton_self _
  · rw [Expansion.andThen]
    exact List.mem_cons_self

theorem eq_or_finds_of_mem_opened {file : String} (h : file ∈ (sources.parse path).opened) :
    file = sources.disk.absolute path ∨ sources.Finds file := by
  simp only [parse, expandRoot_eq] at h
  rcases sources.eq_or_exists_of_mem_opened_openFile h with rfl | ⟨_, _, h⟩
  · exact .inl rfl
  · exact .inr (sources.finds_of_mem_opened_expandInclude h).1

theorem ne_empty_of_mem_opened {file : String} (h : file ∈ (sources.parse path).opened) :
    file ≠ "" := by
  simp only [parse, expandRoot_eq] at h
  rcases sources.eq_or_exists_of_mem_opened_openFile h with rfl | ⟨_, _, h⟩
  · exact Path.resolve_ne_empty _ _
  · obtain ⟨-, includer, target, rfl⟩ := sources.finds_of_mem_opened_expandInclude h
    exact sources.includePath_ne_empty _ _ _

/-- The classes of the tree that a parse gives are anchored by words of its expansion, and its root
class stands in the root file. -/
theorem keyed_parse {P : Name → Prop}
    (hP : ∀ t ∈ (sources.expandRoot (sources.disk.absolute path)).tokens, t.kind = .word →
      P ⟨t.text, t.location⟩)
    {tree : ConfigClass} (h : (sources.parse path).result = .ok tree) :
    tree.Keyed P ∧ tree.location.file = sources.disk.absolute path := by
  simp only [parse] at h
  split at h
  · cases h
  · split at h
    · next statements hread =>
      cases h
      rw [rootClass_eq]
      refine ⟨keyed_effectAll statements (named_of_readStatements hP hread) .nil
        (.intro (List.forall_mem_nil _) (List.forall_mem_nil _)), ?_⟩
      rw [(Statement.effectAll_name_location statements [] _).2]
    · cases h

theorem placed_parse {tree : ConfigClass} (h : (sources.parse path).result = .ok tree) :
    tree.Placed fun l ↦ l.file ∈ (sources.parse path).opened := by
  have haccounts := sources.accounts_expandRoot (sources.disk.absolute path)
  obtain ⟨hkeyed, hfile⟩ := sources.keyed_parse path
    (P := fun name ↦ name.location.file ∈ (sources.parse path).opened)
      (fun t ht _ ↦ haccounts.tokens t ht) h
  exact hkeyed.placed (fun _ hname ↦ hname) (hfile ▸ sources.mem_opened_parse path)

theorem file_of_parse_eq_error {e : ParseError}
    (h : (sources.parse path).result = .error (.error e)) :
    e.location.file ∈ (sources.parse path).opened := by
  have hroot := sources.mem_opened_parse path
  simp only [parse] at h hroot ⊢
  generalize sources.disk.absolute path = file at h hroot
  have haccounts := sources.accounts_expandRoot file
  split at h
  · next stop hstop =>
    cases h
    exact haccounts.error e hstop
  · split at h
    · cases h
    · next hread =>
      cases h
      rcases file_of_readStatements_eq_error hread with he | ⟨t, ht, he⟩
      · rw [he]
        exact hroot
      · rw [he]
        exact haccounts.tokens t ht

theorem answers_of_mem_opened (h : ∀ reason, (sources.parse path).result ≠ .error (.fault reason)) :
    ∀ file ∈ (sources.parse path).opened, sources.Answers file := by
  have haccounts := sources.accounts_expandRoot (sources.disk.absolute path)
  refine haccounts.answered fun reason hstop ↦ h reason ?_
  simp only [parse, hstop]

end Sources

end MissionIndex.Config
