import MissionIndex.CommandLine.Commands
import MissionIndex.Proofs.Text.Utf8

/-!
# What loading settings comes to

What stands at a path sets nothing, or it holds a mapping, or the loading stops there: the path is
barred, or the reader of YAML neither reads the file nor finds it malformed. There is nothing else
(`settles`), and only in the third case are there no settings without a value being at fault. In a
file of characters the reader stops where it gives up for a reason of its own, and in any other file
unless a fault is found in front of the first byte that is no character.

The reader is not looked into. That it does not read on behind bytes that are no characters, and
complains of them only where there are some, is all that is used of it.
-/

namespace MissionIndex

open Text

namespace Settings

variable (yaml : Data.Yaml.Reader) (bars : String → Bool) (disk : Disk) (path : String)

/-- Nothing is set by what stands at a path: it cannot be opened, it is malformed, or it is no
mapping. -/
def SetsNothing : Prop :=
  bars path = false ∧ ((∃ why, disk.read path = .error why) ∨
    ∃ s, disk.stream path = .ok s ∧
      (yaml.read s = .error .malformed ∨
        ∃ value, yaml.read s = .ok value ∧ ∀ entries, value ≠ .map entries))

/-- A mapping stands at a path. -/
def Holds (entries : List (Data × Data)) : Prop :=
  bars path = false ∧ ∃ s, disk.stream path = .ok s ∧ yaml.read s = .ok (.map entries)

/-- A path is barred, or the file there can be opened, and reading it ends neither with a value nor
because it is malformed. -/
def Stops : Prop :=
  bars path = true ∨
    ∃ s why, disk.stream path = .ok s ∧ yaml.read s = .error why ∧ why ≠ .malformed

def LoadError.isFault : LoadError → Bool
  | .invalid _ => true
  | .notLookedUp | .notUtf8 | .aborted => false

variable {yaml bars disk path}

/-! ## Opening -/

theorem stream_of_read {bytes : List UInt8} (hread : disk.read path = .ok bytes) :
    disk.stream path = .ok ((Stream.ofBytes bytes).map unifyNewlines) := by
  rw [Disk.stream, hread]
  rfl

theorem stream_of_unopened {why : ReadError} (hread : disk.read path = .error why) :
    disk.stream path = .error why := by
  rw [Disk.stream, hread]
  rfl

theorem load_of_bars (hbars : bars path = true) :
    load yaml bars disk path = .error .notLookedUp := by
  rw [load, if_pos hbars]

theorem load_of_stream {s : Stream} (hbars : bars path = false) (hs : disk.stream path = .ok s) :
    load yaml bars disk path = ofYaml yaml s := by
  rw [load, hbars, hs]
  rfl

/-! ## The three cases -/

theorem load_of_setsNothing (h : SetsNothing yaml bars disk path) :
    load yaml bars disk path = .ok {} := by
  obtain ⟨hbars, ⟨why, hread⟩ | ⟨s, hs, hmalformed | ⟨value, hvalue, hmap⟩⟩⟩ := h
  · rw [load, hbars, stream_of_unopened hread]
    rfl
  · rw [load_of_stream hbars hs, ofYaml, hmalformed]
  · rw [load_of_stream hbars hs, ofYaml, hvalue]
    cases value with
    | map entries => exact absurd rfl (hmap entries)
    | _ => rfl

theorem load_of_holds {entries : List (Data × Data)} (h : Holds yaml bars disk path entries) :
    load yaml bars disk path = (ofData (.map entries)).mapError .invalid := by
  obtain ⟨hbars, s, hs, hmap⟩ := h
  rw [load_of_stream hbars hs, ofYaml, hmap]

theorem exists_of_stops (h : Stops yaml bars disk path) :
    ∃ why, load yaml bars disk path = .error why ∧ why.isFault = false := by
  by_cases hbars : bars path = true
  · exact ⟨.notLookedUp, load_of_bars hbars, rfl⟩
  · obtain ⟨s, why, hs, hread, hwhy⟩ := h.resolve_left hbars
    rw [load_of_stream (Bool.eq_false_iff.mpr hbars) hs, ofYaml, hread]
    cases why with
    | malformed => exact absurd rfl hwhy
    | undecodable => exact ⟨.notUtf8, rfl, rfl⟩
    | aborted => exact ⟨.aborted, rfl, rfl⟩

variable (yaml bars disk path) in
theorem settles : SetsNothing yaml bars disk path ∨ (∃ entries, Holds yaml bars disk path entries) ∨
    Stops yaml bars disk path := by
  cases hbars : bars path with
  | true => exact .inr (.inr (.inl hbars))
  | false =>
    cases hread : disk.read path with
    | error why => exact .inl ⟨hbars, .inl ⟨why, hread⟩⟩
    | ok bytes =>
      have hs := stream_of_read hread
      cases hyaml : yaml.read ((Stream.ofBytes bytes).map unifyNewlines) with
      | ok value =>
        cases value with
        | map entries => exact .inr (.inl ⟨entries, hbars, _, hs, hyaml⟩)
        | _ => exact .inl ⟨hbars, .inr ⟨_, hs, .inr ⟨_, hyaml, by simp⟩⟩⟩
      | error why =>
        cases why with
        | malformed => exact .inl ⟨hbars, .inr ⟨_, hs, .inl hyaml⟩⟩
        | undecodable | aborted => exact .inr (.inr (.inr ⟨_, _, hs, hyaml, by simp⟩))

theorem stops_iff : Stops yaml bars disk path ↔
    ∃ why, load yaml bars disk path = .error why ∧ why.isFault = false := by
  refine ⟨exists_of_stops, fun ⟨why, hload, hwhy⟩ ↦ ?_⟩
  obtain hnothing | ⟨entries, hholds⟩ | hstops := settles yaml bars disk path
  · rw [load_of_setsNothing hnothing] at hload
    cases hload
  · rw [load_of_holds hholds] at hload
    cases hdata : ofData (.map entries) with
    | ok settings =>
      rw [hdata] at hload
      cases hload
    | error faults =>
      rw [hdata] at hload
      cases hload
      cases hwhy
  · exact hstops

/-! ## Where the reader stops -/

/-- In a file of characters, the reader stops only for a reason of its own. -/
theorem stops_iff_of_text {cs : List Char} (hbars : bars path = false)
    (hread : disk.read path = .ok (encodeUtf8 cs)) :
    Stops yaml bars disk path ↔ yaml.read { text := unifyNewlines cs } = .error .aborted := by
  have hs := stream_of_read hread
  rw [Stream.ofBytes_encodeUtf8] at hs
  constructor
  · intro hstops
    obtain ⟨s, why, hs', hyaml, hwhy⟩ := hstops.resolve_left (Bool.eq_false_iff.mp hbars)
    obtain rfl := Except.ok.inj (hs.symm.trans hs')
    cases why with
    | malformed => exact absurd rfl hwhy
    | undecodable => cases yaml.isBroken_of_read _ hyaml
    | aborted => exact hyaml
  · exact fun hyaml ↦ .inr ⟨_, _, hs, hyaml, by simp⟩

/-- In any other file, the reader stops unless it finds a fault in what comes before. -/
theorem stops_or_malformed_of_bytes {bytes : List UInt8} (hread : disk.read path = .ok bytes)
    (hno : ∀ cs, encodeUtf8 cs ≠ bytes) :
    Stops yaml bars disk path ∨ ∃ s, disk.stream path = .ok s ∧
    yaml.read s = .error .malformed := by
  have hs := stream_of_read hread
  have hbroken := (Stream.isBroken_ofBytes_iff bytes).mpr hno
  cases hyaml : yaml.read ((Stream.ofBytes bytes).map unifyNewlines) with
  | ok value => exact absurd hyaml (yaml.read_of_isBroken _ value hbroken)
  | error why =>
    by_cases hwhy : why = .malformed
    · exact .inr ⟨_, hs, hwhy ▸ hyaml⟩
    · exact .inl (.inr ⟨_, why, hs, hyaml, hwhy⟩)

end Settings

/-! ## The program -/

namespace CommandLine

variable {yaml : Data.Yaml.Reader} {bars : String → Bool} {disk : Disk} {args : List String}
    {a : Arguments}

theorem status?_ofLoadError (why : Settings.LoadError) :
    (Outcome.ofLoadError why).status? = if why.isFault then some failureStatus else none := by
  cases why <;> rfl

theorem status?_perform_ne_none (disk : Disk) (settings : Settings) (a : Arguments) :
    (perform disk settings a).status? ≠ none := by
  rw [perform]
  cases a.command <;> simp [Outcome.status?]

/-- A call that names a command is kept from ending with a status: its workspace is barred, or is a
folder whose settings the loading stops in or whose own root file is looked up and barred. -/
def Hindered (yaml : Data.Yaml.Reader) (bars : String → Bool) (disk : Disk) (a : Arguments) :
    Prop :=
  bars a.workspace = true ∨ disk.isFolder a.workspace = true ∧
    (Settings.Stops yaml bars disk (Settings.pathIn a.workspace a.config) ∨
      ∃ settings, Settings.load yaml bars disk (Settings.pathIn a.workspace a.config)
      = .ok settings ∧
        discoveryBarred bars disk settings a.workspace = true)

theorem run_of_workspaceBarred (hargs : readArguments args = .ok (some a))
    (hbars : bars a.workspace = true) :
    run yaml bars disk args = .notLookedUp := by
  rw [run, hargs]
  simp only [hbars, if_true]

theorem run_of_notFolder (hargs : readArguments args = .ok (some a))
    (hbars : bars a.workspace = false) (hfolder : disk.isFolder a.workspace = false) :
    run yaml bars disk args = .report (noFolder a.workspace) := by
  rw [run, hargs]
  simp only [hbars, hfolder, Bool.false_eq_true, if_false, Bool.not_false, if_true]

section Loading

variable (hargs : readArguments args = .ok (some a)) (hbars : bars a.workspace = false)
  (hfolder : disk.isFolder a.workspace = true)

include hargs hbars hfolder

theorem run_of_load {settings : Settings}
    (hload : Settings.load yaml bars disk (Settings.pathIn a.workspace a.config) = .ok settings) :
    run yaml bars disk args
      = if discoveryBarred bars disk settings a.workspace then .notLookedUp
        else perform disk settings a := by
  rw [run, hargs]
  simp only [hbars, hfolder, Bool.not_true, Bool.false_eq_true, if_false,
    Settings.ofWorkspace, hload]

theorem run_of_loadError {why : Settings.LoadError}
    (hload : Settings.load yaml bars disk (Settings.pathIn a.workspace a.config) = .error why) :
    run yaml bars disk args = .ofLoadError why := by
  rw [run, hargs]
  simp only [hbars, hfolder, Bool.not_true, Bool.false_eq_true, if_false,
    Settings.ofWorkspace, hload]

theorem status?_run_of_folder : (run yaml bars disk args).status? = none ↔
    Settings.Stops yaml bars disk (Settings.pathIn a.workspace a.config) ∨
      ∃ settings, Settings.load yaml bars disk (Settings.pathIn a.workspace a.config)
        = .ok settings ∧
        discoveryBarred bars disk settings a.workspace = true := by
  rw [Settings.stops_iff]
  cases hload : Settings.load yaml bars disk (Settings.pathIn a.workspace a.config) with
  | ok settings =>
    rw [run_of_load hargs hbars hfolder hload]
    cases hown : discoveryBarred bars disk settings a.workspace with
    | true => simp [hown, Outcome.status?]
    | false => simp [hown, status?_perform_ne_none]
  | error why =>
    rw [run_of_loadError hargs hbars hfolder hload, status?_ofLoadError]
    cases hwhy : why.isFault <;> simp [hwhy]

end Loading

theorem status?_run_eq_none_iff : (run yaml bars disk args).status? = none ↔
    ∃ a, readArguments args = .ok (some a) ∧ Hindered yaml bars disk a := by
  cases hargs : readArguments args with
  | error why => simp [run, hargs, Outcome.status?]
  | ok called =>
    cases called with
    | none => simp [run, hargs, Outcome.status?]
    | some a =>
      simp only [Except.ok.injEq, Option.some.injEq, exists_eq_left', Hindered]
      cases hbars : bars a.workspace with
      | true => simp [run_of_workspaceBarred hargs hbars, Outcome.status?]
      | false =>
        cases hfolder : disk.isFolder a.workspace with
        | false => simp [run_of_notFolder hargs hbars hfolder, Outcome.status?]
        | true => simp [status?_run_of_folder hargs hbars hfolder]

/-- **Settings are read, found at fault or passed over in all files but those that the loading stops
in, and a command ends without a status only there or where a path is barred.** In a file of
characters the reader stops only for a reason of its own, in any other file unless it finds a fault
before. Where values are at fault, the status is 2. -/
theorem status_unless_stopped (yaml : Data.Yaml.Reader) (bars : String → Bool) (disk : Disk) :
    (∀ path,
      Settings.SetsNothing yaml bars disk path ∧ Settings.load yaml bars disk path = .ok {} ∨
      (∃ entries, Settings.Holds yaml bars disk path entries ∧
        Settings.load yaml bars disk path = (Settings.ofData (.map entries)).mapError .invalid) ∨
      Settings.Stops yaml bars disk path ∧
        ∃ why, Settings.load yaml bars disk path = .error why ∧ why.isFault = false) ∧
    (∀ path cs, bars path = false → disk.read path = .ok (encodeUtf8 cs) →
      (Settings.Stops yaml bars disk path ↔ yaml.read { text := unifyNewlines cs }
        = .error .aborted)) ∧
    (∀ path bytes, disk.read path = .ok bytes → (∀ cs, encodeUtf8 cs ≠ bytes) →
      Settings.Stops yaml bars disk path ∨ ∃ s, disk.stream path = .ok s ∧
      yaml.read s = .error .malformed) ∧
    (∀ args, (run yaml bars disk args).status? = none ↔
      ∃ a, readArguments args = .ok (some a) ∧ Hindered yaml bars disk a) ∧
    ∀ args a faults, readArguments args = .ok (some a) → bars a.workspace = false →
      disk.isFolder a.workspace = true →
      Settings.load yaml bars disk (Settings.pathIn a.workspace a.config)
        = .error (.invalid faults) →
      run yaml bars disk args = .invalidSettings faults ∧
      (run yaml bars disk args).status? = some 2 := by
  refine ⟨fun path ↦ ?_, fun path cs ↦ Settings.stops_iff_of_text,
    fun path bytes ↦ Settings.stops_or_malformed_of_bytes, fun args ↦ status?_run_eq_none_iff,
    fun args a faults hargs hbars hfolder hload ↦ ?_⟩
  · obtain hnothing | ⟨entries, hholds⟩ | hstops := Settings.settles yaml bars disk path
    · exact .inl ⟨hnothing, Settings.load_of_setsNothing hnothing⟩
    · exact .inr (.inl ⟨entries, hholds, Settings.load_of_holds hholds⟩)
    · exact .inr (.inr ⟨hstops, Settings.exists_of_stops hstops⟩)
  · have hrun := run_of_loadError hargs hbars hfolder hload
    exact ⟨hrun, congrArg Outcome.status? hrun⟩

/-- A text where a list belongs: the reader does not stop, and the status is 2. -/
theorem status_unless_stopped_exclude :
    let disk : Disk :=
      { files := [(["w", ".ext-index.yaml"], .bytes (encodeUtf8 "exclude: a".toList))] }
    ¬Settings.Stops Data.Yaml.reader (fun _ ↦ false) disk "/w/.ext-index.yaml" ∧
      (run Data.Yaml.reader (fun _ ↦ false) disk ["check", "/w"]).status? = some 2 := by
  intro disk
  obtain ⟨-, hstops, -, -, hinvalid⟩ := status_unless_stopped Data.Yaml.reader (fun _ ↦ false) disk
  have hread : disk.read "/w/.ext-index.yaml" = .ok (encodeUtf8 "exclude: a".toList) := by
    decide +kernel
  have hyaml : Settings.ofYaml Data.Yaml.reader { text := unifyNewlines "exclude: a".toList } =
      .error (.invalid [⟨[.name "exclude"], .notList⟩]) := by
    -- Settings hold a float and cannot be compared; that there are none can be decided.
    have hnone : (Settings.ofYaml Data.Yaml.reader
      { text := unifyNewlines "exclude: a".toList }).map (fun _ ↦ ()) =
        .error (.invalid [⟨[.name "exclude"], .notList⟩]) := by decide +kernel
    cases hresult : Settings.ofYaml Data.Yaml.reader
        { text := unifyNewlines "exclude: a".toList } with
    | ok settings =>
      rw [hresult] at hnone
      cases hnone
    | error why =>
      rw [hresult] at hnone
      cases hnone
      rfl
  have hload : Settings.load Data.Yaml.reader (fun _ ↦ false) disk "/w/.ext-index.yaml" =
      .error (.invalid [⟨[.name "exclude"], .notList⟩]) := by
    have hs := Settings.stream_of_read hread
    rw [Stream.ofBytes_encodeUtf8] at hs
    rw [Settings.load_of_stream rfl hs]
    exact hyaml
  have hpath : Settings.pathIn "/w" none = "/w/.ext-index.yaml" := by decide +kernel
  have hargs : readArguments ["check", "/w"]
      = .ok (some { command := .check, workspace := "/w" }) := by
    decide +kernel
  refine ⟨fun h ↦ ?_, (hinvalid _ _ _ hargs rfl (by decide +kernel) (hpath ▸ hload)).2⟩
  rw [Settings.ofYaml, (hstops _ _ rfl hread).mp h] at hyaml
  cases hyaml

/-- A system on which the folder `/locked` may not be searched. -/
def barsLocked (path : String) : Bool := path.startsWith "/locked/"

/-- Settings of one byte that is no character are not passed over, nor are settings that are not
there, if this cannot be told. The check of their workspace ends without a status. -/
theorem undecodable_settings_stop :
    let disk : Disk :=
      { files := [(["w", ".ext-index.yaml"], .bytes [0xFF])], folders := [["locked"]] }
    (Settings.load Data.Yaml.reader barsLocked disk "/w/.ext-index.yaml" = .error .notUtf8 ∧
      (run Data.Yaml.reader barsLocked disk ["check", "/w"]).status? = none) ∧
    disk.isFile "/locked/s.yaml" = false ∧
      Settings.load Data.Yaml.reader barsLocked disk "/locked/s.yaml" = .error .notLookedUp ∧
      (run Data.Yaml.reader barsLocked disk ["check", "/w", "--config", "/locked/s.yaml"]).status?
      = none := by
  intro disk
  have hread : disk.read "/w/.ext-index.yaml" = .ok [0xFF] := by decide +kernel
  have hs := Settings.stream_of_read hread
  have hscan : scanUtf8 [0xFF] = [none] := by
    rw [scanUtf8]
    simp [leadByte, scanUtf8]
  have hyaml : Data.Yaml.reader.read ((Stream.ofBytes [0xFF]).map unifyNewlines)
      = .error .undecodable := by
    simp [Data.Yaml.reader, Stream.map, Stream.ofBytes, hscan]
  have hpath : Settings.pathIn "/w" none = "/w/.ext-index.yaml" := by decide +kernel
  have hargs : readArguments ["check", "/w"]
      = .ok (some { command := .check, workspace := "/w" }) := by
    decide +kernel
  have hbars : barsLocked "/w/.ext-index.yaml" = false := by decide +kernel
  have hfolder : disk.isFolder "/w" = true := by decide +kernel
  have hpath' : Settings.pathIn "/w" (some "/locked/s.yaml") = "/locked/s.yaml" := by decide +kernel
  have hbars' : barsLocked "/locked/s.yaml" = true := by decide +kernel
  have hargs' : readArguments ["check", "/w", "--config", "/locked/s.yaml"]
      = .ok (some { command := .check, workspace := "/w", config := some "/locked/s.yaml" }) := by
    decide +kernel
  refine ⟨⟨?_, status?_run_eq_none_iff.mpr ⟨_, hargs, .inr ⟨hfolder, .inl ?_⟩⟩⟩, by decide +kernel,
    Settings.load_of_bars hbars', status?_run_eq_none_iff.mpr ⟨_, hargs', .inr ⟨hfolder, .inl ?_⟩⟩⟩
  · rw [Settings.load_of_stream hbars hs, Settings.ofYaml, hyaml]
  · rw [hpath]
    exact .inr ⟨_, _, hs, hyaml, by simp⟩
  · rw [hpath']
    exact .inl hbars'

end CommandLine

end MissionIndex
