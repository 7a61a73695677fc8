import Mathlib.Data.List.TakeWhile
import MissionIndex.Proofs.Config.Faults
import MissionIndex.Proofs.Path.Normal
import MissionIndex.Proofs.Registry.Declarations
import MissionIndex.Proofs.Session.Findings

/-!
# What a pass does

A pass may fail, and it does so just where its parse goes for a file without a URI, which is a host
with nothing below it. A pass that does not fail changes what is shown for the files that it opens
and no others, and the table of its root file at most.
-/

namespace MissionIndex

/-! ## Paths without a URI -/

namespace Uri

def NamesHost (path : String) : Prop := ∃ host, path.toList = '/' :: '/' :: host ∧ '/' ∉ host

theorem ofAbsolute?_eq_none_iff {path : String} : ofAbsolute? path = none ↔ NamesHost path := by
  rw [ofAbsolute?]
  split
  · next rest hrest =>
    have hhost : rest.dropWhile (· != '/') = [] ↔ '/' ∉ rest := by
      simp only [List.dropWhile_eq_nil_iff, bne_iff_ne, ne_eq]
      exact ⟨fun h hmem ↦ h '/' hmem rfl, fun h c hc he ↦ h (he ▸ hc)⟩
    have hnames : NamesHost path ↔ '/' ∉ rest := by
      rw [NamesHost, hrest]
      constructor
      · rintro ⟨host, hhost, hslash⟩
        obtain rfl := (List.cons.inj (List.cons.inj hhost).2).2
        exact hslash
      · exact fun hslash ↦ ⟨rest, rfl, hslash⟩
    rw [hnames, ← hhost]
    dsimp only
    split
    · next hbelow => simp only [hbelow]
    · next hbelow =>
      rw [iff_false_left (Option.some_ne_none _)]
      exact hbelow
  · next hrest =>
    simp only [reduceCtorEq, false_iff]
    rintro ⟨host, hhost, -⟩
    exact hrest host hhost

end Uri

/-! ## Documented tables -/

def FunctionRecord.consult (disk : Disk) (script : String) (r : FunctionRecord) : FunctionRecord :=
  if disk.isFile script then
    match Header.ofScript? disk script with
    | some info => { r with info := some info }
    | none => r
  else r

/-- A table after all its scripts have been looked into. -/
def FunctionTable.consulted (disk : Disk) (table : FunctionTable) : FunctionTable :=
  table.map fun e ↦ (e.1, e.2.consult disk e.2.script)

namespace Session

open Config

variable (s : Session) (root : String)

theorem exists_uriOf_iff {path : String} :
    (∃ uri, s.uriOf path = .ok uri) ↔ ¬ Uri.NamesHost (s.disk.absolute path) := by
  have hresolve : Path.resolve s.disk.workingDirectory path = s.disk.absolute path := rfl
  rw [← Uri.ofAbsolute?_eq_none_iff]
  simp only [uriOf, Uri.ofPath, hresolve]
  cases Uri.ofAbsolute? (s.disk.absolute path) with
  | none => simp
  | some uri => simp

theorem answers_iff {path : String} :
    s.sources.Answers path ↔ ¬ Uri.NamesHost (s.disk.absolute path) := by
  rw [← exists_uriOf_iff]
  constructor
  · exact s.exists_uriOf_of_answers
  · rintro ⟨uri, huri⟩
    rw [uriOf] at huri
    exact ⟨_, by simp only [sources, Documents.textFor, huri]; rfl⟩

/-! ## Scripts -/

theorem functions_lookInto {begun : Pass} {table : FunctionTable} {others : List (String × Indexed)}
    (h : s.functions = Ordered.put begun.root ⟨begun.number, table⟩ others) (key script : String) :
    (s.lookInto begun key script).functions
      = Ordered.put begun.root ⟨begun.number, Ordered.modify key (·.consult s.disk script) table⟩
        others := by
  rw [lookInto]
  by_cases hfile : s.disk.isFile script = true
  · cases hinfo : Header.ofScript? s.disk script with
    | some info =>
      have hconsult : (·.consult s.disk script)
          = fun r : FunctionRecord ↦ { r with info := some info } := by
        funext r
        rw [FunctionRecord.consult, if_pos hfile, hinfo]
      rw [if_pos hfile, hconsult]
      simp only [h, Ordered.modify_put_self, document, if_true]
    | none =>
      have hconsult : (·.consult s.disk script) = (id : FunctionRecord → FunctionRecord) := by
        funext r
        rw [FunctionRecord.consult, if_pos hfile, hinfo]
        rfl
      rw [if_pos hfile, hconsult, Ordered.modify_id]
      exact h
  · have hconsult : (·.consult s.disk script) = (id : FunctionRecord → FunctionRecord) := by
      funext r
      rw [FunctionRecord.consult, if_neg hfile]
      rfl
    rw [if_neg hfile, hconsult, Ordered.modify_id]
    exact h

theorem functions_complete {begun : Pass} {table : FunctionTable} {others : List (String × Indexed)}
    (h : s.functions = Ordered.put begun.root ⟨begun.number, table⟩ others) :
    (s.complete begun).functions = Ordered.put begun.root
      ⟨begun.number, begun.scripts.foldl (fun t e ↦ Ordered.modify e.1 (·.consult s.disk e.2) t)
        table⟩ others := by
  rw [complete]
  generalize begun.scripts = scripts
  induction scripts generalizing s table with
  | nil => exact h
  | cons e rest ih =>
    have hdisk : (s.lookInto begun e.1 e.2).disk = s.disk :=
      (s.lookInto_publishes begun e.1 e.2).1.disk
    have hrest := ih (s.lookInto begun e.1 e.2) (s.functions_lookInto h e.1 e.2)
    rw [hdisk] at hrest
    exact hrest

/-- A pass that can read its root file puts the documented table of the build in the place of the
last one. -/
theorem functions_pass_of_ok {tree : ConfigClass} (h : (s.sources.parse root).result = .ok tree)
    {build : Registry.Build} (hbuild : Registry.build s.settings s.disk root tree = .ok build) :
    (s.pass root).2 = none ∧ (s.pass root).1.functions
      = Ordered.put root ⟨s.passes, build.functions.consulted s.disk⟩ s.functions := by
  have hnodup : (build.functions.map Prod.fst).Nodup := by
    rw [(Registry.build_eq_ok hbuild).1]
    exact Ordered.nodup_map_fst_ofEntries _
  have hpass := beginPass_of_ok h hbuild
  rw [pass, hpass]
  refine ⟨rfl, ?_⟩
  dsimp only
  rw [functions_complete _ rfl, List.foldl_map]
  exact congrArg (fun table ↦ Ordered.put root ⟨s.passes, table⟩ s.functions)
    (Ordered.foldl_modify (fun r r' ↦ r'.consult s.disk r.script) hnodup)

theorem pass_of_error {e : ParseError} (h : (s.sources.parse root).result = .error (.error e)) :
    (s.pass root).2 = none ∧ (s.pass root).1.functions = s.functions := by
  rw [pass, beginPass_of_error h]
  exact ⟨rfl, rfl⟩

theorem pass_of_fault {e : Uri.NoUri} (h : (s.sources.parse root).result = .error (.fault e)) :
    (s.pass root).2 = some e ∧ (s.pass root).1.functions = s.functions := by
  rw [pass, beginPass_of_fault h]
  exact ⟨rfl, rfl⟩

theorem parse_ne_fault_of_pass (hpass : (s.pass root).2 = none) (reason : Uri.NoUri) :
    (s.sources.parse root).result ≠ .error (.fault reason) := by
  intro hreason
  rw [(s.pass_of_fault root hreason).1] at hpass
  cases hpass

/-- A pass fails where its parse faults, and only there. -/
theorem pass_eq_some_iff {e : Uri.NoUri} :
    (s.pass root).2 = some e ↔ (s.sources.parse root).result = .error (.fault e) := by
  constructor
  · intro hpass
    cases hresult : (s.sources.parse root).result with
    | error stop =>
      cases stop with
      | fault e' =>
        rw [(s.pass_of_fault root hresult).1] at hpass
        rw [Option.some.inj hpass]
      | error e' =>
        rw [(s.pass_of_error root hresult).1] at hpass
        cases hpass
    | ok tree =>
      obtain ⟨build, hbuild, -⟩ := s.build_isOk_of_parse root hresult
      rw [(s.functions_pass_of_ok root hresult hbuild).1] at hpass
      cases hpass
  · exact fun h ↦ (s.pass_of_fault root h).1

theorem errorsOn_of_error {e : ParseError} (h : (s.sources.parse root).result = .error (.error e))
    (uri : String) :
    s.errorsOn root uri = if s.uriOf e.location.file = .ok uri then [reportOf e] else [] := by
  rw [errorsOn, findings, h]
  dsimp only
  cases s.uriOf e.location.file with
  | error e' => simp [Except.toOption]
  | ok uri' =>
    by_cases huri : uri' = uri
    · simp [Except.toOption, huri]
    · simp [Except.toOption, huri, List.lookup_cons, beq_eq_false_iff_ne.mpr (Ne.symm huri)]

theorem errorsOn_of_ok {tree : ConfigClass} (h : (s.sources.parse root).result = .ok tree)
    (uri : String) :
    s.errorsOn root uri = (Registry.Scope.ofRoot s.settings s.disk root).reportsOn uri
      (Registry.declared s.settings tree) := by
  obtain ⟨build, hbuild, -⟩ := s.build_isOk_of_parse root h
  have hfindings : s.findings root = build.diagnostics := by
    rw [findings, h]
    simp only [hbuild]
  rw [errorsOn, hfindings, (Registry.build_eq_ok hbuild).2]

theorem latest?_pass (uri : String) :
    latest? (s.pass root).1.published uri
      = if uri ∈ s.touched root then some (s.errorsOn root uri) else latest? s.published uri := by
  rw [(s.pass_publishes root).2, latest?_append, latest?_batch]
  split <;> rfl

/-! ## Failure -/

/-- The parse of a root file would go for a host with nothing below it, if files without a URI were
files that are not open. -/
def GoesForHost : Prop :=
  ∃ path, (s.sources.forgiving.expandRoot (s.disk.absolute root)).GoesFor path ∧
    Uri.NamesHost (s.disk.absolute path)

theorem exists_fault_iff :
    (∃ reason, (s.sources.parse root).result = .error (.fault reason)) ↔ s.GoesForHost root := by
  refine (s.sources.exists_fault_parse_iff root).trans (exists_congr fun path ↦
    and_congr_right fun _ ↦ ?_)
  rw [answers_iff, not_not]

/-- **A pass fails just where its parse would go for a host with nothing below it.** Otherwise it
gives what it would give if files without a URI were files that are not open: either the table of
the build takes the place of the last one, or the error is shown for the file that it is about and
all tables stay. -/
theorem pass_fails_iff :
    ((∃ reason, (s.sources.parse root).result = .error (.fault reason)) ↔ s.GoesForHost root) ∧
      ((s.pass root).2 ≠ none ↔ s.GoesForHost root) ∧
      ((s.pass root).2 = none →
        s.sources.parse root = s.sources.forgiving.parse root ∧
        ((∃ tree build, (s.sources.parse root).result = .ok tree ∧
            Registry.build s.settings s.disk root tree = .ok build ∧
            (s.pass root).1.functions
              = Ordered.put root ⟨s.passes, build.functions.consulted s.disk⟩ s.functions) ∨
          ∃ e uri, (s.sources.parse root).result = .error (.error e) ∧
          s.uriOf e.location.file = .ok uri ∧
            (s.pass root).1.shown uri = [.error e.location.range e.message] ∧
            (s.pass root).1.functions = s.functions)) := by
  refine ⟨s.exists_fault_iff root, ?_, fun hpass ↦ ?_⟩
  · rw [← exists_fault_iff, Option.ne_none_iff_exists']
    exact exists_congr fun e ↦ s.pass_eq_some_iff root
  · have hnofault := s.parse_ne_fault_of_pass root hpass
    refine ⟨(s.sources.parse_forgiving hnofault).symm, ?_⟩
    cases hresult : (s.sources.parse root).result with
    | error stop =>
      cases stop with
      | fault e => exact absurd hresult (hnofault e)
      | error e =>
        obtain ⟨uri, huri, htouched⟩ :=
          s.exists_uri_of_mem_opened root hnofault (s.sources.file_of_parse_eq_error root hresult)
        refine .inr ⟨e, uri, rfl, huri, ?_, (s.pass_of_error root hresult).2⟩
        have hshown : (s.pass root).1.shown uri = (latest? (s.pass root).1.published uri).getD [] :=
          rfl
        rw [hshown, latest?_pass, if_pos htouched, s.errorsOn_of_error root hresult, if_pos huri]
        rfl
    | ok tree =>
      obtain ⟨build, hbuild, -⟩ := s.build_isOk_of_parse root hresult
      exact .inl ⟨tree, build, rfl, hbuild, (s.functions_pass_of_ok root hresult hbuild).2⟩

def hosting : Session where
  disk.files := [(["m", "description.ext"], .bytes (Text.encodeUtf8 "#include \"//host\"".toList))]

/-- The pass over a root file that includes a host fails, and nothing is said about it. -/
theorem pass_fails_of_host :
    Path.isRooted "/m/description.ext" = true ∧ Path.normalize "/m/description.ext"
      = "/m/description.ext" ∧
      (Path.components "/m/description.ext".toList).length = 2 ∧
      (hosting.sources.parse "/m/description.ext").result = .error (.fault ⟨"//host"⟩) ∧
      (hosting.pass "/m/description.ext").2 = some ⟨"//host"⟩ ∧
      (hosting.pass "/m/description.ext").1.functions = [] ∧
      (hosting.pass "/m/description.ext").1.published = [("file:///m/description.ext", [])] := by
  have hpass : (hosting.pass "/m/description.ext").2 = some ⟨"//host"⟩ := by decide +kernel
  exact ⟨by decide +kernel, by decide +kernel, by
    decide +kernel, (hosting.pass_eq_some_iff _).mp hpass, hpass, by decide +kernel, by
    decide +kernel⟩

/-! ## Effect -/

/-- In a batch, a file is cleared before anything is said about it. -/
theorem cleared_of_batch {before after : List (String × List Diagnostic)}
    {entry : String × List Diagnostic} (h : s.batch root = before ++ entry :: after)
    (hentry : entry.2 ≠ []) : (entry.1, []) ∈ before := by
  have hclear : ∀ e ∈ (s.touched root).map (·, ([] : List Diagnostic)), e.2 = [] := by
    intro e he
    obtain ⟨uri, -, rfl⟩ := List.mem_map.mp he
    rfl
  have hfinding : entry ∈ s.findings root →
      (entry.1, []) ∈ (s.touched root).map (·, ([] : List Diagnostic)) :=
    fun hmem ↦ List.mem_map_of_mem ((s.reports_findings root).uri entry hmem)
  rcases List.append_eq_append_iff.mp h with ⟨more, rfl, hfindings⟩ | ⟨more, hcleared, hafter⟩
  · refine List.mem_append_left _ (hfinding ?_)
    rw [hfindings]
    exact List.mem_append_right _ List.mem_cons_self
  · cases more with
    | nil =>
      rw [List.append_nil] at hcleared
      rw [← hcleared]
      refine hfinding ?_
      rw [← List.nil_append (s.findings root), ← hafter]
      exact List.mem_cons_self
    | cons e more =>
      obtain ⟨rfl, -⟩ := List.cons.inj hafter
      refine absurd (hclear entry ?_) hentry
      rw [hcleared]
      exact List.mem_append_right _ List.mem_cons_self

/-- **A pass that does not fail changes what is shown for the files that it opens, and the table of
its root file at most.** What is shown for a file that it opens is what it finds there: the
functions that are declared in the file and have no script, in the order of the declarations, or the
error that stopped it if this is about the file. Nothing else is said about a file before it has
been cleared. -/
theorem pass_effect (hpass : (s.pass root).2 = none) :
    let after := (s.pass root).1
    (∀ uri, uri ∉ s.touched root → latest? after.published uri = latest? s.published uri) ∧
      (∀ tree, (s.sources.parse root).result = .ok tree → ∀ uri ∈ s.touched root,
        latest? after.published uri
          = some ((Registry.Scope.ofRoot s.settings s.disk root).reportsOn uri
          (Registry.declared s.settings tree))) ∧
      (∀ stop, (s.sources.parse root).result = .error stop → after.functions = s.functions ∧
        ∃ e file, stop = .error e ∧ s.uriOf e.location.file = .ok file ∧ file ∈ s.touched root ∧
          ∀ uri ∈ s.touched root,
            latest? after.published uri
              = some (if uri = file then [.error e.location.range e.message] else [])) ∧
      (∃ batch, after.published = s.published ++ batch ∧
        ∀ before entry rest, batch = before ++ entry :: rest → entry.2 ≠ [] →
        (entry.1, []) ∈ before) ∧
      (after.functions = s.functions ∨
        ∃ indexed, after.functions = Ordered.put root indexed s.functions) ∧
      ∀ other ≠ root, after.functions.lookup other = s.functions.lookup other := by
  intro after
  have hnofault := s.parse_ne_fault_of_pass root hpass
  refine ⟨fun uri huri ↦ ?_, fun tree htree uri huri ↦ ?_, fun stop hstop ↦ ?_, ?_, ?_⟩
  · exact (s.latest?_pass root uri).trans (if_neg huri)
  · rw [latest?_pass, if_pos huri, s.errorsOn_of_ok root htree]
  · cases stop with
    | fault e => exact absurd hstop (hnofault e)
    | error e =>
      obtain ⟨file, hfile, htouched⟩ :=
        s.exists_uri_of_mem_opened root hnofault (s.sources.file_of_parse_eq_error root hstop)
      refine ⟨(s.pass_of_error root hstop).2, e, file, rfl, hfile, htouched, fun uri huri ↦ ?_⟩
      rw [latest?_pass, if_pos huri, s.errorsOn_of_error root hstop, hfile]
      simp only [Except.ok.injEq, eq_comm]
      rfl
  · exact ⟨s.batch root, (s.pass_publishes root).2, fun _ _ _ h hentry ↦
      s.cleared_of_batch root h hentry⟩
  · have hfunctions : after.functions = s.functions ∨
        ∃ indexed, after.functions = Ordered.put root indexed s.functions := by
      cases hresult : (s.sources.parse root).result with
      | error stop =>
        cases stop with
        | fault e => exact absurd hresult (hnofault e)
        | error e => exact .inl (s.pass_of_error root hresult).2
      | ok tree =>
        obtain ⟨build, hbuild, -⟩ := s.build_isOk_of_parse root hresult
        exact .inr ⟨_, (s.functions_pass_of_ok root hresult hbuild).2⟩
    refine ⟨hfunctions, fun other hother ↦ ?_⟩
    rcases hfunctions with h | ⟨indexed, h⟩
    · rw [h]
    · rw [h, Ordered.lookup_put_of_ne hother]

/-- A mission that declares its functions in another file, of which one has a script. Something has
been said about that file before, and about a third one. -/
def declaring : Session where
  disk.files :=
    [(["m", "description.ext"], .bytes (Text.encodeUtf8 "#include \"c.hpp\"".toList)),
      (["m", "c.hpp"], .bytes (Text.encodeUtf8
        ("class CfgFunctions\x7bclass T\x7bclass C\x7b".toList
          ++ "class f\x7b\x7d;class g\x7b\x7d;class h\x7b\x7d;\x7d;\x7d;\x7d;".toList))),
      (["m", "functions", "C", "fn_g.sqf"], .bytes [])]
  published :=
    [("file:///m/c.hpp", [.error .empty "old"]), ("file:///m/d.hpp", [.error .empty "old"])]

theorem pass_effect_declaring :
    (declaring.pass "/m/description.ext").2 = none ∧
      let after := (declaring.pass "/m/description.ext").1
      (latest? after.published "file:///m/c.hpp").map (·.map Diagnostic.message)
          = some ["Failed to find /m/functions/C/fn_f.sqf for function T_fnc_f.",
            "Failed to find /m/functions/C/fn_h.sqf for function T_fnc_h."] ∧
        latest? after.published "file:///m/d.hpp" = some [.error .empty "old"] ∧
        after.functions.lookup "/m/other.ext" = none := by
  have hpass : (declaring.pass "/m/description.ext").2 = none := by decide +kernel
  have htouched : declaring.touched "/m/description.ext"
      = ["file:///m/description.ext", "file:///m/c.hpp"] := by
    decide +kernel
  obtain ⟨hothers, hfound, -, -, -, htables⟩ := declaring.pass_effect "/m/description.ext" hpass
  have hok : (declaring.sources.parse "/m/description.ext").result.isOk = true := by decide +kernel
  cases hparse : (declaring.sources.parse "/m/description.ext").result with
  | error stop =>
    rw [hparse] at hok
    cases hok
  | ok tree =>
    refine ⟨hpass, ?_, hothers _ (by rw [htouched]; decide), htables _ (by decide)⟩
    have hmessages : (declaring.sources.parse "/m/description.ext").result.toOption.map (fun tree ↦
        ((Registry.Scope.ofRoot declaring.settings declaring.disk "/m/description.ext").reportsOn
          "file:///m/c.hpp"
          (Registry.declared declaring.settings tree)).map Diagnostic.message)
        = some ["Failed to find /m/functions/C/fn_f.sqf for function T_fnc_f.",
            "Failed to find /m/functions/C/fn_h.sqf for function T_fnc_h."] := by
      decide +kernel
    rw [hparse] at hmessages
    rw [hfound tree hparse _ (by rw [htouched]; decide)]
    exact hmessages

end Session

end MissionIndex
