import MissionIndex.Proofs.Registry.Reports
import MissionIndex.Session.Reindexing

/-!
# What passes find

A pass over a root file publishes one batch: first nothing for every file that it opens, then what
it has to say. So for the files that it *touches* it takes down whatever was shown before, also what
another root file had to say about them, and it shows its own *findings* there.

The batch depends on the disk, the settings and the open documents only, none of which a pass
changes. Passes one after another therefore publish the batches that each would publish alone, and
what is shown for a file in the end is what the last root file that touches it has found there.
-/

namespace MissionIndex.Session

open Config

variable (s : Session) (root : String)

/-! ## Touched files and findings -/

/-- The URIs of the files that a pass over a root file opens. -/
def touched : List String := (s.sources.parse root).opened.filterMap fun path ↦
    (s.uriOf path).toOption

/-- What a pass over a root file has to say by itself: the error that stopped it, or the reports of
its build. A pass that fails says nothing. -/
def findings : List (String × List Diagnostic) :=
  match (s.sources.parse root).result with
  | .error (.fault _) => []
  | .error (.error e) => ((s.uriOf e.location.file).toOption.map fun uri ↦
      (uri, [reportOf e])).toList
  | .ok tree =>
    match Registry.build s.settings s.disk root tree with
    | .error _ => []
    | .ok build => build.diagnostics

/-- The errors that a pass over a root file finds in the file with a URI. -/
def errorsOn (uri : String) : List Diagnostic := ((s.findings root).lookup uri).getD []

/-- Everything that a pass over a root file publishes. -/
def batch : List (String × List Diagnostic) := (s.touched root).map (·, []) ++ s.findings root

theorem mem_touched {root uri : String} :
    uri ∈ s.touched root ↔ ∃ path ∈ (s.sources.parse root).opened, s.uriOf path = .ok uri := by
  simp only [touched, List.mem_filterMap]
  refine exists_congr fun path ↦ and_congr_right fun _ ↦ ?_
  cases s.uriOf path with
  | error e => simp [Except.toOption]
  | ok uri' => simp [Except.toOption]

theorem exists_uriOf_of_answers {path : String} (h : s.sources.Answers path) :
    ∃ uri, s.uriOf path = .ok uri := by
  obtain ⟨text, h⟩ := h
  simp only [sources, Documents.textFor] at h
  rw [uriOf]
  cases huri : Uri.ofPath s.disk.workingDirectory path with
  | error e =>
    rw [huri] at h
    cases h
  | ok uri => exact ⟨uri, rfl⟩

theorem exists_uri_of_mem_opened (h : ∀ e, (s.sources.parse root).result ≠ .error (.fault e))
    {path : String} (hpath : path ∈ (s.sources.parse root).opened) :
    ∃ uri, s.uriOf path = .ok uri ∧ uri ∈ s.touched root := by
  obtain ⟨uri, huri⟩ :=
    s.exists_uriOf_of_answers (s.sources.answers_of_mem_opened root h path hpath)
  exact ⟨uri, huri, s.mem_touched.mpr ⟨path, hpath, huri⟩⟩

theorem build_isOk_of_parse {tree : ConfigClass} (h : (s.sources.parse root).result = .ok tree) :
    ∃ build, Registry.build s.settings s.disk root tree = .ok build ∧
      Registry.Reports (· ∈ s.touched root) build.diagnostics := by
  have hfault : ∀ e, (s.sources.parse root).result ≠ .error (.fault e) := fun e he ↦ by
    rw [h] at he
    cases he
  refine Registry.build_isOk (fun l hl ↦ ?_) (s.sources.placed_parse root h)
  rw [Registry.Scope.fileOf_of_ne_empty _ (s.sources.ne_empty_of_mem_opened root hl)]
  exact s.exists_uri_of_mem_opened root hfault hl

/-- Findings are errors about touched files, in one list for each. -/
theorem reports_findings : Registry.Reports (· ∈ s.touched root) (s.findings root) := by
  cases hresult : (s.sources.parse root).result with
  | error stop =>
    cases stop with
    | fault e =>
      have hnone : s.findings root = [] := by rw [findings, hresult]
      rw [hnone]
      exact .nil
    | error e =>
      -- An error names a file that was opened, and every opened file has a URI unless the pass has
      -- failed.
      have hfault : ∀ e', (s.sources.parse root).result ≠ .error (.fault e') := fun e' he ↦ by
        rw [hresult] at he
        cases he
      obtain ⟨uri, huri, htouched⟩ :=
        s.exists_uri_of_mem_opened root hfault (s.sources.file_of_parse_eq_error root hresult)
      have hone : s.findings root = [(uri, [reportOf e])] := by
        rw [findings, hresult]
        simp only [huri, Except.toOption, Option.map_some, Option.toList_some]
      rw [hone]
      refine ⟨List.nodup_singleton uri, fun e' he ↦ ?_, fun e' he d hd ↦ ?_⟩
      · rwa [List.mem_singleton.mp he]
      · obtain rfl := List.mem_singleton.mp he
        rw [List.mem_singleton.mp hd]
        rfl
  | ok tree =>
    obtain ⟨build, hbuild, hreports⟩ := s.build_isOk_of_parse root hresult
    have hall : s.findings root = build.diagnostics := by
      rw [findings, hresult]
      simp only [hbuild]
    rwa [hall]

theorem isError_of_mem_errorsOn {root uri : String} {d : Diagnostic} (h : d ∈ s.errorsOn root uri) :
    d.isError := by
  rw [errorsOn] at h
  cases hl : (s.findings root).lookup uri with
  | none =>
    rw [hl] at h
    cases h
  | some ds =>
    rw [hl] at h
    exact (s.reports_findings root).isError _ (Ordered.mem_of_lookup hl) d h

theorem mem_touched_of_mem_errorsOn {root uri : String} {d : Diagnostic}
    (h : d ∈ s.errorsOn root uri) :
    uri ∈ s.touched root := by
  rw [errorsOn] at h
  cases hl : (s.findings root).lookup uri with
  | none =>
    rw [hl] at h
    cases h
  | some ds => exact (s.reports_findings root).uri _ (Ordered.mem_of_lookup hl)

/-! ## Publishing -/

def latest? (published : List (String × List Diagnostic)) (uri : String) :
    Option (List Diagnostic) :=
  published.reverse.lookup uri

theorem latest?_append (published batch : List (String × List Diagnostic)) (uri : String) :
    latest? (published ++ batch) uri = (latest? batch uri).or (latest? published uri) := by
  rw [latest?, List.reverse_append, List.lookup_append]
  rfl

theorem latest?_of_nodup {batch : List (String × List Diagnostic)} (h : (batch.map Prod.fst).Nodup)
    (uri : String) : latest? batch uri = batch.lookup uri := by
  induction batch with
  | nil => rfl
  | cons e rest ih =>
    obtain ⟨key, ds⟩ := e
    obtain ⟨hkey, hrest⟩ := List.nodup_cons.mp h
    rw [← List.singleton_append, latest?_append, ih hrest, List.lookup_append]
    by_cases huri : uri = key
    · have hnone : rest.lookup uri = none := List.lookup_eq_none_iff.mpr fun e' he' ↦ by
        have hmem : e'.1 ∈ rest.map Prod.fst := List.mem_map_of_mem he'
        have hne : uri ≠ e'.1 := fun he ↦ hkey (huri ▸ he ▸ hmem)
        simpa using hne
      rw [hnone, Option.none_or, Option.or_none]
      rfl
    · have hne : (uri == key) = false := by simpa using huri
      have hnone : [(key, ds)].lookup uri = none := by rw [List.lookup_cons, hne, List.lookup_nil]
      rw [latest?, List.reverse_singleton, hnone, Option.none_or, Option.or_none]

theorem latest?_map_nil (uris : List String) (uri : String) :
    latest? (uris.map (·, [])) uri = if uri ∈ uris then some [] else none := by
  induction uris with
  | nil => rfl
  | cons other rest ih =>
    rw [List.map_cons, ← List.singleton_append, latest?_append, ih]
    by_cases huri : uri = other
    · subst huri
      have hself : latest? [(uri, [])] uri = some [] := by simp [latest?]
      rw [hself, if_pos List.mem_cons_self]
      split <;> rfl
    · have hne : (uri == other) = false := by simpa using huri
      have hnone : latest? [(other, [])] uri = none := by simp [latest?, List.lookup_cons, hne]
      rw [hnone, Option.or_none]
      simp [huri]

theorem latest?_batch (uri : String) :
    latest? (s.batch root) uri = if uri ∈ s.touched root then some (s.errorsOn root uri)
      else none := by
  have hreports := s.reports_findings root
  rw [batch, latest?_append, latest?_map_nil, latest?_of_nodup hreports.nodup, errorsOn]
  cases hl : (s.findings root).lookup uri with
  | none => rw [Option.none_or, Option.getD_none]
  | some ds =>
    have huri : uri ∈ s.touched root := hreports.uri _ (Ordered.mem_of_lookup hl)
    rw [if_pos huri, if_pos huri, Option.some_or, Option.getD_some]

/-! ## Passes -/

/-- A session has become another that reads the same: passes over its root files find the same. -/
structure Reads (s s' : Session) : Prop where
  disk : s'.disk = s.disk
  settings : s'.settings = s.settings
  documents : s'.documents = s.documents

namespace Reads

variable {s s' s'' : Session}

theorem refl (s : Session) : Reads s s := ⟨rfl, rfl, rfl⟩

theorem trans (h : Reads s s') (h' : Reads s' s'') : Reads s s'' :=
  ⟨h'.disk.trans h.disk, h'.settings.trans h.settings, h'.documents.trans h.documents⟩

theorem uriOf (h : Reads s s') : s'.uriOf = s.uriOf := by
  funext path
  rw [Session.uriOf, Session.uriOf, h.disk]

theorem sources (h : Reads s s') : s'.sources = s.sources := by
  simp only [Session.sources, h.disk, h.settings, h.documents]

theorem touched (h : Reads s s') : s'.touched = s.touched := by
  funext root
  rw [Session.touched, Session.touched, h.sources, h.uriOf]

theorem findings (h : Reads s s') : s'.findings = s.findings := by
  funext root
  rw [Session.findings, Session.findings, h.sources, h.uriOf, h.disk, h.settings]

theorem batch (h : Reads s s') : s'.batch = s.batch := by
  funext root
  rw [Session.batch, Session.batch, h.touched, h.findings]

end Reads

theorem publishAt_eq (path : String) (ds : List Diagnostic) :
    s.publishAt path ds
      = { s with published :=
            s.published ++ ((s.uriOf path).toOption.map fun uri ↦ (uri, ds)).toList } := by
  rw [publishAt]
  cases s.uriOf path with
  | error e => simp only [Except.toOption, Option.map_none, Option.toList_none, List.append_nil]
  | ok uri => rfl

theorem clear_eq (paths : List String) :
    s.clear paths
      = { s with published := s.published ++
            (paths.filterMap fun path ↦ (s.uriOf path).toOption).map (·, []) } := by
  induction paths generalizing s with
  | nil => simp only [clear, List.foldl_nil, List.filterMap_nil, List.map_nil, List.append_nil]
  | cons path rest ih =>
    have hrest : s.clear (path :: rest) = (s.publishAt path []).clear rest := rfl
    rw [hrest, ih, publishAt_eq, List.filterMap_cons]
    cases huri : s.uriOf path with
    | error e =>
      simp only [Except.toOption, Option.map_none, Option.toList_none, List.append_nil]
    | ok uri =>
      simp only [Except.toOption, Option.map_some, Option.toList_some, List.append_assoc,
        List.singleton_append, List.map_cons]
      rfl

section BeginPass

variable {s : Session} {root : String}

theorem clear_announced : s.clear (s.sources.parse root).announced
    = { s with published := s.published ++ (s.touched root).map (·, []) } := by
  rw [s.sources.announced_parse, clear_eq]
  rfl

theorem beginPass_of_fault {e : Uri.NoUri} (h : (s.sources.parse root).result = .error (.fault e)) :
    s.beginPass root = ({ s with published := s.published ++ s.batch root }, .error e) := by
  have hfindings : s.findings root = [] := by rw [findings, h]
  simp only [beginPass, h, clear_announced, batch, hfindings, List.append_nil]

theorem beginPass_of_error {e : ParseError}
    (h : (s.sources.parse root).result = .error (.error e)) :
    s.beginPass root = ({ s with published := s.published ++ s.batch root }, .ok none) := by
  have hfindings : s.findings root
      = ((s.uriOf e.location.file).toOption.map fun uri ↦ (uri, [reportOf e])).toList := by
    rw [findings, h]
  simp only [beginPass, h, clear_announced, batch, hfindings, publishAt_eq, List.append_assoc]
  rfl

theorem beginPass_of_ok {tree : ConfigClass} (h : (s.sources.parse root).result = .ok tree)
    {build : Registry.Build} (hbuild : Registry.build s.settings s.disk root tree = .ok build) :
    s.beginPass root
      = ({ s with
            published := s.published ++ s.batch root
            passes := s.passes + 1
            functions := Ordered.put root ⟨s.passes, build.functions⟩ s.functions },
          .ok (some
            { root, number := s.passes
              scripts := build.functions.map fun (key, r) ↦ (key, r.script) })) := by
  have hfindings : s.findings root = build.diagnostics := by
    rw [findings, h]
    simp only [hbuild]
  simp only [beginPass, h, hbuild, clear_announced, batch, hfindings, adopt, publishAll,
    List.append_assoc]

end BeginPass

/-- Beginning a pass publishes its batch, and what it reads stays as it is. -/
theorem beginPass_publishes :
    Reads s (s.beginPass root).1 ∧ (s.beginPass root).1.published = s.published ++
      s.batch root := by
  cases hresult : (s.sources.parse root).result with
  | error stop =>
    cases stop with
    | fault e =>
      rw [beginPass_of_fault hresult]
      exact ⟨⟨rfl, rfl, rfl⟩, rfl⟩
    | error e =>
      rw [beginPass_of_error hresult]
      exact ⟨⟨rfl, rfl, rfl⟩, rfl⟩
  | ok tree =>
    obtain ⟨build, hbuild, -⟩ := s.build_isOk_of_parse root hresult
    rw [beginPass_of_ok hresult hbuild]
    exact ⟨⟨rfl, rfl, rfl⟩, rfl⟩

theorem lookInto_publishes (begun : Pass) (key script : String) :
    Reads s (s.lookInto begun key script) ∧ (s.lookInto begun key script).published
      = s.published := by
  rw [lookInto]
  split
  · split <;> exact ⟨⟨rfl, rfl, rfl⟩, rfl⟩
  · exact ⟨.refl s, rfl⟩

theorem complete_publishes (begun : Pass) :
    Reads s (s.complete begun) ∧ (s.complete begun).published = s.published := by
  rw [complete]
  generalize begun.scripts = scripts
  induction scripts generalizing s with
  | nil => exact ⟨.refl s, rfl⟩
  | cons e rest ih =>
    obtain ⟨hreads, hpublished⟩ := s.lookInto_publishes begun e.1 e.2
    obtain ⟨hreads', hpublished'⟩ := ih (s.lookInto begun e.1 e.2)
    exact ⟨hreads.trans hreads', hpublished'.trans hpublished⟩

theorem pass_publishes :
    Reads s (s.pass root).1 ∧ (s.pass root).1.published = s.published ++ s.batch root := by
  have hbegin := s.beginPass_publishes root
  rw [pass]
  split
  · next s' begun heq =>
    rw [heq] at hbegin
    obtain ⟨hreads, hpublished⟩ := s'.complete_publishes begun
    exact ⟨hbegin.1.trans hreads, hpublished.trans hbegin.2⟩
  · next s' heq =>
    rw [heq] at hbegin
    exact hbegin
  · next s' e heq =>
    rw [heq] at hbegin
    exact hbegin

theorem passes_publish (roots : List String) :
    let s' := roots.foldl (fun s root ↦ (s.pass root).1) s
    Reads s s' ∧ s'.published = s.published ++ roots.flatMap s.batch := by
  induction roots generalizing s with
  | nil => exact ⟨.refl s, (List.append_nil _).symm⟩
  | cons root rest ih =>
    obtain ⟨hreads, hpublished⟩ := s.pass_publishes root
    obtain ⟨hreads', hpublished'⟩ := ih (s.pass root).1
    refine ⟨hreads.trans hreads', ?_⟩
    rw [List.foldl_cons, hpublished', hpublished, hreads.batch, List.flatMap_cons,
      List.append_assoc]

theorem published_index (folder : String) : (s.index folder).published = s.published
    ++ (Workspace.present s.disk (Workspace.discover s.disk s.settings folder)).flatMap s.batch :=
  (s.passes_publish _).2

def lastTouching (roots : List String) (uri : String) : Option String :=
  roots.reverse.find? fun root ↦ decide (uri ∈ s.touched root)

theorem latest?_flatMap {α : Type} {batch : α → List (String × List Diagnostic)}
    {touched : α → List String} {finds : α → String → List Diagnostic}
    (hbatch : ∀ a uri, latest? (batch a) uri = if uri ∈ touched a then some (finds a uri) else none)
    (items : List α) (uri : String) :
    latest? (items.flatMap batch) uri
      = (items.reverse.find? fun a ↦ decide (uri ∈ touched a)).map (finds · uri) := by
  induction items with
  | nil => rfl
  | cons a rest ih =>
    rw [List.flatMap_cons, latest?_append, ih, hbatch, List.reverse_cons, List.find?_append,
      List.find?_singleton]
    cases rest.reverse.find? fun a ↦ decide (uri ∈ touched a) with
    | some last => rfl
    | none =>
      by_cases h : uri ∈ touched a
      · simp [h]
      · simp [h]

theorem latest?_flatMap_batch (roots : List String) (uri : String) :
    latest? (roots.flatMap s.batch) uri = (s.lastTouching roots uri).map (s.errorsOn · uri) :=
  latest?_flatMap s.latest?_batch roots uri

/-- Where several root files may touch the same files, what is shown for a file in the end is what
the last root file that touches it has found there. -/
theorem shown_passes (roots : List String) (uri : String) :
    (roots.foldl (fun s root ↦ (s.pass root).1) s).shown uri
      = ((s.lastTouching roots uri).map (s.errorsOn · uri)).getD (s.shown uri) := by
  obtain ⟨-, hpublished⟩ := s.passes_publish roots
  have hshown : ∀ s' : Session, s'.shown uri = (latest? s'.published uri).getD [] := fun s' ↦ rfl
  rw [hshown, hpublished, latest?_append, latest?_flatMap_batch, hshown]
  cases s.lastTouching roots uri <;> rfl

end MissionIndex.Session
