import MissionIndex.Proofs.Config.Locality
import MissionIndex.Proofs.Session.Findings
import MissionIndex.Session.Interleaving

/-!
# What jobs do

The jobs of a run in a row do what indexing again does. Taken one by one, each changes the table of
one root file at most: a job that passes over a root file makes its table *current*, which means
that it is the one that a build gives now, and every other job leaves tables as they are but for
what scripts document.
-/

namespace MissionIndex

/-- A table as it is before any script has been looked into. -/
def FunctionTable.bare (table : FunctionTable) : FunctionTable :=
  table.map fun e ↦ (e.1, { e.2 with info := none })

theorem FunctionTable.bare_modify (key : String) (info : Header.Info) (table : FunctionTable) :
    FunctionTable.bare (Ordered.modify key (fun r ↦ { r with info := some info }) table)
      = table.bare := by
  induction table with
  | nil => rfl
  | cons e rest ih =>
    obtain ⟨k, r⟩ := e
    rw [Ordered.modify]
    split
    · rfl
    · exact congrArg ((k, { r with info := none }) :: ·) ih

namespace Session

open Config

variable (s : Session) (root : String)

/-! ## Jobs in a row -/

theorem foldl_takeUp :
    (s.takeUp root).2.foldl (fun s job ↦ (s.perform job).1) (s.takeUp root).1
      = (s.pass root).1 := by
  rcases hbegin : s.beginPass root with ⟨s', e | _ | begun⟩
  · simp only [takeUp, pass, hbegin, List.foldl_nil]
  · simp only [takeUp, pass, hbegin, List.foldl_nil]
  · simp only [takeUp, pass, hbegin, List.foldl_map]
    rfl

theorem perform_of_mem_takeUp {job : Job} (h : job ∈ (s.takeUp root).2) (s' : Session) :
    (s'.perform job).2 = [] := by
  rcases hbegin : s.beginPass root with ⟨s'', e | _ | begun⟩
  · simp only [takeUp, hbegin, List.not_mem_nil] at h
  · simp only [takeUp, hbegin, List.not_mem_nil] at h
  · simp only [takeUp, hbegin] at h
    obtain ⟨e, -, rfl⟩ := List.mem_map.mp h
    rfl

theorem perform_of_mem_perform {s : Session} {job job' : Job} (h : job' ∈ (s.perform job).2)
    (s' : Session) :
    (s'.perform job').2 = [] := by
  cases job with
  | look begun key script => cases h
  | pass root =>
    rw [perform] at h
    split at h
    · exact s.perform_of_mem_takeUp root h s'
    · cases h

theorem finish_takeUp : (s.takeUp root).1.finish (s.takeUp root).2 = (s.pass root).1 := by
  rw [← foldl_takeUp, finish]
  have hlook := fun job (h : job ∈ (s.takeUp root).2) ↦ s.perform_of_mem_takeUp root h
  generalize (s.takeUp root).1 = s', (s.takeUp root).2 = jobs at hlook
  induction jobs generalizing s' with
  | nil => rfl
  | cons job rest ih =>
    have hjob : s'.finishJob job = (s'.perform job).1 := by
      rw [finishJob, hlook job List.mem_cons_self, List.foldl_nil]
    rw [List.foldl_cons, List.foldl_cons, hjob]
    exact ih _ fun job' hjob' ↦ hlook job' (List.mem_cons_of_mem job hjob')

theorem finish_map_pass (roots : List String) : s.finish (roots.map .pass) = s.passOver roots := by
  have hpresent : ∀ s' : Session, s'.disk = s.disk → s'.finish (roots.map .pass)
      = (roots.filter s.disk.hasPath).foldl (fun s file ↦ (s.pass file).1) s' := by
    induction roots with
    | nil => exact fun s' _ ↦ rfl
    | cons root rest ih =>
      intro s' hs'
      rw [List.filter_cons]
      by_cases hroot : s.disk.hasPath root = true
      -- No pass changes what is on disk, so it makes no difference when each root file is looked
      -- for.
      · have hjob : s'.finishJob (.pass root) = (s'.pass root).1 := by
          rw [finishJob, perform, hs', if_pos hroot, foldl_takeUp]
        have hrest := ih (s'.pass root).1 ((s'.pass_publishes root).1.disk.trans hs')
        rw [if_pos hroot, List.foldl_cons, ← hrest, ← hjob]
        rfl
      · have hjob : s'.finishJob (.pass root) = s' := by
          rw [finishJob, perform, hs', if_neg hroot, List.foldl_nil]
        rw [if_neg hroot, ← ih s' hs']
        exact congrArg (fun t : Session ↦ t.finish (rest.map .pass)) hjob
  exact hpresent s rfl

/-- **The jobs of a run in a row are indexing again.** -/
theorem finish_beginReindex (uri : String) :
    (s.beginReindex uri).1.finish (s.beginReindex uri).2 = s.reindex uri := by
  have hpath : s.disk.absolute (Uri.toPath uri) = s.pathOf uri := rfl
  simp only [beginReindex, reindex, hpath]
  cases reactionTo (s.pathOf uri) with
  | reindexRoot =>
    simp only [reindexRoot]
    by_cases hpath : s.disk.hasPath (s.pathOf uri) = true
    · rw [if_pos hpath, if_pos hpath]
      exact finish_takeUp _ _
    · rw [if_neg hpath, if_neg hpath]
      rcases s.documents.textFor s.disk.workingDirectory (s.pathOf uri) with e | _ | text
      · rfl
      · rfl
      · exact finish_takeUp _ _
  | reindexAll => exact s.finish_map_pass s.files
  | nothing => rfl

/-! ## What jobs leave alone -/

/-- Beginning a pass leaves alone what it reads and the root files. If the root file can be parsed,
its table is the one that a build gives. -/
theorem takeUp_spec :
    Reads s (s.takeUp root).1 ∧ (s.takeUp root).1.files = s.files ∧
      ((s.takeUp root).1.functions = s.functions ∧
          (∀ tree, (s.sources.parse root).result ≠ .ok tree) ∨
        ∃ tree build, (s.sources.parse root).result = .ok tree ∧
          Registry.build s.settings s.disk root tree = .ok build ∧
          (s.takeUp root).1.functions
            = Ordered.put root ⟨s.passes, build.functions⟩ s.functions) := by
  cases hresult : (s.sources.parse root).result with
  | error stop =>
    cases stop with
    | fault e =>
      rw [takeUp, beginPass_of_fault hresult]
      exact ⟨⟨rfl, rfl, rfl⟩, rfl, .inl ⟨rfl, nofun⟩⟩
    | error e =>
      rw [takeUp, beginPass_of_error hresult]
      exact ⟨⟨rfl, rfl, rfl⟩, rfl, .inl ⟨rfl, nofun⟩⟩
  | ok tree =>
    obtain ⟨build, hbuild, -⟩ := s.build_isOk_of_parse root hresult
    rw [takeUp, beginPass_of_ok hresult hbuild]
    exact ⟨⟨rfl, rfl, rfl⟩, rfl, .inr ⟨tree, build, rfl, hbuild, rfl⟩⟩

theorem addFile_spec (path : String) :
    Reads s (s.addFile path) ∧ (s.addFile path).functions = s.functions ∧
      ∀ root ∈ (s.addFile path).files, root ∈ s.files ∨ root = path := by
  rw [addFile]
  split
  · exact ⟨.refl s, rfl, fun root hroot ↦ .inl hroot⟩
  · refine ⟨⟨rfl, rfl, rfl⟩, rfl, ?_⟩
    intro root hroot
    rcases List.mem_append.mp hroot with hroot | hroot
    · exact .inl hroot
    · exact .inr (List.mem_singleton.mp hroot)

theorem perform_spec (job : Job) :
    Reads s (s.perform job).1 ∧ (s.perform job).1.files = s.files := by
  cases job with
  | look begun key script =>
    rw [perform, lookInto]
    split
    · split <;> exact ⟨⟨rfl, rfl, rfl⟩, rfl⟩
    · exact ⟨.refl s, rfl⟩
  | pass root =>
    rw [perform]
    split
    · exact ⟨(s.takeUp_spec root).1, (s.takeUp_spec root).2.1⟩
    · exact ⟨.refl s, rfl⟩

/-! ## Current tables -/

def bareTable? : Option FunctionTable := (s.functions.lookup root).map fun indexed ↦
    indexed.table.bare

/-- The bare table that a build gives for a root file now, if it can be parsed. -/
def expected? : Option FunctionTable :=
  match (s.sources.parse root).result with
  | .error _ => none
  | .ok tree =>
    match Registry.build s.settings s.disk root tree with
    | .error _ => none
    | .ok build => some build.functions.bare

theorem expected?_eq_some_iff {s : Session} {root : String} {table : FunctionTable} :
    s.expected? root = some table ↔ ∃ tree build, (s.sources.parse root).result = .ok tree ∧
      Registry.build s.settings s.disk root tree = .ok build ∧ build.functions.bare = table := by
  cases hresult : (s.sources.parse root).result with
  | error stop => simp [expected?, hresult]
  | ok tree =>
    cases hbuild : Registry.build s.settings s.disk root tree with
    | error e => simp [expected?, hresult, hbuild]
    | ok build => simp [expected?, hresult, hbuild]

/-- The table of a root file is the one that a build gives now, if it can be parsed. -/
def IsCurrent : Prop := ∀ table, s.expected? root = some table → s.bareTable? root = some table

theorem Reads.expected? {s s' : Session} (h : Reads s s') : s'.expected? = s.expected? := by
  funext root
  rw [Session.expected?, Session.expected?, h.sources, h.disk, h.settings]

theorem Reads.pathOf {s s' : Session} (h : Reads s s') : s'.pathOf = s.pathOf := by
  funext uri
  rw [Session.pathOf, Session.pathOf, h.disk]

/-- Writes down what the header of a function's script says. -/
def noteDown (begun : Pass) (key : String) (info : Header.Info) : Session :=
  { s with functions := Ordered.modify begun.root (document begun.number key info) s.functions }

theorem bareTable?_noteDown (begun : Pass) (key : String) (info : Header.Info) :
    (s.noteDown begun key info).bareTable? root = s.bareTable? root := by
  simp only [bareTable?, noteDown, Ordered.lookup_modify]
  split
  · cases s.functions.lookup root with
    | none => rfl
    | some indexed =>
      simp only [Option.map_some, document]
      split
      · rw [FunctionTable.bare_modify]
      · rfl
  · rfl

theorem bareTable?_lookInto (begun : Pass) (key script : String) :
    (s.lookInto begun key script).bareTable? root = s.bareTable? root := by
  rw [lookInto]
  split
  · split
    · next info _ => exact s.bareTable?_noteDown root begun key info
    · rfl
  · rfl

theorem bareTable?_takeUp_of_ne {other : String} (h : other ≠ root) :
    (s.takeUp root).1.bareTable? other = s.bareTable? other := by
  obtain ⟨-, -, ⟨hsame, -⟩ | ⟨tree, build, -, -, hput⟩⟩ := s.takeUp_spec root
  · rw [bareTable?, hsame, bareTable?]
  · rw [bareTable?, hput, Ordered.lookup_put_of_ne h, bareTable?]

theorem isCurrent_takeUp : (s.takeUp root).1.IsCurrent root := by
  intro table htable
  obtain ⟨hreads, -, ⟨-, hfailed⟩ | ⟨tree, build, htree, hbuild, hput⟩⟩ := s.takeUp_spec root
  · rw [hreads.expected?, expected?] at htable
    split at htable
    · cases htable
    · next tree htree => exact absurd htree (hfailed tree)
  · rw [hreads.expected?, expected?, htree] at htable
    simp only [hbuild] at htable
    rw [bareTable?, hput, Ordered.lookup_put_self]
    exact htable

theorem IsCurrent.takeUp {s : Session} {root : String} (h : s.IsCurrent root) (other : String) :
    (s.takeUp other).1.IsCurrent root := by
  by_cases hroot : root = other
  · exact hroot ▸ s.isCurrent_takeUp other
  · intro table htable
    rw [(s.takeUp_spec other).1.expected?] at htable
    exact (s.bareTable?_takeUp_of_ne other hroot).trans (h table htable)

theorem IsCurrent.perform {s : Session} {root : String} (h : s.IsCurrent root) (job : Job) :
    (s.perform job).1.IsCurrent root := by
  cases job with
  | look begun key script =>
    intro table htable
    rw [(s.perform_spec _).1.expected?] at htable
    exact (s.bareTable?_lookInto root begun key script).trans (h table htable)
  | pass other =>
    rw [Session.perform]
    split
    · exact h.takeUp other
    · exact h

theorem IsCurrent.foldl_perform {s : Session} {root : String} (h : s.IsCurrent root)
    (jobs : List Job) :
    (jobs.foldl (fun s job ↦ (s.perform job).1) s).IsCurrent root := by
  induction jobs generalizing s with
  | nil => exact h
  | cons job rest ih => exact ih (h.perform job)

theorem isCurrent_pass : (s.pass root).1.IsCurrent root := by
  rw [← foldl_takeUp]
  exact (s.isCurrent_takeUp root).foldl_perform _

theorem IsCurrent.pass {s : Session} {root : String} (h : s.IsCurrent root) (other : String) :
    (s.pass other).1.IsCurrent root := by
  rw [← foldl_takeUp]
  exact (h.takeUp other).foldl_perform _

theorem isCurrent_passes {roots : List String} {root : String} (h : root ∈ roots) :
    (roots.foldl (fun s root ↦ (s.pass root).1) s).IsCurrent root := by
  have hrest : ∀ (rest : List String) (s' : Session), s'.IsCurrent root →
      (rest.foldl (fun s root ↦ (s.pass root).1) s').IsCurrent root := by
    intro rest
    induction rest with
    | nil => exact fun s' hs' ↦ hs'
    | cons other rest ih => exact fun s' hs' ↦ ih _ (hs'.pass other)
  induction roots generalizing s with
  | nil => cases h
  | cons other rest ih =>
    rcases List.mem_cons.mp h with rfl | h
    · exact hrest rest _ (s.isCurrent_pass root)
    · exact ih _ h

end Session

end MissionIndex
