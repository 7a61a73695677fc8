import MissionIndex.Proofs.Session.Including
import MissionIndex.Proofs.Session.Naming

/-!
# Indexing a workspace

A session that has just been started indexes the root files of a workspace one after another. A pass
reads the disk, the settings and the open documents, none of which a pass changes, and it changes
the table of its root file at most. So every root file gets the table that it would get if it were
the only one (`index_fresh`), and what cannot be read makes no difference to the rest.
-/

namespace MissionIndex.Session

variable (s : Session) (root : String)

/-! ## Tables put in place -/

/-- A pass over a root file comes to put a table in place. -/
def takesUp : Bool :=
  match (s.beginPass root).2 with
  | .ok begun => begun.isSome
  | .error _ => false

theorem takesUp_eq : s.takesUp root = (s.built? root).isSome := by
  cases hresult : (s.sources.parse root).result with
  | error stop =>
    have hnone : s.built? root = none := by rw [built?, hresult]
    cases stop with
    | fault e => rw [takesUp, beginPass_of_fault hresult, hnone, Option.isSome_none]
    | error e =>
      rw [takesUp, beginPass_of_error hresult, hnone]
      rfl
  | ok tree =>
    obtain ⟨build, hbuild, -⟩ := s.build_isOk_of_parse root hresult
    have hsome : s.built? root = some build.functions :=
      built?_eq_some_iff.mpr ⟨tree, build, hresult, hbuild, rfl⟩
    rw [takesUp, beginPass_of_ok hresult hbuild, hsome]
    rfl

/-- The entry of a root file after a pass over it, if the pass puts a table in place. -/
def found? : Option (String × FunctionTable) :=
    (s.built? root).map fun table ↦ (root, table.consulted s.disk)

theorem map_fst_filterMap_found? (roots : List String) :
    (roots.filterMap s.found?).map Prod.fst = roots.filter s.takesUp := by
  induction roots with
  | nil => rfl
  | cons root rest ih =>
    cases hbuilt : s.built? root with
    | none =>
      have hentry : s.found? root = none := by rw [found?, hbuilt, Option.map_none]
      have hkeep : ¬ s.takesUp root = true := by simp [takesUp_eq, hbuilt]
      rw [List.filterMap_cons_none hentry, List.filter_cons_of_neg hkeep, ih]
    | some table =>
      have hentry : s.found? root = some (root, table.consulted s.disk) := by
        rw [found?, hbuilt, Option.map_some]
      have hkeep : s.takesUp root = true := by rw [takesUp_eq, hbuilt, Option.isSome_some]
      rw [List.filterMap_cons_some hentry, List.filter_cons_of_pos hkeep, List.map_cons, ih]

/-- Passes over root files that have no tables yet add theirs, in the order of the files. -/
theorem tables_passes {roots : List String} (hnodup : roots.Nodup)
    (hnew : ∀ root ∈ roots, root ∉ s.functions.map Prod.fst) :
    (roots.foldl (fun s root ↦ (s.pass root).1) s).tables = s.tables ++
      roots.filterMap s.found? := by
  induction roots using List.reverseRecOn with
  | nil => exact (List.append_nil _).symm
  | append_singleton roots last ih =>
    obtain ⟨hroots, -, hlast⟩ := List.nodup_append.mp hnodup
    have hreads := (s.passes_publish roots).1
    have htables := ih hroots fun root hroot ↦ hnew root (List.mem_append_left _ hroot)
    rw [List.foldl_append, List.foldl_cons, List.foldl_nil, List.filterMap_append,
      ← List.append_assoc, ← htables]
    generalize roots.foldl (fun s root ↦ (s.pass root).1) s = s' at hreads htables
    cases hbuilt : s.built? last with
    | none =>
      have hentry : s.found? last = none := by rw [found?, hbuilt, Option.map_none]
      rw [← hreads.built?] at hbuilt
      rw [List.filterMap_cons_none hentry, List.filterMap_nil, List.append_nil, tables,
        functions_pass_of_built?_eq_none _ _ hbuilt, tables]
    | some table =>
      have hentry : s.found? last = some (last, table.consulted s.disk) := by
        rw [found?, hbuilt, Option.map_some]
      have habsent : last ∉ s'.functions.map Prod.fst := by
        rw [← map_fst_tables, htables, List.map_append, map_fst_tables, List.mem_append, not_or]
        refine ⟨hnew last (List.mem_append_right _ (List.mem_singleton_self last)), fun hmem ↦ ?_⟩
        rw [map_fst_filterMap_found?] at hmem
        exact hlast last (List.mem_of_mem_filter hmem) last (List.mem_singleton_self last) rfl
      rw [← hreads.built?] at hbuilt
      rw [List.filterMap_cons_some hentry, List.filterMap_nil, tables,
        functions_pass_of_built? _ _ hbuilt, Ordered.put_of_notMem habsent, List.map_append,
        hreads.disk, tables]
      rfl

/-! ## Single root files -/

/-- Of the tables, those of root files that are passed over are replaced if they can be read. -/
theorem lookup_tables_passOver (files : List String) :
    (s.passOver files).tables.lookup root
      = (if root ∈ files ∧ s.disk.hasPath root then (s.found? root).map Prod.snd else none).or
          (s.tables.lookup root) := by
  have hlookup : ∀ s : Session, s.tables.lookup root
      = (s.functions.lookup root).map Indexed.table := fun s ↦
    Ordered.lookup_map_snd Indexed.table s.functions root
  have hpresent : root ∈ Workspace.present s.disk files ↔ root ∈ files ∧ s.disk.hasPath root :=
    List.mem_filter
  rw [hlookup, hlookup, passOver]
  split
  · next hroot =>
    cases hbuilt : s.built? root with
    | none =>
      rw [s.lookup_passes_of_notMem (.inr hbuilt), found?, hbuilt, Option.map_none, Option.map_none,
        Option.none_or]
    | some table =>
      obtain ⟨number, hnumber⟩ := s.lookup_passes (hpresent.mpr hroot) hbuilt
      rw [hnumber, found?, hbuilt]
      rfl
  · next hroot =>
    rw [s.lookup_passes_of_notMem (.inl fun hmem ↦ hroot (hpresent.mp hmem)), Option.none_or]

/-! ## Root files that cannot be read -/

theorem beginPass_of_published (published : List (String × List Diagnostic)) :
    ∃ published', { s with published }.beginPass root
      = ({ (s.beginPass root).1 with published := published' }, (s.beginPass root).2) := by
  cases hresult : (s.sources.parse root).result with
  | error stop =>
    cases stop with
    | fault e =>
      exact ⟨_, by
        rw [beginPass_of_fault hresult, beginPass_of_fault (s := { s with published }) hresult]⟩
    | error e =>
      exact ⟨_, by
        rw [beginPass_of_error hresult, beginPass_of_error (s := { s with published }) hresult]⟩
  | ok tree =>
    obtain ⟨build, hbuild, -⟩ := s.build_isOk_of_parse root hresult
    exact ⟨_, by
      rw [beginPass_of_ok hresult hbuild,
        beginPass_of_ok (s := { s with published }) hresult hbuild]⟩

theorem lookInto_of_published (published : List (String × List Diagnostic)) (begun : Pass)
    (key script : String) :
    { s with published }.lookInto begun key script
      = { s.lookInto begun key script with published } := by
  simp only [lookInto]
  split
  · split <;> rfl
  · rfl

theorem complete_of_published (published : List (String × List Diagnostic)) (begun : Pass) :
    { s with published }.complete begun = { s.complete begun with published } := by
  rw [complete, complete]
  generalize begun.scripts = scripts
  induction scripts generalizing s with
  | nil => rfl
  | cons e rest ih =>
    obtain ⟨key, script⟩ := e
    rw [List.foldl_cons, List.foldl_cons]
    dsimp only
    rw [lookInto_of_published]
    exact ih (s.lookInto begun key script)

/-- What has been published so far makes no difference to what passes find. -/
theorem passes_of_published (published : List (String × List Diagnostic)) (roots : List String) :
    ∃ published', roots.foldl (fun s root ↦ (s.pass root).1) { s with published }
      = { roots.foldl (fun s root ↦ (s.pass root).1) s with published := published' } := by
  induction roots generalizing s published with
  | nil => exact ⟨published, rfl⟩
  | cons root rest ih =>
    have hpass : ∃ published', ({ s with published }.pass root).1
        = { (s.pass root).1 with published := published' } := by
      obtain ⟨published', hbegin⟩ := s.beginPass_of_published root published
      refine ⟨published', ?_⟩
      rw [pass, pass, hbegin]
      rcases s.beginPass root with ⟨s', e | _ | begun⟩
      · rfl
      · rfl
      · exact s'.complete_of_published published' begun
    obtain ⟨published', hpass⟩ := hpass
    rw [List.foldl_cons, List.foldl_cons, hpass]
    exact ih _ published'

theorem pass_of_built?_eq_none (h : s.built? root = none) :
    ∃ published, (s.pass root).1 = { s with published } := by
  obtain ⟨published, htakeUp⟩ := takeUp_of_built?_eq_none h
  refine ⟨published, ?_⟩
  rw [← finish_takeUp, htakeUp]
  rfl

/-- A root file that is not there or cannot be read makes no difference to the tables, wherever it
stands. -/
theorem functions_passOver_cons (before rest : List String) (h : s.disk.hasPath root = false ∨
    s.built? root = none) :
    (s.passOver (before ++ root :: rest)).functions = (s.passOver (before ++ rest)).functions := by
  rw [passOver, passOver, Workspace.present, Workspace.present, List.filter_append,
    List.filter_append, List.filter_cons]
  split
  · next hthere =>
    have hbuilt : s.built? root = none := h.resolve_left (by simp [hthere])
    have hreads := (s.passes_publish (before.filter s.disk.hasPath)).1
    rw [List.foldl_append, List.foldl_append, List.foldl_cons]
    generalize (before.filter s.disk.hasPath).foldl (fun s root ↦ (s.pass root).1) s = s' at hreads
    rw [← hreads.built?] at hbuilt
    obtain ⟨published, hpass⟩ := s'.pass_of_built?_eq_none root hbuilt
    obtain ⟨published', hrest⟩ := s'.passes_of_published published (rest.filter s.disk.hasPath)
    rw [hpass, hrest]
  · rfl

/-! ## A fresh session -/

theorem built?_eq_none_of_stop
    (h : (∃ stop, (s.sources.parse root).result = .error stop) ∨ (s.pass root).2 ≠ none) :
    s.built? root = none := by
  have hstop : ∃ stop, (s.sources.parse root).result = .error stop := by
    refine h.elim id fun hfails ↦ ?_
    obtain ⟨e, he⟩ := Option.ne_none_iff_exists'.mp hfails
    exact ⟨_, (s.pass_eq_some_iff root).mp he⟩
  obtain ⟨stop, hstop⟩ := hstop
  rw [built?, hstop]

/-- **A fresh session gives every root file of a workspace the table that the file would get
alone.** The root files are those that are discovered, and there are tables, in the same order, for
those of them that are there and whose pass puts a table in place. A root file that is not there,
cannot be parsed or makes its pass fail changes nothing in the tables, wherever it stands among the
others; and no root file at all changes the table of another. -/
theorem index_fresh (disk : Disk) (settings : Settings) (documents : Documents) (folder : String) :
    let s : Session := { disk, settings, documents }
    let files := Workspace.discover disk settings folder
    (s.index folder).files = files ∧
      (s.index folder).tables.map Prod.fst
        = files.filter (fun root ↦ disk.hasPath root && s.takesUp root) ∧
      (∀ root ∈ files, (s.index folder).tables.lookup root = (s.passOver [root]).tables.lookup root)
        ∧
      (∀ before root rest,
        disk.hasPath root = false ∨ (∃ stop, (s.sources.parse root).result = .error stop) ∨
        (s.pass root).2 ≠ none →
        (s.passOver (before ++ root :: rest)).functions = (s.passOver (before ++ rest)).functions) ∧
      ∀ before root rest other, other ≠ root →
        (s.passOver (before ++ root :: rest)).tables.lookup other
          = (s.passOver (before ++ rest)).tables.lookup other := by
  intro s files
  have htables : (s.index folder).tables = (s.passOver files).tables := rfl
  refine ⟨rfl, ?_, fun root hroot ↦ ?_, fun before root rest h ↦ ?_,
    fun before root rest other hother ↦ ?_⟩
  · have hnodup : (Workspace.present disk files).Nodup :=
      (Workspace.nodup_discover disk settings folder).filter _
    have hpasses := s.tables_passes hnodup fun root _ ↦ List.not_mem_nil
    rw [htables, passOver, hpasses, List.map_append, map_fst_filterMap_found?, Workspace.present,
      List.filter_filter]
    simp only [Bool.and_comm]
    rfl
  · rw [htables, lookup_tables_passOver, lookup_tables_passOver]
    simp only [hroot, List.mem_singleton]
  · exact s.functions_passOver_cons root before rest (h.imp_right (s.built?_eq_none_of_stop root))
  · rw [lookup_tables_passOver, lookup_tables_passOver]
    simp only [List.mem_append, List.mem_cons, hother, false_or]

/-- Three missions of which the second cannot be parsed. -/
def threeMissions : Disk where
  files :=
    [(["w", "a", "description.ext"], .bytes (Text.encodeUtf8
        "class CfgFunctions\x7bclass A\x7bclass C\x7bclass f\x7b\x7d;\x7d;\x7d;\x7d;".toList)),
      (["w", "b", "description.ext"], .bytes (Text.encodeUtf8 "class CfgFunctions\x7b".toList)),
      (["w", "c", "description.ext"], .bytes (Text.encodeUtf8
        "class CfgFunctions\x7bclass B\x7bclass C\x7bclass f\x7b\x7d;\x7d;\x7d;\x7d;".toList))]

/-- The root files of these missions, and one that is not there. -/
def fourListed : Settings where
  discover := false
  descriptionFiles := ["a/description.ext", "x/description.ext", "b/description.ext",
    "c/description.ext"]

theorem index_fresh_threeMissions :
    let s : Session := { disk := threeMissions, settings := fourListed }
    (s.index "/w").files
        = ["/w/a/description.ext", "/w/x/description.ext", "/w/b/description.ext",
          "/w/c/description.ext"] ∧
      (s.index "/w").tables.map Prod.fst = ["/w/a/description.ext", "/w/c/description.ext"] ∧
      ((s.index "/w").tables.lookup "/w/c/description.ext").map (·.map Prod.fst)
        = some ["b_fnc_f"] ∧
      (s.passOver ["/w/a/description.ext", "/w/b/description.ext",
        "/w/c/description.ext"]).functions
        = (s.passOver ["/w/a/description.ext", "/w/c/description.ext"]).functions ∧
      (s.passOver ["/w/b/description.ext", "/w/a/description.ext"]).tables.lookup
        "/w/b/description.ext"
        = (s.passOver ["/w/b/description.ext"]).tables.lookup "/w/b/description.ext" := by
  intro s
  obtain ⟨hfiles, hkeys, halone, hbad, hother⟩ := index_fresh threeMissions fourListed [] "/w"
  have hdiscover : Workspace.discover threeMissions fourListed "/w"
      = ["/w/a/description.ext", "/w/x/description.ext", "/w/b/description.ext",
          "/w/c/description.ext"] := by
    decide +kernel
  rw [hdiscover] at hfiles hkeys halone
  refine ⟨hfiles, hkeys.trans (by decide +kernel), ?_, ?_, ?_⟩
  · rw [halone "/w/c/description.ext" (by decide)]
    decide +kernel
  · refine hbad ["/w/a/description.ext"] "/w/b/description.ext" ["/w/c/description.ext"]
      (.inr (.inl ?_))
    have hstops : (s.sources.parse "/w/b/description.ext").result.isOk = false := by decide +kernel
    cases hresult : (s.sources.parse "/w/b/description.ext").result with
    | error stop => exact ⟨stop, rfl⟩
    | ok tree =>
      rw [hresult] at hstops
      cases hstops
  · exact hother ["/w/b/description.ext"] "/w/a/description.ext" []
      "/w/b/description.ext" (by decide)

end MissionIndex.Session
