import MissionIndex.Proofs.Session.History
import MissionIndex.Proofs.Session.Passing
import MissionIndex.Proofs.Workspace.Discovery

/-!
# One name for each root file

The tables of a session are kept by the paths of the root files. Three things name a root file: the
settings, a search for root files, and the URI of a document. The last gives an absolute path in
normal form. If the others do so too, then no root file has two tables (`named_once`); and so what
is found after a root file has been indexed again is what it declares now, and what other root files
declare.

## Where a root file has two names

A search names what it finds by the workspace folder as it was given, made absolute, and an absolute
path that the settings list is taken as it is written there. Neither lets `..` cancel what stands
before it. So a root file that was found below such a folder gets a second table when it is indexed
again, and the first one stays for good (`named_twice`).
-/

namespace MissionIndex

open Config

namespace Session

variable (s : Session) (root : String)

/-! ## What operations read -/

/-- Something is at a path at some time while operations are carried out. -/
def Meets (operations : List Operation) (path : String) : Prop :=
  ∃ before after, operations = before ++ after ∧ (s.operateAll before).disk.hasPath path = true

/-- A folder and the settings name root files by absolute paths in normal form: no `..` is left of
the folder when it is made absolute, and so are the absolute paths that the settings list, as far as
anything is ever there. -/
structure NamesPlainly (there : String → Prop) (folder : String) : Prop where
  tree : s.disk.IsTree
  noDots : ".." ∉ Path.segments (Workspace.absoluteRoot s.disk folder)
  listed : ∀ item ∈ s.settings.descriptionFiles, Path.isAbsolute item = true → there item →
    Path.IsNormal item

variable {s root} in
theorem NamesPlainly.isNormal {there : String → Prop} {folder : String}
    (h : s.NamesPlainly there folder) (hdisk : Path.isRooted s.disk.workingDirectory = true)
    (hroot : root ∈ Workspace.discover s.disk s.settings folder) (hthere : there root) :
    Path.IsNormal root := by
  rcases Workspace.isNormal_of_mem_discover s.disk hdisk h.tree h.noDots
    hroot with hnormal | ⟨hitem, habsolute⟩
  · exact hnormal
  · exact h.listed root hitem habsolute hthere

theorem functions_pass :
    (s.pass root).1.functions = s.functions ∨
      ∃ indexed, (s.pass root).1.functions = Ordered.put root indexed s.functions := by
  cases hresult : (s.sources.parse root).result with
  | error stop =>
    cases stop with
    | fault e => exact .inl (s.pass_of_fault root hresult).2
    | error e => exact .inl (s.pass_of_error root hresult).2
  | ok tree =>
    obtain ⟨build, hbuild, -⟩ := s.build_isOk_of_parse root hresult
    exact .inr ⟨_, (s.functions_pass_of_ok root hresult hbuild).2⟩

/-! ## Names -/

/-- Where every path that something is `there` at has been named by its absolute normal form, each
root file has one table. -/
structure Named (there : String → Prop) (s : Session) : Prop where
  rooted : Path.isRooted s.disk.workingDirectory = true
  nodup : (s.functions.map Prod.fst).Nodup
  tables : ∀ root ∈ s.functions.map Prod.fst, Path.IsNormal root
  files : ∀ root ∈ s.files, there root → Path.IsNormal root

namespace Named

variable {there : String → Prop} {s : Session} (h : s.Named there)

include h

theorem isNormal_pathOf (uri : String) : Path.IsNormal (s.pathOf uri) :=
  Path.isNormal_resolve h.rooted _

theorem eq_of_absolute_eq {root other : String} (hroot : root ∈ s.functions.map Prod.fst)
    (hother : other ∈ s.functions.map Prod.fst)
    (hsame : s.disk.absolute root = s.disk.absolute other) :
    root = other := by
  have hnormal : ∀ path ∈ s.functions.map Prod.fst, s.disk.absolute path = path :=
    fun path hpath ↦ (h.tables path hpath).resolve_eq _
  rwa [hnormal root hroot, hnormal other hother] at hsame

theorem pass {root : String} (hroot : Path.IsNormal root) : (s.pass root).1.Named there := by
  have hdisk := (s.pass_publishes root).1.disk
  refine ⟨hdisk ▸ h.rooted, ?_, ?_, (s.files_pass root).symm ▸ h.files⟩
  · rcases s.functions_pass root with hsame | ⟨indexed, hput⟩
    · exact hsame ▸ h.nodup
    · rw [hput]
      exact Ordered.nodup_map_fst_put h.nodup root indexed
  · rcases s.functions_pass root with hsame | ⟨indexed, hput⟩
    · exact hsame ▸ h.tables
    · rw [hput]
      intro other hother
      rcases Ordered.mem_map_fst_put.mp hother with rfl | hother
      · exact hroot
      · exact h.tables other hother

theorem passOver {files : List String}
    (hfiles : ∀ root ∈ Workspace.present s.disk files, Path.IsNormal root) :
    (s.passOver files).Named there := by
  rw [Session.passOver]
  generalize Workspace.present s.disk files = roots at hfiles
  induction roots generalizing s with
  | nil => exact h
  | cons root rest ih =>
    apply ih (h.pass (hfiles root List.mem_cons_self))
    intro other hother
    exact hfiles other (List.mem_cons_of_mem root hother)

theorem addFile {path : String} (hpath : Path.IsNormal path) : (s.addFile path).Named there := by
  obtain ⟨hreads, hfunctions, hfiles⟩ := s.addFile_spec path
  refine ⟨hreads.disk ▸ h.rooted, hfunctions ▸ h.nodup, hfunctions ▸ h.tables,
    fun root hroot hthere ↦ ?_⟩
  rcases hfiles root hroot with hroot | rfl
  · exact h.files root hroot hthere
  · exact hpath

theorem forget (path : String) : (s.forget path).Named there := by
  rw [Session.forget, publishAt_eq]
  refine ⟨h.rooted, Ordered.nodup_map_fst_erase h.nodup path, fun root hroot ↦ ?_,
    fun root hroot ↦ ?_⟩
  · exact h.tables root (((Ordered.erase_sublist path s.functions).map Prod.fst).subset hroot)
  · exact h.files root (List.mem_of_mem_erase hroot)

/-- The document of a URI has an absolute path in normal form, so indexing again gives no other
names. -/
theorem reindex (hthere : ∀ path, s.disk.hasPath path = true → there path) (uri : String) :
    (s.reindex uri).Named there := by
  have hpath : s.disk.absolute (Uri.toPath uri) = s.pathOf uri := rfl
  have hnormal := h.isNormal_pathOf uri
  simp only [Session.reindex, hpath]
  cases reactionTo (s.pathOf uri) with
  | reindexRoot =>
    dsimp only
    rw [reindexRoot]
    split
    · exact (h.addFile hnormal).pass hnormal
    · rcases s.documents.textFor s.disk.workingDirectory (s.pathOf uri) with e | _ | text
      · exact h
      · exact h.forget (s.pathOf uri)
      · exact (h.addFile hnormal).pass hnormal
  | reindexAll =>
    apply h.passOver
    intro root hroot
    obtain ⟨hfile, hpresent⟩ := List.mem_filter.mp hroot
    exact h.files root hfile (hthere root hpresent)
  | nothing => exact h

theorem index (hthere : ∀ path, s.disk.hasPath path = true → there path) {folder : String}
    (hplain : s.NamesPlainly there folder) : (s.index folder).Named there := by
  have hpasses : (s.passOver (Workspace.discover s.disk s.settings folder)).Named there := by
    apply h.passOver
    intro root hroot
    obtain ⟨hfile, hpresent⟩ := List.mem_filter.mp hroot
    exact hplain.isNormal h.rooted hfile (hthere root hpresent)
  refine ⟨hpasses.rooted, hpasses.nodup, hpasses.tables, fun root hroot ↦ ?_⟩
  exact hplain.isNormal h.rooted hroot

theorem operate (hthere : ∀ path, s.disk.hasPath path = true → there path) {operation : Operation}
    (hplain : ∀ folder, operation = .index folder → s.NamesPlainly there folder) :
    (s.operate operation).Named there := by
  cases operation with
  | index folder => exact h.index hthere (hplain folder rfl)
  | reindex uri => exact h.reindex hthere uri
  | edit uri e => exact ⟨h.rooted, h.nodup, h.tables, h.files⟩
  | change files folders => exact ⟨h.rooted, h.nodup, h.tables, h.files⟩
  | configure settings => exact ⟨h.rooted, h.nodup, h.tables, h.files⟩

/-- Whatever operations are carried out, each root file keeps one table if every folder and the
settings with it name root files by absolute paths in normal form. -/
theorem operateAll {operations : List Operation}
    (hthere : ∀ before after, operations = before ++ after → ∀ path,
      (s.operateAll before).disk.hasPath path = true → there path)
    (hplain : ∀ before folder after, operations = before ++ .index folder :: after →
      (s.operateAll before).NamesPlainly there folder) : (s.operateAll operations).Named there := by
  induction operations generalizing s with
  | nil => exact h
  | cons operation rest ih =>
    have hnext : (s.operate operation).Named there := by
      apply h.operate (hthere [] _ rfl)
      rintro folder rfl
      exact hplain [] folder rest rfl
    apply ih hnext
    · rintro before after rfl
      exact hthere (operation :: before) after rfl
    · rintro before folder after rfl
      exact hplain (operation :: before) folder after rfl

end Named

/-! ## What is found -/

theorem isSome_find?_iff {tables : FunctionTables} {name : String} :
    (tables.find? name).isSome = true ↔ ∃ e ∈ tables, Text.lower name ∈ e.2.map Prod.fst := by
  rw [FunctionTables.find?, List.findSome?_isSome_iff]
  simp only [Ordered.isSome_lookup_iff]

/-- A root file that can be parsed is on disk or open. -/
theorem exists_text_of_parse {tree : ConfigClass} (h : (s.sources.parse root).result = .ok tree) :
    s.disk.hasPath (s.disk.absolute root) = true ∨
      ∃ text, s.documents.textFor s.disk.workingDirectory (s.disk.absolute root)
        = .ok (some text) := by
  have hstop : (s.sources.expandRoot (s.disk.absolute root)).stop = none := by
    simp only [Sources.parse] at h
    split at h
    · cases h
    · assumption
  have hbuffer : s.sources.buffer (s.disk.absolute root)
      = (s.documents.textFor s.disk.workingDirectory (s.disk.absolute root)).map
        (·.map String.toList) := rfl
  rw [Sources.expandRoot_eq, Sources.openFile, Sources.textOf, hbuffer] at hstop
  rcases htext : s.documents.textFor s.disk.workingDirectory
    (s.disk.absolute root) with e | _ | text
  · rw [htext] at hstop
    cases hstop
  · cases hread : s.disk.readText (s.disk.absolute root) with
    | error why =>
      have hread' : s.sources.disk.readText (s.disk.absolute root) = .error why := hread
      rw [htext] at hstop
      simp only [Except.map, Option.map_none, hread'] at hstop
      cases hstop
    | ok text => exact .inl (Disk.hasPath_of_isFile (Disk.isFile_of_readText hread))
  · exact .inr ⟨text, rfl⟩

theorem functions_index (folder : String) :
    (s.index folder).functions
      = (s.passOver (Workspace.discover s.disk s.settings folder)).functions := rfl

theorem reads_index (folder : String) : Reads s (s.index folder) := by
  have hpasses :=
    (s.passes_publish (Workspace.present s.disk (Workspace.discover s.disk s.settings folder))).1
  exact ⟨hpasses.disk, hpasses.settings, hpasses.documents⟩

theorem reads_reindex (uri : String) : Reads s (s.reindex uri) := by
  have hpass : ∀ path, Reads s ((s.addFile path).pass path).1 := fun path ↦
    (s.addFile_spec path).1.trans ((s.addFile path).pass_publishes path).1
  have hpath : s.disk.absolute (Uri.toPath uri) = s.pathOf uri := rfl
  simp only [reindex, hpath]
  cases reactionTo (s.pathOf uri) with
  | reindexRoot =>
    dsimp only
    rw [reindexRoot]
    split
    · exact hpass (s.pathOf uri)
    · rcases s.documents.textFor s.disk.workingDirectory (s.pathOf uri) with e | _ | text
      · exact .refl s
      · dsimp only
        rw [forget, publishAt_eq]
        exact ⟨rfl, rfl, rfl⟩
      · exact hpass (s.pathOf uri)
  | reindexAll => exact (s.passes_publish _).1
  | nothing => exact .refl s

theorem reindex_of_hasPath {uri : String} (hreaction : reactionTo (s.pathOf uri) = .reindexRoot)
    (hthere : s.disk.hasPath (s.pathOf uri) = true) :
    s.reindex uri = ((s.addFile (s.pathOf uri)).pass (s.pathOf uri)).1 := by
  have hpath : s.disk.absolute (Uri.toPath uri) = s.pathOf uri := rfl
  simp only [reindex, hpath, hreaction, reindexRoot, if_pos hthere]

/-- Indexing a root file again makes its table current. -/
theorem isCurrent_reindex {uri : String} {tree : ConfigClass} (hback : s.pathOf uri = root)
    (hreaction : reactionTo root = .reindexRoot ∨
      reactionTo root = .reindexAll ∧ root ∈ s.files ∧ s.disk.hasPath root = true)
    (hparse : (s.sources.parse root).result = .ok tree)
    (hdisk : Path.isRooted s.disk.workingDirectory = true) : (s.reindex uri).IsCurrent root := by
  have hpath : s.disk.absolute (Uri.toPath uri) = root := hback
  rw [reindex, hpath]
  rcases hreaction with hreaction | ⟨hreaction, hfile, hthere⟩
  · have hnormal : s.disk.absolute root = root := by
      rw [← hpath]
      exact Path.resolve_resolve hdisk _
    have htext := s.exists_text_of_parse root hparse
    rw [hnormal] at htext
    simp only [hreaction, reindexRoot]
    by_cases hthere : s.disk.hasPath root = true
    · rw [if_pos hthere]
      exact isCurrent_pass _ root
    · obtain ⟨text, htext⟩ := htext.resolve_left hthere
      rw [if_neg hthere, htext]
      exact isCurrent_pass _ root
  · simp only [hreaction]
    exact s.isCurrent_passes (List.mem_filter.mpr ⟨hfile, hthere⟩)

/-! ## Root files with one table -/

theorem IsCurrent.exists_table {s : Session} {root : String} (h : s.IsCurrent root)
    {tree : ConfigClass} (hparse : (s.sources.parse root).result = .ok tree)
    {build : Registry.Build} (hbuild : Registry.build s.settings s.disk root tree = .ok build) :
    ∃ table, (root, table) ∈ s.tables ∧ table.map Prod.fst = build.functions.map Prod.fst := by
  have hkeys : ∀ table : FunctionTable, table.bare.map Prod.fst = table.map Prod.fst :=
      fun table ↦ by
    rw [FunctionTable.bare, List.map_map]
    rfl
  obtain ⟨indexed, hindexed, hbare⟩ :=
    Option.map_eq_some_iff.mp (h _ (expected?_eq_some_iff.mpr ⟨tree, build, hparse, hbuild, rfl⟩))
  refine ⟨indexed.table, List.mem_map.mpr ⟨_, Ordered.mem_of_lookup hindexed, rfl⟩, ?_⟩
  rw [← hkeys, hbare, hkeys]

theorem map_fst_tables : s.tables.map Prod.fst = s.functions.map Prod.fst := by
  rw [tables, List.map_map]
  rfl

theorem IsCurrent.mem_functions {s : Session} {root : String} (h : s.IsCurrent root)
    {tree : ConfigClass} (hparse : (s.sources.parse root).result = .ok tree) :
    root ∈ s.functions.map Prod.fst := by
  obtain ⟨build, hbuild, -⟩ := s.build_isOk_of_parse root hparse
  obtain ⟨table, htable, -⟩ := h.exists_table hparse hbuild
  rw [← map_fst_tables]
  exact List.mem_map_of_mem htable

/-- Where each root file has one table, a function is found if a root file declares it or another
one has it. -/
theorem Named.isSome_find?_iff {there : String → Prop} {s : Session} (h : s.Named there)
    {root : String} {table : FunctionTable} (htable : (root, table) ∈ s.tables) (name : String) :
    (s.tables.find? name).isSome = true ↔
      Text.lower name ∈ table.map Prod.fst ∨
        ∃ e ∈ s.tables, s.disk.absolute e.1 ≠ s.disk.absolute root ∧
        Text.lower name ∈ e.2.map Prod.fst := by
  have hroots : ∀ e ∈ s.tables, e.1 ∈ s.functions.map Prod.fst := fun e he ↦
    s.map_fst_tables ▸ List.mem_map_of_mem he
  rw [Session.isSome_find?_iff]
  constructor
  · rintro ⟨⟨other, table'⟩, he, hname⟩
    by_cases hsame : s.disk.absolute other = s.disk.absolute root
    · obtain rfl := h.eq_of_absolute_eq (hroots _ he) (hroots _ htable) hsame
      have hnodup : (s.tables.map Prod.fst).Nodup := s.map_fst_tables ▸ h.nodup
      have hlookup := Ordered.lookup_of_mem hnodup htable
      rw [Ordered.lookup_of_mem hnodup he] at hlookup
      exact .inl (Option.some.inj hlookup ▸ hname)
    · exact .inr ⟨(other, table'), he, hsame, hname⟩
  · rintro (hname | ⟨e, he, -, hname⟩)
    · exact ⟨(root, table), htable, hname⟩
    · exact ⟨e, he, hname⟩

/-- **No root file has two tables, and after a root file has been indexed again, a function is found
just if the root file declares it now or another one has it**, as long as folders are indexed under
which root files are named by absolute paths in normal form. -/
theorem named_once {s : Session} (hdisk : Path.isRooted s.disk.workingDirectory = true)
    (hfunctions : s.functions = []) (hfiles : s.files = []) {operations : List Operation}
    (hplain : ∀ before folder after, operations = before ++ .index folder :: after →
      (s.operateAll before).NamesPlainly (s.Meets operations) folder) :
    let s' := s.operateAll operations
    (s'.functions.map Prod.fst).Nodup ∧
      (∀ root ∈ s'.functions.map Prod.fst, ∀ other ∈ s'.functions.map Prod.fst,
        s'.disk.absolute root = s'.disk.absolute other → root = other) ∧
      ∀ root uri tree, s'.pathOf uri = root →
        (reactionTo root = .reindexRoot ∨
          reactionTo root = .reindexAll ∧ root ∈ s'.files ∧ s'.disk.hasPath root = true) →
        (s'.sources.parse root).result = .ok tree →
        ∃ build, Registry.build s'.settings s'.disk root tree = .ok build ∧
          ∀ name, ((s'.reindex uri).tables.find? name).isSome = true ↔
            Text.lower name ∈ build.functions.map Prod.fst ∨
              ∃ e ∈ (s'.reindex uri).tables, s'.disk.absolute e.1 ≠ s'.disk.absolute root ∧
                Text.lower name ∈ e.2.map Prod.fst := by
  intro s'
  have hstart : s.Named (s.Meets operations) := by
    refine ⟨hdisk, ?_, ?_, ?_⟩
    · rw [hfunctions]
      exact List.nodup_nil
    · rw [hfunctions]
      exact nofun
    · rw [hfiles]
      exact nofun
  have hnamed : s'.Named (s.Meets operations) := by
    apply hstart.operateAll
    · intro before after hsplit path hpath
      exact ⟨before, after, hsplit, hpath⟩
    · exact hplain
  refine ⟨hnamed.nodup, fun root hroot other hother ↦ hnamed.eq_of_absolute_eq hroot hother, ?_⟩
  intro root uri tree hback hreaction hparse
  have hthere : ∀ path, s'.disk.hasPath path = true → s.Meets operations path := fun path hpath ↦
    ⟨operations, [], (List.append_nil _).symm, hpath⟩
  have hreads := s'.reads_reindex uri
  have hcurrent := s'.isCurrent_reindex root hback hreaction hparse hnamed.rooted
  obtain ⟨build, hbuild, -⟩ := s'.build_isOk_of_parse root hparse
  rw [← hreads.sources] at hparse
  obtain ⟨table, htable, hkeys⟩ :=
    hcurrent.exists_table hparse (by rwa [hreads.settings, hreads.disk])
  refine ⟨build, hbuild, fun name ↦ ?_⟩
  have hfound := (hnamed.reindex hthere uri).isSome_find?_iff htable name
  rwa [hkeys, hreads.disk] at hfound

/-- A mission whose folder has another folder in it. The settings list its root file. -/
def listing : Session where
  disk.files :=
    [(["w", "description.ext"], .bytes
        (Text.encodeUtf8
          "class CfgFunctions\x7bclass T\x7bclass C\x7bclass f\x7b\x7d;\x7d;\x7d;\x7d;".toList)),
      (["w", "functions", "C", "fn_f.sqf"], .bytes [])]
  settings.descriptionFiles := ["description.ext"]

/-- The root file of the mission loses its contents. -/
def emptied : Operation :=
  .change [(["w", "description.ext"], .bytes []), (["w", "functions", "C", "fn_f.sqf"], .bytes [])]
  []

theorem named_once_listing :
    let s := listing.operateAll [.index "/w", emptied]
    (∀ root ∈ s.functions.map Prod.fst,
        s.disk.absolute root = "/w/description.ext" → root = "/w/description.ext") ∧
      s.pathOf "file:///w/description.ext" = "/w/description.ext" ∧
      (s.tables.find? "T_fnc_f").isSome = true ∧
      ((s.reindex "file:///w/description.ext").tables.find? "T_fnc_f").isSome = false := by
  intro s
  have hplain : ∀ before folder after, [Operation.index "/w", emptied] = before ++
    .index folder :: after →
      (listing.operateAll before).NamesPlainly (listing.Meets [.index "/w", emptied]) folder := by
    intro before folder after hsplit
    rcases before with _ | ⟨first, _ | ⟨second, rest⟩⟩
    · obtain rfl : "/w" = folder := by
        injection hsplit with hfirst
        injection hfirst
      refine ⟨by decide +kernel, by decide +kernel, fun item hitem habsolute ↦ ?_⟩
      rw [List.mem_singleton.mp hitem] at habsolute
      exact absurd habsolute (by decide +kernel)
    · injection hsplit with _ hsecond
      injection hsecond with hsecond
      cases hsecond
    · injection hsplit with _ hsecond
      injection hsecond with _ hrest
      exact absurd hrest.symm (List.append_ne_nil_of_right_ne_nil rest (List.cons_ne_nil _ after))
  obtain ⟨-, honce, hfound⟩ := named_once (s := listing) (by decide +kernel) rfl rfl hplain
  have hback : s.pathOf "file:///w/description.ext" = "/w/description.ext" := by decide +kernel
  have hnormal : s.disk.absolute "/w/description.ext" = "/w/description.ext" := by decide +kernel
  -- In the end the root file declares nothing, and there is no other.
  obtain ⟨hroots, hbefore, hnone, honly⟩ : "/w/description.ext" ∈ s.functions.map Prod.fst ∧
      (s.tables.find? "T_fnc_f").isSome = true ∧
      (s.sources.parse "/w/description.ext").result.toOption.map
        (fun tree ↦ (Registry.declared s.settings tree).length) = some 0 ∧
      ∀ e ∈ (s.reindex "file:///w/description.ext").tables, s.disk.absolute e.1
      = "/w/description.ext" := by
    decide +kernel
  refine ⟨fun root hroot hsame ↦ ?_, hback, hbefore, ?_⟩
  · exact honce root hroot "/w/description.ext" hroots (hsame.trans hnormal.symm)
  · rw [← hnormal] at honly
    cases hparse : (s.sources.parse "/w/description.ext").result with
    | error stop =>
      rw [hparse] at hnone
      cases hnone
    | ok tree =>
      obtain ⟨build, hbuild, hfound⟩ := hfound _ _ tree hback (.inl (by decide +kernel)) hparse
      rw [hparse] at hnone
      have hdeclared := List.length_eq_zero_iff.mp (Option.some.inj hnone)
      have hfunctions : build.functions = [] := by
        rw [(Registry.build_eq_ok hbuild).1, hdeclared]
        rfl
      rw [← Bool.not_eq_true, hfound, hfunctions]
      rintro (hname | ⟨e, he, hother, -⟩)
      · cases hname
      · exact hother (honly e he)

/-- The root file of the mission has two tables if its folder is written in a roundabout way. One of
them is there for good. -/
theorem table_left_of_dots :
    let s := listing.operateAll [.index "/w/functions/..", emptied]
    let s' := s.reindex "file:///w/description.ext"
    s.functions.map Prod.fst = ["/w/description.ext", "/w/functions/../description.ext"] ∧
      s.disk.absolute "/w/functions/../description.ext" = s.disk.absolute "/w/description.ext" ∧
      s.uriOf "/w/description.ext" = .ok "file:///w/description.ext" ∧
      "/w/description.ext" ∈ s.files ∧
      (s.sources.parse "/w/description.ext").result.toOption.map
        (fun tree ↦ (Registry.declared s.settings tree).length)
        = some 0 ∧
      (s'.tables.find? "T_fnc_f").isSome = true ∧
      ∀ e ∈ s'.tables, s.disk.absolute e.1 = s.disk.absolute "/w/description.ext" := by
  decide +kernel

/-- A root file that has a table under some name gets one under its absolute normal form when it is
indexed again. -/
theorem mem_functions_reindex (hdisk : Path.isRooted s.disk.workingDirectory = true)
    {path uri : String} {tree : ConfigClass} (hpath : path ∈ s.functions.map Prod.fst)
    (hthere : s.disk.hasPath path = true) (hparse : (s.sources.parse path).result = .ok tree)
    (hback : s.pathOf uri = s.disk.absolute path)
    (hreaction : reactionTo (s.disk.absolute path) = .reindexRoot) :
    path ∈ (s.reindex uri).functions.map Prod.fst ∧
      s.disk.absolute path ∈ (s.reindex uri).functions.map Prod.fst := by
  have hagain : s.disk.absolute (s.disk.absolute path) = s.disk.absolute path :=
    Path.resolve_resolve hdisk path
  have hthere' : s.disk.hasPath (s.disk.absolute path) = true := Disk.hasPath_absolute hdisk hthere
  have hparse' : (s.sources.parse (s.disk.absolute path)).result = .ok tree := by
    have habsolute : s.sources.disk.absolute (s.disk.absolute path)
      = s.sources.disk.absolute path := hagain
    rw [← hparse, Sources.parse, Sources.parse, habsolute]
  constructor
  · obtain ⟨-, hkept, -⟩ := s.addFile_spec (s.disk.absolute path)
    rw [s.reindex_of_hasPath (hback ▸ hreaction) (hback ▸ hthere'), hback]
    rcases (s.addFile (s.disk.absolute path)).functions_pass
      (s.disk.absolute path) with hsame | ⟨indexed, hput⟩
    · rwa [hsame, hkept]
    · rw [hput, hkept]
      exact Ordered.mem_map_fst_put.mpr (.inr hpath)
  · have hcurrent := s.isCurrent_reindex _ hback (.inl hreaction) hparse' hdisk
    rw [← (s.reads_reindex uri).sources] at hparse'
    exact hcurrent.mem_functions hparse'

/-- **A root file that was discovered under another name than its absolute normal form gets a second
table when it is indexed again.** -/
theorem named_twice (hdisk : Path.isRooted s.disk.workingDirectory = true)
    {folder path uri : String} {tree : ConfigClass}
    (hpath : path ∈ Workspace.discover s.disk s.settings folder)
    (hthere : s.disk.hasPath path = true) (hparse : (s.sources.parse path).result = .ok tree)
    (hback : s.pathOf uri = s.disk.absolute path)
    (hreaction : reactionTo (s.disk.absolute path) = .reindexRoot) :
    path ∈ ((s.index folder).reindex uri).functions.map Prod.fst ∧
      s.disk.absolute path ∈ ((s.index folder).reindex uri).functions.map Prod.fst := by
  have hreads := s.reads_index folder
  have hfunctions : path ∈ (s.index folder).functions.map Prod.fst := by
    have hpresent : path ∈ Workspace.present s.disk (Workspace.discover s.disk s.settings folder) :=
      List.mem_filter.mpr ⟨hpath, hthere⟩
    have hpasses :=
      (s.passes_publish (Workspace.present s.disk (Workspace.discover s.disk s.settings folder))).1
    rw [functions_index, passOver]
    rw [← hpasses.sources] at hparse
    exact (s.isCurrent_passes hpresent).mem_functions hparse
  generalize s.index folder = indexed at hreads hfunctions ⊢
  rw [← hreads.sources] at hparse
  rw [← hreads.pathOf] at hback
  rw [← hreads.disk] at hdisk hthere hback hreaction ⊢
  exact indexed.mem_functions_reindex hdisk hfunctions hthere hparse hback hreaction

end Session

end MissionIndex
