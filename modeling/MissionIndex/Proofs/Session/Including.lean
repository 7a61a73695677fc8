import MissionIndex.Proofs.Session.Passing
import MissionIndex.Proofs.Session.Shelf

/-!
# Changes of included files

A change of a file that root files may include calls for a pass over every root file. The run goes
through what the root files are when it begins, and passes over those that are *on disk*. Each of
them that can be parsed has the table of its build afterwards, also where other operations go on
between one root file and the next.

## Root files that are open only

A root file may be a document that is open in the editor and has not been saved. It is passed over
when it changes itself, but not when a file changes that it includes. So its table is out of date
then.
-/

namespace MissionIndex

namespace Session

variable (s : Session) (root : String)

/-! ## Passes in a row -/

theorem Reads.built? {s s' : Session} (h : Reads s s') : s'.built? = s.built? := by
  funext root
  rw [Session.built?, Session.built?, h.sources, h.disk, h.settings]

theorem functions_pass_of_built? {table : FunctionTable} (h : s.built? root = some table) :
    (s.pass root).1.functions = Ordered.put root ⟨s.passes, table.consulted s.disk⟩
      s.functions := by
  obtain ⟨tree, build, hparse, hbuild, rfl⟩ := built?_eq_some_iff.mp h
  exact (s.functions_pass_of_ok root hparse hbuild).2

theorem functions_pass_of_built?_eq_none (h : s.built? root = none) :
    (s.pass root).1.functions = s.functions := by
  cases hresult : (s.sources.parse root).result with
  | error stop =>
    cases stop with
    | fault e => exact (s.pass_of_fault root hresult).2
    | error e => exact (s.pass_of_error root hresult).2
  | ok tree =>
    obtain ⟨build, hbuild, -⟩ := s.build_isOk_of_parse root hresult
    rw [built?_eq_some_iff.mpr ⟨tree, build, hresult, hbuild, rfl⟩] at h
    cases h

theorem lookup_pass_of_ne {other : String} (h : other ≠ root) :
    (s.pass root).1.functions.lookup other = s.functions.lookup other := by
  cases hbuilt : s.built? root with
  | none => rw [s.functions_pass_of_built?_eq_none root hbuilt]
  | some table => rw [s.functions_pass_of_built? root hbuilt, Ordered.lookup_put_of_ne h]

/-- Passes in a row give each root file that can be parsed the documented table of its build. -/
theorem lookup_passes {roots : List String} {root : String} {table : FunctionTable}
    (hroot : root ∈ roots) (hbuilt : s.built? root = some table) :
    ∃ number, (roots.foldl (fun s root ↦ (s.pass root).1) s).functions.lookup root
      = some ⟨number, table.consulted s.disk⟩ := by
  induction roots using List.reverseRecOn with
  | nil => cases hroot
  | append_singleton roots last ih =>
    have hreads := (s.passes_publish roots).1
    rw [List.foldl_append, List.foldl_cons, List.foldl_nil]
    by_cases hlast : root = last
    · subst hlast
      rw [← hreads.built?] at hbuilt
      refine ⟨(roots.foldl (fun s root ↦ (s.pass root).1) s).passes, ?_⟩
      rw [functions_pass_of_built? _ root hbuilt, Ordered.lookup_put_self, hreads.disk]
    · rw [lookup_pass_of_ne _ last hlast]
      refine ih ((List.mem_append.mp hroot).resolve_right fun hmem ↦ hlast ?_)
      exact List.mem_singleton.mp hmem

theorem lookup_passes_of_notMem {roots : List String} {root : String}
    (h : root ∉ roots ∨ s.built? root = none) :
    (roots.foldl (fun s root ↦ (s.pass root).1) s).functions.lookup root
      = s.functions.lookup root := by
  induction roots using List.reverseRecOn with
  | nil => rfl
  | append_singleton roots last ih =>
    have hreads := (s.passes_publish roots).1
    have hbefore := ih (h.imp_left fun hmem hroot ↦ hmem (List.mem_append_left _ hroot))
    rw [List.foldl_append, List.foldl_cons, List.foldl_nil, ← hbefore]
    by_cases hlast : root = last
    · subst hlast
      have hnone := h.resolve_left fun hmem ↦
        hmem (List.mem_append_right _ (List.mem_singleton_self root))
      rw [← hreads.built?] at hnone
      rw [functions_pass_of_built?_eq_none _ root hnone]
    · exact lookup_pass_of_ne _ last hlast

/-! ## What a change calls for -/

theorem reactionTo_of_include {path : String}
    (h : Path.extension (Text.lower (Path.fileName path)) ∈ FileRole.includeExtensions) :
    reactionTo path = .reindexAll := by
  have hname : Text.lower (Path.fileName path) ≠ FileRole.rootName := by
    intro hname
    rw [hname] at h
    exact absurd h (by decide +kernel)
  rw [reactionTo, if_neg hname, if_pos (List.contains_iff_mem.mpr h)]

theorem reindex_of_include {uri : String}
    (h : Path.extension (Text.lower (Path.fileName (s.pathOf uri))) ∈ FileRole.includeExtensions) :
    s.reindex uri = s.passOver s.files := by
  have hpath : s.disk.absolute (Uri.toPath uri) = s.pathOf uri := rfl
  simp only [reindex, hpath, reactionTo_of_include h]

/-- The table of a root file that can be parsed is current if it is the one of the build, up to what
scripts document. -/
theorem IsCurrent.exists_lookup {s : Session} {root : String} {table : FunctionTable}
    (h : s.IsCurrent root) (hbuilt : s.built? root = some table) :
    ∃ indexed, s.functions.lookup root = some indexed ∧ indexed.table.bare = table := by
  obtain ⟨tree, build, hparse, hbuild, rfl⟩ := built?_eq_some_iff.mp hbuilt
  have hbare := h _ (expected?_eq_some_iff.mpr ⟨tree, build, hparse, hbuild, rfl⟩)
  rw [bare_of_built? hbuilt] at hbare
  exact Option.map_eq_some_iff.mp hbare

end Session

/-! ## With other operations in between -/

/-- A turn that leaves the disk, the settings and the open documents as they are, and does not
forget a root file by itself. -/
def Turn.IsQuiet (root : String) : Turn → Prop
  | operate (.index _) | operate (.reindex _) | pass _ | work _ => True
  | operate (.edit _ _) | operate (.change _ _) | operate (.configure _) => False
  | forget path => path ≠ root

namespace Session

/-- What passes read in a session is the same in another, and a root file whose table was current
has one that is. -/
structure Keeps (s : Session) (root : String) (s' : Session) : Prop where
  reads : Reads s s'
  isCurrent : s.IsCurrent root → s'.IsCurrent root

variable {s s' : Session} {root : String}

theorem Keeps.refl (s : Session) (root : String) : s.Keeps root s := ⟨.refl s, id⟩

theorem Keeps.trans {s'' : Session} (h : s.Keeps root s') (h' : s'.Keeps root s'') :
    s.Keeps root s'' :=
  ⟨h.reads.trans h'.reads, h'.isCurrent ∘ h.isCurrent⟩

theorem Keeps.of_bare (hreads : Reads s s') (hbare : s'.bareTable? root = s.bareTable? root) :
    s.Keeps root s' where
  reads := hreads
  isCurrent := by
    intro h table htable
    rw [hreads.expected?] at htable
    exact hbare.trans (h table htable)

theorem keeps_takeUp (s : Session) (root other : String) : s.Keeps root (s.takeUp other).1 :=
  ⟨(s.takeUp_spec other).1, fun h ↦ h.takeUp other⟩

theorem keeps_addFile (s : Session) (root path : String) : s.Keeps root (s.addFile path) := by
  obtain ⟨hreads, hfunctions, -⟩ := s.addFile_spec path
  refine .of_bare hreads ?_
  rw [bareTable?, hfunctions, bareTable?]

theorem keeps_forget (s : Session) {root path : String} (hpath : path ≠ root) :
    s.Keeps root (s.forget path) := by
  rw [forget, publishAt_eq]
  refine .of_bare ⟨rfl, rfl, rfl⟩ ?_
  rw [bareTable?, bareTable?, Ordered.lookup_erase_of_ne (Ne.symm hpath)]

/-- A root file that is on disk is not forgotten when something is indexed again. -/
theorem keeps_setOut (hroot : s.disk.hasPath root) (task : Nat) {operation : Operation}
    (hquiet : (Turn.operate operation).IsQuiet root) :
    s.Keeps root (s.setOut task operation).session := by
  cases operation with
  | index folder => exact .refl s root
  | reindex uri =>
    rw [setOut]
    cases hopening : s.opening (s.pathOf uri) with
    | pass => exact (s.keeps_addFile root _).trans (keeps_takeUp _ root _)
    | forget =>
      refine s.keeps_forget ?_
      rintro rfl
      rw [opening, if_pos hroot] at hopening
      split at hopening <;> cases hopening
    | all => exact .refl s root
    | nothing => exact .refl s root
  | edit uri e | change files folders | configure settings => exact hquiet.elim

theorem keeps_discharge (s : Session) (root : String) (task : Nat) (duty : Duty) :
    s.Keeps root (s.discharge task duty).session := by
  match duty with
  | .job (.pass other) =>
    rw [discharge]
    split
    · exact s.keeps_takeUp root other
    · exact .refl s root
  | .job (.look begun key script) => exact .refl s root
  | .read begun key script => exact .refl s root
  | .note begun key info =>
      exact .of_bare ⟨rfl, rfl, rfl⟩ (s.bareTable?_noteDown root begun key info)
  | .gather files => exact .of_bare ⟨rfl, rfl, rfl⟩ rfl

end Session

namespace Traffic

/-- A task that has set out when passes read a session is still to pass over a root file, or has
given it a current table. What passes read is the same. -/
structure Attends (v : Traffic) (s : Session) (task : Nat) (root : String) : Prop where
  reads : Session.Reads s v.session
  attends : ∃ duties, v.tasks[task]? = some duties ∧
    (.job (.pass root) ∈ duties ∨ v.session.IsCurrent root)

namespace Attends

variable {v : Traffic} {s : Session} {task : Nat} {root : String}

theorem proceed (h : v.Attends s task root) {other : Nat} {stretch : Stretch} {rest : List Duty}
    (hstretch : v.session.Keeps root stretch.session) (hother : other ≠ task) :
    (v.proceed other stretch rest).Attends s task root := by
  refine ⟨h.reads.trans hstretch.reads, ?_⟩
  obtain ⟨duties, hduties, hattends⟩ := h.attends
  rw [v.getElem?_proceed_of_ne hother.symm]
  exact ⟨duties, hduties, hattends.imp_right hstretch.isCurrent⟩

theorem begin (h : v.Attends s task root) {stretch : Nat → Stretch}
    (hstretch : ∀ other, v.session.Keeps root (stretch other).session) :
    (v.begin stretch).Attends s task root := by
  obtain ⟨duties, hduties, hattends⟩ := h.attends
  have hlength : task < v.tasks.length := (List.getElem?_eq_some_iff.mp hduties).1
  have hopen : Attends { v with tasks := v.tasks ++ [[]] } s task root := by
    refine ⟨h.reads, duties, ?_, hattends⟩
    rw [List.getElem?_append_left hlength]
    exact hduties
  exact hopen.proceed (hstretch _) hlength.ne'

/-- The task itself goes on, and may come to the root file, which is on disk. -/
theorem work (h : v.Attends s task root) (hroot : s.disk.hasPath root) {duty : Duty}
    {rest : List Duty} (hduties : v.tasks[task]? = some (duty :: rest)) :
    (v.proceed task (v.session.discharge task duty) rest).Attends s task root := by
  have hstretch := v.session.keeps_discharge root task duty
  refine ⟨h.reads.trans hstretch.reads, _, v.getElem?_proceed_self hduties _ rest, ?_⟩
  obtain ⟨duties, hduties', hattends⟩ := h.attends
  obtain rfl : duty :: rest = duties := Option.some.inj (hduties.symm.trans hduties')
  rcases hattends with hpass | hcurrent
  · rcases List.mem_cons.mp hpass with rfl | hpass
    · right
      rw [← h.reads.disk] at hroot
      rw [Traffic.proceed, Session.discharge, if_pos hroot]
      exact v.session.isCurrent_takeUp root
    · exact .inl (List.mem_append_right _ hpass)
  · exact .inr (hstretch.isCurrent hcurrent)

theorem take (h : v.Attends s task root) (hroot : s.disk.hasPath root) {turn : Turn}
    (hquiet : turn.IsQuiet root) :
    (v.take turn).Attends s task root := by
  have hroot' : v.session.disk.hasPath root := by
    rw [h.reads.disk]
    exact hroot
  cases turn with
  | operate operation => exact h.begin fun other ↦ Session.keeps_setOut hroot' other hquiet
  | pass other =>
    rw [Traffic.take]
    exact h.begin fun _ ↦ v.session.keeps_takeUp root other
  | forget path =>
    rw [Traffic.take]
    exact h.begin fun _ ↦ v.session.keeps_forget hquiet
  | work other =>
    rw [Traffic.take]
    split
    · next duty rest hduties =>
      by_cases hother : other = task
      · subst hother
        exact h.work hroot hduties
      · exact h.proceed (v.session.keeps_discharge root other duty) hother
    · exact h

theorem follow (h : v.Attends s task root) (hroot : s.disk.hasPath root) {turns : List Turn}
    (hquiet : ∀ turn ∈ turns, turn.IsQuiet root) : (v.follow turns).Attends s task root :=
  List.foldlRecOn (motive := fun v : Traffic ↦ v.Attends s task root) turns _ h
    fun _ h turn hturn ↦ h.take hroot (hquiet turn hturn)

end Attends

end Traffic

namespace Session

/-! ## Changes of included files -/

/-- **After a change of a file that may be included, every root file that is on disk and can be
parsed has the table of its build**, whatever becomes of the others. All other tables are left as
they are, also those of root files that are only open in the editor.

Where other operations go on meanwhile, which do not change what passes read, the table is the one
of the build when the run is done, up to what scripts document. -/
theorem tables_after_include_change (s : Session) {uri : String}
    (h : Path.extension (Text.lower (Path.fileName (s.pathOf uri))) ∈ FileRole.includeExtensions) :
    (∀ root ∈ s.files, s.disk.hasPath root → ∀ table, s.built? root = some table →
        ∃ number, (s.reindex uri).functions.lookup root = some ⟨number, table.consulted s.disk⟩) ∧
      (∀ root, root ∉ s.files ∨ ¬ s.disk.hasPath root ∨ s.built? root = none →
        (s.reindex uri).functions.lookup root = s.functions.lookup root) ∧
      ∀ v : Traffic, v.session = s → ∀ root ∈ s.files, s.disk.hasPath root →
      ∀ table, s.built? root = some table →
        ∀ turns : List Turn, (∀ turn ∈ turns, turn.IsQuiet root) →
          let w := (v.take (.operate (.reindex uri))).follow turns
          w.tasks[v.tasks.length]? = some [] →
            ∃ indexed, w.session.functions.lookup root = some indexed ∧
            indexed.table.bare = table := by
  have hpresent : ∀ root, root ∈ Workspace.present s.disk s.files ↔ root ∈ s.files ∧
      s.disk.hasPath root :=
    fun root ↦ List.mem_filter
  rw [s.reindex_of_include h, passOver]
  refine ⟨fun root hroot hpath table hbuilt ↦ ?_, fun root hroot ↦ ?_, ?_⟩
  · exact s.lookup_passes ((hpresent root).mpr ⟨hroot, hpath⟩) hbuilt
  · refine s.lookup_passes_of_notMem ?_
    rw [hpresent]
    rcases hroot with hroot | hpath | hnone
    · exact .inl fun hmem ↦ hroot hmem.1
    · exact .inl fun hmem ↦ hpath hmem.2
    · exact .inr hnone
  · rintro v rfl root hroot hpath table hbuilt turns hquiet w hdone
    have hopening : v.session.opening (v.session.pathOf uri) = .all := by
      rw [opening, reactionTo_of_include h]
    have htake : v.take (.operate (.reindex uri)) = v.begin fun task ↦
        { session := v.session
          duties := v.session.files.map fun root ↦ .job (.pass root)
          marks := [.takeOn task v.session.files] } := by
      simp only [Traffic.take, setOut, hopening]
    have hstart : (v.take (.operate (.reindex uri))).Attends v.session v.tasks.length root := by
      rw [htake]
      refine ⟨.refl v.session, _, List.getElem?_set_self (by simp), .inl ?_⟩
      rw [List.append_nil]
      exact List.mem_map_of_mem hroot
    obtain ⟨hreads, duties, hduties, hattends⟩ := hstart.follow hpath hquiet
    obtain rfl : [] = duties := Option.some.inj (hdone.symm.trans hduties)
    refine (hattends.resolve_left List.not_mem_nil).exists_lookup ?_
    rw [hreads.built?]
    exact hbuilt

/-- A file that declares a function, to be included. -/
def declaringText : List UInt8 :=
  Text.encodeUtf8
  "class CfgFunctions\x7bclass T\x7bclass C\x7bclass f\x7b\x7d;\x7d;\x7d;\x7d;".toList

/-- Two missions with root files that include the same file. The first is on disk, and the second is
only open in the editor. Both have been indexed when the file was empty. -/
def halfSaved : Session where
  disk.files :=
    [(["m", "description.ext"], .bytes (Text.encodeUtf8 "#include \"../a.hpp\"".toList)),
      (["a.hpp"], .bytes declaringText)]
  documents := Documents.openAs [] "file:///n/description.ext" "#include \"../a.hpp\"" 0 none
  files := ["/m/description.ext", "/n/description.ext"]
  functions := [("/m/description.ext", ⟨0, []⟩), ("/n/description.ext", ⟨1, []⟩)]
  passes := 2

/-- The change of the file brings the table of the first mission up to date, and not that of the
second. -/
theorem tables_after_include_change_halfSaved :
    Path.extension (Text.lower (Path.fileName (halfSaved.pathOf "file:///a.hpp")))
      ∈ FileRole.includeExtensions ∧
      (∃ number table, halfSaved.built? "/m/description.ext" = some table ∧
        table.map Prod.fst = ["t_fnc_f"] ∧
        (halfSaved.reindex "file:///a.hpp").functions.lookup "/m/description.ext"
          = some ⟨number, table.consulted halfSaved.disk⟩) ∧
      (halfSaved.reindex "file:///a.hpp").functions.lookup "/n/description.ext" = some ⟨1, []⟩ := by
  have hending : Path.extension (Text.lower (Path.fileName (halfSaved.pathOf "file:///a.hpp")))
      ∈ FileRole.includeExtensions := by decide +kernel
  obtain ⟨hsaved, hothers, -⟩ := halfSaved.tables_after_include_change hending
  have hkeys : (halfSaved.built? "/m/description.ext").map (·.map Prod.fst) = some ["t_fnc_f"] := by
    decide +kernel
  obtain ⟨table, hbuilt, hkeys⟩ := Option.map_eq_some_iff.mp hkeys
  obtain ⟨number, hlookup⟩ :=
    hsaved "/m/description.ext" List.mem_cons_self (by decide +kernel) table hbuilt
  have hopen := hothers "/n/description.ext" (.inr (.inl (by decide +kernel)))
  exact ⟨hending, ⟨number, table, hbuilt, hkeys, hlookup⟩, hopen⟩

/-- A mission whose root file is only open in the editor includes a file that is empty at first.
Then a function is declared there. -/
def declareLater : List Operation :=
  [.edit "file:///m/description.ext" (.openAs "#include \"a.hpp\"" 0 none),
    .reindex "file:///m/description.ext",
    .change [(["m", "a.hpp"], .bytes declaringText)] [],
    .reindex "file:///m/a.hpp"]

/-- After the change of the file, the root file is known, has a current text and can be parsed; and
its table is still the empty one. -/
theorem table_outdated_of_open :
    let s := ({ disk := { files := [(["m", "a.hpp"], .bytes [])] } } : Session).operateAll
      declareLater
    s.files = ["/m/description.ext"] ∧
      s.sources.buffer "/m/description.ext" = .ok (some "#include \"a.hpp\"".toList) ∧
      (s.built? "/m/description.ext").map (·.map Prod.fst) = some ["t_fnc_f"] ∧
      s.functions = [("/m/description.ext", ⟨0, []⟩)] := by
  refine ⟨by decide +kernel, by decide +kernel, by decide +kernel, by decide +kernel⟩

end Session

end MissionIndex
