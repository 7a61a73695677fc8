import MissionIndex.Proofs.Session.Refresh
import MissionIndex.Proofs.Uri
import MissionIndex.Proofs.Workspace.Discovery

/-!
# No edit is lost

After a workspace has been indexed, editors open, change and close documents, and ask for each to be
indexed again. However the requests overlap, when all of them have been settled the table of a root
file is the one that a build gives for the documents as they are then (`table_of_settled`). Nothing
is asked of the documents but that those with the name of a root file are on disk, and of the root
file only that it reads no edited document whose change does not concern it.

The latter is needed. A root file may include another one, whose change concerns that one alone, and
so the table of the former stays as it was (`table_outdated`).
-/

namespace MissionIndex

open Config

namespace Session

variable (s : Session)

/-- Whether editors may have to do with the document of a URI: it is for a plain path, and if it has
the name of a root file, that file is on disk. -/
def Admits (uri : String) : Prop :=
  ∃ path, Uri.IsPlainPath path ∧ s.uriOf path = .ok uri ∧
    (FileRole.isRootName (Path.fileName path) → s.disk.hasPath path)

theorem pathOf_eq {s s' : Session} {path uri : String} (h : Uri.IsPlainPath path)
    (huri : s.uriOf path = .ok uri) : s'.pathOf uri = path := by
  rw [pathOf, h.toPath_ofPath huri]
  exact h.resolve_eq _

theorem isRootName_of_reactionTo {path : String} (h : reactionTo path = .reindexRoot) :
    FileRole.isRootName (Path.fileName path) = true := by
  rw [reactionTo] at h
  split at h
  · next hname => exact beq_iff_eq.mpr hname
  · split at h
    · cases h
    · cases h

/-- When a workspace has been indexed, all tables are current and nothing is under way. -/
theorem sound_index (htree : s.disk.IsTree) {folder : String}
    (hfolder : Path.isRooted folder = true)
    (hlisted : ∀ item ∈ Workspace.listed s.settings (Workspace.absoluteRoot s.disk folder),
      s.disk.hasPath item) :
    Service.Sound s.Admits { session := s.index folder } := by
  have hthere := fun root (hroot : root ∈ Workspace.discover s.disk s.settings folder) ↦
    Workspace.hasPath_of_mem_discover s.disk htree hfolder hlisted hroot
  have hpresent : Workspace.present s.disk (Workspace.discover s.disk s.settings folder)
      = Workspace.discover s.disk s.settings folder := List.filter_eq_self.mpr hthere
  have hpasses : s.passOver (Workspace.discover s.disk s.settings folder)
      = (Workspace.discover s.disk s.settings folder).foldl (fun s root ↦ (s.pass root).1) s := by
    rw [passOver, hpresent]
  have hreads : Reads (s.passOver (Workspace.discover s.disk s.settings folder)) (s.index folder) :=
    ⟨rfl, rfl, rfl⟩
  have hdisk : (s.index folder).disk = s.disk := by
    rw [hreads.disk, hpasses]
    exact (s.passes_publish _).1.disk
  refine ⟨Schedule.Coordinator.sound_empty, nofun, nofun, nofun, ?_, ?_, fun root hroot ↦
    .inr fun _ ↦ ?_⟩
  · rintro uri ⟨path, hplain, hpath, hroot⟩ hreaction
    simp only [pathOf_eq hplain hpath] at hreaction ⊢
    rw [hdisk]
    exact hroot (isRootName_of_reactionTo hreaction)
  · simp only [hdisk]
    exact hthere
  · intro table htable
    have hcurrent : (s.passOver (Workspace.discover s.disk s.settings folder)).IsCurrent root := by
      rw [hpasses]
      exact s.isCurrent_passes hroot
    simp only [hreads.expected?] at htable
    exact hcurrent table htable

end Session

namespace Service

/-! ## One request at a time -/

/-- A run has done some of its jobs, and nothing else has happened. -/
structure Works (key : String) (v w : Service) (jobs : List Job) (session : Session) : Prop where
  session : w.session = session
  runs : w.runs key = some jobs
  coordinator : w.coordinator = v.coordinator
  edited : w.edited = v.edited
  unannounced : w.unannounced = v.unannounced

variable {scope : String → Prop} {v : Service} {key : String}

theorem Reaches.trans {u w : Service} (h : Reaches scope u v) (h' : Reaches scope v w) :
    Reaches scope u w := by
  induction h' with
  | refl => exact h
  | step _ hstep ih => exact ih.step hstep

theorem exists_works_of_leaves {jobs rest : List Job} (hrun : v.runs key = some (jobs ++ rest))
    (hleaves : ∀ job ∈ jobs, ∀ s : Session, (s.perform job).2 = []) :
    ∃ w, Reaches scope v w ∧
    Works key v w rest (jobs.foldl (fun s job ↦ (s.perform job).1) v.session) := by
  induction jobs generalizing v with
  | nil => exact ⟨v, .refl, rfl, hrun, rfl, rfl, rfl⟩
  | cons job jobs ih =>
    have hnone := hleaves job List.mem_cons_self v.session
    let next : Service :=
      { v with
        session := (v.session.perform job).1
        runs := fun k ↦ if k = key then some (jobs ++ rest) else v.runs k }
    have hstep : Step scope v next := by
      have hwork : Step scope v _ := Step.work hrun
      rwa [hnone, List.nil_append] at hwork
    obtain ⟨w, hreaches, hworks⟩ := ih (v := next) (if_pos rfl) fun j hj ↦
      hleaves j (List.mem_cons_of_mem job hj)
    exact ⟨w, (Reaches.refl.step hstep).trans hreaches, hworks.session, hworks.runs,
      hworks.coordinator, hworks.edited, hworks.unannounced⟩

/-- A run can do all its jobs, and what they do together is to finish them. -/
theorem Reaches.exists_works {u : Service} {jobs : List Job} (h : Reaches scope u v)
    (hrun : v.runs key = some jobs) :
    ∃ w, Reaches scope u w ∧ Works key v w [] (v.session.finish jobs) := by
  induction jobs generalizing v with
  | nil => exact ⟨v, h, rfl, hrun, rfl, rfl, rfl⟩
  | cons job jobs ih =>
    let next : Service :=
      { v with
        session := (v.session.perform job).1
        runs := fun k ↦ if k = key then some ((v.session.perform job).2 ++ jobs) else v.runs k }
    have hstep : Step scope v next := .work hrun
    have hnext : next.runs key = some ((v.session.perform job).2 ++ jobs) := if_pos rfl
    obtain ⟨u, hu, hleaves⟩ : ∃ u, Reaches scope next u ∧
        Works key next u jobs (v.session.finishJob job) :=
      exists_works_of_leaves hnext fun j hj s ↦ Session.perform_of_mem_perform hj s
    obtain ⟨w, hw, hworks⟩ := ih ((h.step hstep).trans hu) hleaves.runs
    refine ⟨w, hw, ?_, hworks.runs,
      hworks.coordinator.trans hleaves.coordinator, hworks.edited.trans hleaves.edited,
      hworks.unannounced.trans hleaves.unannounced⟩
    rw [hworks.session, hleaves.session]
    rfl

/-- **A request made while nothing is under way can be answered, and its answer is to index
again.** -/
theorem exists_reaches_reindex (h : v.Sound scope) (hannounced : v.unannounced = [])
    (hsettled : v.IsSettled) {uri : String} (huri : scope uri) (e : Edit) :
    ∃ w, Reaches scope v w ∧ w.session = (v.session.edit uri e).reindex uri ∧
    w.edited = uri :: v.edited ∧
      w.unannounced = [] ∧ w.IsSettled := by
  have hbursts := h.coordinator.bursts_eq_nil hsettled
  obtain ⟨burst, hburst, lock, hlock, hfinish⟩ :=
    Schedule.Coordinator.exists_enter_of_bursts_eq_nil hbursts uri ()
  have hunannounced : (uri :: v.unannounced).filter (· != uri) = [] := by
    rw [hannounced]
    simp
  have hreaches := (((Reaches.refl.step (.edit e huri)).step (.request huri)).step
    (.endWait uri v.coordinator.made)).step (.enter hburst)
  simp only [hunannounced] at hreaches
  -- What the run does is known from its jobs in a row.
  have hreindex := (v.session.edit uri e).finish_beginReindex uri
  have hbegin := hreaches.step (.begin hlock (h.runs_eq_none hsettled uri))
  simp only at hbegin
  generalize (v.session.edit uri e).beginReindex uri = begun at hreindex hbegin
  have hrun : (if uri = uri then some begun.2 else v.runs uri) = some begun.2 := if_pos rfl
  obtain ⟨w, hw, hworks⟩ := hbegin.exists_works hrun
  have hend := hw.step (.finish (some ()) hworks.runs)
  have hnone : (w.coordinator.finish uri (some ())).1.bursts = [] := by
    rw [hworks.coordinator]
    exact hfinish (some ())
  exact ⟨_, hend, hworks.session.trans hreindex, hworks.edited, hworks.unannounced,
      fun number hnumber ↦
    (h.reaches hend).coordinator.exists_settled hnone hnumber⟩

/-! ## Overlapping requests -/

/-- **No edit is lost.** However edits and requests overlap, when all requests have been settled a
root file that can be parsed has the table that a build gives now. Of the documents that it reads,
the edited ones have to concern it. -/
theorem table_of_settled {s : Session} {folder : String} {v : Service} (htree : s.disk.IsTree)
    (hfolder : Path.isRooted folder = true)
    (hlisted : ∀ item ∈ Workspace.listed s.settings (Workspace.absoluteRoot s.disk folder),
      s.disk.hasPath item)
    (hreaches : Reaches s.Admits { session := s.index folder } v) (hannounced : v.unannounced = [])
    (hsettled : v.IsSettled) {root : String} {tree : ConfigClass} (hroot : root ∈ v.session.files)
    (hparse : (v.session.sources.parse root).result = .ok tree)
    (hconcerns : ∀ path uri, Uri.IsPlainPath path → s.uriOf path = .ok uri → uri ∈ v.edited →
      uri ∈ v.session.touched root → Session.Concerns path root) :
    ∃ build, Registry.build v.session.settings v.session.disk root tree = .ok build ∧
      v.session.bareTable? root = some build.functions.bare := by
  have hsound := (s.sound_index htree hfolder hlisted).reaches hreaches
  have hminds : v.Minds root := by
    intro uri huri htouched
    obtain ⟨path, hplain, hpath, -⟩ := hsound.edited uri huri
    rw [Session.pathOf_eq hplain hpath]
    exact hconcerns path uri hplain hpath huri htouched
  obtain ⟨build, hbuild, -⟩ := v.session.build_isOk_of_parse root hparse
  refine ⟨build, hbuild, hsound.isCurrent hannounced hsettled hroot hminds _ ?_⟩
  simp only [Session.expected?, hparse, hbuild]

/-- A mission that declares nothing so far. It includes a file and the root file of another
mission. -/
def nested : Session where
  disk.files :=
    [(["m", "description.ext"], .bytes
        (Text.encodeUtf8 "#include \"a.hpp\"\n#include \"b/description.ext\"".toList)),
      (["m", "a.hpp"], .bytes []),
      (["m", "b", "description.ext"], .bytes [])]
  settings := { discover := false }

def declaration : String :=
    "class CfgFunctions\x7bclass T\x7bclass C\x7bclass f\x7b\x7d;\x7d;\x7d;\x7d;"

theorem sound_nested : Sound nested.Admits { session := nested.index "/m" } :=
  nested.sound_index (by decide +kernel) (by decide +kernel) nofun

/-- The function that the included file declares in the end is in the table. -/
theorem table_of_settled_nested :
    ∃ v tree build, Reaches nested.Admits { session := nested.index "/m" } v ∧
      v.edited = ["file:///m/a.hpp"] ∧ v.IsSettled ∧
      (v.session.sources.parse "/m/description.ext").result = .ok tree ∧
      Registry.build v.session.settings v.session.disk "/m/description.ext" tree = .ok build ∧
      build.functions.map Prod.fst = ["t_fnc_f"] ∧
      v.session.bareTable? "/m/description.ext" = some build.functions.bare := by
  have hadmits : nested.Admits "file:///m/a.hpp" :=
    ⟨"/m/a.hpp", by decide +kernel, by decide +kernel, fun _ ↦ by decide +kernel⟩
  obtain ⟨v, hreaches, hsession, hedited, hannounced, hsettled⟩ :=
    exists_reaches_reindex sound_nested rfl nofun hadmits (.openAs declaration 0 none)
  obtain ⟨hfiles, hexpected⟩ : "/m/description.ext" ∈ v.session.files ∧
      (v.session.expected? "/m/description.ext").map (·.map Prod.fst) = some ["t_fnc_f"] := by
    rw [hsession]
    decide +kernel
  obtain ⟨table, htable, hkeys⟩ := Option.map_eq_some_iff.mp hexpected
  obtain ⟨tree, build, hparse, hbuild, rfl⟩ := Session.expected?_eq_some_iff.mp htable
  have hconcerns : ∀ path uri, Uri.IsPlainPath path → nested.uriOf path = .ok uri → uri ∈ v.edited →
      uri ∈ v.session.touched "/m/description.ext" →
      Session.Concerns path "/m/description.ext" := by
    intro path uri hplain hpath huri _
    rw [hedited] at huri
    obtain rfl := List.mem_singleton.mp huri
    rw [← hplain.toPath_ofPath hpath]
    exact .inr (by decide +kernel)
  have hlisted : ∀ item ∈ Workspace.listed nested.settings (Workspace.absoluteRoot
    nested.disk "/m"),
      nested.disk.hasPath item := nofun
  obtain ⟨build', hbuild', hcurrent⟩ :=
    table_of_settled (by decide +kernel) (by decide +kernel) hlisted
    hreaches hannounced hsettled hfiles hparse hconcerns
  obtain rfl := Except.ok.inj (hbuild.symm.trans hbuild')
  refine ⟨v, tree, build, hreaches, hedited, hsettled, hparse, hbuild, ?_, hcurrent⟩
  rw [← hkeys, FunctionTable.bare, List.map_map]
  rfl

/-- The function that the included root file declares in the end is not in the table of the one that
includes it. -/
theorem table_outdated :
    ∃ v, Reaches nested.Admits { session := nested.index "/m" } v ∧
      v.edited = ["file:///m/b/description.ext"] ∧ v.unannounced = [] ∧ v.IsSettled ∧
      "/m/description.ext" ∈ v.session.files ∧
      ∃ tree build, (v.session.sources.parse "/m/description.ext").result = .ok tree ∧
        Registry.build v.session.settings v.session.disk "/m/description.ext" tree = .ok build ∧
        v.session.bareTable? "/m/description.ext" ≠ some build.functions.bare := by
  have hadmits : nested.Admits "file:///m/b/description.ext" :=
    ⟨"/m/b/description.ext", by decide +kernel, by decide +kernel, fun _ ↦ by decide +kernel⟩
  obtain ⟨v, hreaches, hsession, hedited, hannounced, hsettled⟩ :=
    exists_reaches_reindex sound_nested rfl nofun hadmits (.openAs declaration 0 none)
  obtain ⟨hfiles, hbare, hexpected⟩ : "/m/description.ext" ∈ v.session.files ∧
      v.session.bareTable? "/m/description.ext" = some [] ∧
      (v.session.expected? "/m/description.ext").map (·.map Prod.fst) = some ["t_fnc_f"] := by
    rw [hsession]
    decide +kernel
  obtain ⟨table, htable, hkeys⟩ := Option.map_eq_some_iff.mp hexpected
  obtain ⟨tree, build, hparse, hbuild, rfl⟩ := Session.expected?_eq_some_iff.mp htable
  refine ⟨v, hreaches, hedited, hannounced, hsettled, hfiles, tree, build, hparse, hbuild, ?_⟩
  rw [hbare]
  intro hsame
  rw [← Option.some.inj hsame] at hkeys
  cases hkeys

end Service

end MissionIndex
