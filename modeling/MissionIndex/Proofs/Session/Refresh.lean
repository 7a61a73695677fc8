import MissionIndex.Proofs.Schedule.Ledger
import MissionIndex.Proofs.Session.Jobs

/-!
# Every edit is followed by a pass

While requests overlap, the table of a root file may be out of date, but never for good: as long as
it is, some pass over the root file is *owed*. It is owed while an edited document that concerns the
root file has not been announced; while a request for it waits, has been launched, or is in line;
and while a run that has begun has the root file still ahead of it. A debt of one kind is paid by
becoming the next, and in the end by a pass, which makes the table current. When nothing is under
way, nothing is owed.

## Which edits concern a root file

A change of a root file concerns that root file alone, and a change of a file with the ending of an
include concerns all of them. Whether a file is included does not matter for this. So a root file
may read a document without minding when it changes: if the document is another root file, or has an
ending of neither kind. Nothing is said of such root files here (`Minds`).
-/

namespace MissionIndex

open Config

namespace Session

variable (s : Session)

/-- A change of the file at a path calls for a pass over a root file. -/
def Concerns (path root : String) : Prop :=
  reactionTo path = .reindexRoot ∧ path = root ∨ reactionTo path = .reindexAll

/-- Where root files are on disk, a run has one way to begin for each reaction. -/
theorem beginReindex_cases {uri : String}
    (h : reactionTo (s.pathOf uri) = .reindexRoot → s.disk.hasPath (s.pathOf uri)) :
    reactionTo (s.pathOf uri) = .reindexRoot ∧
        s.beginReindex uri = (s.addFile (s.pathOf uri)).takeUp (s.pathOf uri) ∨
      reactionTo (s.pathOf uri) = .reindexAll ∧ s.beginReindex uri = (s, s.files.map .pass) ∨
      reactionTo (s.pathOf uri) = .nothing ∧ s.beginReindex uri = (s, []) := by
  cases hreaction : reactionTo (s.pathOf uri) with
  | reindexRoot =>
    refine .inl ⟨rfl, ?_⟩
    rw [beginReindex]
    simp only [hreaction, if_pos (h hreaction)]
  | reindexAll =>
    refine .inr (.inl ⟨rfl, ?_⟩)
    rw [beginReindex]
    simp only [hreaction]
  | nothing =>
    refine .inr (.inr ⟨rfl, ?_⟩)
    rw [beginReindex]
    simp only [hreaction]

/-- Where root files are on disk, the beginning of a run sees to it that the root files concerned
are passed over, and leaves the others as they are. -/
theorem beginReindex_spec {uri : String}
    (h : reactionTo (s.pathOf uri) = .reindexRoot → s.disk.hasPath (s.pathOf uri)) :
    Reads s (s.beginReindex uri).1 ∧
      ∀ root ∈ (s.beginReindex uri).1.files,
        Concerns (s.pathOf uri) root ∧ s.disk.hasPath root ∧ (s.beginReindex uri).1.IsCurrent root ∨
          root ∈ s.files ∧ (Concerns (s.pathOf uri) root → Job.pass root ∈ (s.beginReindex uri).2) ∧
            (s.IsCurrent root → (s.beginReindex uri).1.IsCurrent root) := by
  obtain ⟨hreaction, hbegin⟩ | ⟨hreaction, hbegin⟩ | ⟨hreaction, hbegin⟩ := s.beginReindex_cases h
  · rw [hbegin]
    obtain ⟨hadd, hfunctions, hadded⟩ := s.addFile_spec (s.pathOf uri)
    obtain ⟨htakeUp, hfiles, -⟩ := (s.addFile (s.pathOf uri)).takeUp_spec (s.pathOf uri)
    refine ⟨hadd.trans htakeUp, ?_⟩
    intro root hroot
    by_cases hpath : root = s.pathOf uri
    · refine .inl ⟨.inl ⟨hreaction, hpath.symm⟩, ?_, ?_⟩
      · rw [hpath]
        exact h hreaction
      · rw [hpath]
        exact isCurrent_takeUp _ _
    · rw [hfiles] at hroot
      refine .inr ⟨(hadded root hroot).resolve_right hpath, ?_, fun hcurrent table htable ↦ ?_⟩
      · rintro (⟨-, hroot⟩ | hall)
        · exact absurd hroot.symm hpath
        · rw [hreaction] at hall
          cases hall
      · rw [(hadd.trans htakeUp).expected?] at htable
        rw [bareTable?_takeUp_of_ne _ _ hpath, bareTable?, hfunctions]
        exact hcurrent table htable
  · rw [hbegin]
    refine ⟨.refl s, fun root hroot ↦ .inr ⟨hroot, fun _ ↦ List.mem_map_of_mem hroot, id⟩⟩
  · rw [hbegin]
    refine ⟨.refl s, fun root hroot ↦ .inr ⟨hroot, ?_, id⟩⟩
    rintro (⟨hroot, -⟩ | hall)
    · rw [hreaction] at hroot
      cases hroot
    · rw [hreaction] at hall
      cases hall

theorem lookup_apply_of_ne {uri other : String} (h : other ≠ uri) (docs : Documents) (e : Edit) :
    (e.apply uri docs).lookup other = docs.lookup other := by
  cases e with
  | openAs text version language => exact Ordered.lookup_put_of_ne h _ _
  | update text version =>
    rw [Edit.apply, Documents.update]
    split
    · exact Ordered.lookup_put_of_ne h _ _
    · exact Ordered.lookup_put_of_ne h _ _
  | close => exact Ordered.lookup_erase_of_ne h _

/-- The text of a file does not depend on documents with other URIs than its own. -/
theorem buffer_edit {uri path : String} (h : s.uriOf path ≠ .ok uri) (e : Edit) :
    (s.edit uri e).sources.buffer path = s.sources.buffer path := by
  simp only [sources, edit, Documents.textFor]
  rw [uriOf] at h
  cases huri : Uri.ofPath s.disk.workingDirectory path with
  | error reason => rfl
  | ok other =>
    have hne : other ≠ uri := fun he ↦ h (by rw [huri, he])
    simp only [Except.map, lookup_apply_of_ne hne]

theorem parse_edit {uri root : String} {e : Edit} {tree : ConfigClass}
    (hok : ((s.edit uri e).sources.parse root).result = .ok tree)
    (huri : uri ∉ (s.edit uri e).touched root) :
    s.sources.parse root = (s.edit uri e).sources.parse root := by
  have hbuffer : ∀ file ∈ ((s.edit uri e).sources.parse root).opened,
      s.sources.buffer file = (s.edit uri e).sources.buffer file := fun file hfile ↦
    (s.buffer_edit (fun hu ↦ huri ((mem_touched _).mpr ⟨file, hfile, hu⟩)) e).symm
  exact Sources.parse_congr (s.edit uri e).sources (.inl ⟨_, hok⟩) hbuffer

/-- An edit of a document that a root file does not read then leaves its table current. Only a parse
that succeeds has to be looked at, and that is the parse of before the edit. -/
theorem IsCurrent.edit {s : Session} {uri root : String} {e : Edit}
    (h : (s.edit uri e).touched root = s.touched root → s.IsCurrent root)
    (huri : uri ∉ (s.edit uri e).touched root) : (s.edit uri e).IsCurrent root := by
  intro table htable
  cases hresult : ((s.edit uri e).sources.parse root).result with
  | error stop =>
    simp only [expected?, hresult] at htable
    cases htable
  | ok tree =>
    have hparse := s.parse_edit hresult huri
    have htouched : (s.edit uri e).touched root = s.touched root := by
      simp only [touched, hparse]
      rfl
    have hexpected : s.expected? root = some table := by
      rw [← htable]
      simp only [expected?, hparse]
      rfl
    exact h htouched table hexpected

end Session

namespace Service

variable (v : Service)

/-! ## Debts -/

/-- A run for a URI is going to begin: the one that has begun, if there is one, does not answer all
of its requests. -/
def Awaits (uri : String) : Prop :=
  (if (v.runs uri).isSome then 1 else 0) < v.coordinator.burstsFor uri

/-- There is going to be a pass over a root file. -/
def Owes (root : String) : Prop :=
  (∃ uri, Session.Concerns (v.session.pathOf uri) root ∧ (uri ∈ v.unannounced ∨ v.Awaits uri)) ∨
    ∃ uri jobs, v.runs uri = some jobs ∧ Job.pass root ∈ jobs

/-- Every document edited so far that a root file reads concerns it. -/
def Minds (root : String) : Prop :=
  ∀ uri ∈ v.edited, uri ∈ v.session.touched root → Session.Concerns (v.session.pathOf uri) root

/-- What holds of a service whatever happens to it: the requests are accounted for and their
documents are in scope, a run that has begun is at the front of a line, and a root file whose table
is not current is owed a pass. -/
structure Sound (scope : String → Prop) (v : Service) : Prop where
  coordinator : v.coordinator.Sound
  inScope : ∀ b ∈ v.coordinator.bursts, scope b.last.key
  runs : ∀ uri jobs, v.runs uri = some jobs → ∃ lock, v.coordinator.locks.lookup uri = some lock
  edited : ∀ uri ∈ v.edited, scope uri
  /-- A document in scope that is a root file by its name is on disk. -/
  onDisk : ∀ uri, scope uri → Session.reactionTo (v.session.pathOf uri) = .reindexRoot →
    v.session.disk.hasPath (v.session.pathOf uri)
  files : ∀ root ∈ v.session.files, v.session.disk.hasPath root
  current : ∀ root ∈ v.session.files, v.Owes root ∨ (v.Minds root → v.session.IsCurrent root)

variable {v} {w : Service} {scope : String → Prop} {root : String}

theorem Owes.mono (h : v.Owes root) (hpath : w.session.pathOf = v.session.pathOf)
    (hdue : ∀ uri, Session.Concerns (v.session.pathOf uri) root →
      uri ∈ v.unannounced ∨ v.Awaits uri → uri ∈ w.unannounced ∨ w.Awaits uri)
    (hruns : ∀ uri jobs, v.runs uri = some jobs → Job.pass root ∈ jobs →
      ∃ jobs', w.runs uri = some jobs' ∧ Job.pass root ∈ jobs') : w.Owes root := by
  rcases h with ⟨uri, hconcerns, hdebt⟩ | ⟨uri, jobs, hjobs, hmem⟩
  · refine .inl ⟨uri, ?_, hdue uri hconcerns hdebt⟩
    rwa [hpath]
  · exact .inr ⟨uri, hruns uri jobs hjobs hmem⟩

theorem Minds.of_reads (h : w.Minds root) (hreads : Session.Reads v.session w.session)
    (hedited : w.edited = v.edited) : v.Minds root := by
  intro uri huri htouched
  have hconcerns := h uri (hedited ▸ huri) (hreads.touched ▸ htouched)
  rwa [hreads.pathOf] at hconcerns

/-! ## What single steps do -/

/-- An edit is owed to the root files that it concerns, and changes nothing for the others. -/
theorem Sound.edit (h : v.Sound scope) {uri : String} (huri : scope uri) (e : Edit) :
    Sound scope
      { v with
        session := v.session.edit uri e
        edited := uri :: v.edited
        unannounced := uri :: v.unannounced } where
  coordinator := h.coordinator
  inScope := h.inScope
  runs := h.runs
  edited other hother := by
    rcases List.mem_cons.mp hother with rfl | hother
    · exact huri
    · exact h.edited other hother
  onDisk := h.onDisk
  files := h.files
  current root hroot := by
    by_cases hconcerns : Session.Concerns (v.session.pathOf uri) root
    · exact .inl (.inl ⟨uri, hconcerns, .inl List.mem_cons_self⟩)
    -- If the root file minds the edits, it does not read the document, and nothing has changed for
    -- it.
    · rcases h.current root hroot with howes | hcurrent
      · refine .inl (howes.mono rfl ?_ fun _ jobs hjobs hmem ↦ ⟨jobs, hjobs, hmem⟩)
        intro other _ hdue
        exact hdue.imp_left (List.mem_cons_of_mem uri)
      · refine .inr fun hminds ↦ Session.IsCurrent.edit (fun htouched ↦ ?_)
          fun ht ↦ hconcerns (hminds uri List.mem_cons_self ht)
        refine hcurrent fun other hother ht ↦ hminds other (List.mem_cons_of_mem uri hother) ?_
        rwa [← htouched] at ht

/-- A request takes the debts of its document on itself. -/
theorem Sound.request (h : v.Sound scope) {uri : String} (huri : scope uri) :
    Sound scope
      { v with
        coordinator := v.coordinator.request uri ()
        unannounced := v.unannounced.filter (· != uri) } where
  coordinator := h.coordinator.request uri ()
  inScope b hb := by
    obtain ⟨burst, rest, hnew, hkey, hold, -, -⟩ := v.coordinator.bursts_request uri ()
    rcases List.mem_cons.mp (hnew.subset hb) with rfl | hb
    · exact hkey ▸ huri
    · exact h.inScope b (hold.symm.subset (List.mem_append_right _ hb))
  runs := h.runs
  edited := h.edited
  onDisk := h.onDisk
  files := h.files
  current root hroot := by
    refine (h.current root hroot).imp_left fun howes ↦ ?_
    refine howes.mono rfl (fun other _ hdue ↦ ?_) fun _ jobs hjobs hmem ↦ ⟨jobs, hjobs, hmem⟩
    by_cases hother : other = uri
    · subst hother
      refine .inr (Nat.lt_of_le_of_lt ?_ (v.coordinator.burstsFor_request_self other ()))
      -- A run that has begun is counted in line, so the new burst comes on top of it.
      cases hrun : v.runs other with
      | none => exact Nat.zero_le _
      | some jobs =>
        obtain ⟨lock, hlock⟩ := h.runs other jobs hrun
        refine List.countP_pos_iff.mpr ⟨lock.holder, Schedule.Coordinator.holder_mem_inLine hlock,
          ?_⟩
        exact beq_iff_eq.mpr (h.coordinator.key_holder hlock)
    · refine hdue.imp (fun hmem ↦ List.mem_filter.mpr ⟨hmem, by simpa using hother⟩)
        fun hawaits ↦ ?_
      rw [Awaits] at hawaits ⊢
      rwa [h.coordinator.burstsFor_request hother ()]

/-- While the bursts stay and no line goes away, nothing changes. -/
theorem Sound.of_perm (h : v.Sound scope) {c : Schedule.Coordinator Unit Unit} (hsound : c.Sound)
    (hbursts : c.bursts.Perm v.coordinator.bursts)
    (hlocks : ∀ uri lock, v.coordinator.locks.lookup uri = some lock →
      ∃ lock, c.locks.lookup uri = some lock) :
    Sound scope { v with coordinator := c } where
  coordinator := hsound
  inScope b hb := h.inScope b (hbursts.subset hb)
  runs uri jobs hjobs := by
    obtain ⟨lock, hlock⟩ := h.runs uri jobs hjobs
    exact hlocks uri lock hlock
  edited := h.edited
  onDisk := h.onDisk
  files := h.files
  current root hroot := by
    refine (h.current root hroot).imp_left fun howes ↦ ?_
    refine howes.mono rfl (fun uri _ hdue ↦ ?_) fun _ jobs hjobs hmem ↦ ⟨jobs, hjobs, hmem⟩
    refine hdue.imp_right fun hawaits ↦ ?_
    rw [Awaits, Schedule.Coordinator.burstsFor] at hawaits ⊢
    rwa [hbursts.countP_eq]

theorem Sound.endWait (h : v.Sound scope) (key : String) (number : Nat) :
    Sound scope { v with coordinator := (v.coordinator.endWait key number).1 } := by
  refine h.of_perm (h.coordinator.endWait key number) (v.coordinator.perm_bursts_endWait key number)
    ?_
  intro uri lock hlock
  rw [v.coordinator.locks_endWait]
  exact ⟨lock, hlock⟩

theorem Sound.enter (h : v.Sound scope) {burst : Schedule.Burst Unit}
    (hburst : burst ∈ v.coordinator.launched) :
    Sound scope { v with coordinator := (v.coordinator.enter burst).1 } := by
  refine h.of_perm (h.coordinator.enter hburst) (h.coordinator.perm_bursts_enter hburst) ?_
  intro uri lock hlock
  exact v.coordinator.exists_lookup_locks_enter burst hlock

/-- A run that begins takes the debts of its document on itself: it passes over a root file at once,
and over all of them in jobs of its own. -/
theorem Sound.begin (h : v.Sound scope) {key : String} {lock : Schedule.Lock Unit}
    (hlock : v.coordinator.locks.lookup key = some lock) (hidle : v.runs key = none) :
    Sound scope
      { v with
        session := (v.session.beginReindex key).1
        runs := fun k ↦ if k = key then some (v.session.beginReindex key).2 else v.runs k } := by
  have hkey : scope key := by
    have hholder := h.inScope lock.holder
      (Schedule.Coordinator.mem_bursts_of_mem_inLine (Schedule.Coordinator.holder_mem_inLine hlock))
    rwa [h.coordinator.key_holder hlock] at hholder
  obtain ⟨hreads, hspec⟩ := v.session.beginReindex_spec (h.onDisk key hkey)
  have hpath := hreads.pathOf
  -- From here on nothing about the beginning of a run matters but what `hspec` says.
  generalize v.session.beginReindex key = next at hreads hspec hpath ⊢
  refine ⟨h.coordinator, h.inScope, fun uri jobs hjobs ↦ ?_, h.edited, ?_, fun root hroot ↦ ?_,
    fun root hroot ↦ ?_⟩
  · by_cases huri : uri = key
    · exact ⟨lock, huri ▸ hlock⟩
    · exact h.runs uri jobs ((if_neg huri).symm.trans hjobs)
  · simp only [hpath, hreads.disk]
    exact h.onDisk
  · simp only [hreads.disk]
    rcases hspec root hroot with ⟨-, hthere, -⟩ | ⟨hold, -⟩
    · exact hthere
    · exact h.files root hold
  · rcases hspec root hroot with ⟨-, -, hcurrent⟩ | ⟨hold, hjob, hkept⟩
    · exact .inr fun _ ↦ hcurrent
    · rcases h.current root hold with howes | hcurrent
      -- The only debt that the run can have been owed for is that of its own document.
      · by_cases hconcerns : Session.Concerns (v.session.pathOf key) root
        · exact .inl (.inr ⟨key, _, if_pos rfl, hjob hconcerns⟩)
        · refine .inl (howes.mono hpath (fun uri hu hdue ↦ ?_) fun uri jobs hjobs hmem ↦ ?_)
          · have huri : uri ≠ key := fun he ↦ hconcerns (he ▸ hu)
            refine hdue.imp_right fun hawaits ↦ ?_
            rw [Awaits] at hawaits ⊢
            simp only [if_neg huri]
            exact hawaits
          · have huri : uri ≠ key := fun he ↦ by
              rw [he, hidle] at hjobs
              cases hjobs
            exact ⟨jobs, (if_neg huri).trans hjobs, hmem⟩
      · exact .inr fun hminds ↦ hkept (hcurrent (hminds.of_reads hreads rfl))

/-- A job of a run either is the pass that was owed, or leaves the debt to the rest of the run. -/
theorem Sound.work (h : v.Sound scope) {key : String} {job : Job} {rest : List Job}
    (hrun : v.runs key = some (job :: rest)) :
    Sound scope
      { v with
        session := (v.session.perform job).1
        runs := fun k ↦ if k = key then some ((v.session.perform job).2 ++ rest)
        else v.runs k } := by
  obtain ⟨hreads, hfiles⟩ := v.session.perform_spec job
  have hpath := hreads.pathOf
  refine ⟨h.coordinator, h.inScope, fun uri jobs hjobs ↦ ?_, h.edited, ?_, ?_, fun root hroot ↦ ?_⟩
  · by_cases huri : uri = key
    · exact huri ▸ h.runs key _ hrun
    · exact h.runs uri jobs ((if_neg huri).symm.trans hjobs)
  · simp only [hpath, hreads.disk]
    exact h.onDisk
  · simp only [hfiles, hreads.disk]
    exact h.files
  · have hold : root ∈ v.session.files := hfiles ▸ hroot
    by_cases hjob : job = .pass root
    · -- The root file is there, so the job passes over it.
      refine .inr fun _ ↦ ?_
      rw [hjob, Session.perform, if_pos (h.files root hold)]
      exact v.session.isCurrent_takeUp root
    -- Another job takes no debt away, as the pass that is owed comes after it.
    · refine (h.current root hold).imp (fun howes ↦ ?_) fun hcurrent hminds ↦ ?_
      · refine howes.mono hpath (fun uri _ hdue ↦ hdue.imp_right fun hawaits ↦ ?_)
          fun uri jobs hjobs hmem ↦ ?_
        · rw [Awaits] at hawaits ⊢
          by_cases huri : uri = key
          · simp only [if_pos huri]
            rw [huri, hrun] at hawaits
            rw [huri]
            exact hawaits
          · simp only [if_neg huri]
            exact hawaits
        · by_cases huri : uri = key
          · rw [huri, hrun] at hjobs
            obtain rfl := Option.some.inj hjobs
            refine ⟨_, if_pos huri, List.mem_append_right _ ?_⟩
            exact (List.mem_cons.mp hmem).resolve_left (Ne.symm hjob)
          · exact ⟨jobs, (if_neg huri).trans hjobs, hmem⟩
      · exact (hcurrent (hminds.of_reads hreads rfl)).perform job

/-- A run that ends has no debts left. -/
theorem Sound.finish (h : v.Sound scope) {key : String} (hrun : v.runs key = some [])
    (result : Option Unit) :
    Sound scope
      { v with
        coordinator := (v.coordinator.finish key result).1
        runs := fun k ↦ if k = key then none else v.runs k } := by
  obtain ⟨lock, hlock⟩ := h.runs key [] hrun
  obtain ⟨hbursts, -⟩ := v.coordinator.finish_spec hlock result
  refine ⟨h.coordinator.finish key result, ?_, fun uri jobs hjobs ↦ ?_, h.edited, h.onDisk,
    h.files, ?_⟩
  · intro b hb
    exact h.inScope b (hbursts.symm.subset (List.mem_cons_of_mem _ hb))
  · by_cases huri : uri = key
    · exact absurd hjobs (by simp only [if_pos huri]; nofun)
    · obtain ⟨other, hother⟩ := h.runs uri jobs ((if_neg huri).symm.trans hjobs)
      exact ⟨other, (v.coordinator.lookup_locks_finish huri result).trans hother⟩
  · intro root hroot
    refine (h.current root hroot).imp_left fun howes ↦ ?_
    refine howes.mono rfl (fun uri _ hdue ↦ hdue.imp_right fun hawaits ↦ ?_)
      fun uri jobs hjobs hmem ↦ ?_
    · have hcount := h.coordinator.burstsFor_finish hlock result uri
      rw [Awaits, hcount] at hawaits
      rw [Awaits]
      -- The run and its burst go away together.
      by_cases huri : uri = key
      · rw [huri, hrun, if_pos rfl] at hawaits
        simp only [if_pos huri]
        rw [huri]
        exact Nat.lt_of_succ_lt_succ hawaits
      · rw [if_neg huri] at hawaits
        simp only [if_neg huri]
        exact hawaits
    · have huri : uri ≠ key := fun he ↦ by
        rw [he, hrun] at hjobs
        obtain rfl := Option.some.inj hjobs
        cases hmem
      exact ⟨jobs, (if_neg huri).trans hjobs, hmem⟩

/-! ## Whole runs -/

theorem Sound.step (h : v.Sound scope) (hstep : Step scope v w) : w.Sound scope := by
  cases hstep with
  | edit e huri => exact h.edit huri e
  | request huri => exact h.request huri
  | endWait key number => exact h.endWait key number
  | enter hburst => exact h.enter hburst
  | «begin» hlock hidle => exact h.begin hlock hidle
  | work hrun => exact h.work hrun
  | finish result hrun => exact h.finish hrun result

theorem Sound.reaches (h : v.Sound scope) (hreaches : Reaches scope v w) : w.Sound scope := by
  induction hreaches with
  | refl => exact h
  | step _ hstep ih => exact ih.step hstep

theorem Sound.runs_eq_none (h : v.Sound scope) (hsettled : v.IsSettled) (uri : String) :
    v.runs uri = none := by
  have hbursts := Schedule.Coordinator.bursts_eq_nil_iff.mp (h.coordinator.bursts_eq_nil hsettled)
  rw [Option.eq_none_iff_forall_ne_some]
  intro jobs hjobs
  obtain ⟨lock, hlock⟩ := h.runs uri jobs hjobs
  rw [hbursts.2.2] at hlock
  cases hlock

theorem Sound.owes_nothing (h : v.Sound scope) (hannounced : v.unannounced = [])
    (hsettled : v.IsSettled) (root : String) : ¬ v.Owes root := by
  rintro (⟨uri, -, hmem | hawaits⟩ | ⟨uri, jobs, hjobs, -⟩)
  · rw [hannounced] at hmem
    cases hmem
  · rw [Awaits, Schedule.Coordinator.burstsFor, h.coordinator.bursts_eq_nil hsettled] at hawaits
    cases hawaits
  · rw [h.runs_eq_none hsettled uri] at hjobs
    cases hjobs

theorem Sound.isCurrent (h : v.Sound scope) (hannounced : v.unannounced = [])
    (hsettled : v.IsSettled) (hroot : root ∈ v.session.files) (hminds : v.Minds root) :
    v.session.IsCurrent root :=
  (h.current root hroot).resolve_left (h.owes_nothing hannounced hsettled root) hminds

end Service

end MissionIndex
