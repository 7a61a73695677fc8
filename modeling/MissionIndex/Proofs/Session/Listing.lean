import MissionIndex.Proofs.Session.Ownership

/-!
# Tables of files that are no root files

A root file with a table is to be known as a root file, since otherwise no change of what it
includes brings its table up to date. Two operations lose sight of this. When a workspace has been
indexed, the files that were found there *become* the root files, and a table of a file that was not
among them stays behind. And a run that has set out to pass over all root files may come to one that
has been forgotten meanwhile, and does pass over it if it is there again.

Nothing else goes wrong (`mem_files_iff`). A pass is over a file that has just been added to the
root files, over one that was a root file when the run set out, or over one that will be a root file
when the indexing of its workspace is done. From there on the marks tell how the file can have
ceased to be one.
-/

namespace MissionIndex

/-! ## Being a root file -/

namespace Mark

/-- A mark after which a file is a root file, whatever it was before. -/
def Lists (root : String) : Mark → Prop
  | list path => path = root
  | gather files => root ∈ files
  | pass _ _ _ | read _ _ _ | note _ _ _ | forget _ | takeOn _ _ => False

/-- A mark after which a file is no root file, whatever it was before. -/
def Delists (root : String) : Mark → Prop
  | forget path => path = root
  | gather files => root ∉ files
  | list _ | pass _ _ _ | read _ _ _ | note _ _ _ | takeOn _ _ => False

theorem mem_onFiles_iff {files : List String} (h : files.Nodup) (root : String) (m : Mark) :
    root ∈ m.onFiles files ↔ m.Lists root ∨ root ∈ files ∧ ¬ m.Delists root := by
  cases m with
  | list path =>
    rw [onFiles, Lists, Delists]
    split
    · next hpath =>
      rw [List.contains_iff_mem] at hpath
      constructor
      · exact fun hroot ↦ .inr ⟨hroot, not_false⟩
      · rintro (rfl | ⟨hroot, -⟩)
        · exact hpath
        · exact hroot
    · rw [List.mem_append, List.mem_singleton, or_comm, eq_comm, and_iff_left not_false]
  | forget path =>
    rw [onFiles, Lists, Delists, h.mem_erase_iff, false_or, and_comm, ne_eq, eq_comm]
  | gather found =>
    rw [onFiles, Lists, Delists]
    constructor
    · exact .inl
    · rintro (hroot | ⟨-, hroot⟩)
      · exact hroot
      · exact not_not.mp hroot
  | pass _ _ _ | read _ _ _ | note _ _ _ | takeOn _ _ =>
    rw [onFiles, Lists, Delists, false_or, and_iff_left not_false]

end Mark

namespace Genuine

variable {history : List Mark}

theorem nodup_filesOf (h : Genuine history) : (filesOf history).Nodup := by
  induction h with
  | nil => exact List.nodup_nil
  | @snoc history m _ hfits ih =>
    rw [filesOf_snoc]
    cases m with
    | list path => exact Ordered.nodup_ite_contains ih path
    | forget path => exact ih.erase path
    | gather found => exact hfits
    | pass _ _ _ | read _ _ _ | note _ _ _ | takeOn _ _ => exact ih

theorem of_append {before after : List Mark} (h : Genuine (before ++ after)) : Genuine before := by
  induction after using List.reverseRecOn with
  | nil => rwa [List.append_nil] at h
  | append_singleton after m ih =>
    rw [← List.append_assoc] at h
    generalize hwhole : before ++ after ++ [m] = whole at h
    cases h with
    | nil => simp at hwhole
    | snoc hgenuine _ =>
      obtain ⟨rfl, -⟩ := List.append_inj' hwhole rfl
      exact ih hgenuine

end Genuine

section Listed

variable {history after : List Mark} {root : String}

theorem notMem_filesOf_append (h : Genuine (history ++ after)) (hroot : root ∉ filesOf history)
    (hafter : ∀ m ∈ after, ¬ m.Lists root) : root ∉ filesOf (history ++ after) := by
  induction after using List.reverseRecOn with
  | nil => rwa [List.append_nil]
  | append_singleton after m ih =>
    rw [← List.append_assoc] at h ⊢
    have hbefore := ih h.of_append fun m' hm' ↦ hafter m' (List.mem_append_left _ hm')
    rw [filesOf_snoc, Mark.mem_onFiles_iff h.of_append.nodup_filesOf]
    rintro (hlists | ⟨hmem, -⟩)
    · exact hafter m (List.mem_append_right _ (List.mem_singleton_self m)) hlists
    · exact hbefore hmem

/-- A root file that is none any more has ceased to be one at some time, and has not become one
since. -/
theorem exists_delists (h : Genuine (history ++ after)) (hroot : root ∈ filesOf history)
    (hgone : root ∉ filesOf (history ++ after)) :
    ∃ middle m later, after = middle ++ m :: later ∧ m.Delists root ∧
    ∀ m' ∈ later, ¬ m'.Lists root := by
  induction after using List.reverseRecOn with
  | nil =>
    rw [List.append_nil] at hgone
    exact absurd hroot hgone
  | append_singleton after m ih =>
    rw [← List.append_assoc] at h hgone
    rw [filesOf_snoc, Mark.mem_onFiles_iff h.of_append.nodup_filesOf, not_or] at hgone
    obtain ⟨hlists, hstays⟩ := hgone
    by_cases hbefore : root ∈ filesOf (history ++ after)
    · refine ⟨after, m, [], rfl, ?_, List.forall_mem_nil _⟩
      by_contra hdelists
      exact hstays ⟨hbefore, hdelists⟩
    · obtain ⟨middle, m', later, rfl, hdelists, hlater⟩ := ih h.of_append hbefore
      refine ⟨middle, m', later ++ [m], ?_, hdelists, ?_⟩
      · rw [List.append_assoc, List.cons_append]
      · intro m'' hm''
        rcases List.mem_append.mp hm'' with hm'' | hm''
        · exact hlater m'' hm''
        · rwa [List.mem_singleton.mp hm'']

end Listed

/-! ## How a table is left behind -/

/-- The last that was done about a file being a root file is that a workspace has been indexed where
it was not found. -/
def Dropped (history : List Mark) (root : String) : Prop :=
  ∃ before files after, history = before ++ .gather files :: after ∧ root ∉ files ∧
  ∀ m ∈ after, ¬ m.Lists root

/-- The last that was done about a file being a root file is that it was forgotten, while a run was
under way that had set out to pass over it; and the run has passed over it after that. -/
def Revived (history : List Mark) (root : String) : Prop :=
  ∃ before task roots middle after, history = before ++ .takeOn task roots ::
  (middle ++ .forget root :: after) ∧
    root ∈ roots ∧ (∀ m ∈ after, ¬ m.Lists root) ∧
    ∃ reader, .pass task reader root ∈ after ∧ (reader.built? root).isSome

theorem Genuine.notMem_of_dropped {history : List Mark} (h : Genuine history) {root : String}
    (hdropped : Dropped history root) : root ∉ filesOf history := by
  obtain ⟨before, files, after, rfl, hroot, hafter⟩ := hdropped
  rw [List.append_cons] at h ⊢
  refine notMem_filesOf_append h ?_ hafter
  rw [filesOf_snoc]
  exact hroot

theorem Genuine.notMem_of_revived {history : List Mark} (h : Genuine history) {root : String}
    (hrevived : Revived history root) : root ∉ filesOf history := by
  obtain ⟨before, task, roots, middle, after, rfl, -, hafter, -⟩ := hrevived
  have hsplit : before ++ .takeOn task roots :: (middle ++ .forget root :: after)
      = (before ++ .takeOn task roots :: middle ++ [.forget root]) ++ after := by
    simp only [List.append_assoc, List.cons_append, List.nil_append]
  rw [hsplit] at h ⊢
  refine notMem_filesOf_append h ?_ hafter
  rw [filesOf_snoc, Mark.mem_onFiles_iff h.of_append.of_append.nodup_filesOf]
  rintro (hlists | ⟨-, hstays⟩)
  · exact hlists
  · exact hstays rfl

/-- A root file that was one once, has not been forgotten since, and is none any more has been
dropped. -/
theorem Genuine.dropped_of_notMem {before after : List Mark} (h : Genuine (before ++ after))
    {root : String} (hroot : root ∈ filesOf before) (hforget : .forget root ∉ after)
    (hgone : root ∉ filesOf (before ++ after)) :
    Dropped (before ++ after) root := by
  obtain ⟨middle, m, later, rfl, hdelists, hlater⟩ := exists_delists h hroot hgone
  cases m with
  | forget path =>
    obtain rfl : path = root := hdelists
    exact absurd (List.mem_append_right _ List.mem_cons_self) hforget
  | gather files => exact ⟨before ++ middle, files, later, (List.append_assoc _ _ _).symm,
      hdelists, hlater⟩
  | list _ | pass _ _ _ | read _ _ _ | note _ _ _ | takeOn _ _ => exact hdelists.elim

/-- A root file that a run had set out to pass over, and that it has built a table for, is none any
more if it has been dropped or revived. -/
theorem Genuine.dropped_or_revived {early late after : List Mark} {task : Nat} {reader : Session}
    {roots : List String} {root : String}
    (h : Genuine (early ++ .takeOn task roots :: (late ++ .pass task reader root :: after)))
    (hroots : root ∈ roots) (hbuilt : (reader.built? root).isSome) (hforget : .forget root ∉ after)
    (hgone : root ∉ filesOf (early ++ .takeOn task roots ::
      (late ++ .pass task reader root :: after))) :
    Dropped (early ++ .takeOn task roots :: (late ++ .pass task reader root :: after)) root ∨
      Revived (early ++ .takeOn task roots :: (late ++ .pass task reader root :: after)) root := by
  have hfiles : roots = filesOf early := h.fits rfl
  have hroot : root ∈ filesOf (early ++ [.takeOn task roots]) := by
    rw [filesOf_snoc, Mark.onFiles, ← hfiles]
    exact hroots
  rw [List.append_cons] at h hgone
  obtain ⟨middle, m, later, hrest, hdelists, hlater⟩ := exists_delists h hroot hgone
  cases m with
  | forget path =>
    obtain rfl : path = root := hdelists
    refine .inr ⟨early, task, roots, middle, later, by
      rw [hrest], hroots, hlater, reader, ?_, hbuilt⟩
    -- It was forgotten before the pass.
    rcases split_of_append hrest with ⟨between, -, rfl⟩ | ⟨between, -, hpass⟩
    · exact List.mem_append_right _ List.mem_cons_self
    · have hmem : .forget path ∈ .pass task reader path :: after := by
        rw [hpass]
        exact List.mem_append_right _ List.mem_cons_self
      exact absurd ((List.mem_cons.mp hmem).resolve_left (by simp)) hforget
  | gather files =>
    refine .inl ⟨early ++ .takeOn task roots :: middle, files, later, ?_, hdelists, hlater⟩
    rw [hrest, List.append_assoc, List.cons_append]
  | list _ | pass _ _ _ | read _ _ _ | note _ _ _ | takeOn _ _ => exact hdelists.elim

namespace Traffic

/-! ## Why a task passes over a file -/

/-- Every pass has a reason. The file has just been made a root file; or its task has set out to
pass over what was a root file then; or its task makes the file a root file when it is done. -/
structure Reasoned (v : Traffic) : Prop where
  begun : ∀ before task reader root after, v.history = before ++ .pass task reader root :: after →
    (∃ earlier, before = earlier ++ [.list root]) ∨
    (∃ roots, .takeOn task roots ∈ before ∧ root ∈ roots) ∨
      ∃ files, root ∈ files ∧
        (.gather files ∈ after ∨ ∃ duties, v.tasks[task]? = some duties ∧ .gather files ∈ duties)
  due : ∀ (task : Nat) (duties : List Duty) root, v.tasks[task]? = some duties →
    .job (.pass root) ∈ duties →
    (∃ roots, .takeOn task roots ∈ v.history ∧ root ∈ roots) ∨
      ∃ files others, root ∈ files ∧ duties = others ++ [.gather files]

/-- What a stretch of a task has to be like for passes to have reasons, where the task was left with
some duties before. -/
structure Founded (stretch : Stretch) (task : Nat) (duties rest : List Duty) : Prop where
  /-- At most one duty is discharged, and the root files found in a workspace are not forgotten. -/
  left : duties = rest ∨ ∃ duty, duties = duty :: rest ∧ ∀ files, duty = .gather files →
    .gather files ∈ stretch.marks
  begun : ∀ before other reader root after, stretch.marks = before ++
    .pass other reader root :: after →
    (∃ earlier, before = earlier ++ [.list root]) ∨ other = task ∧ .job (.pass root) ∈ duties
  due : ∀ root, .job (.pass root) ∈ stretch.duties →
    (∃ roots, .takeOn task roots ∈ stretch.marks ∧ root ∈ roots) ∨
      ∃ files others, root ∈ files ∧ stretch.duties ++ rest = others ++ [.gather files]

namespace Founded

variable {v : Traffic} {task : Nat} {stretch : Stretch} {duties rest : List Duty}
    {files : List String}

theorem exists_append (h : Founded stretch task duties rest) {others : List Duty} {root : String}
    (hend : duties = others ++ [.gather files]) (hpass : .job (.pass root) ∈ duties) :
    ∃ others', rest = others' ++ [.gather files] := by
  rcases h.left with rfl | ⟨duty, hduty, -⟩
  · exact ⟨others, hend⟩
  · rw [hend] at hduty hpass
    cases others with
    | nil => simp at hpass
    | cons first others => exact ⟨others, (List.cons.inj hduty).2.symm⟩

theorem gather_or (h : Founded stretch task duties rest) (htask : v.tasks[task]? = some duties)
    {other : Nat} (hgather : ∃ duties, v.tasks[other]? = some duties ∧ .gather files ∈ duties) :
    .gather files ∈ stretch.marks ∨
      ∃ duties, (v.proceed task stretch rest).tasks[other]? = some duties ∧
      .gather files ∈ duties := by
  obtain ⟨duties', hduties', hgather⟩ := hgather
  by_cases hother : other = task
  · subst hother
    have hself := v.getElem?_proceed_self htask stretch rest
    obtain rfl : duties = duties' := Option.some.inj (htask.symm.trans hduties')
    rcases h.left with rfl | ⟨duty, rfl, hmark⟩
    · exact .inr ⟨_, hself, List.mem_append_right _ hgather⟩
    · rcases List.mem_cons.mp hgather with he | hgather
      · exact .inl (hmark files he.symm)
      · exact .inr ⟨_, hself, List.mem_append_right _ hgather⟩
  · exact .inr ⟨duties', (v.getElem?_proceed_of_ne hother stretch rest).trans hduties', hgather⟩

end Founded

namespace Reasoned

variable {v : Traffic}

theorem fresh (disk : Disk) (settings : Settings) (documents : Documents) :
    (Traffic.fresh disk settings documents).Reasoned where
  begun := by
    intro before task reader root after hsplit
    rw [Traffic.fresh] at hsplit
    simp at hsplit
  due := by
    intro task duties root hduties
    rw [Traffic.fresh] at hduties
    simp at hduties

theorem proceed (h : v.Reasoned) {task : Nat} {stretch : Stretch} {duties rest : List Duty}
    (htask : v.tasks[task]? = some duties) (hstretch : Founded stretch task duties rest) :
    (v.proceed task stretch rest).Reasoned := by
  have hself := v.getElem?_proceed_self htask stretch rest
  constructor
  · intro before other reader root after hsplit
    rcases split_of_append hsplit with ⟨middle, hmiddle, rfl⟩ | ⟨middle, rfl, hmarks⟩
    · rcases h.begun _ _ _ _ _ hmiddle with hlist | htakeOn | ⟨files, hroot, hgather | hgather⟩
      · exact .inl hlist
      · exact .inr (.inl htakeOn)
      · exact .inr (.inr ⟨files, hroot, .inl (List.mem_append_left _ hgather)⟩)
      · refine .inr (.inr ⟨files, hroot, ?_⟩)
        exact (hstretch.gather_or htask hgather).imp_left (List.mem_append_right _)
    · rcases hstretch.begun _ _ _ _ _ hmarks with ⟨earlier, rfl⟩ | ⟨rfl, hpass⟩
      · exact .inl ⟨v.history ++ earlier, (List.append_assoc _ _ _).symm⟩
      · rcases h.due _ _ root htask hpass with ⟨roots, htakeOn, hroot⟩ | ⟨files, others,
          hroot, hend⟩
        · exact .inr (.inl ⟨roots, List.mem_append_left _ htakeOn, hroot⟩)
        · obtain ⟨others', rfl⟩ := hstretch.exists_append hend hpass
          refine .inr (.inr ⟨files, hroot, .inr ⟨_, hself, ?_⟩⟩)
          exact List.mem_append_right _ (List.mem_append_right _ (List.mem_singleton_self _))
  · intro other duties' root hduties' hpass
    by_cases hother : other = task
    · subst hother
      obtain rfl : stretch.duties ++ rest = duties' := Option.some.inj (hself.symm.trans hduties')
      rcases List.mem_append.mp hpass with hpass | hpass
      · refine (hstretch.due root hpass).imp_left ?_
        rintro ⟨roots, htakeOn, hroot⟩
        exact ⟨roots, List.mem_append_right _ htakeOn, hroot⟩
      · have hbefore : .job (.pass root) ∈ duties := by
          rcases hstretch.left with rfl | ⟨duty, rfl, -⟩
          · exact hpass
          · exact List.mem_cons_of_mem duty hpass
        rcases h.due _ _ root htask hbefore with ⟨roots, htakeOn, hroot⟩ | ⟨files, others,
          hroot, hend⟩
        · exact .inl ⟨roots, List.mem_append_left _ htakeOn, hroot⟩
        · obtain ⟨others', rfl⟩ := hstretch.exists_append hend hbefore
          exact .inr ⟨files, stretch.duties ++ others', hroot, (List.append_assoc _ _ _).symm⟩
    · rw [v.getElem?_proceed_of_ne hother] at hduties'
      refine (h.due _ _ root hduties' hpass).imp_left ?_
      rintro ⟨roots, htakeOn, hroot⟩
      exact ⟨roots, List.mem_append_left _ htakeOn, hroot⟩

theorem begin (h : v.Reasoned) {stretch : Nat → Stretch}
    (hstretch : ∀ task, Founded (stretch task) task [] []) :
    (v.begin stretch).Reasoned := by
  have hopen : Reasoned { v with tasks := v.tasks ++ [[]] } := by
    constructor
    · intro before task reader root after hsplit
      refine (h.begun before task reader root after hsplit).imp_right (.imp_right ?_)
      rintro ⟨files, hroot, hgather⟩
      refine ⟨files, hroot, hgather.imp_right ?_⟩
      rintro ⟨duties, hduties, hgather⟩
      refine ⟨duties, ?_, hgather⟩
      rw [List.getElem?_append_left (List.getElem?_eq_some_iff.mp hduties).1]
      exact hduties
    · intro task duties root hduties hpass
      rcases getElem?_of_snoc_nil hduties with hduties | rfl
      · exact h.due task duties root hduties hpass
      · cases hpass
  exact hopen.proceed List.getElem?_concat_length (hstretch _)

end Reasoned

/-! ## Every task has its reasons -/

theorem pass_notMem_takeUp (s : Session) (root other : String) :
    .job (.pass other) ∉ (s.takeUp root).2.map Duty.job := by
  intro hmem
  obtain ⟨job, hjob, he⟩ := List.mem_map.mp hmem
  obtain rfl : job = .pass other := Duty.job.inj he
  rcases hbegin : s.beginPass root with ⟨s', e | _ | begun⟩
  · simp only [Session.takeUp, hbegin, List.not_mem_nil] at hjob
  · simp only [Session.takeUp, hbegin, List.not_mem_nil] at hjob
  · simp only [Session.takeUp, hbegin] at hjob
    obtain ⟨e, -, he⟩ := List.mem_map.mp hjob
    cases he

/-- A stretch that begins no pass, and does not leave its task with any, needs no reasons. -/
theorem Founded.of_none {stretch : Stretch} {task : Nat} {duties rest : List Duty}
    (left : duties = rest ∨
      ∃ duty, duties = duty :: rest ∧ ∀ files, duty = .gather files → .gather files ∈ stretch.marks)
    (hmarks : ∀ other reader root, .pass other reader root ∉ stretch.marks)
    (hduties : ∀ root, .job (.pass root) ∉ stretch.duties) : Founded stretch task duties rest where
  left := left
  begun := by
    intro before other reader root after hsplit
    refine absurd ?_ (hmarks other reader root)
    rw [hsplit]
    exact List.mem_append_right _ List.mem_cons_self
  due := fun root hroot ↦ absurd hroot (hduties root)

theorem Founded.giveUp (s : Session) (task : Nat) (path : String) :
    Founded (s.giveUp path) task [] [] := by
  refine .of_none (.inl rfl) (fun other reader root hmem ↦ ?_) fun root ↦ List.not_mem_nil
  cases List.mem_singleton.mp hmem

theorem Founded.setOut (s : Session) (task : Nat) (operation : Operation) :
    Founded (s.setOut task operation) task [] [] := by
  cases operation with
  | index folder =>
    refine ⟨.inl rfl, fun before other reader root after hsplit ↦ ?_, fun root hroot ↦ .inr ?_⟩
    · simp [Session.setOut] at hsplit
    · rw [List.append_nil]
      refine ⟨_, _, ?_, rfl⟩
      rcases List.mem_append.mp hroot with hroot | hroot
      · obtain ⟨file, hfile, he⟩ := List.mem_map.mp hroot
        cases he
        exact hfile
      · cases List.mem_singleton.mp hroot
  | reindex uri =>
    rw [Session.setOut]
    cases s.opening (s.pathOf uri) with
    | pass =>
      refine ⟨.inl rfl, fun before other reader root after hsplit ↦ .inl ?_,
        fun root hroot ↦ absurd hroot (pass_notMem_takeUp _ _ root)⟩
      cases before with
      | nil => cases hsplit
      | cons m before =>
        obtain ⟨rfl, hrest⟩ := List.cons.inj hsplit
        obtain ⟨rfl, hpass, -⟩ := split_of_singleton hrest
        cases hpass
        exact ⟨[], rfl⟩
    | forget => exact .giveUp s task (s.pathOf uri)
    | all =>
      refine ⟨.inl rfl, fun before other reader root after hsplit ↦ ?_, fun root hroot ↦ .inl ?_⟩
      · cases (split_of_singleton hsplit).2.1
      · obtain ⟨file, hfile, he⟩ := List.mem_map.mp hroot
        cases he
        exact ⟨s.files, List.mem_singleton_self _, hfile⟩
    | nothing => exact .of_none (.inl rfl) (fun _ _ _ ↦ List.not_mem_nil) fun _ ↦ List.not_mem_nil
  | edit uri e | change files folders | configure settings =>
    exact .of_none (.inl rfl) (fun _ _ _ ↦ List.not_mem_nil) fun _ ↦ List.not_mem_nil

theorem Founded.discharge (s : Session) (task : Nat) (duty : Duty) (rest : List Duty) :
    Founded (s.discharge task duty) task (duty :: rest) rest := by
  cases duty with
  | job job =>
    cases job with
    | pass root =>
      rw [Session.discharge]
      split
      · refine ⟨.inr ⟨_, rfl, by simp⟩, fun before other reader root after hsplit ↦ .inr ?_,
          fun root hroot ↦ absurd hroot (pass_notMem_takeUp _ _ root)⟩
        obtain ⟨-, hpass, -⟩ := split_of_singleton hsplit
        cases hpass
        exact ⟨rfl, List.mem_cons_self⟩
      · exact .of_none (.inr ⟨_, rfl, by simp⟩) (fun _ _ _ ↦ List.not_mem_nil) fun _ ↦
          List.not_mem_nil
    | look begun key script =>
      refine .of_none (.inr ⟨_, rfl, by simp⟩) (fun _ _ _ ↦ List.not_mem_nil) fun root hroot ↦ ?_
      rw [Session.discharge] at hroot
      split at hroot
      · cases List.mem_singleton.mp hroot
      · cases hroot
  | read begun key script =>
    refine .of_none (.inr ⟨_, rfl, by simp⟩) (fun other reader root hmem ↦ ?_) fun root hroot ↦ ?_
    · cases List.mem_singleton.mp hmem
    · obtain ⟨info, -, he⟩ := Option.map_eq_some_iff.mp (Option.mem_toList.mp hroot)
      cases he
  | note begun key info =>
    refine .of_none (.inr ⟨_, rfl, by simp⟩) (fun other reader root hmem ↦ ?_) fun _ ↦
      List.not_mem_nil
    cases List.mem_singleton.mp hmem
  | gather files =>
    refine .of_none (.inr ⟨_, rfl, fun found he ↦ ?_⟩) (fun other reader root hmem ↦ ?_)
      fun _ ↦ List.not_mem_nil
    · cases he
      exact List.mem_singleton_self _
    · cases List.mem_singleton.mp hmem

theorem Reasoned.take {v : Traffic} (h : v.Reasoned) {turn : Turn}
    (hturn : ∀ root, turn ≠ .pass root) :
    (v.take turn).Reasoned := by
  cases turn with
  | operate operation => exact h.begin fun task ↦ .setOut v.session task operation
  | pass root => exact absurd rfl (hturn root)
  | forget path => exact h.begin fun task ↦ .giveUp v.session task path
  | work task =>
    rw [Traffic.take]
    split
    · next duty rest hduties => exact h.proceed hduties (.discharge v.session task duty rest)
    · exact h

theorem Reasoned.follow {v : Traffic} (h : v.Reasoned) {turns : List Turn}
    (hturns : ∀ root, .pass root ∉ turns) :
    (v.follow turns).Reasoned := by
  refine List.foldlRecOn turns _ h fun _ h turn hturn ↦ h.take fun root he ↦ ?_
  exact hturns root (he ▸ hturn)

/-! ## Which tables are left behind -/

/-- **When nothing is under way, a file with a table is no root file in two cases only.** Either the
last that was done about its being one is that a workspace has been indexed where it was not found;
or it was forgotten last, while a run was under way that had set out to pass over it and did so
afterwards. -/
theorem unlisted_iff (disk : Disk) (settings : Settings) (documents : Documents) {turns : List Turn}
    (hturns : ∀ root, .pass root ∉ turns)
    (hidle : ((fresh disk settings documents).follow turns).IsIdle)
    {root : String}
    (htable : (((fresh disk settings documents).follow turns).session.functions.lookup root).isSome)
      :
    root ∉ ((fresh disk settings documents).follow turns).session.files ↔
      Dropped ((fresh disk settings documents).follow turns).history root ∨
        Revived ((fresh disk settings documents).follow turns).history root := by
  have hsound := (Sound.fresh disk settings documents).follow turns
  have hreasoned := (Reasoned.fresh disk settings documents).follow hturns
  generalize (fresh disk settings documents).follow turns = v at *
  have hgenuine := hsound.accords.genuine
  rw [hsound.accords.files]
  constructor
  · intro hgone
    rw [hsound.accords.functions] at htable
    obtain ⟨indexed, hlookup⟩ := Option.isSome_iff_exists.mp htable
    obtain ⟨built, after, ⟨before, task, reader, hsplit, hbuilt, -, hafter⟩, -⟩ :=
      hgenuine.exists_lastBuilt hlookup
    have hforget : .forget root ∉ after := fun hmem ↦ hafter _ hmem rfl
    rcases hreasoned.begun _ _ _ _ _ hsplit with ⟨earlier, rfl⟩ | ⟨roots, htakeOn, hroots⟩ | ⟨files,
      hroot, hgather⟩
    · -- The pass has followed its root file being listed.
      rw [hsplit] at hgenuine hgone ⊢
      refine .inl (hgenuine.dropped_of_notMem ?_ (fun hmem ↦ ?_) hgone)
      · rw [filesOf_snoc, Mark.mem_onFiles_iff hgenuine.of_append.of_append.nodup_filesOf]
        exact .inl rfl
      · exact hforget ((List.mem_cons.mp hmem).resolve_left (by simp))
    · -- The run of the pass has set out when the file was a root file.
      obtain ⟨early, late, rfl⟩ := List.append_of_mem htakeOn
      rw [List.append_assoc, List.cons_append] at hsplit
      rw [hsplit] at hgenuine hgone ⊢
      exact hgenuine.dropped_or_revived hroots (Option.isSome_iff_exists.mpr ⟨built, hbuilt⟩)
        hforget hgone
    · -- The task of the pass is done with indexing its workspace, so it has listed the file.
      have hgathered : .gather files ∈ after := by
        refine hgather.resolve_right ?_
        rintro ⟨duties, hduties, hmem⟩
        rw [hidle duties (List.mem_of_getElem? hduties)] at hmem
        cases hmem
      obtain ⟨early, late, rfl⟩ := List.append_of_mem hgathered
      have hsplit' : v.history = (before ++ .pass task reader root :: early ++ [.gather files])
          ++ late := by
        rw [hsplit]
        simp only [List.append_assoc, List.cons_append, List.nil_append]
      rw [hsplit'] at hgenuine hgone ⊢
      refine .inl (hgenuine.dropped_of_notMem ?_ (fun hmem ↦ hforget ?_) hgone)
      · rw [filesOf_snoc]
        exact hroot
      · exact List.mem_append_right _ (List.mem_cons_of_mem _ hmem)
  · rintro (hdropped | hrevived)
    · exact hgenuine.notMem_of_dropped hdropped
    · exact hgenuine.notMem_of_revived hrevived

/-- A mission with one function. -/
def declaring : Disk where
  files :=
    [(["m", "description.ext"], .bytes (Text.encodeUtf8
        "class CfgFunctions\x7bclass T\x7bclass C\x7bclass f\x7b\x7d;\x7d;\x7d;\x7d;".toList)),
      (["m", "functions", "C", "fn_f.sqf"], .bytes [])]

/-- The mission is indexed, its root file is deleted, and it is indexed again. -/
def indexedTwice : List Turn :=
  [.operate (.index "/m"), .work 0, .work 0, .work 0, .work 0,
    .operate (.change [(["m", "functions", "C", "fn_f.sqf"], .bytes [])] []),
    .operate (.index "/m"), .work 2]

/-- The table of the deleted root file has been dropped from sight and not from the session. -/
theorem unlisted_iff_deleted :
    (∀ root, .pass root ∉ indexedTwice) ∧ ((fresh declaring {} []).follow indexedTwice).IsIdle ∧
      (((fresh declaring {} []).follow indexedTwice).session.functions.lookup
        "/m/description.ext").isSome ∧
      (Dropped ((fresh declaring {} []).follow indexedTwice).history "/m/description.ext" ∨
        Revived ((fresh declaring {} []).follow indexedTwice).history "/m/description.ext") := by
  have hturns : ∀ root, .pass root ∉ indexedTwice := by simp [indexedTwice]
  obtain ⟨hidle, htable, hgone⟩ : ((fresh declaring {} []).follow indexedTwice).IsIdle ∧
      (((fresh declaring {} []).follow indexedTwice).session.functions.lookup
        "/m/description.ext").isSome ∧
      "/m/description.ext" ∉ ((fresh declaring {} []).follow indexedTwice).session.files := by
    decide +kernel
  exact ⟨hturns, hidle, htable, (unlisted_iff declaring {} [] hturns hidle htable).mp hgone⟩

/-- When nothing is under way, a root file that was deleted before its workspace was indexed again
has a table and is no root file. -/
theorem table_left_unlisted :
    ((fresh declaring {} []).follow indexedTwice).IsIdle ∧
      ((fresh declaring {} []).follow indexedTwice).session.files = [] ∧
      ((fresh declaring {} []).follow indexedTwice).session.tables.map
        (fun e ↦ (e.1, e.2.map Prod.fst))
        = [("/m/description.ext", ["t_fnc_f"])] := by
  decide +kernel

def twoMissions : List (Place × Content) :=
  [(["a", "description.ext"], .bytes (Text.encodeUtf8
      "class CfgFunctions\x7bclass T\x7bclass C\x7bclass f\x7b\x7d;\x7d;\x7d;\x7d;".toList)),
    (["a", "functions", "C", "fn_f.sqf"], .bytes []),
    (["b", "description.ext"], .bytes [])]

/-- The second case. While a run reads the script of the first mission, the root file of the second
is deleted, it is forgotten, and it is there again before the run comes to it. -/
example :
    let settings : Settings :=
      { descriptionFiles := ["/a/description.ext", "/b/description.ext"], discover := false }
    let v := (fresh { files := twoMissions } settings []).follow
      ([.operate (.index "/"), .work 0, .work 0, .work 0, .work 0, .work 0,
        .operate (.reindex "file:///x.hpp"), .work 1, .work 1,
        .operate (.change (twoMissions.take 2) []),
        .operate (.reindex "file:///b/description.ext"), .operate (.change twoMissions []),
        .work 1, .work 1])
    v.IsIdle ∧ v.session.files = ["/a/description.ext"] ∧
      v.session.tables.map Prod.fst = ["/a/description.ext", "/b/description.ext"] := by
  decide +kernel

end Traffic

end MissionIndex
