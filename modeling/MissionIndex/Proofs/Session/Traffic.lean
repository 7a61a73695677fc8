import MissionIndex.Proofs.Session.History

/-!
# Operations that overlap

An operation may be suspended while it goes on, and others begin or go on meanwhile. Here an
operation is a *task* that is left with *duties*, which it discharges one after another. It may be
suspended between any two of them: from one root file to the next, and for every script twice,
before and after its header is read. So what a header says is written down later than it is read,
and the file may be another one by then.

A `Traffic` is a session with its tasks and the *marks* of what they have done. Its turns come in
any order. A task that has all turns to itself does what the operation does at once
(`exists_follow_operate`).
-/

namespace MissionIndex

/-- A piece of what a task has to do. -/
inductive Duty where
  /-- To pass over a root file if it is there, or to see whether the script of a function is. -/
  | job (job : Job)
  /-- To read the header of a script that is there. -/
  | read (begun : Pass) (key script : String)
  /-- To write down what the header of a script says. -/
  | note (begun : Pass) (key : String) (info : Header.Info)
  /-- To make the files that were found in a workspace the root files. -/
  | gather (files : List String)
deriving DecidableEq

/-- Something that has been done. -/
inductive Mark where
  /-- A file has been added to the root files. -/
  | list (path : String)
  /-- A task has begun a pass over a root file, which reads a session. -/
  | pass (task : Nat) (reader : Session) (root : String)
  /-- A script has been read within a pass, as it was on disk. -/
  | read (number : Nat) (script : String) (disk : Disk)
  /-- What the header of a script says has been written down. -/
  | note (begun : Pass) (key : String) (info : Header.Info)
  | forget (path : String)
  /-- A task is to pass over what the root files have been. -/
  | takeOn (task : Nat) (roots : List String)
  /-- The files that were found in a workspace have become the root files. -/
  | gather (files : List String)

/-- What a task does until it may be suspended: the session after it, the duties that it gives rise
to, and the marks that it leaves. -/
structure Stretch where
  session : Session
  duties : List Duty := []
  marks : List Mark := []

namespace Session

variable (s : Session)

/-! ## Stretches -/

/-- A task begins a pass over a root file. -/
def setUp (task : Nat) (root : String) : Stretch where
  session := (s.takeUp root).1
  duties := (s.takeUp root).2.map .job
  marks := [.pass task s root]

/-- A root file is forgotten. -/
def giveUp (path : String) : Stretch where
  session := s.forget path
  marks := [.forget path]

/-- What a run that indexes again begins with. -/
inductive Opening where
  /-- The root file that has changed is passed over. -/
  | pass
  /-- The root file that has changed is forgotten. -/
  | forget
  /-- All root files are to be passed over. -/
  | all
  | nothing

/-- What a run that indexes again begins with, by the path of what has changed. -/
def opening (path : String) : Opening :=
  match reactionTo path with
  | .reindexRoot =>
    if s.disk.hasPath path then .pass
    else
      match s.documents.textFor s.disk.workingDirectory path with
      | .ok (some _) => .pass
      | .ok none => .forget
      | .error _ => .nothing
  | .reindexAll => .all
  | .nothing => .nothing

/-- The first stretch of a task that performs an operation. -/
def setOut (task : Nat) : Operation → Stretch
  | .index folder =>
    let files := Workspace.discover s.disk s.settings folder
    { session := s, duties := files.map (fun root ↦ .job (.pass root)) ++ [.gather files] }
  | .reindex uri =>
    let path := s.pathOf uri
    match s.opening path with
    | .pass =>
      let stretch := (s.addFile path).setUp task path
      { stretch with marks := .list path :: stretch.marks }
    | .forget => s.giveUp path
    | .all =>
      { session := s
        duties := s.files.map fun root ↦ .job (.pass root)
        marks := [.takeOn task s.files] }
    | .nothing => { session := s }
  | .edit uri e => { session := s.operate (.edit uri e) }
  | .change files folders => { session := s.operate (.change files folders) }
  | .configure settings => { session := s.operate (.configure settings) }

def discharge (task : Nat) : Duty → Stretch
  | .job (.pass root) => if s.disk.hasPath root then s.setUp task root else { session := s }
  | .job (.look begun key script) =>
    { session := s, duties := if s.disk.isFile script then [.read begun key script] else [] }
  | .read begun key script =>
    { session := s
      duties := ((Header.ofScript? s.disk script).map (.note begun key)).toList
      marks := [.read begun.number script s.disk] }
  | .note begun key info =>
      { session := s.noteDown begun key info, marks := [.note begun key info] }
  | .gather files => { session := { s with files }, marks := [.gather files] }

end Session

/-- A session with the tasks that have begun on it, each with the duties that it is left with, and
the marks of all that has been done. -/
structure Traffic where
  session : Session
  tasks : List (List Duty) := []
  history : List Mark := []

/-- What can happen next. -/
inductive Turn where
  /-- A task begins to perform an operation. -/
  | operate (operation : Operation)
  /-- A task begins with a pass over a root file and does nothing else. -/
  | pass (root : String)
  /-- A root file is forgotten. -/
  | forget (path : String)
  /-- A task discharges its next duty. -/
  | work (task : Nat)

namespace Traffic

/-- A session on which nothing has begun. -/
def fresh (disk : Disk) (settings : Settings) (documents : Documents) : Traffic where
  session := { disk, settings, documents }

variable (v : Traffic)

/-- A task goes through a stretch and has some other duties left after it. -/
def proceed (task : Nat) (stretch : Stretch) (rest : List Duty) : Traffic where
  session := stretch.session
  tasks := v.tasks.set task (stretch.duties ++ rest)
  history := v.history ++ stretch.marks

theorem getElem?_proceed_self {task : Nat} {duties : List Duty} (h : v.tasks[task]? = some duties)
    (stretch : Stretch) (rest : List Duty) :
    (v.proceed task stretch rest).tasks[task]? = some (stretch.duties ++ rest) :=
  List.getElem?_set_self (List.getElem?_eq_some_iff.mp h).1

theorem getElem?_proceed_of_ne {task other : Nat} (h : other ≠ task) (stretch : Stretch)
    (rest : List Duty) :
    (v.proceed task stretch rest).tasks[other]? = v.tasks[other]? :=
      List.getElem?_set_ne (Ne.symm h)

/-- A new task goes through its first stretch. -/
def begin (stretch : Nat → Stretch) : Traffic :=
  { v with tasks := v.tasks ++ [[]] }.proceed v.tasks.length (stretch v.tasks.length) []

theorem getElem?_of_snoc_nil {tasks : List (List Duty)} {task : Nat} {duties : List Duty}
    (h : (tasks ++ [[]])[task]? = some duties) : tasks[task]? = some duties ∨ duties = [] := by
  rw [List.getElem?_append] at h
  split at h
  · exact .inl h
  · exact .inr (List.mem_singleton.mp (List.mem_of_getElem? h))

/-- What becomes of a traffic in a turn. A task that has nothing left to do makes no use of its
turn. -/
def take : Turn → Traffic
  | .operate operation => v.begin fun task ↦ v.session.setOut task operation
  | .pass root => v.begin fun task ↦ v.session.setUp task root
  | .forget path => v.begin fun _ ↦ v.session.giveUp path
  | .work task =>
    match v.tasks[task]? with
    | some (duty :: rest) => v.proceed task (v.session.discharge task duty) rest
    | _ => v

/-- What becomes of a traffic in turns one after another. -/
def follow (turns : List Turn) : Traffic := turns.foldl take v

/-- No task has anything left to do. -/
def IsIdle : Prop := ∀ duties ∈ v.tasks, duties = []

instance : Decidable v.IsIdle := inferInstanceAs (Decidable (∀ duties ∈ v.tasks, duties = []))

end Traffic

/-! ## One task at a time -/

namespace Session

/-- A task that discharges its duties without being suspended leads one session to another. -/
inductive Settles (task : Nat) : Session → List Duty → Session → Prop
  | done (s : Session) : Settles task s [] s
  | step {s s' : Session} {duty : Duty} {rest : List Duty} :
      Settles task (s.discharge task duty).session ((s.discharge task duty).duties ++ rest) s' →
      Settles task s (duty :: rest) s'

namespace Settles

variable {task : Nat} {s s' s'' : Session} {duties rest : List Duty}

theorem append (h : Settles task s duties s') (h' : Settles task s' rest s'') :
    Settles task s (duties ++ rest) s'' := by
  induction h with
  | done => exact h'
  | step _ ih =>
    have hrest := ih h'
    rw [List.append_assoc] at hrest
    exact .step hrest

theorem singleton {duty : Duty}
    (h : Settles task (s.discharge task duty).session (s.discharge task duty).duties s') :
    Settles task s [duty] s' := by
  refine .step ?_
  rwa [List.append_nil]

theorem row {α : Type} {duty : α → Duty} {act : Session → α → Session}
    (h : ∀ s a, Settles task s [duty a] (act s a)) (s : Session) (items : List α) :
    Settles task s (items.map duty) (items.foldl act s) := by
  induction items generalizing s with
  | nil => exact .done s
  | cons a rest ih => exact (h s a).append (ih (act s a))

theorem look (s : Session) (begun : Pass) (key script : String) :
    Settles task s [.job (.look begun key script)] (s.lookInto begun key script) := by
  refine singleton ?_
  rw [discharge, lookInto]
  by_cases hfile : s.disk.isFile script = true
  · rw [if_pos hfile, if_pos hfile]
    refine singleton ?_
    rw [discharge]
    cases Header.ofScript? s.disk script with
    | none => exact .done s
    | some info => exact singleton (.done _)
  · rw [if_neg hfile, if_neg hfile]
    exact .done s

theorem takeUp (s : Session) (root : String) :
    Settles task (s.takeUp root).1 ((s.takeUp root).2.map .job) (s.pass root).1 := by
  rcases hbegin : s.beginPass root with ⟨s', e | _ | begun⟩
  · simp only [Session.takeUp, Session.pass, hbegin]
    exact .done s'
  · simp only [Session.takeUp, Session.pass, hbegin]
    exact .done s'
  · simp only [Session.takeUp, Session.pass, hbegin, List.map_map]
    exact row (fun s e ↦ look s begun e.1 e.2) s' begun.scripts

theorem pass (s : Session) (root : String) :
    Settles task s [.job (.pass root)] (s.passOver [root]) := by
  refine singleton ?_
  rw [discharge, passOver, Workspace.present]
  by_cases hroot : s.disk.hasPath root = true
  · rw [if_pos hroot, List.filter_cons_of_pos hroot]
    exact takeUp s root
  · rw [if_neg hroot, List.filter_cons_of_neg hroot]
    exact .done s

theorem passes (s : Session) (roots : List String) :
    Settles task s (roots.map fun root ↦ .job (.pass root)) (s.passOver roots) := by
  have hrow : Settles task s (roots.map fun root ↦ .job (.pass root))
      (roots.foldl (fun s root ↦ s.passOver [root]) s) := row pass s roots
  have hsame : roots.foldl (fun s root ↦ s.passOver [root]) s = s.finish (roots.map .pass) := by
    rw [finish, List.foldl_map]
    refine congrArg (fun act ↦ roots.foldl act s) (funext₂ fun s root ↦ ?_)
    exact (s.finish_map_pass [root]).symm
  rwa [hsame, finish_map_pass] at hrow

end Settles

theorem beginReindex_eq (s : Session) (uri : String) :
    s.beginReindex uri =
      match s.opening (s.pathOf uri) with
      | .pass => (s.addFile (s.pathOf uri)).takeUp (s.pathOf uri)
      | .forget => (s.forget (s.pathOf uri), [])
      | .all => (s, s.files.map .pass)
      | .nothing => (s, []) := by
  simp only [beginReindex, opening]
  cases reactionTo (s.pathOf uri) with
  | reindexRoot =>
    dsimp only
    split
    · rfl
    · rcases s.documents.textFor s.disk.workingDirectory (s.pathOf uri) with e | _ | text <;> rfl
  | reindexAll => rfl
  | nothing => rfl

/-- A task that is never suspended does what the operation does at once. -/
theorem settles_setOut (s : Session) (task : Nat) (operation : Operation) :
    Settles task (s.setOut task operation).session (s.setOut task operation).duties
      (s.operate operation) := by
  cases operation with
  | index folder =>
    exact (Settles.passes s (Workspace.discover s.disk s.settings folder)).append
      (.singleton (.done _))
  | reindex uri =>
    have hreindex := s.finish_beginReindex uri
    rw [beginReindex_eq] at hreindex
    rw [operate, setOut]
    cases hopening : s.opening (s.pathOf uri) with
    | pass =>
      rw [hopening] at hreindex
      dsimp only at hreindex ⊢
      rw [← hreindex, finish_takeUp]
      exact Settles.takeUp _ _
    | forget =>
      rw [hopening] at hreindex
      dsimp only at hreindex ⊢
      rw [← hreindex]
      exact .done _
    | all =>
      rw [hopening] at hreindex
      dsimp only at hreindex ⊢
      rw [← hreindex, finish_map_pass]
      exact Settles.passes s s.files
    | nothing =>
      rw [hopening] at hreindex
      dsimp only at hreindex ⊢
      rw [← hreindex]
      exact .done s
  | edit uri e => exact .done _
  | change files folders => exact .done _
  | configure settings => exact .done _

end Session

namespace Traffic

variable {v : Traffic}

theorem follow_append (v : Traffic) (turns turns' : List Turn) :
    v.follow (turns ++ turns') = (v.follow turns).follow turns' := List.foldl_append

/-- Duties can be discharged with no other turn in between. -/
theorem exists_follow_settles {task : Nat} {duties : List Duty} {s : Session}
    (h : Session.Settles task v.session duties s) (htask : v.tasks[task]? = some duties) :
    ∃ turns, (v.follow turns).session = s ∧ (v.follow turns).tasks = v.tasks.set task [] := by
  generalize hsession : v.session = start at h
  induction h generalizing v with
  | done =>
    obtain ⟨hlength, hnone⟩ := List.getElem?_eq_some_iff.mp htask
    refine ⟨[], hsession, ?_⟩
    rw [← hnone, List.set_getElem_self]
    rfl
  | @step s s' duty rest _ ih =>
    have htake : v.take (.work task) = v.proceed task (s.discharge task duty) rest := by
      rw [take, htask, hsession]
    obtain ⟨turns, hturns, htasks⟩ := ih (v := v.take (.work task))
      (by rw [htake, v.getElem?_proceed_self htask]) (by rw [htake]; rfl)
    refine ⟨.work task :: turns, hturns, ?_⟩
    have hset : ((v.take (.work task)).follow turns).tasks = v.tasks.set task [] := by
      rw [htasks, htake, proceed, List.set_set]
    exact hset

/-- **A task that has all turns to itself does what the operation does at once.** -/
theorem exists_follow_operate (v : Traffic) (operation : Operation) :
    ∃ turns, (v.follow (.operate operation :: turns)).session = v.session.operate operation ∧
      (v.follow (.operate operation :: turns)).tasks = v.tasks ++ [[]] := by
  have hsettles := v.session.settles_setOut v.tasks.length operation
  have htask : (v.take (.operate operation)).tasks[v.tasks.length]?
      = some ((v.session.setOut v.tasks.length operation).duties ++ []) := by
    rw [take, begin, proceed]
    exact List.getElem?_set_self (by simp)
  rw [List.append_nil] at htask
  obtain ⟨turns, hturns, htasks⟩ :=
    exists_follow_settles (v := v.take (.operate operation)) hsettles htask
  refine ⟨turns, hturns, ?_⟩
  have hset : ((v.take (.operate operation)).follow turns).tasks = v.tasks ++ [[]] := by
    rw [htasks, take, begin, proceed, List.set_set, List.set_append_right _ _ (Nat.le_refl _),
      Nat.sub_self]
    rfl
  exact hset

theorem exists_follow_operateAll (v : Traffic) (hidle : v.IsIdle) (operations : List Operation) :
    ∃ turns, (v.follow turns).session = v.session.operateAll operations ∧
    (v.follow turns).IsIdle := by
  induction operations generalizing v with
  | nil => exact ⟨[], rfl, hidle⟩
  | cons operation rest ih =>
    obtain ⟨turns, hsession, htasks⟩ := v.exists_follow_operate operation
    have hnext : (v.follow (.operate operation :: turns)).IsIdle := by
      intro duties hduties
      rw [htasks] at hduties
      rcases List.mem_append.mp hduties with hduties | hduties
      · exact hidle duties hduties
      · exact List.mem_singleton.mp hduties
    obtain ⟨turns', hsession', hidle'⟩ := ih _ hnext
    rw [← follow_append] at hsession' hidle'
    refine ⟨_, ?_, hidle'⟩
    rw [hsession', hsession]
    rfl

end Traffic

end MissionIndex
