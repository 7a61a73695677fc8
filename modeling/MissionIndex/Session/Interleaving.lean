import MissionIndex.Schedule.Coordinator
import MissionIndex.Session.Reindexing

/-!
# Requests step by step

A run that indexes a document again is suspended whenever it looks into a script, and other things
may happen meanwhile: the editor changes documents, waits end, and the runs for other documents go
on. So a run is cut into jobs here. To begin a pass is one job and to look into a script is another,
and between any two of them there is room for anything else. The jobs of a run in a row are
`Session.reindex`.

A `Service` is a session with the requests made to it and the runs under way. `Service.Step` says
what can happen to it next, in whatever order: time does not appear, since a wait may end at any
time.
-/

namespace MissionIndex

open Schedule

/-- A piece of what a run has to do. -/
inductive Job where
  /-- To look into the script of one function of a pass. -/
  | look (begun : Pass) (key script : String)
  /-- To pass over a root file if it is there. -/
  | pass (root : String)
deriving DecidableEq, Repr

namespace Session

variable (s : Session)

def pathOf (uri : String) : String := s.disk.absolute (Uri.toPath uri)

/-- Begins a pass over a root file. What is left to be done is to look into the scripts. -/
def takeUp (root : String) : Session × List Job :=
  match s.beginPass root with
  | (s, .ok (some begun)) => (s, begun.scripts.map fun (key, script) ↦ .look begun key script)
  | (s, _) => (s, [])

/-- Does one job, and gives the jobs that have to be done next because of it. -/
def perform : Job → Session × List Job
  | .look begun key script => (s.lookInto begun key script, [])
  | .pass root => if s.disk.hasPath root then s.takeUp root else (s, [])

/-- Begins to index again after a change of the document with a URI, and gives the jobs of the
run. -/
def beginReindex (uri : String) : Session × List Job :=
  let path := s.pathOf uri
  match reactionTo path with
  | .reindexRoot =>
    if s.disk.hasPath path then (s.addFile path).takeUp path
    else
      match s.documents.textFor s.disk.workingDirectory path with
      | .ok (some _) => (s.addFile path).takeUp path
      | .ok none => (s.forget path, [])
      | .error _ => (s, [])
  | .reindexAll => (s, s.files.map .pass)
  | .nothing => (s, [])

/-- Does a job and the jobs that it gives rise to. -/
def finishJob (job : Job) : Session :=
  (s.perform job).2.foldl (fun s job ↦ (s.perform job).1) (s.perform job).1

/-- Does jobs in a row, each with the jobs that it gives rise to. -/
def finish (jobs : List Job) : Session := jobs.foldl finishJob s

end Session

/-- What an editor does to a document. -/
inductive Edit where
  | openAs (text : String) (version : Int) (language : Option String)
  | update (text : String) (version : Option Int)
  | close
deriving DecidableEq, Repr

def Edit.apply (uri : String) (docs : Documents) : Edit → Documents
  | .openAs text version language => docs.openAs uri text version language
  | .update text version => docs.update uri text version
  | .close => docs.close uri

def Session.edit (s : Session) (uri : String) (e : Edit) : Session :=
  { s with documents := e.apply uri s.documents }

/-- A session that serves requests to index documents again. Requests for one document have its URI
for a key. -/
structure Service where
  session : Session
  coordinator : Coordinator Unit Unit := {}
  /-- By key, the jobs that are left of the run at the front of the line, once it has begun. -/
  runs : String → Option (List Job) := fun _ ↦ none
  /-- The URIs of the documents edited so far. -/
  edited : List String := []
  /-- The URIs of documents edited since the last request for them. -/
  unannounced : List String := []

namespace Service

/-- What can happen next to a service, where editors have to do with the documents in `scope` only.
A request is not given up. -/
inductive Step (scope : String → Prop) : Service → Service → Prop
  | edit {v : Service} {uri : String} (e : Edit) : scope uri →
      Step scope v
        { v with
          session := v.session.edit uri e
          edited := uri :: v.edited
          unannounced := uri :: v.unannounced }
  | request {v : Service} {uri : String} : scope uri →
      Step scope v
        { v with
          coordinator := v.coordinator.request uri ()
          unannounced := v.unannounced.filter (· != uri) }
  /-- The wait of a request ends, which launches its burst if there was no further request. -/
  | endWait {v : Service} (key : String) (number : Nat) :
      Step scope v { v with coordinator := (v.coordinator.endWait key number).1 }
  /-- A launched burst gets in line. -/
  | enter {v : Service} {burst : Burst Unit} : burst ∈ v.coordinator.launched →
      Step scope v { v with coordinator := (v.coordinator.enter burst).1 }
  /-- The run at the front of a line begins. -/
  | begin {v : Service} {key : String} {lock : Lock Unit} : v.coordinator.locks.lookup key
      = some lock →
      v.runs key = none →
      Step scope v
        { v with
          session := (v.session.beginReindex key).1
          runs := fun k ↦ if k = key then some (v.session.beginReindex key).2 else v.runs k }
  /-- A run does its next job. -/
  | work {v : Service} {key : String} {job : Job} {rest : List Job} : v.runs key
      = some (job :: rest) →
      Step scope v
        { v with
          session := (v.session.perform job).1
          runs := fun k ↦ if k = key then some ((v.session.perform job).2 ++ rest) else v.runs k }
  /-- A run that has done its jobs ends, with a result or in failure. -/
  | finish {v : Service} {key : String} (result : Option Unit) : v.runs key = some [] →
      Step scope v
        { v with
          coordinator := (v.coordinator.finish key result).1
          runs := fun k ↦ if k = key then none else v.runs k }

/-- What can become of a service in any number of steps. -/
inductive Reaches (scope : String → Prop) (v : Service) : Service → Prop
  | refl : Reaches scope v v
  | step {w w' : Service} : Reaches scope v w → Step scope w w' → Reaches scope v w'

/-- Every request made has been settled. -/
def IsSettled (v : Service) : Prop :=
  ∀ number < v.coordinator.made, ∃ e ∈ v.coordinator.settled, e.1.number = number

end Service

end MissionIndex
