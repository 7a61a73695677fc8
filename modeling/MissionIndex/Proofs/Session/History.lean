import MissionIndex.Proofs.Session.Jobs

/-!
# What diagnostics are left of

A session goes through operations: documents are edited, files change, and it indexes a workspace or
indexes again. What is shown for a file is the work of what these operations *did*: they passed over
root files, forgot some, and gathered the root files of a workspace. Each such deed *touches* some
files, and what it finds in them is all that is shown for them until another deed touches them.

## Where a diagnostic may outlive its root file's contents

A pass touches the files that it opens. When a root file stops including a file, its next pass does
not open that file any more, so what an earlier pass has found there stays until a pass of some root
file opens it again. The same goes for the files that a root file has included when it is dropped:
forgetting it touches its own file only, and gathering the root files of a workspace touches none.
-/

namespace MissionIndex

/-- What can happen to a session. -/
inductive Operation where
  /-- A folder is indexed as a workspace. -/
  | index (folder : String)
  /-- Something is indexed again since the document with a URI has changed. -/
  | reindex (uri : String)
  /-- A document is edited. -/
  | edit (uri : String) (e : Edit)
  /-- The files and folders on disk become others. -/
  | change (files : List (Place × Content)) (folders : List Place)
  /-- The settings become others. -/
  | configure (settings : Settings)

/-- What an operation does to what is published and to the root files, with the session whose files
it reads. -/
inductive Deed where
  /-- A pass over a root file. -/
  | pass (reader : Session) (root : String)
  /-- A root file is forgotten. -/
  | forget (reader : Session) (path : String)
  /-- The root files become those that were found in a workspace. -/
  | gather (files : List String)

namespace Deed

/-- The URIs of the files that a deed says something about. -/
def touched : Deed → List String
  | pass reader root => reader.touched root
  | forget reader path => (reader.uriOf path).toOption.toList
  | gather _ => []

def finds : Deed → String → List Diagnostic
  | pass reader root, uri => reader.errorsOn root uri
  | forget _ _, _ | gather _, _ => []

def batch : Deed → List (String × List Diagnostic)
  | pass reader root => reader.batch root
  | forget reader path => ((reader.uriOf path).toOption.map fun uri ↦ (uri, [])).toList
  | gather _ => []

def settle (files : List String) : Deed → List String
  | pass _ root => if files.contains root then files else files ++ [root]
  | forget _ path => files.erase path
  | gather found => found

/-- A root file is none any more after a deed. -/
def Drops (root : String) : Deed → Prop
  | pass _ _ => False
  | forget _ path => path = root
  | gather found => root ∉ found

theorem latest?_cleared (found : Option String) (uri : String) :
    Session.latest? (found.map fun uri ↦ (uri, [])).toList uri
      = if uri ∈ found.toList then some [] else none := by
  have hcleared := Session.latest?_map_nil found.toList uri
  cases found with
  | none => rfl
  | some uri' => exact hcleared

theorem latest?_batch (deed : Deed) (uri : String) :
    Session.latest? deed.batch uri = if uri ∈ deed.touched then some (deed.finds uri)
      else none := by
  cases deed with
  | pass reader root => exact reader.latest?_batch root uri
  | forget reader path => exact latest?_cleared (reader.uriOf path).toOption uri
  | gather found => rfl

theorem mem_settle {root : String} {files : List String} (h : root ∈ files) (deed : Deed) :
    root ∈ deed.settle files ∨ deed.Drops root := by
  cases deed with
  | pass reader other =>
    rw [settle]
    split
    · exact .inl h
    · exact .inl (List.mem_append_left _ h)
  | forget reader path =>
    by_cases hpath : path = root
    · exact .inr hpath
    · exact .inl ((List.mem_erase_of_ne (Ne.symm hpath)).mpr h)
  | gather found => exact Classical.em _

theorem mem_settle_pass (files : List String) (reader : Session) (root : String) :
    root ∈ (pass reader root).settle files := by
  rw [settle]
  split
  · next h => exact List.contains_iff_mem.mp h
  · exact List.mem_append_right _ (List.mem_singleton_self root)

theorem mem_foldl_settle {root : String} {files : List String} (h : root ∈ files)
    (deeds : List Deed) :
    root ∈ deeds.foldl settle files ∨ ∃ deed ∈ deeds, deed.Drops root := by
  induction deeds generalizing files with
  | nil => exact .inl h
  | cons deed rest ih =>
    rcases mem_settle h deed with h | h
    · refine (ih h).imp_right ?_
      rintro ⟨later, hlater, hdrops⟩
      exact ⟨later, List.mem_cons_of_mem deed hlater, hdrops⟩
    · exact .inr ⟨deed, List.mem_cons_self, h⟩

theorem foldl_settle_pass {reader : Session} {roots files : List String}
    (h : ∀ root ∈ roots, root ∈ files) :
    (roots.map (pass reader)).foldl settle files = files := by
  induction roots with
  | nil => rfl
  | cons root rest ih =>
    have hroot : (pass reader root).settle files = files :=
      if_pos (List.contains_iff_mem.mpr (h root List.mem_cons_self))
    rw [List.map_cons, List.foldl_cons, hroot]
    exact ih fun r hr ↦ h r (List.mem_cons_of_mem root hr)

end Deed

namespace Session

def operate (s : Session) : Operation → Session
  | .index folder => s.index folder
  | .reindex uri => s.reindex uri
  | .edit uri e => s.edit uri e
  | .change files folders => { s with disk := { s.disk with files, folders } }
  | .configure settings => { s with settings }

def deeds (s : Session) : Operation → List Deed
  | .index folder =>
    let files := Workspace.discover s.disk s.settings folder
    (Workspace.present s.disk files).map (.pass s) ++ [.gather files]
  | .reindex uri =>
    let path := s.pathOf uri
    match reactionTo path with
    | .reindexRoot =>
      if s.disk.hasPath path then [.pass s path]
      else
        match s.documents.textFor s.disk.workingDirectory path with
        | .ok (some _) => [.pass s path]
        | .ok none => [.forget s path]
        | .error _ => []
    | .reindexAll => (Workspace.present s.disk s.files).map (.pass s)
    | .nothing => []
  | .edit _ _ | .change _ _ | .configure _ => []

def operateAll (s : Session) (operations : List Operation) : Session := operations.foldl operate s

/-- What operations in a row do, from the first deed to the last. -/
def history (s : Session) : List Operation → List Deed
  | [] => []
  | operation :: rest => s.deeds operation ++ (s.operate operation).history rest

/-- The session that the last pass over a root file has read. -/
def lastReader? (history : List Deed) (root : String) : Option Session :=
  history.reverse.findSome? fun
    | .pass reader other => if other = root then some reader else none
    | .forget _ _ | .gather _ => none

variable (s : Session)

theorem pass_addFile_publishes (path : String) :
    ((s.addFile path).pass path).1.published = s.published ++
      [Deed.pass s path].flatMap Deed.batch := by
  have hadd : Reads s (s.addFile path) ∧ (s.addFile path).published = s.published := by
    rw [addFile]
    split
    · exact ⟨.refl s, rfl⟩
    · exact ⟨⟨rfl, rfl, rfl⟩, rfl⟩
  rw [((s.addFile path).pass_publishes path).2, hadd.1.batch, hadd.2, List.flatMap_singleton]
  rfl

theorem forget_publishes (path : String) :
    (s.forget path).published = s.published ++ [Deed.forget s path].flatMap Deed.batch := by
  rw [forget, publishAt_eq, List.flatMap_singleton]
  rfl

theorem passOver_publishes (files : List String) :
    (s.passOver files).published
      = s.published ++ ((Workspace.present s.disk files).map (Deed.pass s)).flatMap Deed.batch := by
  rw [passOver, (s.passes_publish _).2, List.flatMap_map]
  rfl

/-- Operations publish what their deeds say. -/
theorem operate_publishes (operation : Operation) :
    (s.operate operation).published = s.published ++ (s.deeds operation).flatMap Deed.batch := by
  cases operation with
  | index folder =>
    rw [deeds, List.flatMap_append, ← List.append_assoc, ← passOver_publishes]
    exact (List.append_nil _).symm
  | reindex uri =>
    have hpath : s.disk.absolute (Uri.toPath uri) = s.pathOf uri := rfl
    simp only [operate, reindex, deeds, hpath]
    cases reactionTo (s.pathOf uri) with
    | reindexRoot =>
      dsimp only
      rw [reindexRoot]
      split
      · exact s.pass_addFile_publishes (s.pathOf uri)
      · rcases s.documents.textFor s.disk.workingDirectory (s.pathOf uri) with e | _ | text
        · exact (List.append_nil _).symm
        · exact s.forget_publishes (s.pathOf uri)
        · exact s.pass_addFile_publishes (s.pathOf uri)
    | reindexAll => exact s.passOver_publishes s.files
    | nothing => exact (List.append_nil _).symm
  | edit uri e => exact (List.append_nil _).symm
  | change files folders => exact (List.append_nil _).symm
  | configure settings => exact (List.append_nil _).symm

theorem operateAll_publishes (operations : List Operation) :
    (s.operateAll operations).published = s.published ++
      (s.history operations).flatMap Deed.batch := by
  induction operations generalizing s with
  | nil => exact (List.append_nil _).symm
  | cons operation rest ih =>
    have hrest : s.operateAll (operation :: rest) = (s.operate operation).operateAll rest := rfl
    rw [hrest, ih, operate_publishes, history, List.flatMap_append, List.append_assoc]

theorem find?_reverse_eq_some_iff {α : Type} {p : α → Bool} {items : List α} {a : α} :
    items.reverse.find? p = some a ↔
      p a = true ∧ ∃ before after, items = before ++ a :: after ∧ ∀ b ∈ after, p b = false := by
  rw [List.find?_eq_some_iff_append]
  refine and_congr_right fun _ ↦ ⟨?_, ?_⟩
  · rintro ⟨after, before, hsplit, hafter⟩
    refine ⟨before.reverse, after.reverse, ?_, fun b hb ↦ ?_⟩
    · rw [← List.reverse_reverse items, hsplit]
      simp only [List.reverse_append, List.reverse_cons, List.append_assoc, List.singleton_append]
    · simpa using hafter b (List.mem_reverse.mp hb)
  · rintro ⟨before, after, rfl, hafter⟩
    refine ⟨after.reverse, before.reverse, ?_, fun b hb ↦ ?_⟩
    · simp only [List.reverse_append, List.reverse_cons, List.append_assoc, List.singleton_append]
    · simpa using hafter b (List.mem_reverse.mp hb)

theorem shown_operateAll (operations : List Operation) (uri : String) :
    (s.operateAll operations).shown uri
      = (((s.history operations).reverse.find? fun deed ↦ decide (uri ∈ deed.touched)).map
          (·.finds uri)).getD (s.shown uri) := by
  have hshown : ∀ s' : Session, s'.shown uri = (latest? s'.published uri).getD [] := fun s' ↦ rfl
  rw [hshown, operateAll_publishes, latest?_append, latest?_flatMap Deed.latest?_batch, hshown]
  cases (s.history operations).reverse.find? fun deed ↦ decide (uri ∈ deed.touched) <;> rfl

/-! ## Root files -/

theorem files_pass (root : String) : (s.pass root).1.files = s.files := by
  rw [← foldl_takeUp]
  have hjobs : ∀ (jobs : List Job) (s' : Session),
      (jobs.foldl (fun s job ↦ (s.perform job).1) s').files = s'.files := by
    intro jobs
    induction jobs with
    | nil => exact fun _ ↦ rfl
    | cons job rest ih => exact fun s' ↦ (ih _).trans (s'.perform_spec job).2
  exact (hjobs _ _).trans (s.takeUp_spec root).2.1

theorem files_passOver (files : List String) : (s.passOver files).files = s.files := by
  rw [passOver]
  generalize Workspace.present s.disk files = roots
  induction roots generalizing s with
  | nil => rfl
  | cons root rest ih => exact (ih _).trans (s.files_pass root)

theorem files_forget (path : String) : (s.forget path).files = s.files.erase path := by
  rw [forget, publishAt_eq]

/-- The root files after an operation are those that its deeds leave. -/
theorem files_operate (operation : Operation) :
    (s.operate operation).files = (s.deeds operation).foldl Deed.settle s.files := by
  have hpass : ∀ path, ((s.addFile path).pass path).1.files
      = [Deed.pass s path].foldl Deed.settle s.files := by
    intro path
    rw [files_pass, addFile, List.foldl_cons, List.foldl_nil, Deed.settle]
    split <;> rfl
  cases operation with
  | index folder =>
    rw [deeds, List.foldl_append]
    rfl
  | reindex uri =>
    have hpath : s.disk.absolute (Uri.toPath uri) = s.pathOf uri := rfl
    simp only [operate, reindex, deeds, hpath]
    cases reactionTo (s.pathOf uri) with
    | reindexRoot =>
      dsimp only
      rw [reindexRoot]
      split
      · exact hpass (s.pathOf uri)
      · rcases s.documents.textFor s.disk.workingDirectory (s.pathOf uri) with e | _ | text
        · rfl
        · exact s.files_forget (s.pathOf uri)
        · exact hpass (s.pathOf uri)
    | reindexAll =>
      have hroots : ∀ root ∈ Workspace.present s.disk s.files, root ∈ s.files :=
        fun root hroot ↦ (List.mem_filter.mp hroot).1
      exact (s.files_passOver s.files).trans (Deed.foldl_settle_pass hroots).symm
    | nothing => rfl
  | edit uri e => rfl
  | change files folders => rfl
  | configure settings => rfl

theorem files_operateAll (operations : List Operation) :
    (s.operateAll operations).files = (s.history operations).foldl Deed.settle s.files := by
  induction operations generalizing s with
  | nil => rfl
  | cons operation rest ih =>
    have hrest : s.operateAll (operation :: rest) = (s.operate operation).operateAll rest := rfl
    rw [hrest, ih, files_operate, history, List.foldl_append]

/-! ## Where a diagnostic comes from -/

/-- After a pass over a root file, the last one over it is that pass or a later one. -/
theorem lastReader?_append_pass (before after : List Deed) (reader : Session) (root : String) :
    lastReader? (before ++ .pass reader root :: after) root = some reader ∨
      ∃ later, lastReader? (before ++ .pass reader root :: after) root = some later ∧
      Deed.pass later root ∈ after := by
  rw [lastReader?, List.reverse_append, List.reverse_cons, List.append_assoc, List.findSome?_append,
    List.singleton_append, List.findSome?_cons]
  simp only [if_true]
  generalize hlater : after.reverse.findSome? _ = found
  cases found with
  | none => exact .inl rfl
  | some later =>
    refine .inr ⟨later, rfl, ?_⟩
    obtain ⟨deed, hdeed, hfound⟩ := List.exists_of_findSome?_eq_some hlater
    rw [List.mem_reverse] at hdeed
    cases deed with
    | pass other otherRoot =>
      obtain ⟨rfl, hother⟩ := Option.ite_none_right_eq_some.mp hfound
      rwa [← Option.some.inj hother]
    | forget other path => cases hfound
    | gather found => cases hfound

/-- **What is shown for a file comes from the last pass that opened it.** This is the last pass over
its root file, unless a later one did not open the file; and the root file still is one, unless it
has been dropped since. Where a root file has been forgotten and its own file has not been opened
since, nothing is shown for it. -/
theorem shown_of_history {s : Session} (hstart : s.published = []) (operations : List Operation)
    (uri : String) :
    (∀ d ∈ (s.operateAll operations).shown uri, ∃ before reader root after,
      s.history operations = before ++ .pass reader root :: after ∧
        uri ∈ reader.touched root ∧ d ∈ reader.errorsOn root uri ∧
        (∀ deed ∈ after, uri ∉ deed.touched) ∧
        (lastReader? (s.history operations) root = some reader ∨
          ∃ later, lastReader? (s.history operations) root = some later ∧
          uri ∉ later.touched root) ∧
        (root ∈ (s.operateAll operations).files ∨ ∃ deed ∈ after, deed.Drops root)) ∧
      ∀ before reader path after, s.history operations = before ++ .forget reader path :: after →
        reader.uriOf path = .ok uri → (∀ deed ∈ after, uri ∉ deed.touched) →
          (s.operateAll operations).shown uri = [] := by
  have hnothing : s.shown uri = [] := by
    rw [shown, hstart]
    rfl
  have hshown := s.shown_operateAll operations uri
  rw [hnothing] at hshown
  constructor
  · intro d hd
    rw [hshown] at hd
    cases hlast : (s.history operations).reverse.find? fun deed ↦ decide (uri ∈ deed.touched) with
    | none =>
      rw [hlast] at hd
      cases hd
    | some deed =>
      rw [hlast] at hd
      obtain ⟨htouched, before, after, hhistory, hafter⟩ := find?_reverse_eq_some_iff.mp hlast
      cases deed with
      | forget reader path => cases hd
      | gather found => cases hd
      | pass reader root =>
        have hlater : ∀ later ∈ after, uri ∉ later.touched :=
          fun later hmem ↦ of_decide_eq_false (hafter later hmem)
        refine ⟨before, reader, root, after, hhistory, of_decide_eq_true htouched, hd,
          hlater, ?_, ?_⟩
        · rw [hhistory]
          refine (lastReader?_append_pass before after reader root).imp_right ?_
          rintro ⟨later, hlast, hmem⟩
          exact ⟨later, hlast, hlater _ hmem⟩
        · rw [files_operateAll, hhistory, List.foldl_append, List.foldl_cons]
          exact Deed.mem_foldl_settle (Deed.mem_settle_pass _ reader root) _
  · intro before reader path after hhistory huri hafter
    have hforget : uri ∈ (Deed.forget reader path).touched := by
      rw [Deed.touched, huri]
      exact List.mem_singleton_self uri
    have hlast : (s.history operations).reverse.find? (fun deed ↦ decide (uri ∈ deed.touched))
        = some (.forget reader path) :=
      find?_reverse_eq_some_iff.mpr ⟨decide_eq_true hforget, before, after, hhistory,
        fun later hmem ↦ decide_eq_false (hafter later hmem)⟩
    rw [hshown, hlast]
    rfl

def declaringFile : Place × Content :=
  (["m", "a.hpp"], .bytes (Text.encodeUtf8
    "class CfgFunctions\x7bclass T\x7bclass C\x7bclass f\x7b\x7d;\x7d;\x7d;\x7d;".toList))

def including : Session where
  disk.files :=
    [(["m", "description.ext"], .bytes (Text.encodeUtf8 "#include \"a.hpp\"".toList)),
      declaringFile]
  settings := { discover := false }

/-- The mission is indexed, then its root file stops including the other file, and is indexed
again. -/
def stopIncluding : List Operation :=
  [.index "/m", .change [(["m", "description.ext"], .bytes []), declaringFile] [],
    .reindex "file:///m/description.ext"]

/-- The report about the function comes from the pass of the first index. -/
theorem shown_of_history_including :
    including.published = [] ∧ ∃ d ∈ (including.operateAll stopIncluding).shown "file:///m/a.hpp",
      ∃ before reader root after, including.history stopIncluding = before ++
        .pass reader root :: after ∧
        d ∈ reader.errorsOn root "file:///m/a.hpp" ∧
        ∀ deed ∈ after, "file:///m/a.hpp" ∉ deed.touched := by
  have hshown : (including.operateAll stopIncluding).shown "file:///m/a.hpp" ≠ [] := by
    decide +kernel
  obtain ⟨d, hd⟩ := List.exists_mem_of_ne_nil _ hshown
  obtain ⟨before, reader, root, after, hhistory, -, hfound, hafter, -⟩ :=
    (shown_of_history rfl stopIncluding "file:///m/a.hpp").1 d hd
  exact ⟨rfl, d, hd, before, reader, root, after, hhistory, hfound, hafter⟩

/-- The mission is indexed, then its root file is deleted, and the session takes notice. -/
def deleteRoot (notice : Operation) : List Operation :=
  [.index "/m", .change [declaringFile] [], notice]

/-- The report about the function is still shown when the root file has stopped including the file,
and its last pass has found nothing there, and when the root file has been forgotten, or has not
been found any more, and there is none left. -/
theorem shown_outdated :
    ((including.operateAll stopIncluding).files = ["/m/description.ext"] ∧
      (including.operateAll stopIncluding).shown "file:///m/a.hpp" ≠ [] ∧
      (lastReader? (including.history stopIncluding) "/m/description.ext").map
        (·.errorsOn "/m/description.ext" "file:///m/a.hpp") = some []) ∧
    ((including.operateAll (deleteRoot (.reindex "file:///m/description.ext"))).files = [] ∧
      (including.operateAll (deleteRoot (.reindex "file:///m/description.ext"))).shown
        "file:///m/a.hpp" ≠ []) ∧
    (including.operateAll (deleteRoot (.index "/m"))).files = [] ∧
      (including.operateAll (deleteRoot (.index "/m"))).shown "file:///m/a.hpp" ≠ [] := by
  refine ⟨⟨by decide +kernel, by decide +kernel, by decide +kernel⟩,
    ⟨by decide +kernel, by decide +kernel⟩, by decide +kernel, by decide +kernel⟩

end Session

end MissionIndex
