import MissionIndex.Proofs.Ordered
import MissionIndex.Registry.Build

/-!
# What a tree declares

The functions of a tree stand in a row: those of the first category of the first tag, those of its
second category, and so on. Building goes through them once. The table has all of them, where the
last of those with one name counts, and the reports about a file are those of the functions that are
declared there and have no script, in the order of the declarations.
-/

namespace MissionIndex

namespace Registry

open Config

/-! ## Declarations in a row -/

/-- The functions that a tree declares, each with what its category leaves to it. -/
def declared (settings : Settings) (tree : ConfigClass) : List (Context × ConfigClass) :=
  match tree.child? registryName with
  | none => []
  | some registry =>
    registry.body.classes.flatMap fun (_, tagClass) ↦
      tagClass.body.classes.flatMap fun (_, category) ↦
        category.body.classes.map fun (_, function) ↦
          (contextOf settings (tagOf tagClass) category, function)

theorem foldlM_flatMap {α β γ ε : Type} (f : γ → β → Except ε γ) (g : α → List β)
    (items : List α) (c : γ) :
    (items.flatMap g).foldlM f c = items.foldlM (fun c a ↦ (g a).foldlM f c) c := by
  induction items generalizing c with
  | nil => rfl
  | cons a rest ih =>
    rw [List.flatMap_cons, List.foldlM_append, List.foldlM_cons]
    exact congrArg _ (funext ih)

theorem build_eq_foldlM (settings : Settings) (disk : Disk) (root : String) (tree : ConfigClass) :
    build settings disk root tree
      = (declared settings tree).foldlM
          (fun build d ↦ (Scope.ofRoot settings disk root).addFunction d.1 build d.2) {} := by
  rw [build, declared]
  cases tree.child? registryName with
  | none => rfl
  | some registry =>
    simp only [foldlM_flatMap, List.foldlM_map]
    rfl

/-! ## What is built -/

namespace Scope

variable (scope : Scope)

def entryOf (d : Context × ConfigClass) : String × FunctionRecord :=
  let r := scope.recordOf d.1 d.2
  (r.key, r)

/-- The reports about the file with a URI, from declarations in a row: one for each declaration that
stands in such a file and has no script. -/
def reportsOn (uri : String) (ds : List (Context × ConfigClass)) : List Diagnostic :=
  (ds.filter fun d ↦ !scope.disk.isFile (scope.scriptOf d.1 d.2) &&
      (Uri.ofPath scope.disk.workingDirectory (scope.fileOf d.2.location)).toOption == some uri).map
    fun d ↦ missingScript (scope.recordOf d.1 d.2) d.2

/-- The report about a declaration without a script, under the URI of its file. -/
def noteOn? (d : Context × ConfigClass) : Option (String × Diagnostic) :=
  if scope.disk.isFile (scope.scriptOf d.1 d.2) then none
  else (Uri.ofPath scope.disk.workingDirectory (scope.fileOf d.2.location)).toOption.map fun uri ↦
    (uri, missingScript (scope.recordOf d.1 d.2) d.2)

theorem reportsOn_eq (uri : String) (ds : List (Context × ConfigClass)) :
    scope.reportsOn uri ds = ((ds.filterMap scope.noteOn?).filter (·.1 == uri)).map Prod.snd := by
  induction ds with
  | nil => rfl
  | cons d rest ih =>
    have hsplit : scope.reportsOn uri (d :: rest) = scope.reportsOn uri [d] ++
        scope.reportsOn uri rest := by
      rw [← List.singleton_append, reportsOn, List.filter_append, List.map_append]
      rfl
    rw [hsplit, ih, ← List.singleton_append (l := rest), List.filterMap_append, List.filter_append,
      List.map_append]
    refine congrArg (· ++ _) ?_
    by_cases hfile : scope.disk.isFile (scope.scriptOf d.1 d.2) = true
    · simp [reportsOn, noteOn?, hfile]
    · cases huri : Uri.ofPath scope.disk.workingDirectory (scope.fileOf d.2.location) with
      | error e => simp [reportsOn, noteOn?, hfile, huri, Except.toOption]
      | ok file =>
        by_cases hsame : file = uri
        · simp [reportsOn, noteOn?, hfile, huri, hsame, Except.toOption]
        · simp [reportsOn, noteOn?, hfile, huri, hsame, Except.toOption]

/-- Adding a function fails only where its script is missing and its file has no URI. -/
theorem exists_addFunction_iff (context : Context) (b : Build) (function : ConfigClass) :
    (∃ b', scope.addFunction context b function = .ok b') ↔
      (scope.disk.isFile (scope.scriptOf context function) = false →
        ∃ uri, Uri.ofPath scope.disk.workingDirectory (scope.fileOf function.location)
          = .ok uri) := by
  have hscript : (scope.recordOf context function).script = scope.scriptOf context function := rfl
  rw [addFunction, hscript]
  cases hfile : scope.disk.isFile (scope.scriptOf context function) with
  | true => simp
  | false =>
    cases huri : Uri.ofPath scope.disk.workingDirectory (scope.fileOf function.location) with
    | error e => simp
    | ok uri => simp

theorem addFunction_eq_ok {context : Context} {b b' : Build} {function : ConfigClass}
    (h : scope.addFunction context b function = .ok b') :
    b'.functions
        = Ordered.put (scope.entryOf (context, function)).1 (scope.entryOf (context, function)).2
          b.functions ∧
      b'.diagnostics = (scope.noteOn? (context, function)).toList.foldl
        (fun table e ↦ Ordered.push e.1 e.2 table) b.diagnostics := by
  have hscript : (scope.recordOf context function).script = scope.scriptOf context function := rfl
  rw [addFunction, hscript] at h
  by_cases hfile : scope.disk.isFile (scope.scriptOf context function) = true
  · rw [if_pos hfile] at h
    obtain rfl := Except.ok.inj h
    refine ⟨rfl, ?_⟩
    rw [noteOn?, if_pos hfile]
    rfl
  · rw [if_neg hfile] at h
    cases huri : Uri.ofPath scope.disk.workingDirectory (scope.fileOf function.location) with
    | error e =>
      rw [huri] at h
      cases h
    | ok uri =>
      rw [huri] at h
      obtain rfl := Except.ok.inj h
      refine ⟨rfl, ?_⟩
      rw [noteOn?, if_neg hfile, huri]
      rfl

/-- Whether functions can be added does not depend on what was built before. -/
theorem exists_foldlM_addFunction_iff (ds : List (Context × ConfigClass)) (b : Build) :
    (∃ b', ds.foldlM (fun b d ↦ scope.addFunction d.1 b d.2) b = .ok b') ↔
      ∀ d ∈ ds, scope.disk.isFile (scope.scriptOf d.1 d.2) = false →
        ∃ uri, Uri.ofPath scope.disk.workingDirectory (scope.fileOf d.2.location) = .ok uri := by
  induction ds generalizing b with
  | nil => exact ⟨fun _ ↦ nofun, fun _ ↦ ⟨b, rfl⟩⟩
  | cons d rest ih =>
    rw [List.forall_mem_cons, ← scope.exists_addFunction_iff d.1 b d.2, List.foldlM_cons]
    cases hd : scope.addFunction d.1 b d.2 with
    | error e =>
      refine ⟨fun ⟨_, h⟩ ↦ ?_, fun ⟨⟨_, h⟩, _⟩ ↦ ?_⟩
      · cases h
      · cases h
    | ok next =>
      rw [← ih next]
      exact ⟨fun h ↦ ⟨⟨next, rfl⟩, h⟩, fun h ↦ h.2⟩

theorem foldlM_addFunction {ds : List (Context × ConfigClass)} {b b' : Build}
    (h : ds.foldlM (fun b d ↦ scope.addFunction d.1 b d.2) b = .ok b') :
    b'.functions = (ds.map scope.entryOf).foldl (fun table (key, r) ↦ Ordered.put key r table)
      b.functions ∧
      b'.diagnostics = (ds.filterMap scope.noteOn?).foldl (fun table e ↦ Ordered.push e.1 e.2 table)
        b.diagnostics := by
  induction ds generalizing b with
  | nil =>
    obtain rfl := Except.ok.inj h
    exact ⟨rfl, rfl⟩
  | cons d rest ih =>
    rw [List.foldlM_cons] at h
    cases hd : scope.addFunction d.1 b d.2 with
    | error e =>
      rw [hd] at h
      cases h
    | ok next =>
      rw [hd] at h
      obtain ⟨hfunctions, hreports⟩ := scope.addFunction_eq_ok hd
      obtain ⟨hfunctions', hreports'⟩ := ih h
      refine ⟨by rw [hfunctions', hfunctions]; rfl, ?_⟩
      rw [hreports', hreports, ← List.foldl_append, ← List.singleton_append (l := rest),
        List.filterMap_append]
      cases hnote : scope.noteOn? d with
      | none => simp [hnote]
      | some note => simp [hnote]

end Scope

section Builds

variable {settings : Settings} {disk : Disk} {root : String} {tree : ConfigClass} {b : Build}

theorem diagnostics_of_build (h : build settings disk root tree = .ok b) :
    b.diagnostics
      = Ordered.grouped ((declared settings tree).filterMap
        (Scope.ofRoot settings disk root).noteOn?) := by
  rw [build_eq_foldlM] at h
  rw [((Scope.ofRoot settings disk root).foldlM_addFunction h).2]
  exact Ordered.foldl_push _

/-- **A build has an entry for every declaration, and a report for every one without a script.** -/
theorem build_eq_ok (h : build settings disk root tree = .ok b) :
    b.functions = Ordered.ofEntries
      ((declared settings tree).map (Scope.ofRoot settings disk root).entryOf) ∧
      ∀ uri, (b.diagnostics.lookup uri).getD []
        = (Scope.ofRoot settings disk root).reportsOn uri (declared settings tree) := by
  refine ⟨?_, fun uri ↦ ?_⟩
  · rw [build_eq_foldlM] at h
    exact ((Scope.ofRoot settings disk root).foldlM_addFunction h).1
  · rw [diagnostics_of_build h, Ordered.lookup_grouped, Scope.reportsOn_eq]

end Builds

end Registry

end MissionIndex
