import MissionIndex.Proofs.Config.Provenance
import MissionIndex.Registry.Build

/-!
# The reports of a build

Building the function table of a tree fails only where a missing script would have to be reported in
a file without a URI. Where every class is declared in a file that has one, it succeeds. The reports
are then errors about such files, and there is one list of them for each file.
-/

namespace MissionIndex.Registry

open Config

/-- Reports are errors, under URIs that satisfy `U`, and each URI has one list of them. -/
structure Reports (U : String → Prop) (reports : List (String × List Diagnostic)) : Prop where
  nodup : (reports.map Prod.fst).Nodup
  uri : ∀ e ∈ reports, U e.1
  isError : ∀ e ∈ reports, ∀ d ∈ e.2, d.isError

theorem foldlM_isOk {α β ε : Type} {f : β → α → Except ε β} (inv : β → Prop) {items : List α}
    (hstep : ∀ b, inv b → ∀ a ∈ items, ∃ b', f b a = .ok b' ∧ inv b') {b : β} (hb : inv b) :
    ∃ b', items.foldlM f b = .ok b' ∧ inv b' := by
  induction items generalizing b with
  | nil => exact ⟨b, rfl, hb⟩
  | cons a rest ih =>
    obtain ⟨b₁, hb₁, hinv₁⟩ := hstep b hb a List.mem_cons_self
    rw [List.foldlM_cons, hb₁]
    exact ih (fun b hb a ha ↦ hstep b hb a (List.mem_cons_of_mem _ ha)) hinv₁

theorem Reports.nil {U : String → Prop} : Reports U [] := ⟨List.nodup_nil, nofun, nofun⟩

theorem Reports.push {U : String → Prop} {reports : List (String × List Diagnostic)}
    (h : Reports U reports) {uri : String} (huri : U uri) {d : Diagnostic} (hd : d.isError) :
    Reports U (Ordered.push uri d reports) := by
  refine ⟨Ordered.nodup_map_fst_put h.nodup uri _, fun e he ↦ ?_, fun e he ↦ ?_⟩
  · rcases Ordered.mem_of_mem_put he with rfl | he
    · exact huri
    · exact h.uri e he
  · rcases Ordered.mem_of_mem_put he with rfl | he
    · intro d' hd'
      rcases List.mem_append.mp hd' with hd' | hd'
      · cases hl : reports.lookup uri with
        | none =>
          rw [hl] at hd'
          cases hd'
        | some ds =>
          rw [hl] at hd'
          exact h.isError _ (Ordered.mem_of_lookup hl) d' hd'
      · rwa [List.mem_singleton.mp hd']
    · exact h.isError e he

section Trees

variable {P : Location → Prop} {U : String → Prop} {scope : Scope}

theorem Scope.fileOf_of_ne_empty (scope : Scope) {location : Location} (h : location.file ≠ "") :
    scope.fileOf location = location.file := by
  rw [fileOf, if_neg fun hempty ↦ h (String.isEmpty_iff.mp hempty)]

theorem Scope.addFunction_isOk
    (hP : ∀ l, P l → ∃ uri, Uri.ofPath scope.disk.workingDirectory (scope.fileOf l) = .ok uri ∧
      U uri)
    (context : Context) {build : Build} (h : Reports U build.diagnostics) {function : ConfigClass}
    (hfunction : function.Placed P) :
    ∃ build', scope.addFunction context build function = .ok build' ∧
    Reports U build'.diagnostics := by
  obtain ⟨uri, huri, hU⟩ := hP _ hfunction.location
  simp only [addFunction, huri]
  split
  · exact ⟨_, rfl, h⟩
  · exact ⟨_, rfl, h.push hU rfl⟩

theorem Scope.addTag_isOk
    (hP : ∀ l, P l → ∃ uri, Uri.ofPath scope.disk.workingDirectory (scope.fileOf l) = .ok uri ∧
      U uri)
    {build : Build} (h : Reports U build.diagnostics) {tagClass : ConfigClass}
    (htag : tagClass.Placed P) :
    ∃ build', scope.addTag build tagClass = .ok build' ∧ Reports U build'.diagnostics := by
  refine foldlM_isOk (fun b : Build ↦ Reports U b.diagnostics)
    (fun build h category hcategory ↦ ?_) h
  refine foldlM_isOk (fun b : Build ↦ Reports U b.diagnostics)
    (fun build h function hfunction ↦ ?_) h
  exact scope.addFunction_isOk hP _ h ((htag.classes category hcategory).classes function hfunction)

/-- **Building succeeds** where every class is declared in a file with a URI. -/
theorem build_isOk {settings : Settings} {disk : Disk} {root : String}
    (hP : ∀ l, P l → ∃ uri,
      Uri.ofPath disk.workingDirectory ((Scope.ofRoot settings disk root).fileOf l) = .ok uri ∧
      U uri)
    {tree : ConfigClass} (htree : tree.Placed P) :
    ∃ build, Registry.build settings disk root tree = .ok build ∧ Reports U build.diagnostics := by
  rw [Registry.build]
  split
  · exact ⟨{}, rfl, .nil⟩
  · next registry hregistry =>
    refine foldlM_isOk (fun b : Build ↦ Reports U b.diagnostics)
      (fun build h tagClass htag ↦ ?_) .nil
    exact (Scope.ofRoot settings disk root).addTag_isOk hP h
      ((htree.lookup hregistry).classes _ htag)

end Trees

end MissionIndex.Registry
