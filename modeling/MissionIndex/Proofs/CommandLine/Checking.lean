import MissionIndex.CommandLine.Commands
import MissionIndex.Proofs.Session.Findings
import MissionIndex.Proofs.Workspace.Walk

/-!
# What a check reports

A check indexes a workspace and reports the diagnostics that are left, which are those shown in the
end. Its status is 1 just when one of them is an error.

## Shared files

Root files may include the same file. Every pass over a root file takes down what is shown for the
files that it opens, so for a shared file only the last word counts. An error that one root file has
in a shared file is lost when a later root file includes that file and has no such error. The check
keeps all errors exactly where the last root file that touches a file finds there whatever the root
files before it have found.
-/

namespace MissionIndex.CommandLine

open Session

/-! ## Remarks -/

namespace Remarks

theorem ofPublished_append (published : List (String × List Diagnostic))
    (e : String × List Diagnostic) :
    ofPublished (published ++ [e]) = (ofPublished published).publish e.1 e.2 := by
  rw [ofPublished, List.foldl_append]
  rfl

theorem nodup_ofPublished (published : List (String × List Diagnostic)) :
    ((ofPublished published).map Prod.fst).Nodup := by
  induction published using List.reverseRecOn with
  | nil => exact List.nodup_nil
  | append_singleton published e ih =>
    rw [ofPublished_append, publish]
    split
    · exact ih.sublist ((Ordered.erase_sublist _ _).map _)
    · exact Ordered.nodup_map_fst_put ih _ _

/-- The remarks on a file are those published last, if there are any. -/
theorem lookup_ofPublished (published : List (String × List Diagnostic)) (uri : String) :
    (ofPublished published).lookup uri = (latest? published uri).filter (!·.isEmpty) := by
  induction published using List.reverseRecOn with
  | nil => rfl
  | append_singleton published e ih =>
    obtain ⟨other, ds⟩ := e
    rw [ofPublished_append, latest?_append, publish]
    by_cases huri : uri = other
    · subst huri
      have hlast : latest? [(uri, ds)] uri = some ds := by simp [latest?]
      rw [hlast, Option.some_or]
      split
      · next hempty =>
        rw [Ordered.lookup_erase_self (nodup_ofPublished published), Option.filter_some, hempty]
        rfl
      · next hempty =>
        rw [Ordered.lookup_put_self, Option.filter_some, if_pos (by simpa using hempty)]
    · have hne : (uri == other) = false := by simpa using huri
      have hlast : latest? [(other, ds)] uri = none := by simp [latest?, List.lookup_cons, hne]
      rw [hlast, Option.none_or, ← ih]
      split
      · exact Ordered.lookup_erase_of_ne huri _
      · exact Ordered.lookup_put_of_ne huri _ _

/-- Errors are counted where any are left. -/
theorem errorCount_ofPublished_eq_zero {published : List (String × List Diagnostic)} :
    (ofPublished published).errorCount = 0 ↔
      ∀ uri, ∀ d ∈ (latest? published uri).getD [], ¬d.isError := by
  rw [errorCount, List.countP_eq_zero]
  constructor
  · intro h uri d hd
    cases hlatest : latest? published uri with
    | none =>
      rw [hlatest] at hd
      cases hd
    | some ds =>
      rw [hlatest] at hd
      have hlookup : (ofPublished published).lookup uri = some ds := by
        rw [lookup_ofPublished, hlatest, Option.filter_some, if_pos]
        cases ds with
        | nil => cases hd
        | cons d rest => rfl
      exact h d (List.mem_flatMap.mpr ⟨_, Ordered.mem_of_lookup hlookup, hd⟩)
  · intro h d hd
    obtain ⟨⟨uri, ds⟩, he, hd⟩ := List.mem_flatMap.mp hd
    have hlookup := Ordered.lookup_of_mem (nodup_ofPublished published) he
    rw [lookup_ofPublished, Option.filter_eq_some_iff] at hlookup
    exact h uri d (by rw [hlookup.1]; exact hd)

end Remarks

theorem status_checkReport (s : Session) :
    (checkReport s).status = 1 ↔ ∃ uri, ∃ d ∈ s.shown uri, d.isError := by
  have hcount : (Remarks.ofPublished s.published).errorCount = 0 ↔
      ∀ uri, ∀ d ∈ s.shown uri, ¬d.isError :=
    Remarks.errorCount_ofPublished_eq_zero
  simp only [checkReport]
  split
  · next hzero =>
    refine iff_of_false Nat.zero_ne_one fun ⟨uri, d, hd, herror⟩ ↦ ?_
    exact hcount.mp hzero uri d hd herror
  · next hnonzero =>
    refine iff_of_true rfl ?_
    by_contra hnone
    exact hnonzero (hcount.mpr fun uri d hd herror ↦ hnone ⟨uri, d, hd, herror⟩)

/-! ## Indexing -/

/-- **A check keeps the errors of all root files exactly where they do not disagree.** What is shown
for a file is what the last root file that touches it has found there; so all errors are kept just
when for every file this last root file finds what any other has found, and the status is 1 just
when a root file has an error in a file that no later one touches. -/
theorem index_keeps_errors_iff (disk : Disk) (settings : Settings) (documents : Documents)
    (folder : String) :
    let s : Session := { disk, settings, documents }
    let roots := Workspace.present disk (Workspace.discover disk settings folder)
    (∀ uri, (s.index folder).shown uri
        = ((s.lastTouching roots uri).map (s.errorsOn · uri)).getD []) ∧
      ((∀ root ∈ roots, ∀ uri, s.errorsOn root uri ⊆ (s.index folder).shown uri) ↔
        ∀ uri last, s.lastTouching roots uri = some last →
          ∀ root ∈ roots, s.errorsOn root uri ⊆ s.errorsOn last uri) ∧
      ((checkReport (s.index folder)).status = 1 ↔
        ∃ uri last, s.lastTouching roots uri = some last ∧ s.errorsOn last uri ≠ []) := by
  intro s roots
  have hshown : ∀ uri, (s.index folder).shown uri
      = ((s.lastTouching roots uri).map (s.errorsOn · uri)).getD [] := s.shown_passes roots
  refine ⟨hshown, ?_, ?_⟩
  · constructor
    · intro h uri last hlast root hroot
      have hkept := h root hroot uri
      rwa [hshown, hlast] at hkept
    · intro h root hroot uri d hd
      rw [hshown]
      cases hlast : s.lastTouching roots uri with
      | none =>
        -- The root file with the error touches the file itself.
        have hnone := List.find?_eq_none.mp hlast root (List.mem_reverse.mpr hroot)
        exact absurd (decide_eq_true (s.mem_touched_of_mem_errorsOn hd)) hnone
      | some last => exact h uri last hlast root hroot hd
  · rw [status_checkReport]
    refine exists_congr fun uri ↦ ?_
    rw [hshown]
    cases s.lastTouching roots uri with
    | none => simp
    | some last =>
      simp only [Option.map_some, Option.getD_some, Option.some.injEq, exists_eq_left', ne_eq]
      constructor
      · rintro ⟨d, hd, -⟩ hempty
        rw [hempty] at hd
        cases hd
      · intro hne
        obtain ⟨d, hd⟩ := List.exists_mem_of_ne_nil _ hne
        exact ⟨d, hd, s.isError_of_mem_errorsOn hd⟩

/-- Two missions that declare their functions in one shared file. Only the second one has the
script. -/
def twoMissions : Disk where
  files :=
    [(["w", "a", "description.ext"], .bytes (Text.encodeUtf8 "#include \"../c.hpp\"".toList)),
      (["w", "b", "description.ext"], .bytes (Text.encodeUtf8 "#include \"../c.hpp\"".toList)),
      (["w", "b", "functions", "C", "fn_f.sqf"], .bytes []),
      (["w", "c.hpp"], .bytes
        (Text.encodeUtf8
          "class CfgFunctions\x7bclass T\x7bclass C\x7bclass f\x7b\x7d;\x7d;\x7d;\x7d;".toList))]

theorem present_twoMissions :
    Workspace.present twoMissions (Workspace.discover twoMissions {} "/w")
      = ["/w/a/description.ext", "/w/b/description.ext"] := by
  have hfound : (twoMissions.files.filterMap fun e ↦ Workspace.folderBelow? ["w"] e.1)
      = [["a"], ["b"]] := by decide +kernel
  have hroot : Path.IsNormal "/w" := by decide +kernel
  have hlookup : twoMissions.lookup "/w" = .ok ["w"] := by decide +kernel
  have hsorted : [["a"], ["b"]].mergeSort Workspace.walksBefore = [["a"], ["b"]] :=
    List.mergeSort_of_pairwise (by decide +kernel)
  have hfolders : Workspace.foldersWithRoot twoMissions ["w"] = [["a"], ["b"]] :=
    (congrArg (List.mergeSort · Workspace.walksBefore) hfound).trans hsorted
  have hscan : Workspace.scan twoMissions {} "/w"
      = ["/w/a/description.ext", "/w/b/description.ext"] := by
    rw [Workspace.scan, hlookup]
    simp only [hfolders]
    decide +kernel
  have hdiscover : Workspace.discover twoMissions {} "/w" = Workspace.withoutRepetition
      (Workspace.listed {} "/w" ++ Workspace.scan twoMissions {} "/w") := by
    rw [Workspace.discover, Workspace.absoluteRoot_of_isNormal hroot]
    rfl
  rw [hdiscover, hscan]
  decide +kernel

/-- The second mission takes down the error of the first, and the check reports none. -/
theorem shared_error_lost :
    let s : Session := { disk := twoMissions }
    let roots := Workspace.present twoMissions (Workspace.discover twoMissions {} "/w")
    "/w/a/description.ext" ∈ roots ∧
      s.errorsOn "/w/a/description.ext" "file:///w/c.hpp" ≠ [] ∧
      (s.index "/w").shown "file:///w/c.hpp" = [] ∧ (checkReport (s.index "/w")).status = 0 := by
  intro s roots
  have hroots : roots = ["/w/a/description.ext", "/w/b/description.ext"] := present_twoMissions
  have hindex : (s.index "/w").published = [] ++ roots.flatMap s.batch := s.published_index "/w"
  have hshown : (s.index "/w").shown "file:///w/c.hpp"
      = (latest? (s.index "/w").published "file:///w/c.hpp").getD [] := rfl
  have hstatus : ∀ s' : Session, (checkReport s').status
      = if (Remarks.ofPublished s'.published).errorCount = 0 then 0 else 1 := fun _ ↦ rfl
  rw [hshown, hstatus, hindex, hroots]
  decide +kernel

end MissionIndex.CommandLine
