import MissionIndex.Proofs.Session.Editing
import MissionIndex.Proofs.Uri
import MissionIndex.Proofs.Workspace.Watching
import MissionIndex.Session.Watching

/-!
# What a watcher passes on

A watcher goes by the path of a changed file as it is told of it, and the session by the path that
is left of the URI it is given. For plain paths below the watched folder with no name that starts
with a dot, the two agree on which files matter (`forwarded_iff_reindexed`).
-/

namespace MissionIndex

variable {root path : String}

/-! ## What matters to a session -/

namespace Session

variable (s : Session)

theorem reactionTo_ne_nothing_iff : reactionTo path ≠ .nothing ↔
    FileRole.isRootName (Path.fileName path) = true ∨
      FileRole.includeExtensions.contains (Path.extension (Text.lower (Path.fileName path)))
        = true := by
  rw [reactionTo, FileRole.isRootName, beq_iff_eq]
  split
  · next hroot => exact iff_of_true Reaction.noConfusion (.inl hroot)
  · next hroot =>
    split
    · next hending => exact iff_of_true Reaction.noConfusion (.inr hending)
    · next hending => exact iff_of_false (absurd rfl) (not_or.mpr ⟨hroot, hending⟩)

theorem getLast?_segments_of_below? {rest : List String}
    (hbelow : Workspace.below? root path = some rest) (hrest : rest ≠ []) :
    ∃ name ∈ rest, (Path.segments path).getLast? = some name := by
  simp only [Workspace.below?] at hbelow
  split at hbelow
  · have hdrop := Option.some.inj hbelow
    obtain ⟨name, hname⟩ := Option.ne_none_iff_exists'.mp (mt List.getLast?_eq_none_iff.mp hrest)
    refine ⟨name, List.mem_of_getLast? hname, ?_⟩
    rw [← List.take_append_drop (Path.segments root).length (Path.segments path), hdrop,
      List.getLast?_append, hname]
    rfl
  · cases hbelow

/-- **A watcher and the session agree on the files that matter.** A plain path below the watched
folder on which no name starts with a dot has a URI that leads back to it, and a change there other
than a move is passed on, under this URI, just if the session takes the URI for that of a root file
or of a file to include. -/
theorem forwarded_iff_reindexed {rest : List String} {change : Workspace.Change}
    (hplain : Uri.IsPlainPath path) (hbelow : Workspace.below? root path = some rest)
    (hrest : rest ≠ []) (hshown : ∀ name ∈ rest, name.startsWith "." = false)
    (hchange : change ≠ .moved) :
    ∃ uri, s.uriOf path = .ok uri ∧ s.pathOf uri = path ∧
      (Workspace.isForwarded root { change, path } = true ↔ reactionTo (s.pathOf uri) ≠ .nothing) ∧
      Workspace.toReindex s.disk.workingDirectory root { change, path }
        = .ok (if Workspace.isForwarded root { change, path } then [uri] else []) ∧
      s.reindex uri = match reactionTo (s.pathOf uri) with
        | .reindexRoot => s.reindexRoot path
        | .reindexAll => s.passOver s.files
        | .nothing => s := by
  have huri : s.uriOf path = .ok (String.ofList (Uri.scheme ++ Uri.encode path.toList)) :=
    hplain.ofPath_eq _
  have hpath : s.pathOf _ = path := pathOf_eq hplain huri
  refine ⟨_, huri, hpath, ?_, ?_, ?_⟩
  · have hnormal : Path.IsNormal path := ⟨Path.isRooted_iff.mpr hplain.rooted, hplain.normal⟩
    obtain ⟨name, hname, hlast⟩ := getLast?_segments_of_below? hbelow hrest
    have hfile : Path.fileName path = name := by rw [hnormal.fileName_eq, hlast, Option.getD_some]
    have hslash := (hnormal.isName_of_mem_segments (List.mem_of_getLast? hlast)).noSlash
    have hdot : name.toList.head? ≠ some '.' := fun hhead ↦ by
      have hstarts : name.startsWith "." = true := by
        rw [String.startsWith_string_iff, ← List.cons_head?_tail hhead]
        exact List.prefix_append ['.'] _
      rw [hshown name hname] at hstarts
      cases hstarts
    have hhidden : rest.any Path.isHiddenName = false := by
      refine List.any_eq_false.mpr fun n hn ↦ ?_
      rw [Path.isHiddenName, hshown n hn]
      exact Bool.false_ne_true
    have hchange' : (change != .moved) = true := bne_iff_ne.mpr hchange
    rw [hpath, reactionTo_ne_nothing_iff, hfile, ← isIncludeExtension_suffix_eq hslash hdot,
      Workspace.isForwarded, hchange', Workspace.matters]
    simp only [hbelow, hhidden, hlast, Option.getD_some, Bool.not_false, Bool.true_and,
      Bool.or_eq_true]
  · rw [Workspace.toReindex]
    split
    · rw [uriOf] at huri
      rw [huri]
      rfl
    · rfl
  · rw [pathOf] at hpath
    cases hreaction : reactionTo path <;> simp only [pathOf, reindex, hpath, hreaction]

/-- The name of a file to include, with two dots, and with letters in front of them that change with
what stands around them or become two in lower case. -/
theorem forwarded_iff_reindexed_letters :
    let s : Session := { disk := {} }
    let path := "/w/a/ΑΣ.İ.HPP"
    ∃ uri, s.uriOf path = .ok uri ∧ s.pathOf uri = path ∧
      Workspace.toReindex s.disk.workingDirectory "/w" { change := .deleted, path } = .ok [uri] ∧
      s.reindex uri = s.passOver s.files := by
  intro s path
  have hreaction : reactionTo path = .reindexAll := by decide +kernel
  have hbelow : Workspace.below? "/w" path = some ["a", "ΑΣ.İ.HPP"] := by decide +kernel
  have hchange : Workspace.Change.deleted ≠ .moved := by decide
  obtain ⟨uri, huri, hpath, hforwarded, hsubmitted, hreindex⟩ :=
    s.forwarded_iff_reindexed (by decide +kernel) hbelow (by decide) (by decide +kernel) hchange
  rw [hpath, hreaction] at hforwarded hreindex
  rw [if_pos (hforwarded.mpr nofun)] at hsubmitted
  exact ⟨uri, huri, hpath, hsubmitted, hreindex⟩

end Session

end MissionIndex
