import MissionIndex.Proofs.Ordered
import MissionIndex.Proofs.Disk
import MissionIndex.Workspace.Discovery

/-!
# What is discovered is there, and under which name

A root file that a search finds is named by a path that leads back to the place where it was found.
For this the places on a disk have to be made of names, as those of every file tree are
(`Disk.IsTree`).

## Names

The path of a root file that a search finds starts with the workspace folder, and a path that the
settings list may be taken as it is written there. So what is discovered has its absolute normal
form for a name if no `..` is left of the folder when it is made absolute, and the settings list no
absolute path in another form.
-/

namespace MissionIndex

namespace Disk

variable (disk : Disk)

/-- The places of files are made of names. -/
def IsTree : Prop := ∀ e ∈ disk.files, ∀ name ∈ e.1, Path.IsName name.toList

instance : Decidable disk.IsTree :=
  inferInstanceAs (Decidable (∀ e ∈ disk.files, ∀ name ∈ e.1, Path.IsName name.toList))

end Disk

namespace Workspace

variable (disk : Disk)

/-- A root file that a search finds below a place is found there, in the folder that the search
names. -/
theorem eq_of_folderBelow? {root file folder : Place} (h : folderBelow? root file = some folder) :
    file = root ++ (folder ++ [FileRole.rootName]) := by
  rw [folderBelow?] at h
  split at h
  · next hfile =>
    rw [Bool.and_eq_true, Bool.and_eq_true, beq_iff_eq, List.isPrefixOf_iff_prefix, bne_iff_ne]
      at hfile
    obtain ⟨⟨hlast, tail, rfl⟩, hne⟩ := hfile
    have htail : tail ≠ [] := fun he ↦ hne (by rw [he, List.append_nil])
    rw [List.getLast?_append, List.getLast?_eq_some_getLast htail, Option.some_or,
      ← List.getLast?_eq_some_getLast htail, List.getLast?_eq_some_iff] at hlast
    obtain ⟨way, rfl⟩ := hlast
    rw [List.dropLast_append_of_ne_nil htail, List.drop_left, List.dropLast_concat] at h
    simp only at h
    split at h
    · cases h
    · rw [Option.some.inj h]
  · cases h

theorem exists_of_mem_scan {settings : Settings} {root path : String}
    (h : path ∈ scan disk settings root) :
    disk.lookup root = .ok (disk.place root) ∧ ∃ e ∈ disk.files, ∃ names, names ≠ [] ∧
      e.1 = disk.place root ++ names ∧ path = Path.append root ("/".intercalate names) := by
  rw [scan] at h
  split at h
  · exact absurd h List.not_mem_nil
  · next spot hlookup =>
    obtain rfl := Disk.place_of_lookup hlookup
    obtain ⟨relative, hrelative, rfl⟩ := List.mem_map.mp h
    obtain ⟨folder, hfolder, rfl⟩ := List.mem_map.mp (List.mem_filter.mp hrelative).1
    rw [foldersWithRoot, List.mem_mergeSort] at hfolder
    obtain ⟨e, he, hbelow⟩ := List.mem_filterMap.mp hfolder
    refine ⟨hlookup, e, he, folder ++ [FileRole.rootName], ?_, eq_of_folderBelow? hbelow, rfl⟩
    exact List.append_ne_nil_of_right_ne_nil _ (List.cons_ne_nil _ _)

/-- **Every root file that a search finds is there.** -/
theorem hasPath_of_mem_scan (htree : disk.IsTree) {settings : Settings} {root path : String}
    (hroot : Path.isRooted root = true) (h : path ∈ scan disk settings root) :
    disk.hasPath path := by
  obtain ⟨hlookup, e, he, names, hne, hplace, rfl⟩ := exists_of_mem_scan disk h
  have hnames : ∀ name ∈ names, Path.IsName name.toList := fun name hname ↦
    htree e he name (hplace ▸ List.mem_append_right _ hname)
  have hstands : disk.standsAt (disk.place root ++ names) = true :=
    Bool.or_eq_true_iff.mpr (.inl (Disk.isSome_contentAt?_iff.mpr ⟨e, he, hplace⟩))
  have hlookup' := Disk.lookup_append hroot hlookup hnames hne fun front hfront hother ↦ by
    refine Disk.isFolderAt_of_standsAt hstands ?_ fun he ↦ hother (List.append_cancel_left he)
    exact (List.prefix_append_right_inj _).mpr hfront
  rw [Disk.hasPath_iff, Disk.place_append hroot hnames hne]
  exact ⟨hlookup', hstands⟩

theorem withoutRepetition_eq (items : List String) : withoutRepetition items = items.eraseDups := by
  induction items using List.reverseRecOn with
  | nil => rfl
  | append_singleton items item ih =>
    have hstep : withoutRepetition (items ++ [item]) = if (withoutRepetition items).contains item
        then
        withoutRepetition items else withoutRepetition items ++ [item] := List.foldl_append
    rw [hstep, ih, Ordered.eraseDups_concat]
    simp only [List.contains_iff_mem, List.mem_eraseDups]

theorem nodup_discover (settings : Settings) (root : String) :
    (discover disk settings root).Nodup := by
  rw [discover, withoutRepetition_eq]
  exact Ordered.nodup_eraseDups _

/-- What is discovered is listed, is found by a search, or is the workspace folder's own root
file. -/
theorem mem_discover {settings : Settings} {root path : String}
    (h : path ∈ discover disk settings root) :
    path ∈ listed settings (absoluteRoot disk root) ∨
    path ∈ scan disk settings (absoluteRoot disk root) ∨
      path = Path.append (absoluteRoot disk root) FileRole.rootName ∧ disk.hasPath path := by
  rw [discover, withoutRepetition_eq, List.mem_eraseDups] at h
  rcases List.mem_append.mp h with h | h
  · exact .inl h
  · split at h
    · exact .inr (.inl h)
    · simp only at h
      split at h
      · next hown =>
        rw [List.mem_singleton] at h
        exact .inr (.inr ⟨h, h ▸ hown⟩)
      · cases h

theorem isRooted_absoluteRoot {root : String} (h : Path.isRooted root = true) :
    Path.isRooted (absoluteRoot disk root) = true := by
  have htidy := Path.isRooted_tidy h
  rw [absoluteRoot, Path.append, if_pos htidy]
  exact Path.isRooted_tidy htidy

/-- **Every root file that is discovered is there**, if those that the settings list are. -/
theorem hasPath_of_mem_discover (htree : disk.IsTree) {settings : Settings} {root path : String}
    (hroot : Path.isRooted root = true)
    (hlisted : ∀ item ∈ listed settings (absoluteRoot disk root), disk.hasPath item)
    (h : path ∈ discover disk settings root) : disk.hasPath path := by
  rcases mem_discover disk h with h | h | ⟨-, hown⟩
  · exact hlisted path h
  · exact hasPath_of_mem_scan disk htree (isRooted_absoluteRoot disk hroot) h
  · exact hown

/-! ## Names -/

theorem isNormal_of_mem_scan (htree : disk.IsTree) {settings : Settings} {root path : String}
    (hroot : Path.IsNormal root) (h : path ∈ scan disk settings root) : Path.IsNormal path := by
  obtain ⟨-, e, he, names, hne, hplace, rfl⟩ := exists_of_mem_scan disk h
  refine hroot.append_intercalate (fun name hname ↦ htree e he name ?_) hne
  rw [hplace]
  exact List.mem_append_right _ hname

theorem isNormal_absoluteRoot (hdisk : Path.isRooted disk.workingDirectory = true) {root : String}
    (hdots : ".." ∉ Path.segments (absoluteRoot disk root)) :
    Path.IsNormal (absoluteRoot disk root) := by
  have hrooted : Path.isRooted (Path.append disk.workingDirectory (Path.tidy root)) = true :=
    Path.isRooted_append hdisk
  rw [absoluteRoot, Path.segments_tidy hrooted] at hdots
  exact Path.isNormal_tidy hrooted hdots

/-- **What is discovered has its absolute normal form for a name**, if no `..` is left of the
workspace folder when it is made absolute. An absolute path that the settings list is taken as it is
written there. -/
theorem isNormal_of_mem_discover (hdisk : Path.isRooted disk.workingDirectory = true)
    (htree : disk.IsTree) {settings : Settings} {root path : String}
    (hdots : ".." ∉ Path.segments (absoluteRoot disk root))
    (h : path ∈ discover disk settings root) :
    Path.IsNormal path ∨ path ∈ settings.descriptionFiles ∧ Path.isAbsolute path = true := by
  have hnormal := isNormal_absoluteRoot disk hdisk hdots
  rcases mem_discover disk h with h | h | ⟨rfl, -⟩
  · obtain ⟨item, hitem, rfl⟩ := List.mem_map.mp h
    split
    · next habsolute => exact .inr ⟨hitem, habsolute⟩
    · exact .inl (Path.isNormal_resolve hnormal.rooted item)
  · exact .inl (isNormal_of_mem_scan disk htree hnormal h)
  · have hown : "/".intercalate [FileRole.rootName] = FileRole.rootName := rfl
    rw [← hown]
    refine .inl (hnormal.append_intercalate (fun name hname ↦ ?_) (List.cons_ne_nil _ _))
    rw [List.mem_singleton.mp hname]
    decide

end Workspace

end MissionIndex
