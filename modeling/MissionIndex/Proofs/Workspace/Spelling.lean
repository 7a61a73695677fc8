import Mathlib.Data.List.Infix
import Mathlib.Data.List.Nodup
import MissionIndex.Proofs.Workspace.Walk

/-!
# Root files that are discovered twice

Repetitions among what is discovered are found by comparing names. So a root file is discovered
twice where it has two names, and it can have two as a search names what it finds by the workspace
folder, while the paths that the settings list are resolved against it or, where they are absolute,
taken as they are written. These names agree if no `..` is left of the workspace folder and the
absolute paths are in normal form (`nodup_map_absolute_discover`). Neither can be left out: a `..`
in the workspace folder gives two names to a file that the settings list and a search finds
(`exists_discovered_twice`), and any absolute path in another form is listed beside its normal form.
-/

namespace MissionIndex

/-- Every folder that a path leads through is there, also where the path leads back from it. -/
def Disk.LeadsThrough (disk : Disk) (path : String) : Prop :=
  ∀ front, front <+: Path.segments path → disk.isFolder ("/" ++ "/".intercalate front) = true

namespace Workspace

variable {disk : Disk} {settings : Settings} {root : String}

theorem nodup_map_absolute_discover (hdisk : Path.isRooted disk.workingDirectory = true)
    (htree : disk.IsTree) (hdots : ".." ∉ Path.segments (absoluteRoot disk root))
    (hlisted : ∀ item ∈ settings.descriptionFiles, Path.isAbsolute item = true →
      Path.IsNormal item) :
    ((discover disk settings root).map disk.absolute).Nodup := by
  have hsame : ∀ path ∈ discover disk settings root, disk.absolute path = path := by
    intro path hpath
    rcases isNormal_of_mem_discover disk hdisk htree hdots hpath with hnormal | ⟨hitem, habsolute⟩
    · exact hnormal.resolve_eq _
    · exact (hlisted path hitem habsolute).resolve_eq _
  rw [List.map_congr_left hsame, List.map_id']
  exact nodup_discover disk settings root

theorem not_nodup_map_absolute {path path' : String} (hpath : path ∈ discover disk settings root)
    (hpath' : path' ∈ discover disk settings root) (hne : path ≠ path')
    (hsame : disk.absolute path = disk.absolute path') :
    ¬((discover disk settings root).map disk.absolute).Nodup := by
  intro hnodup
  exact hne (List.inj_on_of_nodup_map hnodup hpath hpath' hsame)

section Members

variable {base : String} (hbase : absoluteRoot disk root = base)

include hbase

theorem mem_discover_of_listed {path : String} (h : path ∈ listed settings base) :
    path ∈ discover disk settings root := by
  subst hbase
  rw [discover, withoutRepetition_eq, List.mem_eraseDups]
  exact List.mem_append_left _ h

theorem mem_discover_of_found {folder : Place} (hsearch : settings.discover = true)
    (hthere : disk.lookup base = .ok (disk.place base)) (h : folder ∈ found disk settings base) :
    Path.append base (relativePath folder) ∈ discover disk settings root := by
  subst hbase
  have hscan := scan_eq (.inl hthere) settings (listed settings (absoluteRoot disk root))
  rw [discover, hsearch, if_pos rfl, withoutRepetition_eq, hscan, List.mem_eraseDups]
  exact List.mem_append_right _ (List.mem_map.mpr ⟨folder, h, rfl⟩)

end Members

/-- An absolute path that is not in normal form, listed beside its normal form. -/
theorem listed_twice (hdisk : Path.isRooted disk.workingDirectory = true) {item : String}
    (habsolute : Path.isAbsolute item = true) (hitem : ¬Path.IsNormal item) :
    ¬((discover disk { descriptionFiles := [item, disk.absolute item] } root).map
      disk.absolute).Nodup := by
  have hnormal : Path.IsNormal (disk.absolute item) := Path.isNormal_resolve hdisk item
  have habsolute' : Path.isAbsolute (disk.absolute item) = true := by
    rw [Path.isAbsolute, hnormal.rooted, Bool.true_or]
  have hlisted : listed { descriptionFiles := [item, disk.absolute item] } (absoluteRoot disk root)
      = [item, disk.absolute item] := by
    simp [listed, habsolute, habsolute']
  refine not_nodup_map_absolute (mem_discover_of_listed rfl (hlisted ▸ List.mem_cons_self))
    (mem_discover_of_listed rfl (hlisted ▸ List.mem_cons_of_mem _ List.mem_cons_self))
      (fun he ↦ ?_) ?_
  · exact hitem (he ▸ hnormal)
  · exact (Path.resolve_resolve hdisk item).symm

/-! ## Folders that lead back up -/

def freshName (names : List String) : String :=
  String.ofList ('a' :: 'a' :: List.replicate (names.flatMap String.toList).length 'a')

theorem freshName_notMem (names : List String) : freshName names ∉ names := by
  intro hmem
  have hlength :=
    (List.sublist_flatten_of_mem (List.mem_map_of_mem (f := String.toList) hmem)).length_le
  have hself : (freshName names).toList.length = (names.flatMap String.toList).length + 2 := by
    rw [freshName, String.toList_ofList, List.length_cons, List.length_cons, List.length_replicate]
  rw [← List.flatMap_def, hself] at hlength
  omega

theorem isName_freshName (names : List String) : Path.IsName (freshName names).toList := by
  rw [freshName, String.toList_ofList]
  refine ⟨List.cons_ne_nil _ _, by simp, by simp, by simp⟩

theorem isHiddenName_freshName (names : List String) :
    (freshName names).startsWith "." = false := by
  rw [← Bool.not_eq_true, String.startsWith_string_iff, freshName, String.toList_ofList]
  simp

theorem isAbsolute_relativePath_freshName (names : List String) :
    Path.isAbsolute (relativePath [freshName names]) = false := by
  have hlist : ∃ rest, (relativePath [freshName names]).toList = 'a' :: 'a' :: rest := by
    rw [relativePath, Path.toList_intercalate_slash, freshName]
    simp [Text.join]
  obtain ⟨rest, hrest⟩ := hlist
  have hrooted : Path.isRooted (relativePath [freshName names]) = false := by
    rw [← Bool.not_eq_true, Path.isRooted_iff, hrest]
    simp
  rw [Path.isAbsolute, hrooted, hrest]
  simp [Path.backslashed, Path.isDriveRooted, Path.namesShare, Path.namesDrive]

section Detour

variable (disk) (path : String)

def placesThrough : List Place :=
  (Path.segments path).inits.map fun front ↦ disk.place ("/" ++ "/".intercalate front)

def newFolder : String :=
    freshName ((placesThrough disk path).flatten ++ Disk.placeOf disk.workingDirectory)

/-- A disk with the folders that a path leads through, and with a root file in a new folder at its
end. -/
def detour : Disk where
  workingDirectory := disk.workingDirectory
  files := [(disk.place path ++ [newFolder disk path, FileRole.rootName], .bytes [])]
  folders := placesThrough disk path

theorem not_isFolderAt_detour :
    ∀ e ∈ (detour disk path).files, (detour disk path).isFolderAt e.1 = false := by
  intro e he
  obtain rfl := List.mem_singleton.mp he
  have hnew : newFolder disk path ∈ disk.place path ++
    [newFolder disk path, FileRole.rootName] := by simp
  have hfresh := freshName_notMem ((placesThrough disk path).flatten ++
    Disk.placeOf disk.workingDirectory)
  rw [List.mem_append, not_or] at hfresh
  rw [← Bool.not_eq_true, Disk.isFolderAt_iff]
  rintro (hnil | ⟨way, hway, hspot⟩)
  · exact absurd hnil (by simp)
  · simp only [Disk.ways, detour, List.cons_append, List.mem_cons, List.mem_append, List.map_cons,
      List.map_nil, List.not_mem_nil, or_false] at hway
    rcases hway with rfl | hway | rfl
    · exact hfresh.2 (hspot.subset hnew)
    · exact hfresh.1 (List.mem_flatten.mpr ⟨way, hway, hspot.subset hnew⟩)
    · have hlength := hspot.length_le
      simp at hlength

theorem isFolderAt_detour {front : List String} (hfront : front <+: Path.segments path) :
    (detour disk path).isFolderAt (disk.place ("/" ++ "/".intercalate front)) = true := by
  refine Disk.isFolderAt_iff.mpr (.inr ⟨_, ?_, List.prefix_rfl⟩)
  refine List.mem_cons_of_mem _ (List.mem_append_left _ ?_)
  exact List.mem_map.mpr ⟨front, (List.mem_inits _ _).mpr hfront, rfl⟩

theorem toList_slash_intercalate (front : List String) :
    ("/" ++ "/".intercalate front).toList = ['/'] ++ Text.join ['/'] (front.map String.toList) := by
  rw [String.toList_append, Path.toList_intercalate_slash]
  rfl

/-- A path that starts with what leads through the folders leads to its place. -/
theorem lookup_detour {slashes : List Char} {way : String} {front : List String}
    (hslashes : slashes = ['/'] ∨ slashes = ['/', '/'])
    (hway : way.toList = slashes ++ Text.join ['/'] (front.map String.toList))
    (hfront : front <+: Path.segments path) :
    (detour disk path).lookup way = .ok ((detour disk path).place way) := by
  have hparts : ∀ part ∈ (Path.segments path).map String.toList, '/' ∉ part := fun part hpart ↦
    (Path.mem_map_segments hpart).2.2
  have hmap := hfront.map String.toList
  refine Disk.lookup_of_parts hslashes (fun part hpart ↦ hparts part (hmap.subset hpart)) hway
    fun above part habove ↦ ?_
  have hprefix : above <+: (Path.segments path).map String.toList :=
    ((List.prefix_append _ _).trans habove).trans hmap
  have hsegments : above.map String.ofList <+: Path.segments path := by
    simpa using hprefix.map String.ofList
  have hplace := isFolderAt_detour disk path hsegments
  rw [disk.place_of_isRooted (Path.isRooted_iff.mpr (by rw [toList_slash_intercalate]; rfl)),
    toList_slash_intercalate, List.singleton_append, List.map_map] at hplace
  have hid : above.map (String.toList ∘ String.ofList) = above := by simp [Function.comp_def]
  have hnames : ∀ part ∈ above, '/' ∉ part := fun part hpart ↦
    hparts part <| hprefix.subset hpart
  rwa [hid, Path.components_slash_join hnames] at hplace

theorem leadsThrough_detour : (detour disk path).LeadsThrough path := by
  intro front hfront
  have hfolder := isFolderAt_detour disk path hfront
  have hlookup := lookup_detour disk path (.inl rfl) (toList_slash_intercalate front) hfront
  have hsame : (detour disk path).place ("/" ++ "/".intercalate front)
      = disk.place ("/" ++ "/".intercalate front) := rfl
  rw [Disk.isFolder, hlookup, hsame, Bool.and_eq_true, Option.isNone_iff_eq_none]
  refine ⟨?_, hfolder⟩
  rw [← Option.not_isSome_iff_eq_none, Disk.isSome_contentAt?_iff]
  rintro ⟨e, he, hspot⟩
  rw [← hspot, not_isFolderAt_detour disk path e he] at hfolder
  cases hfolder

variable {disk} {path}

theorem isTree_detour (hpath : Path.isRooted path = true) : (detour disk path).IsTree := by
  intro e he name hname
  obtain rfl := List.mem_singleton.mp he
  rcases List.mem_append.mp hname with hname | hname
  · rw [disk.place_of_isRooted hpath] at hname
    obtain ⟨part, hpart, rfl⟩ := List.mem_map.mp hname
    rw [String.toList_ofList]
    exact Path.isName_of_mem_components (Path.isRooted_iff.mp hpath) hpart
  · rcases List.mem_cons.mp hname with rfl | hname
    · exact isName_freshName _
    · rw [List.mem_singleton.mp hname]
      decide

end Detour

theorem toList_absoluteRoot (hdisk : Path.isRooted disk.workingDirectory = true) (root : String) :
    ∃ slashes, (slashes = ['/'] ∨ slashes = ['/', '/']) ∧ (absoluteRoot disk root).toList
      = slashes ++ Text.join ['/']
        ((Path.segments (absoluteRoot disk root)).map String.toList) := by
  have hroot : Path.isRooted (Path.append disk.workingDirectory (Path.tidy root)) = true :=
    Path.isRooted_append hdisk
  refine ⟨_, Path.rootSlashes_of_rooted (Path.isRooted_iff.mp hroot), ?_⟩
  rw [absoluteRoot, Path.segments_tidy hroot, Path.toList_tidy hroot]

/-- **A `..` in the workspace folder gives two names to a root file.** The tree and the settings
that it takes are ordinary ones: the folders that the workspace folder leads through are there, none
of them is a file as well, and the settings list no absolute path. -/
theorem exists_discovered_twice (hdisk : Path.isRooted disk.workingDirectory = true)
    (hdots : ".." ∈ Path.segments (absoluteRoot disk root)) :
    ∃ (disk' : Disk) (settings : Settings), disk'.workingDirectory = disk.workingDirectory ∧
    disk'.IsTree ∧
      (∀ e ∈ disk'.files, disk'.isFolderAt e.1 = false) ∧
      disk'.LeadsThrough (absoluteRoot disk root) ∧
      (∀ item ∈ settings.descriptionFiles, Path.isAbsolute item = false) ∧
      ¬((discover disk' settings root).map disk'.absolute).Nodup := by
  have hroot : Path.isRooted (absoluteRoot disk root) = true :=
    Path.isRooted_tidy (Path.isRooted_append hdisk)
  obtain ⟨slashes, hslashes, hlist⟩ := toList_absoluteRoot hdisk root
  have hsame : absoluteRoot (detour disk (absoluteRoot disk root)) root = absoluteRoot disk root :=
    rfl
  generalize absoluteRoot disk root = folder at hdots hroot hsame hlist ⊢
  let item := relativePath [newFolder disk folder]
  let settings : Settings := { descriptionFiles := [item] }
  have hitem : Path.isAbsolute item = false := isAbsolute_relativePath_freshName _
  have hitem' : Path.isRooted item = false := (Bool.or_eq_false_iff.mp hitem).1
  have htree : (detour disk folder).IsTree := isTree_detour hroot
  refine ⟨detour disk folder, settings, rfl, htree, not_isFolderAt_detour disk folder,
    leadsThrough_detour disk folder, fun i hi ↦ List.mem_singleton.mp hi ▸ hitem, ?_⟩
  have hlisted : Path.resolve folder item ∈ discover (detour disk folder) settings root := by
    refine mem_discover_of_listed hsame ?_
    simp [listed, settings, hitem]
  have hfound : Path.append folder item ∈ discover (detour disk folder) settings root := by
    have hmem : [newFolder disk folder] ∈ found (detour disk folder) settings folder := by
      refine (mem_found htree).mpr ⟨?_, fun name hname ↦ ?_, rfl⟩
      · refine Disk.holdsRoot_iff.mpr ⟨_, List.mem_singleton_self _, ?_⟩
        have hplace : (detour disk folder).place folder = disk.place folder := rfl
        rw [hplace, List.append_assoc]
        rfl
      · rw [List.mem_singleton.mp hname]
        exact isHiddenName_freshName _
    exact mem_discover_of_found hsame rfl (lookup_detour disk folder hslashes hlist List.prefix_rfl)
      hmem
  refine not_nodup_map_absolute hlisted hfound (fun he ↦ ?_) ?_
  · -- The one name is in normal form, and the other one goes through the `..`.
    have hnormal := Path.isNormal_resolve hroot item
    rw [he] at hnormal
    have hne : folder ≠ "" := by
      rintro rfl
      cases Path.isRooted_iff.mp hroot
    exact hnormal.dots_notMem (Path.mem_segments_append hne hitem' hdots)
  · rw [Disk.absolute, Disk.absolute, Path.resolve_of_isRooted (Path.isRooted_append hroot),
      ← Path.resolve_eq]
    exact (Path.isNormal_resolve hroot item).resolve_eq _

/-- **When no root file is discovered twice**: what is discovered has pairwise different absolute
normal forms if no `..` is left of the workspace folder when it is made absolute and the settings
list no absolute path in another form than its normal form. Either of the two can give two names to
one file. -/
theorem discovered_once (hdisk : Path.isRooted disk.workingDirectory = true) :
    (".." ∉ Path.segments (absoluteRoot disk root) → disk.IsTree → ∀ settings : Settings,
      (∀ item ∈ settings.descriptionFiles, Path.isAbsolute item = true → Path.IsNormal item) →
      ((discover disk settings root).map disk.absolute).Nodup) ∧
    (".." ∈ Path.segments (absoluteRoot disk root) → ∃ (disk' : Disk) (settings : Settings),
      disk'.workingDirectory = disk.workingDirectory ∧ disk'.IsTree ∧
      (∀ e ∈ disk'.files, disk'.isFolderAt e.1 = false) ∧
      disk'.LeadsThrough (absoluteRoot disk root) ∧
      (∀ item ∈ settings.descriptionFiles, Path.isAbsolute item = false) ∧
      ¬((discover disk' settings root).map disk'.absolute).Nodup) ∧
    ∀ item, Path.isAbsolute item = true → ¬Path.IsNormal item →
      ¬((discover disk { descriptionFiles := [item, disk.absolute item] } root).map
        disk.absolute).Nodup := by
  refine ⟨fun hdots htree settings hlisted ↦ ?_, exists_discovered_twice hdisk,
    fun item ↦ listed_twice hdisk⟩
  exact nodup_map_absolute_discover hdisk htree hdots hlisted

/-- A mission with a script in a folder of its own. -/
def scripted : Disk where
  files := [(["w", "description.ext"], .bytes []), (["w", "functions", "C", "fn_f.sqf"], .bytes [])]

theorem discovered_once_scripted :
    ((discover scripted { descriptionFiles := ["description.ext"] } "/w/./functions").map
      scripted.absolute).Nodup := by
  have hrooted : Path.isRooted scripted.workingDirectory = true := by decide +kernel
  have hdots : ".." ∉ Path.segments (absoluteRoot scripted "/w/./functions") := by decide +kernel
  have htree : scripted.IsTree := by decide
  refine (discovered_once hrooted).1 hdots htree _ fun item hitem habsolute ↦ ?_
  rw [List.mem_singleton.mp hitem] at habsolute
  exact absurd habsolute (by decide +kernel)

/-- The mission is discovered twice from the folder of the script and back. -/
theorem scripted_discovered_twice :
    discover scripted { descriptionFiles := ["description.ext"] } "/w/functions/.."
      = ["/w/description.ext", "/w/functions/../description.ext"] ∧
    scripted.absolute "/w/functions/../description.ext"
    = scripted.absolute "/w/description.ext" := by
  decide +kernel

end Workspace

end MissionIndex
