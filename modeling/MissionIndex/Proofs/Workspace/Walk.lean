import Mathlib.Data.List.Basic
import MissionIndex.Proofs.Workspace.Discovery

/-!
# The search as a walk through the tree

A search goes down from the workspace folder: a folder comes before the folders in it, those come
sorted by their names, and hidden ones are left out (`walk`). So it reaches every folder that no
hidden one leads to (`mem_walk`), in the lexicographic order of the ways to them (`pairwise_walk`).
The folders with a root file among them are those that are found by sorting the places of the files
on the disk (`eraseDups_foldersWithRoot`).
-/

namespace MissionIndex

namespace Disk

variable {disk : Disk}

def holdsRoot (disk : Disk) (spot : Place) : Bool :=
  (disk.contentAt? (spot ++ [FileRole.rootName])).isSome

theorem holdsRoot_iff {spot : Place} :
    disk.holdsRoot spot = true ↔ ∃ e ∈ disk.files, e.1 = spot ++ [FileRole.rootName] := by
  rw [holdsRoot, isSome_contentAt?_iff]

end Disk

namespace Workspace

variable {disk : Disk}

/-! ## Folders in a folder -/

def nextName? (spot way : Place) : Option String :=
  if spot.isPrefixOf way then way[spot.length]? else none

theorem nextName?_eq_some {spot way : Place} {name : String} :
    nextName? spot way = some name ↔ spot ++ [name] <+: way := by
  rw [nextName?]
  split
  · next h =>
    obtain ⟨rest, rfl⟩ := List.isPrefixOf_iff_prefix.mp h
    rw [List.prefix_append_right_inj, List.getElem?_append_right (Nat.le_refl _), Nat.sub_self]
    cases rest with
    | nil => simp
    | cons first rest => simp [eq_comm]
  · next h =>
    refine iff_of_false (fun he ↦ nomatch he) fun habove ↦ h ?_
    exact List.isPrefixOf_iff_prefix.mpr ((List.prefix_append _ _).trans habove)

/-- The names of the folders in a folder that are not hidden, sorted. -/
def subfolders (disk : Disk) (spot : Place) : List String :=
  ((disk.ways.filterMap (nextName? spot)).filter fun name ↦
    !Path.isHiddenName name).eraseDups.mergeSort
    fun name name' ↦ !decide (name' < name)

theorem mem_subfolders {spot : Place} {name : String} : name ∈ subfolders disk spot ↔
    disk.isFolderAt (spot ++ [name]) = true ∧ Path.isHiddenName name = false := by
  have hne : spot ++ [name] ≠ [] := List.append_ne_nil_of_right_ne_nil _ (List.cons_ne_nil _ _)
  rw [subfolders, List.mem_mergeSort, List.mem_eraseDups, List.mem_filter, List.mem_filterMap,
    Bool.not_eq_true', Disk.isFolderAt_iff, or_iff_right hne]
  simp only [nextName?_eq_some]

theorem pairwise_subfolders (disk : Disk) (spot : Place) :
    (subfolders disk spot).Pairwise (· < ·) := by
  have hnodup : (subfolders disk spot).Nodup :=
    (List.mergeSort_perm _ _).symm.nodup (Ordered.nodup_eraseDups _)
  have hsorted : (subfolders disk spot).Pairwise fun name name' ↦ (!decide (name' < name))
      = true := by
    refine List.pairwise_mergeSort (fun a b c hab hbc ↦ ?_) (fun a b ↦ ?_) _
    · simp only [Bool.not_eq_true', decide_eq_false_iff_not, String.not_lt] at hab hbc ⊢
      exact String.le_trans hab hbc
    · simp only [Bool.or_eq_true, Bool.not_eq_true', decide_eq_false_iff_not, String.not_lt]
      exact String.le_total a b
  refine (hnodup.and hsorted).imp fun {name name'} h ↦ ?_
  have hnot : ¬name' < name := by simpa using h.2
  by_contra hlt
  exact h.1 (Std.Trichotomous.trichotomous name name' hlt hnot)

/-! ## The walk -/

theorem length_lt_of_mem_subfolders {spot : Place} {name : String}
    (h : name ∈ subfolders disk spot) :
    spot.length < disk.ways.flatten.length := by
  have hne : spot ++ [name] ≠ [] := List.append_ne_nil_of_right_ne_nil _ (List.cons_ne_nil _ _)
  obtain ⟨way, hway, hspot⟩ := (Disk.isFolderAt_iff.mp (mem_subfolders.mp h).1).resolve_left hne
  have hlength := hspot.length_le
  have hflatten := (List.sublist_flatten_of_mem hway).length_le
  rw [List.length_append, List.length_singleton] at hlength
  omega

/-- The folders below a place that no hidden folder leads to: the folder itself, and then, for each
folder in it by name, those below that one. -/
def walk (disk : Disk) (spot : Place) : List Place :=
  [] :: (subfolders disk spot).attach.flatMap fun ⟨name, _⟩ ↦
  (walk disk (spot ++ [name])).map (name :: ·)
termination_by disk.ways.flatten.length - spot.length
decreasing_by
  next h =>
    have := length_lt_of_mem_subfolders h
    rw [List.length_append, List.length_singleton]
    omega

theorem walk_eq (disk : Disk) (spot : Place) : walk disk spot =
    [] :: (subfolders disk spot).flatMap fun name ↦
      (walk disk (spot ++ [name])).map (name :: ·) := by
  have hattach :=
    List.flatMap_map Subtype.val (fun name ↦ (walk disk (spot ++ [name])).map (name :: ·))
    (subfolders disk spot).attach
  rw [List.attach_map_subtype_val] at hattach
  rw [walk, hattach]

/-- **A walk reaches the folders that no hidden one leads to.** -/
theorem mem_walk {spot folder : Place} : folder ∈ walk disk spot ↔
    (folder ≠ [] → disk.isFolderAt (spot ++ folder) = true) ∧
    ∀ name ∈ folder, Path.isHiddenName name = false := by
  induction folder generalizing spot with
  | nil =>
    rw [walk_eq]
    simp
  | cons name rest ih =>
    have hstep : name :: rest ∈ walk disk spot ↔ name ∈ subfolders disk spot ∧
        rest ∈ walk disk (spot ++ [name]) := by
      rw [walk_eq]
      simp [List.mem_flatMap]
    have hplace : spot ++ [name] ++ rest = spot ++ name :: rest := by simp
    rw [hstep, ih, mem_subfolders, hplace, List.forall_mem_cons]
    constructor
    · rintro ⟨⟨hfolder, hname⟩, hrest, hnames⟩
      refine ⟨fun _ ↦ ?_, hname, hnames⟩
      by_cases hnil : rest = []
      · rwa [hnil]
      · exact hrest hnil
    · rintro ⟨hfolder, hname, hnames⟩
      have hwhole := hfolder (List.cons_ne_nil _ _)
      refine ⟨⟨Disk.isFolderAt_of_prefix hwhole ⟨rest, hplace⟩, hname⟩, fun _ ↦ hwhole, hnames⟩

/-- **A walk goes in the lexicographic order of the ways.** -/
theorem pairwise_walk (disk : Disk) (spot : Place) : (walk disk spot).Pairwise (· < ·) := by
  induction spot using walk.induct disk with
  | case1 spot ih =>
    rw [walk_eq, List.pairwise_cons, List.pairwise_flatMap]
    refine ⟨fun folder hfolder ↦ ?_, fun name hname ↦ ?_, ?_⟩
    · obtain ⟨name, -, hmem⟩ := List.mem_flatMap.mp hfolder
      obtain ⟨rest, -, rfl⟩ := List.mem_map.mp hmem
      exact List.nil_lt_cons _ _
    · rw [List.pairwise_map]
      refine (ih name hname).imp fun hlt ↦ ?_
      exact List.cons_lt_cons_iff.mpr (.inr ⟨rfl, hlt⟩)
    · refine (pairwise_subfolders disk spot).imp fun hlt folder hfolder folder' hfolder' ↦ ?_
      obtain ⟨rest, -, rfl⟩ := List.mem_map.mp hfolder
      obtain ⟨rest', -, rfl⟩ := List.mem_map.mp hfolder'
      exact List.cons_lt_cons_iff.mpr (.inl hlt)

/-! ## Sorting the places of files -/

theorem walksBefore_iff {spot spot' : Place} : walksBefore spot spot' = true ↔ ¬spot' < spot := by
  induction spot generalizing spot' with
  | nil => simp [walksBefore]
  | cons name rest ih =>
    cases spot' with
    | nil => simp [walksBefore]
    | cons name' rest' =>
      rw [walksBefore, List.cons_lt_cons_iff]
      split
      · next he =>
        rw [ih, he, or_iff_right (String.lt_irrefl name'), and_iff_right rfl]
      · next hne =>
        rw [decide_eq_true_eq]
        constructor
        · rintro hlt (hgt | ⟨he, -⟩)
          · exact String.lt_asymm hlt hgt
          · exact hne he.symm
        · intro hnot
          by_contra hlt
          exact hne (Std.Trichotomous.trichotomous _ _ hlt fun hgt ↦ hnot (.inl hgt))

theorem folderBelow?_append (root folder : Place) :
    folderBelow? root (root ++ (folder ++ [FileRole.rootName])) =
    if folder.any Path.isHiddenName then none else some folder := by
  have hcond : ((root ++ (folder ++ [FileRole.rootName])).getLast? == some FileRole.rootName &&
      root.isPrefixOf (root ++ (folder ++ [FileRole.rootName])) &&
      root != root ++ (folder ++ [FileRole.rootName])) = true := by
    rw [← List.append_assoc, List.getLast?_concat, beq_self_eq_true, Bool.true_and,
      List.append_assoc, Bool.and_eq_true, List.isPrefixOf_iff_prefix, bne_iff_ne]
    exact ⟨List.prefix_append _ _, by simp⟩
  have hfolder : (root ++ (folder ++ [FileRole.rootName])).dropLast.drop root.length = folder := by
    rw [← List.append_assoc, List.dropLast_concat, List.drop_left]
  rw [folderBelow?, if_pos hcond, hfolder]

theorem folderBelow?_eq_some {root file folder : Place} : folderBelow? root file = some folder ↔
    file = root ++ (folder ++ [FileRole.rootName]) ∧ ∀ name ∈ folder, Path.isHiddenName name
      = false := by
  have hhidden : folder.any Path.isHiddenName = false ↔ ∀ name ∈ folder, Path.isHiddenName name
    = false := by simp
  constructor
  · intro h
    obtain rfl := eq_of_folderBelow? h
    rw [folderBelow?_append] at h
    split at h
    · cases h
    · next hany => exact ⟨rfl, hhidden.mp (Bool.eq_false_iff.mpr hany)⟩
  · rintro ⟨rfl, hnames⟩
    rw [folderBelow?_append, hhidden.mpr hnames]
    rfl

theorem mem_foldersWithRoot {root folder : Place} : folder ∈ foldersWithRoot disk root ↔
    disk.holdsRoot (root ++ folder) = true ∧ ∀ name ∈ folder, Path.isHiddenName name = false := by
  rw [foldersWithRoot, List.mem_mergeSort, List.mem_filterMap, Disk.holdsRoot_iff]
  simp only [folderBelow?_eq_some, List.append_assoc]
  constructor
  · rintro ⟨e, he, hfile, hnames⟩
    exact ⟨⟨e, he, hfile⟩, hnames⟩
  · rintro ⟨⟨e, he, hfile⟩, hnames⟩
    exact ⟨e, he, hfile, hnames⟩

/-- **Sorting the places of root files walks through the tree.** -/
theorem eraseDups_foldersWithRoot (disk : Disk) (root : Place) :
    (foldersWithRoot disk root).eraseDups =
    (walk disk root).filter fun folder ↦ disk.holdsRoot (root ++ folder) := by
  have hsorted : (foldersWithRoot disk root).Pairwise fun spot spot' ↦ ¬spot' < spot := by
    refine (List.pairwise_mergeSort (fun a b c hab hbc ↦ ?_) (fun a b ↦ ?_) _).imp
      walksBefore_iff.mp
    · rw [walksBefore_iff] at hab hbc ⊢
      intro hca
      by_cases hlt : b < c
      · exact hab (List.lt_trans hlt hca)
      · exact hab (Std.Trichotomous.trichotomous b c hlt hbc ▸ hca)
    · rw [Bool.or_eq_true, walksBefore_iff, walksBefore_iff]
      by_cases hlt : a < b
      · exact .inl (List.lt_asymm hlt)
      · exact .inr hlt
  have hwalk : ((walk disk root).filter fun folder ↦ disk.holdsRoot (root ++ folder)).Pairwise
      (· < ·) :=
    (pairwise_walk disk root).filter _
  have hmem : ∀ folder, folder ∈ (foldersWithRoot disk root).eraseDups ↔
      folder ∈ (walk disk root).filter fun folder ↦ disk.holdsRoot (root ++ folder) := by
    intro folder
    rw [List.mem_eraseDups, mem_foldersWithRoot, List.mem_filter, mem_walk]
    constructor
    · rintro ⟨hroot, hnames⟩
      refine ⟨⟨fun _ ↦ ?_, hnames⟩, hroot⟩
      obtain ⟨e, he, hfile⟩ := Disk.holdsRoot_iff.mp hroot
      have hfolder : root ++ folder = e.1.dropLast := by
        rw [hfile, List.dropLast_concat]
      refine Disk.isFolderAt_iff.mpr (.inr ⟨root ++ folder, ?_, List.prefix_rfl⟩)
      rw [hfolder]
      exact List.mem_append_right _ (List.mem_map_of_mem he)
    · rintro ⟨⟨-, hnames⟩, hroot⟩
      exact ⟨hroot, hnames⟩
  have hnodup := Ordered.nodup_eraseDups (foldersWithRoot disk root)
  have hnodup' := hwalk.imp fun {spot spot'} (hlt : spot < spot') (he : spot = spot') ↦
    List.lt_irrefl spot' (he ▸ hlt)
  refine List.Perm.eq_of_pairwise (fun a b _ _ hab hba ↦ Std.Trichotomous.trichotomous (r :=
    (· < ·)) a b hba hab)
    (hsorted.sublist (Ordered.eraseDups_sublist _)) (hwalk.imp fun hlt ↦ List.lt_asymm hlt) ?_
  exact (List.perm_ext_iff_of_nodup hnodup hnodup').mpr hmem

/-! ## What is discovered -/

theorem absoluteRoot_of_isNormal {root : String} (h : Path.IsNormal root) :
    absoluteRoot disk root = root := by
  rw [absoluteRoot, h.tidy_eq, Path.append, if_pos h.rooted, h.tidy_eq]

/-- The folders on a walk from the workspace folder that hold a root file, as far as no glob
excludes it. -/
def found (disk : Disk) (settings : Settings) (root : String) : List Place :=
  ((walk disk (disk.place root)).filter fun folder ↦
    disk.holdsRoot (disk.place root ++ folder)).filter fun folder ↦
    !Path.isExcluded (relativePath folder) settings.exclude

theorem mem_found (htree : disk.IsTree) {settings : Settings} {root : String} {folder : Place} :
    folder ∈ found disk settings root ↔ disk.holdsRoot (disk.place root ++ folder) = true ∧
      (∀ name ∈ folder, name.startsWith "." = false) ∧
      Path.isExcluded (relativePath folder) settings.exclude = false := by
  have hmem : folder ∈ found disk settings root ↔
    disk.holdsRoot (disk.place root ++ folder) = true ∧
      (∀ name ∈ folder, Path.isHiddenName name = false) ∧
      Path.isExcluded (relativePath folder) settings.exclude = false := by
    rw [found, List.mem_filter, ← eraseDups_foldersWithRoot, List.mem_eraseDups,
      mem_foldersWithRoot, Bool.not_eq_true', and_assoc]
  rw [hmem]
  refine and_congr_right fun hroot ↦ and_congr_left fun _ ↦ forall₂_congr fun name hname ↦ ?_
  -- A name on the way to a file is neither of the two names with a dot in front that are not
  -- hidden.
  obtain ⟨e, he, hfile⟩ := Disk.holdsRoot_iff.mp hroot
  have hisName : Path.IsName name.toList := htree e he name (by rw [hfile]; simp [hname])
  have hdot : name ≠ "." := fun heq ↦ hisName.ne_dot (by rw [heq]; rfl)
  have hdots : name ≠ ".." := fun heq ↦ hisName.ne_dots (by rw [heq]; rfl)
  rw [Path.isHiddenName, bne_iff_ne.mpr hdot, bne_iff_ne.mpr hdots, Bool.and_true, Bool.and_true]

/-- The path of a workspace folder in normal form leads to it, unless there is nothing to be found
there. -/
theorem lookup_or_foldersWithRoot_eq_nil {root : String} (hroot : Path.IsNormal root) :
    disk.lookup root = .ok (disk.place root) ∨ foldersWithRoot disk (disk.place root) = [] := by
  by_cases hnone : foldersWithRoot disk (disk.place root) = []
  · exact .inr hnone
  · obtain ⟨folder, hfolder⟩ := List.exists_mem_of_ne_nil _ hnone
    rw [foldersWithRoot, List.mem_mergeSort] at hfolder
    obtain ⟨e, he, hbelow⟩ := List.mem_filterMap.mp hfolder
    have hfile := eq_of_folderBelow? hbelow
    have hstands : disk.standsAt e.1 = true :=
      Bool.or_eq_true_iff.mpr (.inl (Disk.isSome_contentAt?_iff.mpr ⟨e, he, rfl⟩))
    refine .inl (Disk.lookup_of_isNormal hroot fun front hfront hne ↦ ?_)
    have habove : front <+: e.1 := hfront.trans (hfile ▸ List.prefix_append _ _)
    refine Disk.isFolderAt_of_standsAt hstands habove fun he ↦ hne ?_
    exact hfront.eq_of_length_le (by rw [he, hfile, List.length_append]; exact Nat.le_add_right _ _)

theorem scan_eq {disk : Disk} {root : String}
    (hroot : disk.lookup root = .ok (disk.place root) ∨ foldersWithRoot disk (disk.place root) = [])
    (settings : Settings) (keys : List String) :
    (keys ++ scan disk settings root).eraseDups
      = (keys ++ (found disk settings root).map fun folder ↦
      Path.append root (relativePath folder)).eraseDups := by
  have hpaths : ∀ folders : List Place, ((folders.map relativePath).filter fun path ↦
        !Path.isExcluded path settings.exclude).map (Path.append root ·) = folders.filterMap
        fun folder ↦
      if Path.isExcluded (relativePath folder) settings.exclude then none
      else some (Path.append root (relativePath folder)) := by
    intro folders
    rw [List.filter_map, List.map_map, ← List.filterMap_eq_map, ← List.filterMap_eq_filter,
      List.filterMap_filterMap]
    refine congrArg (List.filterMap · folders) (funext fun folder ↦ ?_)
    cases hexcluded : Path.isExcluded (relativePath folder) settings.exclude <;> simp [hexcluded]
  have hfound : (found disk settings root).map (fun folder ↦ Path.append root (relativePath folder))
      = ((((walk disk (disk.place root)).filter
            fun folder ↦ disk.holdsRoot (disk.place root ++ folder)).map relativePath).filter
          fun path ↦ !Path.isExcluded path settings.exclude).map (Path.append root ·) := by
    rw [List.filter_map, List.map_map]
    rfl
  have hscan : scan disk settings root
    = (((foldersWithRoot disk (disk.place root)).map relativePath).filter
      fun path ↦ !Path.isExcluded path settings.exclude).map (Path.append root ·) := by
    rw [scan]
    split
    · next why herror =>
      have hnone : disk.lookup root ≠ .ok (disk.place root) := by
        rw [herror]
        rintro ⟨⟩
      rw [hroot.resolve_left hnone]
      rfl
    · next spot hok => rw [← Disk.place_of_lookup hok]
  rw [hfound, hscan, hpaths, hpaths, ← eraseDups_foldersWithRoot,
    Ordered.eraseDups_append_filterMap]

/-- **What is discovered** in a tree from a workspace folder in normal form: the files that the
settings list, and then the root files in the folders that no hidden folder leads to, as far as no
glob excludes them, in the order of a walk. What comes a second time is left out. -/
theorem discover_in_order (htree : disk.IsTree) {settings : Settings} {root : String}
    (hroot : Path.IsNormal root) (hsearch : settings.discover = true) :
    discover disk settings root
      = (listed settings root ++ (found disk settings root).map fun folder ↦
      Path.append root (relativePath folder)).eraseDups ∧
    (∀ folder, folder ∈ found disk settings root ↔
      disk.holdsRoot (disk.place root ++ folder) = true ∧
      (∀ name ∈ folder, name.startsWith "." = false) ∧
      Path.isExcluded (relativePath folder) settings.exclude = false) ∧
    (found disk settings root).Pairwise (· < ·) := by
  refine ⟨?_, fun folder ↦ mem_found htree, ((pairwise_walk disk _).filter _).filter _⟩
  rw [discover, absoluteRoot_of_isNormal hroot, hsearch, if_pos rfl, withoutRepetition_eq,
    scan_eq (lookup_or_foldersWithRoot_eq_nil hroot)]

/-- A mission with another one in a folder, and more in a hidden folder and in an excluded one. -/
def missions : Disk where
  files := [(["m", "old", "description.ext"], .bytes []),
    (["m", "a", "description.ext"], .bytes []), (["m", ".git", "description.ext"], .bytes []),
    (["m", "description.ext"], .bytes [])]

theorem discover_in_order_missions :
    let settings : Settings :=
      { descriptionFiles := ["a/description.ext"], exclude := ["old/**/*"] }
    discover missions settings "/m"
        = (["/m/a/description.ext"] ++ (found missions settings "/m").map fun folder ↦
        Path.append "/m" (relativePath folder)).eraseDups ∧
      [] ∈ found missions settings "/m" ∧ ["a"] ∈ found missions settings "/m" ∧
      [".git"] ∉ found missions settings "/m" ∧ ["old"] ∉ found missions settings "/m" := by
  intro settings
  have htree : missions.IsTree := by decide
  have hroot : Path.IsNormal "/m" := by decide +kernel
  have hsearch : settings.discover = true := rfl
  obtain ⟨hlist, hmem, -⟩ := discover_in_order htree hroot hsearch
  have hlisted : listed settings "/m" = ["/m/a/description.ext"] := by decide +kernel
  rw [hlisted] at hlist
  refine ⟨hlist, (hmem _).mpr (by decide +kernel), (hmem _).mpr (by decide +kernel),
    fun h ↦ ?_, fun h ↦ ?_⟩
  · exact absurd ((hmem _).mp h) (by decide +kernel)
  · exact absurd ((hmem _).mp h) (by decide +kernel)

end Workspace

end MissionIndex
