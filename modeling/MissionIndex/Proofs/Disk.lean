import Mathlib.Data.List.Basic
import MissionIndex.Disk
import MissionIndex.Proofs.Path.Normal

/-!
# Where paths lead

Looking a path up ends at its place (`place_of_lookup`), but it may not come so far. The absolute
normal form of a path leads to whatever the path leads to (`hasPath_absolute`), as all the folders
above a file or a folder are there. The converse fails on a disk that walks: a path may go through
what is not there and come back from it.
-/

namespace MissionIndex.Disk

variable {disk : Disk}

/-! ## Folders -/

/-- The ways to folders that a disk lists, or that its working directory and its files are below. -/
def ways (disk : Disk) : List Place :=
  placeOf disk.workingDirectory :: disk.folders ++ disk.files.map fun e ↦ e.1.dropLast

/-- A folder stands at the root and wherever a way leads through. -/
theorem isFolderAt_iff {spot : Place} :
    disk.isFolderAt spot = true ↔ spot = [] ∨ ∃ way ∈ disk.ways, spot <+: way := by
  have hways : (∃ way ∈ disk.ways, spot <+: way) ↔ disk.ways.any spot.isPrefixOf = true := by
    simp only [List.any_eq_true, List.isPrefixOf_iff_prefix]
  rw [hways, ways, List.cons_append, List.any_cons, List.any_append, List.any_map]
  by_cases hne : spot = []
  · simp [isFolderAt, hne]
  · -- What is above a file is on the way to its folder.
    have hfile : ∀ e : Place × Content,
        (spot.isPrefixOf e.1 && spot != e.1) = spot.isPrefixOf e.1.dropLast := by
      intro e
      rw [Bool.eq_iff_iff, Bool.and_eq_true, List.isPrefixOf_iff_prefix, bne_iff_ne,
        List.isPrefixOf_iff_prefix]
      rcases List.eq_nil_or_concat' e.1 with hnil | ⟨way, name, hconcat⟩
      · simp [hnil, hne]
      · rw [hconcat, List.dropLast_concat, List.prefix_concat_iff]
        constructor
        · rintro ⟨hsame | habove, hother⟩
          · exact absurd hsame hother
          · exact habove
        · intro habove
          refine ⟨.inr habove, fun he ↦ ?_⟩
          exact absurd (he ▸ habove).length_le (by simp)
    simp only [isFolderAt, hfile, beq_eq_false_iff_ne.mpr hne, hne, Bool.false_or, false_or,
      Bool.or_assoc]
    rfl

theorem isFolderAt_of_prefix {spot spot' : Place} (h : disk.isFolderAt spot' = true)
    (habove : spot <+: spot') : disk.isFolderAt spot = true := by
  rw [isFolderAt_iff] at h ⊢
  rcases h with rfl | ⟨way, hway, hspot⟩
  · exact .inl (List.prefix_nil.mp habove)
  · exact .inr ⟨way, hway, habove.trans hspot⟩

theorem isFolderAt_nil : disk.isFolderAt [] = true := isFolderAt_iff.mpr (.inl rfl)

theorem isSome_contentAt?_iff {spot : Place} :
    (disk.contentAt? spot).isSome = true ↔ ∃ e ∈ disk.files, e.1 = spot := by
  rw [contentAt?, Option.isSome_iff_ne_none, ne_eq, List.lookup_eq_none_iff, not_forall]
  refine exists_congr fun e ↦ ?_
  rw [Classical.not_imp, Bool.not_eq_true, bne_eq_false_iff_eq, eq_comm]

def standsAt (disk : Disk) (spot : Place) : Bool :=
  (disk.contentAt? spot).isSome || disk.isFolderAt spot

theorem isFolderAt_of_standsAt {spot front : Place} (h : disk.standsAt spot = true)
    (habove : front <+: spot) (hne : front ≠ spot) : disk.isFolderAt front = true := by
  rcases Bool.or_eq_true_iff.mp h with hfile | hfolder
  · obtain ⟨e, he, rfl⟩ := isSome_contentAt?_iff.mp hfile
    rw [isFolderAt, Bool.or_eq_true]
    refine .inr (List.any_eq_true.mpr ⟨e, he, ?_⟩)
    rw [Bool.and_eq_true, List.isPrefixOf_iff_prefix, bne_iff_ne]
    exact ⟨habove, hne⟩
  · exact isFolderAt_of_prefix hfolder habove

/-! ## Walks -/

/-- The place that a walk has come to, where the last component stands first. -/
def spotOf (done : List (List Char)) : Place := done.reverse.map String.ofList

theorem step_eq (rooted : Bool) (done : List (List Char)) (part : List Char) :
    disk.step rooted done part = if disk.isFolderAt (spotOf done) then
      .ok (Path.pushComponent rooted done part)
    else .error (if (disk.contentAt? (spotOf done)).isSome then .notFolder else .notFound) := rfl

/-- A walk goes through folders only, and comes to what is left when each `..` is taken as
normalising takes it. -/
theorem foldlM_step_eq_ok_iff {rooted : Bool} {done done' : List (List Char)}
    {parts : List (List Char)} :
    parts.foldlM (disk.step rooted) done = .ok done' ↔
      parts.foldl (Path.pushComponent rooted) done = done' ∧
      ∀ front part, front ++ [part] <+: parts →
        disk.isFolderAt (spotOf (front.foldl (Path.pushComponent rooted) done)) = true := by
  induction parts generalizing done with
  | nil =>
    have hnone : ∀ (front : List (List Char)) part, ¬front ++ [part] <+: [] := fun front part h ↦
      List.append_ne_nil_of_right_ne_nil _ (List.cons_ne_nil _ _) (List.prefix_nil.mp h)
    refine ⟨fun h ↦ ⟨Except.ok.inj h, fun front part h ↦ absurd h (hnone front part)⟩, ?_⟩
    exact fun h ↦ congrArg Except.ok h.1
  | cons part rest ih =>
    rw [List.foldlM_cons, step_eq, List.foldl_cons]
    by_cases hfolder : disk.isFolderAt (spotOf done) = true
    · rw [if_pos hfolder]
      refine ih.trans (and_congr_right fun _ ↦
        ⟨fun h front last hfront ↦ ?_, fun h front last hfront ↦ ?_⟩)
      · cases front with
        | nil => exact hfolder
        | cons first front =>
          obtain ⟨rfl, hrest⟩ := List.cons_prefix_cons.mp hfront
          exact h front last hrest
      · exact h (part :: front) last (List.cons_prefix_cons.mpr ⟨rfl, hfront⟩)
    · rw [if_neg hfolder]
      refine ⟨nofun, fun h ↦ absurd (h.2 [] part ?_) hfolder⟩
      exact List.cons_prefix_cons.mpr ⟨rfl, List.nil_prefix⟩

theorem foldlM_step_names {names : List (List Char)} (hnames : ∀ name ∈ names, Path.IsName name)
    (rooted : Bool) {done : List (List Char)} (hfolders : ∀ front, front <+: names → front ≠ names →
      disk.isFolderAt (spotOf done ++ front.map String.ofList) = true) :
    names.foldlM (disk.step rooted) done = .ok (names.reverse ++ done) := by
  refine foldlM_step_eq_ok_iff.mpr ⟨Path.foldl_pushComponent hnames rooted done,
    fun front part hfront ↦ ?_⟩
  have habove : front <+: names := (List.prefix_append _ _).trans hfront
  rw [Path.foldl_pushComponent fun name hname ↦ hnames name (habove.subset hname), spotOf,
    List.reverse_append, List.reverse_reverse, List.map_append]
  refine hfolders front habove fun he ↦ ?_
  exact absurd (he ▸ hfront).length_le (by simp)

theorem foldlM_step_nil_cons (rooted : Bool) (parts : List (List Char)) :
    ([] :: parts).foldlM (disk.step rooted) [] = parts.foldlM (disk.step rooted) [] := by
  rw [List.foldlM_cons, step_eq, spotOf, List.reverse_nil, List.map_nil, if_pos isFolderAt_nil]
  rfl

/-! ## Lookups -/

variable {path : String}

theorem place_of_lookup {spot : Place} (h : disk.lookup path = .ok spot) :
    disk.place path = spot := by
  rw [lookup] at h
  split at h
  · exact Except.ok.inj h
  · cases hwalk : disk.walk path with
    | error why =>
      rw [hwalk] at h
      cases h
    | ok done =>
      rw [hwalk] at h
      exact Except.ok.inj h

theorem lookup_of_walk {done : List (List Char)} (h : disk.walk path = .ok done) :
    disk.lookup path = .ok (disk.place path) := by
  rw [lookup, h]
  exact ite_self _

theorem place_of_isRooted (h : Path.isRooted path = true) :
    disk.place path = (Path.components path.toList).map String.ofList := by
  have hroot := Path.isRooted_iff.mp h
  rw [place, placeOf, absolute, Path.resolve_of_isRooted h, Path.toList_normalize,
    Path.components_normalizeChars hroot]

theorem spotOf_of_walk {done : List (List Char)} (hroot : Path.isRooted path = true)
    (h : disk.walk path = .ok done) : spotOf done = disk.place path := by
  have hhead := Path.isRooted_iff.mp hroot
  rw [walk, Path.append, if_pos hroot] at h
  rw [disk.place_of_isRooted hroot, ← (foldlM_step_eq_ok_iff.mp h).1, Path.components]
  rfl

/-- A rooted path leads to its place, if there are folders wherever its parts lead on the way. -/
theorem lookup_of_parts {slashes : List Char} {parts : List (List Char)}
    (hslashes : slashes = ['/'] ∨ slashes = ['/', '/']) (hparts : ∀ part ∈ parts, '/' ∉ part)
    (hpath : path.toList = slashes ++ Text.join ['/'] parts)
    (hfolders : ∀ front part, front ++ [part] <+: parts →
      disk.isFolderAt (spotOf (front.foldl (Path.pushComponent true) [])) = true) :
    disk.lookup path = .ok (disk.place path) := by
  have hroot : Path.isRooted path = true := by
    rw [Path.isRooted_iff, hpath]
    rcases hslashes with rfl | rfl <;> rfl
  have hslash : ∀ cs, Text.splitAt '/' ('/' :: cs) = [] :: Text.splitAt '/' cs := fun cs ↦ by
    rw [Text.splitAt.eq_2, if_pos rfl]
  have hjoin : ∃ done, (Text.splitAt '/' (Text.join ['/'] parts)).foldlM (disk.step true) []
      = .ok done := by
    by_cases hne : parts = []
    · subst hne
      exact ⟨[], disk.foldlM_step_nil_cons true []⟩
    · rw [Path.splitAt_join hne hparts]
      exact ⟨_, foldlM_step_eq_ok_iff.mpr ⟨rfl, hfolders⟩⟩
  obtain ⟨done, hdone⟩ := hjoin
  suffices hwalk : disk.walk path = .ok done from lookup_of_walk hwalk
  rw [walk, Path.append, if_pos hroot, Path.isRooted_iff.mp hroot, beq_self_eq_true, hpath]
  rcases hslashes with rfl | rfl
  · rw [List.singleton_append, hslash]
    exact (foldlM_step_nil_cons true _).trans hdone
  · rw [List.cons_append, List.singleton_append, hslash, hslash]
    exact (foldlM_step_nil_cons true _).trans ((foldlM_step_nil_cons true _).trans hdone)

/-- A path in normal form leads to its place, if the folders above this are there. -/
theorem lookup_of_isNormal (h : Path.IsNormal path)
    (hfolders : ∀ front, front <+: disk.place path → front ≠ disk.place path →
      disk.isFolderAt front = true) : disk.lookup path = .ok (disk.place path) := by
  have hroot := Path.isRooted_iff.mp h.rooted
  have hnames : ∀ name ∈ Path.components path.toList, Path.IsName name :=
    fun _ ↦ Path.isName_of_mem_components hroot
  have hlist : path.toList
      = Path.rootSlashes path.toList ++ Text.join ['/'] (Path.components path.toList) := by
    rw [← Path.normalizeChars_of_rooted hroot, ← Path.toList_normalize, h.normal]
  rw [disk.place_of_isRooted h.rooted] at hfolders
  refine lookup_of_parts (Path.rootSlashes_of_rooted hroot) (fun name hname ↦
    (hnames name hname).noSlash) hlist
    fun front part hfront ↦ ?_
  have habove : front <+: Path.components path.toList := (List.prefix_append _ _).trans hfront
  rw [Path.foldl_pushComponent fun name hname ↦ hnames name (habove.subset hname), spotOf,
    List.append_nil, List.reverse_reverse]
  refine hfolders _ (habove.map String.ofList) fun he ↦ ?_
  have hlength := hfront.length_le
  rw [List.length_append, List.length_singleton, ← List.length_map String.ofList, he,
    List.length_map] at hlength
  omega

theorem place_append {names : Place} (hroot : Path.isRooted path = true)
    (hnames : ∀ name ∈ names, Path.IsName name.toList) (hne : names ≠ []) :
    disk.place (Path.append path ("/".intercalate names)) = disk.place path ++ names := by
  have hid : names.map (String.ofList ∘ String.toList) = names := by
    refine (List.map_congr_left fun name _ ↦ ?_).trans (List.map_id names)
    exact String.ofList_toList
  rw [disk.place_of_isRooted (Path.isRooted_append hroot), disk.place_of_isRooted hroot,
    Path.components_append_intercalate hroot hnames hne, List.map_append, List.map_map, hid]

/-- A path of names below a rooted one that leads to its place leads to where the names lead from
there, if the folders on the way are there. -/
theorem lookup_append {names : Place} (hroot : Path.isRooted path = true)
    (h : disk.lookup path = .ok (disk.place path))
    (hnames : ∀ name ∈ names, Path.IsName name.toList) (hne : names ≠ [])
    (hfolders : ∀ front, front <+: names → front ≠ names →
      disk.isFolderAt (disk.place path ++ front) = true) :
    disk.lookup (Path.append path ("/".intercalate names)) = .ok (disk.place path ++ names) := by
  rw [← disk.place_append hroot hnames hne]
  have hmap : ∀ name ∈ names.map String.toList, Path.IsName name := List.forall_mem_map.mpr hnames
  have hmap_ne : names.map String.toList ≠ [] := fun he ↦ hne (List.map_eq_nil_iff.mp he)
  by_cases hnormalizes : disk.normalizes = true
  · rw [lookup, if_pos hnormalizes]
  obtain ⟨done, hdone⟩ : ∃ done, disk.walk path = .ok done := by
    cases hwalk : disk.walk path with
    | ok done => exact ⟨done, rfl⟩
    | error why =>
      rw [lookup, if_neg hnormalizes, hwalk] at h
      cases h
  have hspot := spotOf_of_walk hroot hdone
  obtain ⟨front, happend, hfront⟩ := Path.toList_append_intercalate hroot hnames
  -- A slash at the end of the path adds an empty component, which does not move the walk.
  have hwalk : (Text.splitAt '/' front).foldlM (disk.step true) [] = .ok done := by
    rw [walk, Path.append, if_pos hroot, Path.isRooted_iff.mp hroot] at hdone
    rcases hfront with hfront | hfront
    · rw [hfront, Path.splitAt_append] at hdone
      obtain ⟨hdone, hfolders⟩ := foldlM_step_eq_ok_iff.mp hdone
      rw [List.foldl_append] at hdone
      refine foldlM_step_eq_ok_iff.mpr ⟨hdone, fun before part hbefore ↦ ?_⟩
      exact hfolders before part (hbefore.trans (List.prefix_append _ _))
    · rw [← hfront]
      exact hdone
  suffices hwhole : disk.walk (Path.append path ("/".intercalate names))
      = .ok ((names.map String.toList).reverse ++ done) from lookup_of_walk hwhole
  rw [walk, Path.append, if_pos (Path.isRooted_append hroot),
    Path.isRooted_iff.mp (Path.isRooted_append hroot), happend, Path.splitAt_append,
    Path.splitAt_join hmap_ne fun name hname ↦ (hmap name hname).noSlash,
    List.foldlM_append, beq_self_eq_true, hwalk]
  refine foldlM_step_names hmap true fun above habove hother ↦ ?_
  rw [hspot]
  refine hfolders _ ?_ fun he ↦ hother ?_
  · have hprefix := habove.map String.ofList
    simpa using hprefix
  · rw [← he]
    simp

/-! ## What is there -/

theorem isFile_iff : disk.isFile path = true ↔
    disk.lookup path = .ok (disk.place path) ∧ (disk.contentAt? (disk.place path)).isSome
      = true := by
  cases hlookup : disk.lookup path with
  | error why => simp [isFile, hlookup]
  | ok spot =>
    rw [place_of_lookup hlookup]
    simp [isFile, hlookup]

theorem hasPath_iff : disk.hasPath path = true ↔
    disk.lookup path = .ok (disk.place path) ∧ disk.standsAt (disk.place path) = true := by
  cases hlookup : disk.lookup path with
  | error why => simp [hasPath, isFile, isFolder, hlookup]
  | ok spot =>
    rw [place_of_lookup hlookup]
    cases hcontent : disk.contentAt? spot <;>
      simp [hasPath, isFile, isFolder, standsAt, hlookup, hcontent]

theorem isSome_contentAt?_of_readAt {spot : Place} {data : List UInt8}
    (h : disk.readAt spot = .ok data) :
    (disk.contentAt? spot).isSome = true := by
  rw [readAt] at h
  split at h
  · next hcontent => rw [hcontent, Option.isSome_some]
  · next hcontent => rw [hcontent, Option.isSome_some]
  · split at h
    · cases h
    · split at h <;> cases h

theorem read_eq_ok_iff {data : List UInt8} : disk.read path = .ok data ↔
    disk.lookup path = .ok (disk.place path) ∧ disk.readAt (disk.place path) = .ok data := by
  cases hlookup : disk.lookup path with
  | error why => simp [read, hlookup, Except.bind]
  | ok spot =>
    rw [place_of_lookup hlookup]
    simp [read, hlookup, Except.bind]

theorem isFile_of_read {data : List UInt8} (h : disk.read path = .ok data) :
    disk.isFile path = true := by
  obtain ⟨hlookup, hread⟩ := read_eq_ok_iff.mp h
  exact isFile_iff.mpr ⟨hlookup, isSome_contentAt?_of_readAt hread⟩

theorem isFile_of_readText {text : List Char} (h : disk.readText path = .ok text) :
    disk.isFile path = true := by
  rw [readText] at h
  cases hread : disk.read path with
  | error why =>
    rw [hread] at h
    cases h
  | ok data => exact isFile_of_read hread

theorem hasPath_of_isFile (h : disk.isFile path = true) : disk.hasPath path = true := by
  rw [hasPath, h, Bool.true_or]

/-! ## Absolute normal forms -/

section Absolute

variable (hdisk : Path.isRooted disk.workingDirectory = true)

include hdisk

theorem place_absolute (path : String) : disk.place (disk.absolute path) = disk.place path := by
  rw [place, place, absolute, absolute, Path.resolve_resolve hdisk]

theorem lookup_absolute (h : disk.standsAt (disk.place path) = true) :
    disk.lookup (disk.absolute path) = .ok (disk.place path) := by
  have hplace := place_absolute hdisk path
  have hlookup : disk.lookup (disk.absolute path) = .ok (disk.place (disk.absolute path)) :=
    lookup_of_isNormal (Path.isNormal_resolve hdisk path) fun front hfront hne ↦
      isFolderAt_of_standsAt h (hplace ▸ hfront) (hplace ▸ hne)
  exact hplace ▸ hlookup

/-- **The absolute normal form of a path leads to what the path leads to.** -/
theorem hasPath_absolute (h : disk.hasPath path = true) :
    disk.hasPath (disk.absolute path) = true := by
  have hstands := (hasPath_iff.mp h).2
  rw [hasPath_iff, place_absolute hdisk]
  exact ⟨lookup_absolute hdisk hstands, hstands⟩

end Absolute

end MissionIndex.Disk
