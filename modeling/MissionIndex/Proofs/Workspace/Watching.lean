import MissionIndex.Proofs.Path.Normal
import MissionIndex.Proofs.Text.Lower
import MissionIndex.Workspace.Watching

/-!
# Changed files

A file matters by its name and by the ending of its name. The ending is looked for in two ways: a
watcher cuts the name as it is written and takes the lower-case form of the ending
(`Workspace.suffix`), the index cuts the lower-case form of the name (`Path.extension`). The two
also disagree on what may stand in front of the dot. Whether the ending is that of a file to include
is the same either way, unless the name starts with a dot (`isIncludeExtension_suffix_eq`).

A watcher passes on that a file has come into being, has changed or has disappeared, but not that it
was moved, although a move is the end of one file and the beginning of another. So a file that
matters may have changed without the index being told (`mem_submitted_iff_not_moved`).
-/

namespace MissionIndex

open Text

variable {as bs cs : List Char} {path name : String}

/-! ## File names -/

namespace Path

theorem splitLast_append (hpath : path.toList = as ++ '/' :: bs) (hslash : '/' ∉ bs) :
    splitLast path = (as ++ ['/'], bs) := by
  have hkept : ∀ c ∈ bs.reverse, (c != '/') = true := fun c hc ↦ bne_iff_ne.mpr fun he ↦
    hslash (he ▸ List.mem_reverse.mp hc)
  rw [splitLast, hpath, List.reverse_append, List.reverse_cons, List.append_assoc,
    List.singleton_append, List.takeWhile_append_of_pos hkept, List.dropWhile_append_of_pos hkept,
    List.takeWhile_cons_of_neg (by decide), List.dropWhile_cons_of_neg (by decide),
    List.append_nil, List.reverse_reverse, List.reverse_cons, List.reverse_reverse]

theorem splitLast_of_notMem (hslash : '/' ∉ path.toList) : splitLast path = ([], path.toList) := by
  have hkept : ∀ c ∈ path.toList.reverse, (c != '/') = true := fun c hc ↦ bne_iff_ne.mpr fun he ↦
    hslash (he ▸ List.mem_reverse.mp hc)
  rw [splitLast, List.takeWhile_eq_self_iff.mpr hkept, List.dropWhile_eq_nil_iff.mpr hkept,
    List.reverse_reverse, List.reverse_nil]

/-- The file name of a path in normal form is its last component. -/
theorem IsNormal.fileName_eq (h : IsNormal path) :
    fileName path = (segments path).getLast?.getD "" := by
  have hroot := isRooted_iff.mp h.rooted
  have hnames : ∀ part ∈ components path.toList, IsName part :=
    fun _ ↦ isName_of_mem_components hroot
  have hlist : path.toList = rootSlashes path.toList ++ join ['/'] (components path.toList) := by
    rw [← normalizeChars_of_rooted hroot, ← toList_normalize, h.normal]
  obtain ⟨slashes, hslashes⟩ : ∃ slashes, rootSlashes path.toList = slashes ++ ['/'] := by
    rcases rootSlashes_of_rooted hroot with hone | htwo
    · exact ⟨[], hone⟩
    · exact ⟨['/'], htwo⟩
  rw [← h.map_segments] at hlist hnames
  rw [fileName]
  rcases List.eq_nil_or_concat (segments path) with hnone | ⟨front, name, hsegments⟩
  · rw [hnone, List.map_nil, join, hslashes, List.append_assoc, List.singleton_append] at hlist
    rw [splitLast_append hlist List.not_mem_nil, hnone]
    rfl
  · rw [List.concat_eq_append] at hsegments
    rw [hsegments, List.map_append, List.map_cons, List.map_nil] at hlist hnames
    have hname : IsName name.toList :=
      hnames _ (List.mem_append_right _ (List.mem_singleton_self _))
    obtain ⟨before, hbefore⟩ : ∃ before, path.toList = before ++ '/' :: name.toList := by
      by_cases hfront : front.map String.toList = []
      · refine ⟨slashes, ?_⟩
        rw [hlist, hfront, hslashes, List.append_assoc]
        rfl
      · refine ⟨rootSlashes path.toList ++ join ['/'] (front.map String.toList), ?_⟩
        rw [join_append hfront (List.cons_ne_nil _ _), ← List.append_assoc] at hlist
        exact hlist
    rw [splitLast_append hbefore hname.noSlash, hsegments, List.getLast?_concat,
      String.ofList_toList]
    rfl

theorem IsNormal.isName_of_mem_segments (h : IsNormal path) (hname : name ∈ segments path) :
    IsName name.toList := by
  refine isName_of_mem_components (isRooted_iff.mp h.rooted) ?_
  rw [← h.map_segments]
  exact List.mem_map_of_mem hname

end Path

/-! ## Endings -/

theorem cut_last_dot (as : List Char) (hdot : '.' ∉ bs) :
    (as ++ '.' :: bs).reverse.takeWhile (· != '.') = bs.reverse ∧
      ((as ++ '.' :: bs).reverse.dropWhile (· != '.')).drop 1 = as.reverse := by
  have hkept : ∀ c ∈ bs.reverse, (c != '.') = true := fun c hc ↦ bne_iff_ne.mpr fun he ↦
    hdot (he ▸ List.mem_reverse.mp hc)
  rw [List.reverse_append, List.reverse_cons, List.append_assoc, List.singleton_append,
    List.takeWhile_append_of_pos hkept, List.dropWhile_append_of_pos hkept,
    List.takeWhile_cons_of_neg (by decide),
    List.dropWhile_cons_of_neg (by decide), List.append_nil]
  exact ⟨rfl, rfl⟩

theorem dropWhile_of_no_dot (hdot : '.' ∉ cs) : cs.reverse.dropWhile (· != '.') = [] :=
  List.dropWhile_eq_nil_iff.mpr fun _ hc ↦ bne_iff_ne.mpr fun he ↦
  hdot (he ▸ List.mem_reverse.mp hc)

theorem exists_last_dot (h : '.' ∈ cs) : ∃ as bs, cs = as ++ '.' :: bs ∧ '.' ∉ bs := by
  obtain ⟨bs, as, hcs, hdot⟩ := List.eq_append_cons_of_mem (List.mem_reverse.mpr h)
  refine ⟨as.reverse, bs.reverse, ?_, fun hmem ↦ hdot (List.mem_reverse.mp hmem)⟩
  rw [← List.reverse_reverse cs, hcs, List.reverse_append, List.reverse_cons, List.append_assoc,
    List.singleton_append]

theorem Workspace.suffix_append (hdot : '.' ∉ bs) (has : as ≠ []) (hbs : bs ≠ []) :
    suffix (String.ofList (as ++ '.' :: bs)) = String.ofList ('.' :: bs) := by
  obtain ⟨htail, hbefore⟩ := cut_last_dot as hdot
  simp only [suffix, String.toList_ofList, htail, hbefore, List.reverse_eq_nil_iff, has, hbs,
    List.reverse_reverse, decide_false, Bool.or_false, Bool.false_eq_true, if_false]

theorem Workspace.suffix_append_dot : suffix (String.ofList (as ++ ['.'])) = "" := by
  have hdot : '.' ∉ ([] : List Char) := List.not_mem_nil
  obtain ⟨htail, -⟩ := cut_last_dot as hdot
  simp only [suffix, String.toList_ofList, htail, List.reverse_nil, decide_true,
    Bool.true_or, if_true]

theorem Workspace.suffix_of_no_dot (hdot : '.' ∉ cs) : suffix (String.ofList cs) = "" := by
  simp only [suffix, String.toList_ofList, dropWhile_of_no_dot hdot, List.drop_nil, decide_true,
    Bool.or_true, if_true]

theorem Path.extension_append (hslash : '/' ∉ as ++ '.' :: bs) (hdot : '.' ∉ bs)
    (has : as.all (· == '.') = false) :
    extension (String.ofList (as ++ '.' :: bs)) = String.ofList ('.' :: bs) := by
  obtain ⟨htail, hbefore⟩ := cut_last_dot as hdot
  rw [← String.toList_ofList (l := as ++ '.' :: bs)] at hslash
  simp only [extension, splitLast_of_notMem hslash, String.toList_ofList, htail, hbefore,
    List.all_reverse, has, List.reverse_reverse, Bool.false_eq_true, if_false]

theorem Path.extension_of_no_dot (hslash : '/' ∉ cs) (hdot : '.' ∉ cs) :
    extension (String.ofList cs) = "" := by
  rw [← String.toList_ofList (l := cs)] at hslash
  simp only [extension, splitLast_of_notMem hslash, String.toList_ofList, dropWhile_of_no_dot hdot,
    List.drop_nil, List.all_nil, if_true]

/-! ## Lower case -/

theorem lowerFrom_dot (before cs : List Char) :
    lowerFrom before ('.' :: cs) = '.' :: lowerFrom ('.' :: before) cs := by
  rw [lowerFrom, if_neg (by decide), if_neg (by decide), (lowerChar_eq_iff (by decide)).mpr rfl,
    List.singleton_append]

/-- Whether an ending is that of a file to include does not depend on what stands before it. -/
theorem contains_lowerFrom_congr {before : List Char} (before' : List Char)
    (h : FileRole.includeExtensions.contains (String.ofList ('.' :: lowerFrom before cs)) = true) :
    FileRole.includeExtensions.contains (String.ofList ('.' :: lowerFrom before' cs)) = true := by
  have hall : (FileRole.includeExtensions.all fun ending ↦ ending.toList.all (·.toNat < 128))
    = true := by decide
  have hascii : ∀ ending ∈ FileRole.includeExtensions, ∀ c ∈ ending.toList, c.toNat < 128 :=
      fun ending hending c hc ↦
    of_decide_eq_true (List.all_eq_true.mp (List.all_eq_true.mp hall ending hending) c hc)
  have hlower : ∀ c ∈ lowerFrom before cs, c.toNat < 128 := fun c hc ↦ by
    refine hascii _ (List.contains_iff_mem.mp h) c ?_
    rw [String.toList_ofList]
    exact List.mem_cons_of_mem _ hc
  rwa [lowerFrom_congr hlower before']

/-- **The two ways to look for the ending of a file to include agree**, for names that do not start
with a dot. -/
theorem isIncludeExtension_suffix_eq (hslash : '/' ∉ name.toList)
    (hdot : name.toList.head? ≠ some '.') :
    FileRole.isIncludeExtension (Workspace.suffix name)
      = FileRole.includeExtensions.contains (Path.extension (lower name)) := by
  have hnone : FileRole.isIncludeExtension "" = false := by decide +kernel
  have hslash' : '/' ∉ lowerChars name.toList := mt (mem_lowerFrom_iff (by decide) [] _).mp hslash
  rw [lower]
  by_cases hmem : '.' ∈ name.toList
  · obtain ⟨as, bs, hname, hbs⟩ := exists_last_dot hmem
    obtain ⟨front, hfront, hsigns⟩ := exists_lowerFrom_append [] as ('.' :: bs)
    have has : as.all (· == '.') = false := by
      cases has : as with
      | nil => exact absurd (by rw [hname, has]; rfl) hdot
      | cons a as' =>
        rw [hname, has, List.cons_append, List.head?_cons] at hdot
        rw [List.all_cons, beq_false_of_ne fun he ↦ hdot (congrArg some he), Bool.false_and]
    have hlower : lowerChars name.toList = front ++ '.' :: lowerFrom ('.' :: as.reverse) bs := by
      rw [lowerChars, hname, hfront, lowerFrom_dot, List.append_nil]
    rw [hlower] at hslash' ⊢
    rw [Path.extension_append hslash' (mt (mem_lowerFrom_iff (by decide) _ _).mp hbs)
      ((hsigns '.' (by decide)).2.trans has)]
    rw [← String.ofList_toList (s := name), hname]
    by_cases hempty : bs = []
    · rw [hempty, Workspace.suffix_append_dot, hnone, lowerFrom]
      rfl
    · have hne : as ≠ [] := by
        rintro rfl
        cases has
      have hending : FileRole.isIncludeExtension (String.ofList ('.' :: bs))
          = FileRole.includeExtensions.contains (String.ofList ('.' :: lowerFrom ['.'] bs)) := by
        rw [FileRole.isIncludeExtension, lower, String.toList_ofList, lowerChars, lowerFrom_dot]
      rw [Workspace.suffix_append hbs hne hempty, hending, Bool.eq_iff_iff]
      exact ⟨contains_lowerFrom_congr _, contains_lowerFrom_congr _⟩
  · rw [Path.extension_of_no_dot hslash' (mt (mem_lowerFrom_iff (by decide) [] _).mp hmem),
      ← String.ofList_toList (s := name), Workspace.suffix_of_no_dot hmem, hnone]
    rfl

/-! ## What happens to files -/

namespace Workspace

variable {workingDirectory root uri : String}

/-- What can happen to a file. -/
inductive Happening where
  | created (path : String)
  | modified (path : String)
  | deleted (path : String)
  | moved (source target : String)
deriving DecidableEq

namespace Happening

/-- The paths at which there is another file afterwards, or none. -/
def paths : Happening → List String
  | created path | modified path | deleted path => [path]
  | moved source target => [source, target]

/-- The event that a watcher is sent. That of a move comes under the path that the file had. -/
def event : Happening → FileEvent
  | created path => { change := .created, path }
  | modified path => { change := .modified, path }
  | deleted path => { change := .deleted, path }
  | moved source _ => { change := .moved, path := source }

def isMove : Happening → Bool
  | moved _ _ => true
  | _ => false

theorem paths_of_not_isMove {h : Happening} (hmove : h.isMove = false) :
    h.paths = [h.event.path] := by
  cases h with
  | moved source target => cases hmove
  | _ => rfl

end Happening

/-- The URIs that are submitted to the index as things happen to files. -/
def submitted (workingDirectory root : String) (happenings : List Happening) : List String :=
  happenings.flatMap fun h ↦ (toReindex workingDirectory root h.event).toOption.getD []

theorem mem_toReindex_iff {event : FileEvent} :
    uri ∈ (toReindex workingDirectory root event).toOption.getD [] ↔
    isForwarded root event = true ∧ Uri.ofPath workingDirectory event.path = .ok uri := by
  rw [toReindex]
  by_cases hforwarded : isForwarded root event = true
  · rw [if_pos hforwarded, and_iff_right hforwarded]
    cases Uri.ofPath workingDirectory event.path with
    | error reason => exact iff_of_false List.not_mem_nil nofun
    | ok found =>
      rw [Except.ok.injEq, eq_comm]
      exact List.mem_singleton
  · rw [if_neg hforwarded]
    exact iff_of_false List.not_mem_nil fun h ↦ hforwarded h.1

theorem Happening.isForwarded_event (h : Happening) :
    isForwarded root h.event = (!h.isMove && matters root h.event.path) := by
  cases h <;> rfl

theorem mem_submitted_iff {happenings : List Happening} :
    uri ∈ submitted workingDirectory root happenings ↔
    ∃ h ∈ happenings, h.isMove = false ∧
      ∃ path ∈ h.paths, matters root path = true ∧ Uri.ofPath workingDirectory path = .ok uri := by
  rw [submitted, List.mem_flatMap]
  refine exists_congr fun h ↦ and_congr_right fun _ ↦ ?_
  rw [mem_toReindex_iff, h.isForwarded_event, Bool.and_eq_true, Bool.not_eq_true', and_assoc]
  refine and_congr_right fun hmove ↦ ?_
  simp only [Happening.paths_of_not_isMove hmove, List.mem_singleton, exists_eq_left]

/-- **A file that matters is submitted unless it was moved.** After something has happened to such a
file, its URI is submitted just if it was no move, or if something other than a move happens later
to a file that matters and has the same URI. -/
theorem mem_submitted_iff_not_moved {h : Happening} {path : String} (after : List Happening)
    (hpath : path ∈ h.paths) (hmatters : matters root path = true)
    (huri : Uri.ofPath workingDirectory path = .ok uri) :
    uri ∈ submitted workingDirectory root (h :: after) ↔
      h.isMove = false ∨ ∃ later ∈ after, later.isMove = false ∧
        ∃ other ∈ later.paths, matters root other = true ∧
        Uri.ofPath workingDirectory other = .ok uri := by
  rw [mem_submitted_iff, List.exists_mem_cons_iff]
  refine or_congr_left ⟨And.left, fun hmove ↦ ⟨hmove, path, hpath, hmatters, huri⟩⟩

/-- A root file that was written under another name and moved to its place, and is written to
later. -/
theorem mem_submitted_iff_not_moved_rewritten :
    let h := Happening.moved "/w/tmp.txt" "/w/description.ext"
    "file:///w/description.ext" ∈ submitted "/" "/w" [h, .modified "/w/description.ext"] := by
  intro h
  have hpath : "/w/description.ext" ∈ h.paths := by decide
  refine (mem_submitted_iff_not_moved _ hpath (by decide +kernel) (by decide +kernel)).mpr (.inr ?_)
  exact ⟨_, List.mem_singleton_self _, rfl, _, List.mem_singleton_self _, by decide +kernel, by
    decide +kernel⟩

/-- A root file that was written under another name and moved to its place: nothing is submitted. -/
theorem moved_into_place_unnoticed :
    let h := Happening.moved "/w/tmp.txt" "/w/description.ext"
    "/w/description.ext" ∈ h.paths ∧ below? "/w" "/w/description.ext" = some ["description.ext"] ∧
      matters "/w" "/w/description.ext" = true ∧
      Uri.ofPath "/" "/w/description.ext" = .ok "file:///w/description.ext" ∧
      submitted "/" "/w" [h] = [] := by
  decide +kernel

end Workspace

end MissionIndex
