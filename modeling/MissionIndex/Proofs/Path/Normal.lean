import MissionIndex.Path.Basic

/-!
# Normal forms and components

A *name* is a component that normalising keeps: it is not empty, is neither `.` nor `..`, and holds
no slash. The components of a rooted path are names (`isName_of_mem_components`), names that are
joined come apart again, and so a rooted path and its normal form have the same components
(`components_normalizeChars`).
-/

namespace MissionIndex.Path

open Text

/-- A component that normalising keeps as it is. -/
structure IsName (cs : List Char) : Prop where
  ne_nil : cs ≠ []
  ne_dot : cs ≠ ['.']
  ne_dots : cs ≠ ['.', '.']
  noSlash : '/' ∉ cs

theorem isName_iff {cs : List Char} : IsName cs ↔ cs ≠ [] ∧ cs ≠ ['.'] ∧ cs ≠ ['.', '.'] ∧
    '/' ∉ cs := by
  constructor
  · intro h
    exact ⟨h.ne_nil, h.ne_dot, h.ne_dots, h.noSlash⟩
  · rintro ⟨hnil, hdot, hdots, hslash⟩
    exact ⟨hnil, hdot, hdots, hslash⟩

instance (cs : List Char) : Decidable (IsName cs) := decidable_of_iff _ isName_iff.symm

/-! ## Splitting and joining -/

theorem splitAt_ne_nil (sep : Char) (cs : List Char) : splitAt sep cs ≠ [] := by
  cases cs with
  | nil => exact List.cons_ne_nil _ _
  | cons c cs =>
    rw [splitAt]
    split
    · exact List.cons_ne_nil _ _
    · split
      · exact List.cons_ne_nil _ _
      · exact List.cons_ne_nil _ _

theorem splitAt_append (sep : Char) (as bs : List Char) :
    splitAt sep (as ++ sep :: bs) = splitAt sep as ++ splitAt sep bs := by
  induction as with
  | nil =>
    rw [List.nil_append, splitAt.eq_2, if_pos rfl]
    rfl
  | cons a as ih =>
    rw [List.cons_append, splitAt, splitAt, ih]
    split
    · rw [List.cons_append]
    · cases hparts : splitAt sep as with
      | nil => exact absurd hparts (splitAt_ne_nil sep as)
      | cons part parts => rw [List.cons_append, List.cons_append]

theorem splitAt_of_notMem {sep : Char} {cs : List Char} (h : sep ∉ cs) : splitAt sep cs = [cs] := by
  induction cs with
  | nil => rw [splitAt]
  | cons c cs ih =>
    have hc : c ≠ sep := fun he ↦ h (he ▸ List.mem_cons_self)
    rw [splitAt, if_neg hc, ih fun hmem ↦ h (List.mem_cons_of_mem c hmem)]

theorem notMem_of_mem_splitAt {sep : Char} {cs part : List Char} (h : part ∈ splitAt sep cs) :
    sep ∉ part := by
  induction cs generalizing part with
  | nil =>
    rw [splitAt, List.mem_singleton] at h
    rw [h]
    exact List.not_mem_nil
  | cons c cs ih =>
    rw [splitAt] at h
    split at h
    · rcases List.mem_cons.mp h with rfl | h
      · exact List.not_mem_nil
      · exact ih h
    · next hc =>
      cases hparts : splitAt sep cs with
      | nil => exact absurd hparts (splitAt_ne_nil sep cs)
      | cons first parts =>
        -- The first part grows by a character that is not the separator.
        rw [hparts] at h ih
        rcases List.mem_cons.mp h with rfl | h
        · have hfirst := ih List.mem_cons_self
          rintro hmem
          rcases List.mem_cons.mp hmem with he | hmem
          · exact hc he.symm
          · exact hfirst hmem
        · exact ih (List.mem_cons_of_mem _ h)

theorem join_cons {sep : Char} {part : List Char} {parts : List (List Char)} (hparts : parts ≠ []) :
    join [sep] (part :: parts) = part ++ sep :: join [sep] parts := by
  rw [join, List.append_assoc, List.singleton_append]
  exact hparts

theorem splitAt_join {sep : Char} {parts : List (List Char)} (hparts : parts ≠ [])
    (h : ∀ part ∈ parts, sep ∉ part) : splitAt sep (join [sep] parts) = parts := by
  induction parts with
  | nil => exact absurd rfl hparts
  | cons part rest ih =>
    have hpart := h part List.mem_cons_self
    have hrest := fun p hp ↦ h p (List.mem_cons_of_mem part hp)
    by_cases hne : rest = []
    · rw [hne]
      exact splitAt_of_notMem hpart
    · rw [join_cons hne, splitAt_append, splitAt_of_notMem hpart, ih hne hrest,
        List.singleton_append]

/-! ## Components -/

theorem pushComponent_of_isName {part : List Char} (h : IsName part) (rooted : Bool)
    (done : List (List Char)) : pushComponent rooted done part = part :: done := by
  have hblank : (part = [] || part = ['.']) = false := by simp [h.ne_nil, h.ne_dot]
  simp only [pushComponent, hblank, if_neg h.ne_dots, Bool.false_eq_true, if_false]

theorem foldl_pushComponent {names : List (List Char)} (h : ∀ name ∈ names, IsName name)
    (rooted : Bool) (done : List (List Char)) :
    names.foldl (pushComponent rooted) done = names.reverse ++ done := by
  induction names generalizing done with
  | nil => rfl
  | cons name rest ih =>
    rw [List.foldl_cons, pushComponent_of_isName (h name List.mem_cons_self),
      ih fun n hn ↦ h n (List.mem_cons_of_mem name hn), List.reverse_cons, List.append_assoc,
      List.singleton_append]

/-- Below the root, a component is left out, takes away the one before it, or is a name. -/
theorem isName_of_mem_pushComponent {part : List Char} {done : List (List Char)}
    (hpart : '/' ∉ part) (hdone : ∀ name ∈ done, IsName name) :
    ∀ name ∈ pushComponent true done part, IsName name := by
  by_cases hblank : (part = [] || part = ['.']) = true
  · simpa only [pushComponent, hblank, if_true] using hdone
  · simp only [pushComponent, hblank, if_false, Bool.false_eq_true]
    by_cases hdots : part = ['.', '.']
    · simp only [hdots, if_true]
      cases done with
      | nil => exact nofun
      | cons last rest =>
        simp only [if_neg (hdone last List.mem_cons_self).ne_dots]
        intro name hname
        exact hdone name (List.mem_cons_of_mem _ hname)
    · rw [if_neg hdots]
      intro name hname
      rcases List.mem_cons.mp hname with rfl | hname
      · simp only [Bool.or_eq_true, decide_eq_true_eq, not_or] at hblank
        exact ⟨hblank.1, hblank.2, hdots, hpart⟩
      · exact hdone name hname

theorem isName_of_mem_components {cs name : List Char} (hroot : cs.head? = some '/')
    (h : name ∈ components cs) : IsName name := by
  have hkept : ∀ (parts done : List (List Char)), (∀ part ∈ parts, '/' ∉ part) →
      (∀ name ∈ done, IsName name) → ∀ name ∈ parts.foldl (pushComponent true) done,
      IsName name := by
    intro parts
    induction parts with
    | nil => exact fun done _ hdone ↦ hdone
    | cons part rest ih =>
      intro done hparts hdone
      exact ih _ (fun p hp ↦ hparts p (List.mem_cons_of_mem part hp))
        (isName_of_mem_pushComponent (hparts part List.mem_cons_self) hdone)
  rw [components, hroot, List.mem_reverse] at h
  exact hkept _ [] (fun part hpart ↦ notMem_of_mem_splitAt hpart)
    (fun _ hn ↦ absurd hn List.not_mem_nil) name h

theorem components_append {cs : List Char} {names : List (List Char)}
    (hnames : ∀ name ∈ names, IsName name) (hne : names ≠ []) :
    components (cs ++ '/' :: join ['/'] names) = components (cs ++ ['/']) ++ names := by
  have hroot : (cs ++ '/' :: join ['/'] names).head? = (cs ++ ['/']).head? := by
    rw [List.head?_append, List.head?_append, List.head?_cons, List.head?_cons]
  have hsplit := splitAt_join hne fun name hname ↦ (hnames name hname).noSlash
  have hslash : splitAt '/' (cs ++ ['/']) = splitAt '/' cs ++ [[]] := splitAt_append '/' cs []
  have hempty : ∀ rooted done, pushComponent rooted done [] = done := fun _ _ ↦ rfl
  simp only [components, hroot, splitAt_append, hsplit, hslash, List.foldl_append, List.foldl_cons,
    List.foldl_nil, hempty, foldl_pushComponent hnames, List.reverse_append, List.reverse_reverse]

theorem components_append_slash {cs : List Char} (hroot : cs.head? = some '/') :
    components (cs ++ ['/']) = components cs := by
  have hroot' : (cs ++ ['/']).head? = some '/' := by rw [List.head?_append, hroot, Option.some_or]
  have hslash : splitAt '/' (cs ++ ['/']) = splitAt '/' cs ++ [[]] := splitAt_append '/' cs []
  have hempty : ∀ done, pushComponent true done [] = done := fun _ ↦ rfl
  simp only [components, hroot, hroot', hslash, List.foldl_append, List.foldl_cons, List.foldl_nil,
    beq_self_eq_true, hempty]

theorem components_slash_join {parts : List (List Char)} (hparts : ∀ part ∈ parts, '/' ∉ part) :
    components ('/' :: join ['/'] parts) = (parts.foldl (pushComponent true) []).reverse := by
  have hslash : splitAt '/' ('/' :: join ['/'] parts) = [] :: splitAt '/' (join ['/'] parts) := by
    rw [splitAt.eq_2, if_pos rfl]
  have hempty : pushComponent true [] [] = [] := rfl
  rw [components, List.head?_cons, beq_self_eq_true, hslash, List.foldl_cons, hempty]
  by_cases hne : parts = []
  · rw [hne]
    rfl
  · rw [splitAt_join hne hparts]

theorem components_join {names : List (List Char)} (hnames : ∀ name ∈ names, IsName name) :
    components ('/' :: join ['/'] names) = names := by
  rw [components_slash_join fun name hname ↦ (hnames name hname).noSlash,
    foldl_pushComponent hnames, List.append_nil, List.reverse_reverse]

theorem components_cons_slash {cs : List Char} (hroot : cs.head? = some '/') :
    components ('/' :: cs) = components cs := by
  have hslash : splitAt '/' ('/' :: cs) = [] :: splitAt '/' cs := by rw [splitAt.eq_2, if_pos rfl]
  have hempty : pushComponent true [] [] = [] := rfl
  simp only [components, hslash, hroot, List.head?_cons, beq_self_eq_true, List.foldl_cons, hempty]

theorem rootSlashes_of_rooted {cs : List Char} (hroot : cs.head? = some '/') :
    rootSlashes cs = ['/'] ∨ rootSlashes cs = ['/', '/'] := by
  obtain ⟨rest, rfl⟩ : ∃ rest, cs = '/' :: rest := by
    cases cs with
    | nil => cases hroot
    | cons c rest => exact ⟨rest, congrArg (· :: rest) (Option.some.inj hroot)⟩
  rw [rootSlashes, List.takeWhile_cons_of_pos (by rfl), List.length_cons]
  split
  · next hlength => exact absurd hlength (Nat.succ_ne_zero _)
  · exact .inr rfl
  · exact .inl rfl

/-- **A rooted path and its normal form have the same components.** -/
theorem components_normalizeChars {cs : List Char} (hroot : cs.head? = some '/') :
    components (normalizeChars cs) = components cs := by
  have hnames : ∀ name ∈ components cs, IsName name := fun _ ↦ isName_of_mem_components hroot
  rcases rootSlashes_of_rooted hroot with hone | htwo
  · simp only [normalizeChars, hone, List.cons_append, List.nil_append, reduceCtorEq, if_false]
    exact components_join hnames
  · simp only [normalizeChars, htwo, List.cons_append, List.nil_append, reduceCtorEq, if_false]
    rw [components_cons_slash rfl]
    exact components_join hnames

theorem head?_join_ne {names : List (List Char)} (hnames : ∀ name ∈ names, IsName name) :
    (join ['/'] names).head? ≠ some '/' := by
  cases names with
  | nil => exact nofun
  | cons name rest =>
    have hname := hnames name List.mem_cons_self
    obtain ⟨c, cs, rfl⟩ := List.exists_cons_of_ne_nil hname.ne_nil
    have hhead : (join ['/'] ((c :: cs) :: rest)).head? = some c := by
      cases rest with
      | nil => rfl
      | cons next rest => rfl
    rw [hhead]
    exact fun he ↦ hname.noSlash (Option.some.inj he ▸ List.mem_cons_self)

theorem normalizeChars_of_rooted {cs : List Char} (hroot : cs.head? = some '/') :
    normalizeChars cs = rootSlashes cs ++ join ['/'] (components cs) := by
  rcases rootSlashes_of_rooted hroot with hone | htwo
  · simp only [normalizeChars, hone, List.cons_append, reduceCtorEq, if_false]
  · simp only [normalizeChars, htwo, List.cons_append, reduceCtorEq, if_false]

theorem head?_normalizeChars {cs : List Char} (hroot : cs.head? = some '/') :
    (normalizeChars cs).head? = some '/' := by
  rw [normalizeChars_of_rooted hroot]
  rcases rootSlashes_of_rooted hroot with hone | htwo
  · rw [hone]
    rfl
  · rw [htwo]
    rfl

theorem rootSlashes_append_join {slashes : List Char} {names : List (List Char)}
    (hslashes : slashes = ['/'] ∨ slashes = ['/', '/']) (hnames : ∀ name ∈ names, IsName name) :
    rootSlashes (slashes ++ join ['/'] names) = slashes := by
  have hjoin := head?_join_ne hnames
  have hstop : (join ['/'] names).takeWhile (· == '/') = [] := by
    cases hcs : join ['/'] names with
    | nil => rfl
    | cons c rest =>
      rw [hcs] at hjoin
      exact List.takeWhile_cons_of_neg (by simpa using hjoin)
  rcases hslashes with rfl | rfl
  · simp [rootSlashes, hstop]
  · simp [rootSlashes, hstop]

theorem rootSlashes_normalizeChars {cs : List Char} (hroot : cs.head? = some '/') :
    rootSlashes (normalizeChars cs) = rootSlashes cs := by
  rw [normalizeChars_of_rooted hroot]
  exact rootSlashes_append_join (rootSlashes_of_rooted hroot) fun _ ↦ isName_of_mem_components hroot

/-- **Normalising a rooted path again changes nothing.** -/
theorem normalizeChars_normalizeChars {cs : List Char} (hroot : cs.head? = some '/') :
    normalizeChars (normalizeChars cs) = normalizeChars cs := by
  rw [normalizeChars_of_rooted (head?_normalizeChars hroot), rootSlashes_normalizeChars hroot,
    components_normalizeChars hroot, ← normalizeChars_of_rooted hroot]

theorem toList_normalize (path : String) :
    (normalize path).toList = normalizeChars path.toList := by
  rw [normalize, String.toList_ofList]

theorem resolve_ne_empty (base path : String) : resolve base path ≠ "" := by
  intro hempty
  have hnil : normalizeChars (append base path).toList = [] := by
    rw [← toList_normalize, ← resolve_eq, hempty, String.toList_empty]
  simp only [normalizeChars] at hnil
  split at hnil
  · cases hnil
  · next hne => exact hne hnil

/-! ## Rooted paths -/

theorem isRooted_iff {path : String} : isRooted path = true ↔ path.toList.head? = some '/' := by
  rw [isRooted, String.startsWith_string_iff]
  cases path.toList with
  | nil => simp
  | cons c rest => simp [eq_comm]

theorem resolve_of_isRooted {path : String} (h : isRooted path = true) (base : String) :
    resolve base path = normalize path := by
  rw [resolve_eq, append, if_pos h]

theorem isRooted_tidy {path : String} (h : isRooted path = true) : isRooted (tidy path) = true := by
  rw [isRooted_iff] at h ⊢
  rcases rootSlashes_of_rooted h with hone | htwo
  · simp [tidy, hone]
  · simp [tidy, htwo]

theorem isRooted_append {base path : String} (h : isRooted base = true) :
    isRooted (append base path) = true := by
  rw [append]
  split
  · assumption
  · rw [isRooted_iff] at h ⊢
    split
    · rw [String.toList_append, List.head?_append, h, Option.some_or]
    · rw [String.toList_append, String.toList_append, List.append_assoc, List.head?_append, h,
        Option.some_or]

/-- A rooted path that normalising leaves as it is. -/
structure IsNormal (path : String) : Prop where
  rooted : isRooted path = true
  normal : normalize path = path

theorem isNormal_iff {path : String} :
    IsNormal path ↔ isRooted path = true ∧ normalize path = path := by
  constructor
  · intro h
    exact ⟨h.rooted, h.normal⟩
  · rintro ⟨hrooted, hnormal⟩
    exact ⟨hrooted, hnormal⟩

instance (path : String) : Decidable (IsNormal path) := decidable_of_iff _ isNormal_iff.symm

theorem IsNormal.resolve_eq {path : String} (h : IsNormal path) (base : String) :
    resolve base path = path := by
  rw [resolve_of_isRooted h.rooted, h.normal]

theorem isNormal_resolve {base : String} (hbase : isRooted base = true) (path : String) :
    IsNormal (resolve base path) := by
  have hroot : (append base path).toList.head? = some '/' := isRooted_iff.mp (isRooted_append hbase)
  have hresolve : (resolve base path).toList = normalizeChars (append base path).toList := by
    rw [resolve_eq, toList_normalize]
  refine ⟨?_, ?_⟩
  · rw [isRooted_iff, hresolve, head?_normalizeChars hroot]
  · rw [normalize, hresolve, normalizeChars_normalizeChars hroot, resolve_eq, normalize]

theorem isNormal_resolve_of_isRooted {path : String} (h : isRooted path = true) (base : String) :
    IsNormal (resolve base path) := by
  rw [resolve_of_isRooted h, ← resolve_of_isRooted h path]
  exact isNormal_resolve h path

theorem resolve_resolve {base : String} (hbase : isRooted base = true) (path : String) :
    resolve base (resolve base path) = resolve base path :=
  (isNormal_resolve hbase path).resolve_eq base

theorem toList_intercalate_slash (names : List String) :
    ("/".intercalate names).toList = join ['/'] (names.map String.toList) := by
  rw [String.toList_intercalate]
  induction names with
  | nil => rfl
  | cons name rest ih =>
    cases rest with
    | nil => simp [join]
    | cons next rest =>
      have hjoin : join ['/'] ((name :: next :: rest).map String.toList)
          = name.toList ++ ['/'] ++ join ['/'] ((next :: rest).map String.toList) := rfl
      rw [hjoin, ← ih]
      exact List.intercalate_cons_cons

theorem isRooted_intercalate {names : List String} (hnames : ∀ name ∈ names, IsName name.toList) :
    isRooted ("/".intercalate names) = false := by
  rw [← Bool.not_eq_true, isRooted_iff, toList_intercalate_slash]
  refine head?_join_ne fun name hname ↦ ?_
  obtain ⟨n, hn, rfl⟩ := List.mem_map.mp hname
  exact hnames n hn

/-- Behind a rooted path and a slash, which may be at its end already, stand the names of a path
below it. -/
theorem toList_append_intercalate {base : String} {names : List String}
    (hbase : isRooted base = true) (hnames : ∀ name ∈ names, IsName name.toList) :
    ∃ front, (append base ("/".intercalate names)).toList = front ++ '/' ::
      join ['/'] (names.map String.toList) ∧
      (base.toList = front ++ ['/'] ∨ base.toList = front) := by
  have hempty : base.isEmpty = false := by
    rw [← Bool.not_eq_true, String.isEmpty_iff]
    rintro rfl
    cases isRooted_iff.mp hbase
  rw [append, if_neg (by rw [isRooted_intercalate hnames]; exact Bool.false_ne_true), hempty,
    Bool.false_or]
  by_cases hslash : base.endsWith "/" = true
  · obtain ⟨front, hfront⟩ := String.Slice.endsWith_string_iff.mp hslash
    have hbase' : base.toList = front ++ ['/'] := by
      rw [String.copy_toSlice] at hfront
      exact hfront.symm
    refine ⟨front, ?_, .inl hbase'⟩
    rw [if_pos hslash, String.toList_append, toList_intercalate_slash, hbase', List.append_assoc,
      List.singleton_append]
  · have hone : "/".toList = ['/'] := rfl
    refine ⟨base.toList, ?_, .inr rfl⟩
    rw [if_neg hslash, String.toList_append, String.toList_append, toList_intercalate_slash, hone,
      List.append_assoc, List.singleton_append]

/-- **The components of a path of names below a rooted one.** -/
theorem components_append_intercalate {base : String} {names : List String}
    (hbase : isRooted base = true) (hnames : ∀ name ∈ names, IsName name.toList)
    (hne : names ≠ []) :
    components (append base ("/".intercalate names)).toList
      = components base.toList ++ names.map String.toList := by
  have hmap : ∀ name ∈ names.map String.toList, IsName name := List.forall_mem_map.mpr hnames
  have hmap_ne : names.map String.toList ≠ [] := fun he ↦ hne (List.map_eq_nil_iff.mp he)
  obtain ⟨front, happend, hfront | hfront⟩ := toList_append_intercalate hbase hnames
  · rw [happend, hfront, components_append hmap hmap_ne]
  · rw [happend, hfront, components_append hmap hmap_ne,
      components_append_slash (hfront ▸ isRooted_iff.mp hbase)]

/-! ## Normal forms below normal forms -/

theorem normalizeChars_append_join {slashes : List Char} {names : List (List Char)}
    (hslashes : slashes = ['/'] ∨ slashes = ['/', '/']) (hnames : ∀ name ∈ names, IsName name) :
    normalizeChars (slashes ++ join ['/'] names) = slashes ++ join ['/'] names := by
  have hroot : (slashes ++ join ['/'] names).head? = some '/' := by
    rcases hslashes with rfl | rfl <;> rfl
  have hcomponents : components (slashes ++ join ['/'] names) = names := by
    rcases hslashes with rfl | rfl
    · exact components_join hnames
    · exact (components_cons_slash rfl).trans (components_join hnames)
  rw [normalizeChars_of_rooted hroot, rootSlashes_append_join hslashes hnames, hcomponents]

theorem join_append {parts parts' : List (List Char)} (hparts : parts ≠ [])
    (hparts' : parts' ≠ []) :
    join ['/'] (parts ++ parts') = join ['/'] parts ++ '/' :: join ['/'] parts' := by
  induction parts with
  | nil => exact absurd rfl hparts
  | cons part rest ih =>
    by_cases hrest : rest = []
    · rw [hrest]
      exact join_cons hparts'
    · rw [List.cons_append, join_cons (List.append_ne_nil_of_left_ne_nil hrest _), ih hrest,
        join_cons hrest, List.append_assoc, List.cons_append]

/-- Names that are joined do not end in a slash. -/
theorem exists_getLast?_join {names : List (List Char)} (hnames : ∀ name ∈ names, IsName name)
    (hne : names ≠ []) : ∃ c, c ≠ '/' ∧ (join ['/'] names).getLast? = some c := by
  induction names with
  | nil => exact absurd rfl hne
  | cons name rest ih =>
    have hname := hnames name List.mem_cons_self
    by_cases hrest : rest = []
    · obtain ⟨c, hc⟩ := Option.ne_none_iff_exists'.mp (mt List.getLast?_eq_none_iff.mp hname.ne_nil)
      rw [hrest]
      refine ⟨c, ?_, hc⟩
      rintro rfl
      exact hname.noSlash (List.mem_of_getLast? hc)
    · obtain ⟨c, hc, hlast⟩ := ih (fun n hn ↦ hnames n (List.mem_cons_of_mem name hn)) hrest
      refine ⟨c, hc, ?_⟩
      rw [join_cons hrest, List.getLast?_append, List.getLast?_cons, hlast]
      rfl

theorem endsWith_slash_iff {path : String} :
    path.endsWith "/" = true ↔ path.toList.getLast? = some '/' := by
  have hsuffix : path.endsWith "/" = true ↔ "/".toList <:+ path.toSlice.copy.toList :=
    String.Slice.endsWith_string_iff
  have hone : "/".toList = ['/'] := rfl
  rw [hsuffix, String.copy_toSlice, hone, List.getLast?_eq_some_iff]
  constructor
  · rintro ⟨cs, hcs⟩
    exact ⟨cs, hcs.symm⟩
  · rintro ⟨cs, hcs⟩
    exact ⟨cs, hcs.symm⟩

/-- **A path of names below a rooted one in normal form is in normal form.** -/
theorem IsNormal.append_intercalate {base : String} {names : List String} (h : IsNormal base)
    (hnames : ∀ name ∈ names, IsName name.toList) (hne : names ≠ []) :
    IsNormal (append base ("/".intercalate names)) := by
  have hroot := isRooted_iff.mp h.rooted
  have hmap : ∀ name ∈ names.map String.toList, IsName name := List.forall_mem_map.mpr hnames
  have hmap_ne : names.map String.toList ≠ [] := fun he ↦ hne (List.map_eq_nil_iff.mp he)
  have hone : "/".toList = ['/'] := rfl
  obtain ⟨slashes, parts, hslashes, hparts, hlist⟩ : ∃ slashes parts,
      (slashes = ['/'] ∨ slashes = ['/', '/']) ∧ (∀ part ∈ parts, IsName part)
        ∧ base.toList = slashes ++ join ['/'] parts := by
    refine ⟨_, _, rootSlashes_of_rooted hroot, fun _ ↦ isName_of_mem_components hroot, ?_⟩
    rw [← normalizeChars_of_rooted hroot, ← toList_normalize, h.normal]
  have hempty : base.isEmpty = false := by
    rw [← Bool.not_eq_true, String.isEmpty_iff]
    rintro rfl
    cases hroot
  -- A slash is put between the two unless the path is the root itself.
  have happend : (append base ("/".intercalate names)).toList
      = slashes ++ join ['/'] (parts ++ names.map String.toList) := by
    rw [append, if_neg (by rw [isRooted_intercalate hnames]; exact Bool.false_ne_true), hempty,
      Bool.false_or]
    by_cases hnone : parts = []
    · have hroots : base.toList = slashes := by
        rw [hlist, hnone]
        exact List.append_nil slashes
      have hslash : base.endsWith "/" = true := by
        rw [endsWith_slash_iff, hroots]
        rcases hslashes with rfl | rfl <;> rfl
      rw [if_pos hslash, String.toList_append, toList_intercalate_slash, hroots, hnone,
        List.nil_append]
    · obtain ⟨c, hc, hlast⟩ := exists_getLast?_join hparts hnone
      have hslash : ¬ base.endsWith "/" = true := by
        rw [endsWith_slash_iff, hlist, List.getLast?_append, hlast]
        exact fun he ↦ hc (Option.some.inj he)
      rw [if_neg hslash, String.toList_append, String.toList_append, toList_intercalate_slash,
        hone, hlist, join_append hnone hmap_ne, List.append_assoc, List.append_assoc,
        List.singleton_append]
  have hall : ∀ name ∈ parts ++ names.map String.toList, IsName name := by
    intro name hname
    exact (List.mem_append.mp hname).elim (hparts name) (hmap name)
  refine ⟨isRooted_append h.rooted, ?_⟩
  rw [← String.toList_inj, toList_normalize, happend]
  exact normalizeChars_append_join hslashes hall

/-! ## Tidy paths -/

theorem toList_tidy {path : String} (h : isRooted path = true) :
    (tidy path).toList = rootSlashes path.toList ++
      join ['/'] ((segments path).map String.toList) := by
  rcases rootSlashes_of_rooted (isRooted_iff.mp h) with hone | htwo
  · simp [tidy, hone]
  · simp [tidy, htwo]

theorem mem_map_segments {path : String} {part : List Char}
    (h : part ∈ (segments path).map String.toList) :
    part ≠ [] ∧ part ≠ ['.'] ∧ '/' ∉ part := by
  obtain ⟨segment, hsegment, rfl⟩ := List.mem_map.mp h
  obtain ⟨part, hpart, rfl⟩ := List.mem_map.mp hsegment
  obtain ⟨hsplit, hkept⟩ := List.mem_filter.mp hpart
  rw [Bool.and_eq_true, bne_iff_ne, bne_iff_ne] at hkept
  rw [String.toList_ofList]
  exact ⟨hkept.1, hkept.2, notMem_of_mem_splitAt hsplit⟩

/-- Only what is between slashes, and neither empty nor a dot, comes out of a path that is taken
apart. -/
theorem filter_splitAt {slashes : List Char} {parts : List (List Char)}
    (hslashes : slashes = ['/'] ∨ slashes = ['/', '/'])
    (hparts : ∀ part ∈ parts, part ≠ [] ∧ part ≠ ['.'] ∧ '/' ∉ part) :
    (splitAt '/' (slashes ++ join ['/'] parts)).filter (fun part ↦ part != [] && part != ['.'])
      = parts := by
  have hslash : ∀ cs, splitAt '/' ('/' :: cs) = [] :: splitAt '/' cs :=
    fun cs ↦ by rw [splitAt.eq_2, if_pos rfl]
  have hfilter : (splitAt '/' (join ['/'] parts)).filter (fun part ↦ part != [] && part != ['.'])
      = parts := by
    by_cases hne : parts = []
    · rw [hne]
      rfl
    · rw [splitAt_join hne fun part hpart ↦ (hparts part hpart).2.2]
      refine List.filter_eq_self.mpr fun part hpart ↦ ?_
      rw [Bool.and_eq_true, bne_iff_ne, bne_iff_ne]
      exact ⟨(hparts part hpart).1, (hparts part hpart).2.1⟩
  rcases hslashes with rfl | rfl
  · rw [List.singleton_append, hslash, List.filter_cons_of_neg (by decide), hfilter]
  · rw [List.cons_append, List.singleton_append, hslash, hslash,
      List.filter_cons_of_neg (by decide), List.filter_cons_of_neg (by decide), hfilter]

theorem segments_tidy {path : String} (h : isRooted path = true) :
    segments (tidy path) = segments path := by
  have hid : ((segments path).map String.toList).map String.ofList = segments path := by
    rw [List.map_map]
    refine (List.map_congr_left fun segment _ ↦ ?_).trans (List.map_id _)
    exact String.ofList_toList
  rw [segments, toList_tidy h, filter_splitAt (rootSlashes_of_rooted (isRooted_iff.mp h)) fun _ ↦
    mem_map_segments, hid]

theorem IsNormal.map_segments {path : String} (h : IsNormal path) :
    (segments path).map String.toList = components path.toList := by
  have hroot := isRooted_iff.mp h.rooted
  have hparts : ∀ part ∈ components path.toList, part ≠ [] ∧ part ≠ ['.'] ∧ '/' ∉ part := by
    intro part hpart
    have hname := isName_of_mem_components hroot hpart
    exact ⟨hname.ne_nil, hname.ne_dot, hname.noSlash⟩
  have hsplit := filter_splitAt (rootSlashes_of_rooted hroot) hparts
  rw [← normalizeChars_of_rooted hroot, ← toList_normalize, h.normal] at hsplit
  rw [segments, hsplit, List.map_map]
  refine (List.map_congr_left fun part _ ↦ ?_).trans (List.map_id _)
  exact String.toList_ofList

theorem IsNormal.dots_notMem {path : String} (h : IsNormal path) : ".." ∉ segments path := by
  intro hdots
  have hmem : "..".toList ∈ (segments path).map String.toList := List.mem_map_of_mem hdots
  rw [h.map_segments] at hmem
  exact (isName_of_mem_components (isRooted_iff.mp h.rooted) hmem).ne_dots rfl

/-- **A path in normal form is tidy.** -/
theorem IsNormal.tidy_eq {path : String} (h : IsNormal path) : tidy path = path := by
  rw [← String.toList_inj, toList_tidy h.rooted, h.map_segments,
    ← normalizeChars_of_rooted (isRooted_iff.mp h.rooted), ← toList_normalize, h.normal]

/-- What a path is made of is in the paths below it, too. -/
theorem mem_segments_append {base path segment : String} (hbase : base ≠ "")
    (hpath : isRooted path = false) (h : segment ∈ segments base) :
    segment ∈ segments (append base path) := by
  obtain ⟨part, hpart, rfl⟩ := List.mem_map.mp h
  obtain ⟨hmem, hkept⟩ := List.mem_filter.mp hpart
  refine List.mem_map_of_mem (List.mem_filter.mpr ⟨?_, hkept⟩)
  rw [append, if_neg (by rw [hpath]; exact Bool.false_ne_true)]
  rw [← String.isEmpty_eq_false_iff] at hbase
  rw [hbase, Bool.false_or]
  split
  · next hslash =>
    -- What is behind the slash at the end is empty and so no part of the path.
    obtain ⟨front, hfront⟩ := List.getLast?_eq_some_iff.mp (endsWith_slash_iff.mp hslash)
    rw [hfront, splitAt_append, List.mem_append] at hmem
    have hne : part ≠ [] := by
      rintro rfl
      cases hkept
    have hfirst : part ∈ splitAt '/' front :=
      hmem.resolve_right fun hnil ↦ hne (List.mem_singleton.mp hnil)
    rw [String.toList_append, hfront, List.append_assoc, List.singleton_append, splitAt_append]
    exact List.mem_append_left _ hfirst
  · have hone : "/".toList = ['/'] := rfl
    rw [String.toList_append, String.toList_append, hone, List.append_assoc, List.singleton_append,
      splitAt_append]
    exact List.mem_append_left _ hmem

/-- **A tidy path without `..` components is in normal form.** -/
theorem isNormal_tidy {path : String} (h : isRooted path = true) (hdots : ".." ∉ segments path) :
    IsNormal (tidy path) := by
  refine ⟨isRooted_tidy h, ?_⟩
  rw [← String.toList_inj, toList_normalize, toList_tidy h]
  refine normalizeChars_append_join (rootSlashes_of_rooted (isRooted_iff.mp h)) fun part hpart ↦ ?_
  obtain ⟨hnil, hdot, hslash⟩ := mem_map_segments hpart
  refine ⟨hnil, hdot, ?_, hslash⟩
  rintro rfl
  obtain ⟨segment, hsegment, hdots'⟩ := List.mem_map.mp hpart
  have hsegment' : segment = ".." := String.toList_inj.mp hdots'
  exact hdots (hsegment' ▸ hsegment)

end MissionIndex.Path
