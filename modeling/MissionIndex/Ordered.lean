/-!
# Ordered tables

A table of named entries that remembers the order in which its names came in, kept as the list of
its entries. A new name goes to the end; a name that is there already keeps its place and only its
entry changes. Looking up is `List.lookup`.
-/

namespace MissionIndex.Ordered

variable {α : Type}

def put (key : String) (value : α) : List (String × α) → List (String × α)
  | [] => [(key, value)]
  | (k, old) :: rest => if k = key then (key, value) :: rest else (k, old) :: put key value rest

/-- Removes the entry of `key`. -/
def erase (key : String) : List (String × α) → List (String × α)
  | [] => []
  | (k, old) :: rest => if k = key then rest else (k, old) :: erase key rest

/-- Changes the entry of `key`, if there is one. -/
def modify (key : String) (f : α → α) : List (String × α) → List (String × α)
  | [] => []
  | (k, old) :: rest => if k = key then (k, f old) :: rest else (k, old) :: modify key f rest

/-- Adds `item` at the end of the list that is the entry of `key`, which starts out empty. -/
def push (key : String) (item : α) (table : List (String × List α)) : List (String × List α) :=
  put key ((table.lookup key).getD [] ++ [item]) table

/-- The table that results from putting entries in one after another. -/
def ofEntries (entries : List (String × α)) : List (String × α) :=
  entries.foldl (fun table (key, value) ↦ put key value table) []

/-! ## Order -/

theorem map_fst_put_of_mem {key : String} {table : List (String × α)}
    (h : key ∈ table.map Prod.fst) (value : α) :
    (put key value table).map Prod.fst = table.map Prod.fst := by
  induction table with
  | nil => simp at h
  | cons e rest ih =>
    obtain ⟨k, old⟩ := e
    by_cases hk : k = key
    · simp [put, hk]
    · have hr : key ∈ rest.map Prod.fst := by
        rw [List.map_cons, List.mem_cons] at h
        exact h.resolve_left fun e ↦ hk e.symm
      simp [put, hk, ih hr]

theorem put_of_notMem {key : String} {table : List (String × α)}
    (h : key ∉ table.map Prod.fst) (value : α) : put key value table = table ++ [(key, value)] := by
  induction table with
  | nil => rfl
  | cons e rest ih =>
    obtain ⟨k, old⟩ := e
    rw [List.map_cons, List.mem_cons, not_or] at h
    have hk : ¬k = key := fun e ↦ h.1 e.symm
    simp [put, hk, ih h.2]

theorem mem_map_fst_put {key other : String} {value : α} {table : List (String × α)} :
    other ∈ (put key value table).map Prod.fst ↔ other = key ∨ other ∈ table.map Prod.fst := by
  by_cases hkey : key ∈ table.map Prod.fst
  · rw [map_fst_put_of_mem hkey, or_iff_right_of_imp]
    rintro rfl
    exact hkey
  · rw [put_of_notMem hkey, List.map_append, List.mem_append, List.map_singleton,
      List.mem_singleton, or_comm]

@[simp] theorem map_fst_modify (key : String) (f : α → α) (table : List (String × α)) :
    (modify key f table).map Prod.fst = table.map Prod.fst := by
  induction table with
  | nil => rfl
  | cons e rest ih =>
    obtain ⟨k, old⟩ := e
    by_cases hk : k = key
    · simp [modify, hk]
    · simp [modify, hk, ih]

theorem nodup_map_fst_put {table : List (String × α)} (h : (table.map Prod.fst).Nodup)
    (key : String) (value : α) : ((put key value table).map Prod.fst).Nodup := by
  by_cases hkey : key ∈ table.map Prod.fst
  · rwa [map_fst_put_of_mem hkey]
  · rw [put_of_notMem hkey, List.map_append, List.nodup_append]
    refine ⟨h, List.pairwise_singleton _ key, fun k hk k' hk' he ↦ hkey ?_⟩
    obtain rfl : k' = key := List.mem_singleton.mp hk'
    rwa [← he]

theorem erase_sublist (key : String) (table : List (String × α)) :
    (erase key table).Sublist table := by
  induction table with
  | nil => exact .slnil
  | cons e rest ih =>
    obtain ⟨k, old⟩ := e
    rw [erase]
    split
    · exact List.sublist_cons_self _ rest
    · exact ih.cons_cons _

theorem perm_put (key : String) (value : α) (table : List (String × α)) :
    (put key value table).Perm ((key, value) :: erase key table) := by
  induction table with
  | nil => exact .refl _
  | cons e rest ih =>
    obtain ⟨k, old⟩ := e
    by_cases hk : k = key
    · rw [put, if_pos hk, erase, if_pos hk]
    · rw [put, if_neg hk, erase, if_neg hk]
      exact (ih.cons _).trans (.swap ..)

theorem perm_of_lookup {key : String} {value : α} {table : List (String × α)}
    (h : table.lookup key = some value) : table.Perm ((key, value) :: erase key table) := by
  induction table with
  | nil => cases h
  | cons e rest ih =>
    obtain ⟨k, old⟩ := e
    rw [List.lookup_cons] at h
    by_cases hk : k = key
    · subst hk
      rw [beq_self_eq_true] at h
      cases h
      rw [erase, if_pos rfl]
    · rw [beq_eq_false_iff_ne.mpr (Ne.symm hk)] at h
      rw [erase, if_neg hk]
      exact ((ih h).cons _).trans (.swap ..)

theorem erase_of_lookup_eq_none {key : String} {table : List (String × α)}
    (h : table.lookup key = none) : erase key table = table := by
  induction table with
  | nil => rfl
  | cons e rest ih =>
    obtain ⟨k, old⟩ := e
    rw [List.lookup_cons] at h
    by_cases hk : k = key
    · rw [hk, beq_self_eq_true] at h
      cases h
    · rw [beq_eq_false_iff_ne.mpr (Ne.symm hk)] at h
      rw [erase, if_neg hk, ih h]

/-! ## Entries -/

theorem mem_of_mem_put {key : String} {value : α} {table : List (String × α)} {e : String × α}
    (h : e ∈ put key value table) : e = (key, value) ∨ e ∈ table := by
  induction table with
  | nil => exact .inl (List.mem_singleton.mp h)
  | cons e' rest ih =>
    obtain ⟨k, old⟩ := e'
    rw [put] at h
    split at h
    · exact (List.mem_cons.mp h).imp_right (List.mem_cons_of_mem _)
    · rcases List.mem_cons.mp h with rfl | h
      · exact .inr List.mem_cons_self
      · exact (ih h).imp_right (List.mem_cons_of_mem _)

theorem mem_of_lookup {key : String} {value : α} {table : List (String × α)}
    (h : table.lookup key = some value) : (key, value) ∈ table := by
  obtain ⟨before, after, rfl, -⟩ := List.lookup_eq_some_iff.mp h
  exact List.mem_append_right _ List.mem_cons_self

theorem lookup_of_mem {key : String} {value : α} {table : List (String × α)}
    (h : (table.map Prod.fst).Nodup) (hmem : (key, value) ∈ table) :
    table.lookup key = some value := by
  induction table with
  | nil => cases hmem
  | cons e rest ih =>
    obtain ⟨hfirst, hrest⟩ := List.nodup_cons.mp h
    rcases List.mem_cons.mp hmem with rfl | hmem
    · exact List.lookup_cons_self
    · have hkey : key ∈ rest.map Prod.fst := List.mem_map_of_mem hmem
      have hne : key ≠ e.1 := fun he ↦ hfirst (he ▸ hkey)
      rw [List.lookup_cons, beq_eq_false_iff_ne.mpr hne]
      exact ih hrest hmem

/-! ## Looking up -/

@[simp] theorem lookup_put_self (key : String) (value : α) (table : List (String × α)) :
    (put key value table).lookup key = some value := by
  induction table with
  | nil => simp [put]
  | cons e rest ih =>
    obtain ⟨k, old⟩ := e
    by_cases h : k = key
    · simp [put, h]
    · have h' : (key == k) = false := by simpa using fun e ↦ h e.symm
      simp [put, h, List.lookup_cons, h', ih]

theorem lookup_put_of_ne {key other : String} (h : other ≠ key) (value : α)
    (table : List (String × α)) : (put key value table).lookup other = table.lookup other := by
  induction table with
  | nil =>
    have h' : (other == key) = false := by simpa using h
    simp [put, List.lookup_cons, h']
  | cons e rest ih =>
    obtain ⟨k, old⟩ := e
    by_cases hk : k = key
    · have h' : (other == key) = false := by simpa using h
      simp [put, hk, List.lookup_cons, h']
    · simp [put, hk, List.lookup_cons, ih]

theorem lookup_modify (key : String) (f : α → α) (table : List (String × α)) (other : String) :
    (modify key f table).lookup other
      = if other = key then (table.lookup other).map f else table.lookup other := by
  induction table with
  | nil => split <;> rfl
  | cons e rest ih =>
    obtain ⟨k, old⟩ := e
    by_cases hk : k = key
    · by_cases ho : other = k
      · simp [modify, hk, ho]
      · have hne : other ≠ key := fun he ↦ ho (he.trans hk.symm)
        have hne' : (other == key) = false := beq_eq_false_iff_ne.mpr hne
        simp [modify, hk, List.lookup_cons, hne, hne']
    · by_cases ho : other = k
      · simp [modify, hk, ho]
      · have ho' : (other == k) = false := beq_eq_false_iff_ne.mpr ho
        simp [modify, hk, List.lookup_cons, ho', ih]

theorem lookup_erase_self {key : String} {table : List (String × α)}
    (h : (table.map Prod.fst).Nodup) : (erase key table).lookup key = none := by
  induction table with
  | nil => rfl
  | cons e rest ih =>
    obtain ⟨k, old⟩ := e
    rw [List.map_cons, List.nodup_cons] at h
    by_cases hk : k = key
    · rw [erase, if_pos hk, List.lookup_eq_none_iff]
      intro e' he'
      have hmem : e'.1 ∈ rest.map Prod.fst := List.mem_map_of_mem he'
      have hne : key ≠ e'.1 := fun he ↦ h.1 (hk ▸ he ▸ hmem)
      simpa using hne
    · have hk' : (key == k) = false := by simpa using fun e ↦ hk e.symm
      rw [erase, if_neg hk, List.lookup_cons, hk', ih h.2]

theorem lookup_erase_of_ne {key other : String} (h : other ≠ key) (table : List (String × α)) :
    (erase key table).lookup other = table.lookup other := by
  induction table with
  | nil => rfl
  | cons e rest ih =>
    obtain ⟨k, old⟩ := e
    by_cases hk : k = key
    · have h' : (other == key) = false := by simpa using h
      simp [erase, hk, List.lookup_cons, h']
    · simp [erase, hk, List.lookup_cons, ih]

theorem isSome_lookup_iff {key : String} {table : List (String × α)} :
    (table.lookup key).isSome = true ↔ key ∈ table.map Prod.fst := by
  induction table with
  | nil => simp
  | cons e rest ih =>
    obtain ⟨k, value⟩ := e
    rw [List.lookup_cons, List.map_cons, List.mem_cons]
    by_cases hk : key = k
    · simp [hk]
    · simp [beq_eq_false_iff_ne.mpr hk, hk, ih]

theorem nodup_map_fst_erase {table : List (String × α)} (h : (table.map Prod.fst).Nodup)
    (key : String) : ((erase key table).map Prod.fst).Nodup :=
  ((erase_sublist key table).map _).nodup h

/-! ## Tables of lists -/

theorem flatMap_snd_perm (key : String) (table : List (String × List α)) :
    (table.flatMap Prod.snd).Perm ((table.lookup key).getD [] ++
      (erase key table).flatMap Prod.snd) := by
  cases h : table.lookup key with
  | none =>
    rw [erase_of_lookup_eq_none h]
    exact .refl _
  | some items => exact (perm_of_lookup h).flatMap_right _

theorem flatMap_snd_push_perm (key : String) (item : α) (table : List (String × List α)) :
    ((push key item table).flatMap Prod.snd).Perm (item :: table.flatMap Prod.snd) := by
  refine ((perm_put _ _ _).flatMap_right _).trans ?_
  rw [List.flatMap_cons, List.append_assoc, List.singleton_append]
  exact List.perm_middle.trans ((flatMap_snd_perm key table).symm.cons item)

/-! ## Changing all entries -/

theorem modify_id (key : String) (table : List (String × α)) : modify key id table = table := by
  induction table with
  | nil => rfl
  | cons e rest ih =>
    rw [modify, ih]
    split <;> rfl

theorem modify_put_self (key : String) (f : α → α) (value : α) (table : List (String × α)) :
    modify key f (put key value table) = put key (f value) table := by
  induction table with
  | nil => simp [put, modify]
  | cons e rest ih =>
    obtain ⟨k, old⟩ := e
    by_cases hk : k = key
    · simp [put, modify, hk]
    · simp [put, modify, hk, ih]

theorem modify_append_of_notMem {key : String} {front : List (String × α)}
    (h : key ∉ front.map Prod.fst) (f : α → α) (table : List (String × α)) :
    modify key f (front ++ table) = front ++ modify key f table := by
  induction front with
  | nil => rfl
  | cons e rest ih =>
    obtain ⟨k, old⟩ := e
    rw [List.map_cons, List.mem_cons, not_or] at h
    have hk : ¬k = key := fun he ↦ h.1 he.symm
    rw [List.cons_append, modify, if_neg hk, ih h.2, List.cons_append]

theorem foldl_modify_append (f : α → α → α) {front table : List (String × α)}
    (h : ((front ++ table).map Prod.fst).Nodup) :
    table.foldl (fun t e ↦ modify e.1 (f e.2) t) (front ++ table)
      = front ++ table.map fun e ↦ (e.1, f e.2 e.2) := by
  induction table generalizing front with
  | nil => rfl
  | cons e rest ih =>
    obtain ⟨k, value⟩ := e
    have hfront : k ∉ front.map Prod.fst := by
      rw [List.map_append, List.nodup_append] at h
      intro hmem
      exact h.2.2 k hmem k List.mem_cons_self rfl
    have hnext : ((front ++ [(k, f value value)] ++ rest).map Prod.fst).Nodup := by
      simpa only [List.map_append, List.map_cons, List.map_nil, List.append_assoc,
        List.singleton_append] using h
    rw [List.foldl_cons, modify_append_of_notMem hfront, modify, if_pos rfl, List.map_cons,
      ← List.singleton_append (l := rest), ← List.append_assoc, ih hnext, List.append_assoc,
      List.singleton_append]

theorem foldl_modify (f : α → α → α) {table : List (String × α)} (h : (table.map Prod.fst).Nodup) :
    table.foldl (fun t e ↦ modify e.1 (f e.2) t) table = table.map fun e ↦ (e.1, f e.2 e.2) := by
  have hall := @foldl_modify_append _ f [] table h
  exact hall

section Map

variable {β : Type} (f : α → β)

theorem lookup_map_snd (table : List (String × α)) (key : String) :
    (table.map fun e ↦ (e.1, f e.2)).lookup key = (table.lookup key).map f := by
  induction table with
  | nil => rfl
  | cons e rest ih =>
    rw [List.map_cons, List.lookup_cons, List.lookup_cons]
    split
    · rfl
    · exact ih

theorem map_snd_put (key : String) (value : α) (table : List (String × α)) :
    (put key value table).map (fun e ↦ (e.1, f e.2))
      = put key (f value) (table.map fun e ↦ (e.1, f e.2)) := by
  induction table with
  | nil => rfl
  | cons e rest ih =>
    rw [put, List.map_cons, put]
    split
    · rfl
    · rw [List.map_cons, ih]

theorem map_snd_erase (key : String) (table : List (String × α)) :
    (erase key table).map (fun e ↦ (e.1, f e.2)) = erase key (table.map fun e ↦ (e.1, f e.2)) := by
  induction table with
  | nil => rfl
  | cons e rest ih =>
    rw [erase, List.map_cons, erase]
    split
    · rfl
    · rw [List.map_cons, ih]

end Map

/-! ## One change after another -/

theorem put_put (key : String) (old value : α) (table : List (String × α)) :
    put key value (put key old table) = put key value table := by
  induction table with
  | nil => simp [put]
  | cons e rest ih =>
    obtain ⟨k, before⟩ := e
    by_cases hk : k = key
    · rw [put, if_pos hk, put, if_pos rfl, put, if_pos hk]
    · rw [put, if_neg hk, put, if_neg hk, put, if_neg hk, ih]

theorem erase_put_self (key : String) (value : α) (table : List (String × α)) :
    erase key (put key value table) = erase key table := by
  induction table with
  | nil => simp [put, erase]
  | cons e rest ih =>
    obtain ⟨k, old⟩ := e
    by_cases hk : k = key
    · rw [put, if_pos hk, erase, if_pos rfl, erase, if_pos hk]
    · rw [put, if_neg hk, erase, if_neg hk, erase, if_neg hk, ih]

theorem erase_put_of_ne {key other : String} (h : other ≠ key) (value : α)
    (table : List (String × α)) :
    erase key (put other value table) = put other value (erase key table) := by
  induction table with
  | nil => simp [put, erase, h]
  | cons e rest ih =>
    obtain ⟨k, old⟩ := e
    by_cases hother : k = other
    · have hk : ¬ k = key := fun hk ↦ h (hother.symm.trans hk)
      rw [put, if_pos hother, erase, if_neg h, erase, if_neg hk, put, if_pos hother]
    · by_cases hk : k = key
      · rw [put, if_neg hother, erase, if_pos hk, erase, if_pos hk]
      · rw [put, if_neg hother, erase, if_neg hk, erase, if_neg hk, put, if_neg hother, ih]

theorem erase_comm {key other : String} (h : other ≠ key) (table : List (String × α)) :
    erase key (erase other table) = erase other (erase key table) := by
  induction table with
  | nil => rfl
  | cons e rest ih =>
    obtain ⟨k, old⟩ := e
    by_cases hother : k = other
    · have hk : ¬ k = key := fun hk ↦ h (hother.symm.trans hk)
      rw [erase, if_pos hother, erase, if_neg hk, erase, if_pos hother]
    · by_cases hk : k = key
      · rw [erase, if_neg hother, erase, if_pos hk, erase, if_pos hk]
      · rw [erase, if_neg hother, erase, if_neg hk, erase, if_neg hk, erase, if_neg hother, ih]

end MissionIndex.Ordered
