import Mathlib.Data.List.Induction
import MissionIndex.Ordered

/-!
# Tables filled from rows

A table that is filled from a row of entries has the keys of the row, each at the place where it
first came in. If later entries replace earlier ones, it has the last entry of each key; if they are
pushed to those that are there, it has all of them in their order.
-/

namespace MissionIndex.Ordered

variable {α : Type}

/-! ## Keys in the order in which they first came in -/

section Keys

variable {β γ : Type} [BEq β] [LawfulBEq β] [BEq γ] [LawfulBEq γ]

theorem eraseDups_concat (keys : List β) (key : β) :
    (keys ++ [key]).eraseDups = if key ∈ keys then keys.eraseDups else keys.eraseDups ++ [key] := by
  rw [List.eraseDups_append]
  by_cases h : key ∈ keys
  · rw [if_pos h, List.removeAll, List.filter_cons_of_neg (by simpa using h), List.filter_nil,
      List.eraseDups_nil, List.append_nil]
  · rw [if_neg h, List.removeAll, List.filter_cons_of_pos (by simpa using h), List.filter_nil,
      List.eraseDups_cons, List.filter_nil, List.eraseDups_nil]

theorem nodup_eraseDups (keys : List β) : keys.eraseDups.Nodup := by
  induction keys using List.reverseRecOn with
  | nil => exact List.nodup_nil
  | append_singleton keys key ih =>
    rw [eraseDups_concat]
    split
    · exact ih
    · next hnew =>
      refine List.nodup_append.mpr ⟨ih, List.pairwise_singleton _ key, fun k hk k' hk' he ↦ hnew ?_⟩
      rw [← List.mem_singleton.mp hk', ← he]
      exact List.mem_eraseDups.mp hk

theorem nodup_ite_contains {keys : List β} (h : keys.Nodup) (key : β) :
    (if keys.contains key then keys else keys ++ [key]).Nodup := by
  split
  · exact h
  · next hmissing =>
    refine List.nodup_append.mpr ⟨h, List.pairwise_singleton _ key, fun k hk k' hk' he ↦
      hmissing ?_⟩
    rw [List.contains_iff_mem, ← List.mem_singleton.mp hk', ← he]
    exact hk

theorem eraseDups_sublist (keys : List β) : keys.eraseDups.Sublist keys := by
  induction keys using List.reverseRecOn with
  | nil => exact List.Sublist.refl _
  | append_singleton keys key ih =>
    rw [eraseDups_concat]
    split
    · exact ih.trans (List.sublist_append_left _ _)
    · exact ih.append (List.Sublist.refl _)

/-- Repetitions among what keys are made from only repeat keys. -/
theorem eraseDups_append_filterMap (keys : List γ) (items : List β) (key? : β → Option γ) :
    (keys ++ items.eraseDups.filterMap key?).eraseDups
      = (keys ++ items.filterMap key?).eraseDups := by
  induction items using List.reverseRecOn with
  | nil => rfl
  | append_singleton items item ih =>
    rw [eraseDups_concat]
    cases hkey : key? item with
    | none =>
      have hnone : [item].filterMap key? = [] := List.filterMap_cons_none hkey
      rw [List.filterMap_append, hnone, List.append_nil, ← ih]
      split
      · rfl
      · rw [List.filterMap_append, hnone, List.append_nil]
    | some key =>
      have hsome : [item].filterMap key? = [key] := List.filterMap_cons_some hkey
      rw [List.filterMap_append, hsome, ← List.append_assoc, eraseDups_concat, ← ih]
      split
      · next hitem =>
        rw [if_pos (List.mem_append_right _ (List.mem_filterMap.mpr ⟨item, hitem, hkey⟩))]
      · have hmem : key ∈ keys ++ items.eraseDups.filterMap key? ↔
            key ∈ keys ++ items.filterMap key? := by
          simp only [List.mem_append, List.mem_filterMap, List.mem_eraseDups]
        rw [List.filterMap_append, hsome, ← List.append_assoc, eraseDups_concat]
        simp only [hmem]

end Keys

/-! ## Replacing -/

theorem ofEntries_concat (entries : List (String × α)) (e : String × α) :
    ofEntries (entries ++ [e]) = put e.1 e.2 (ofEntries entries) := by
  rw [ofEntries, List.foldl_append]
  rfl

theorem map_fst_ofEntries (entries : List (String × α)) :
    (ofEntries entries).map Prod.fst = (entries.map Prod.fst).eraseDups := by
  induction entries using List.reverseRecOn with
  | nil => rfl
  | append_singleton entries e ih =>
    rw [ofEntries_concat, List.map_append, List.map_singleton, eraseDups_concat]
    have hmem : e.1 ∈ (ofEntries entries).map Prod.fst ↔ e.1 ∈ entries.map Prod.fst := by
      rw [ih, List.mem_eraseDups]
    split
    · next hold => rw [map_fst_put_of_mem (hmem.mpr hold), ih]
    · next hnew =>
      rw [put_of_notMem fun hold ↦ hnew (hmem.mp hold), List.map_append, List.map_singleton, ih]

theorem nodup_map_fst_ofEntries (entries : List (String × α)) :
    ((ofEntries entries).map Prod.fst).Nodup := by
  rw [map_fst_ofEntries]
  exact nodup_eraseDups _

theorem lookup_ofEntries {before after : List (String × α)} {key : String} (value : α)
    (h : key ∉ after.map Prod.fst) :
    (ofEntries (before ++ (key, value) :: after)).lookup key = some value := by
  induction after using List.reverseRecOn with
  | nil => rw [ofEntries_concat, lookup_put_self]
  | append_singleton after e ih =>
    rw [List.map_append, List.mem_append, not_or, List.map_singleton, List.mem_singleton] at h
    rw [← List.cons_append, ← List.append_assoc, ofEntries_concat, lookup_put_of_ne h.2, ih h.1]

/-! ## Pushing -/

/-- Items by key: the keys in the order in which they first came in, each with its items in their
order. -/
def grouped (items : List (String × α)) : List (String × List α) :=
  (items.map Prod.fst).eraseDups.map fun key ↦ (key, (items.filter (·.1 == key)).map Prod.snd)

theorem grouped_filterMap {β : Type} (items : List β) (key? : β → Option String) (f : β → α) :
    grouped (items.filterMap fun b ↦ (key? b).map (·, f b))
      = (items.filterMap key?).eraseDups.map fun key ↦
        (key, (items.filter (key? · == some key)).map f) := by
  have hitems : ∀ key, ((items.filterMap fun b ↦ (key? b).map (·, f b)).filter (·.1 == key)).map
    Prod.snd
      = (items.filter (key? · == some key)).map f := by
    intro key
    induction items with
    | nil => rfl
    | cons b rest ih =>
      cases hb : key? b with
      | none => simp [hb, ih]
      | some k =>
        by_cases hk : k = key
        · simp [hb, hk, ih]
        · simp [hb, hk, ih]
  have hkeys : (items.filterMap fun b ↦ (key? b).map (·, f b)).map Prod.fst
      = items.filterMap key? := by
    rw [List.map_filterMap]
    refine congrArg (List.filterMap · items) (funext fun b ↦ ?_)
    rw [Option.map_map]
    exact Option.map_id'
  rw [grouped, hkeys]
  exact List.map_congr_left fun key _ ↦ by rw [hitems]

theorem lookup_grouped (items : List (String × α)) (key : String) :
    ((grouped items).lookup key).getD [] = (items.filter (·.1 == key)).map Prod.snd := by
  have hrow : ∀ keys : List String,
    (keys.map fun k ↦ (k, (items.filter (·.1 == k)).map Prod.snd)).lookup key
      = if key ∈ keys then some ((items.filter (·.1 == key)).map Prod.snd) else none := by
    intro keys
    induction keys with
    | nil => rfl
    | cons k keys ih =>
      rw [List.map_cons, List.lookup_cons, ih]
      by_cases hk : key = k
      · rw [hk, beq_self_eq_true, if_pos List.mem_cons_self]
      · simp [beq_eq_false_iff_ne.mpr hk, hk]
  rw [grouped, hrow]
  split
  · rfl
  · next hnone =>
    -- A key that did not come in has no items.
    have hempty : items.filter (·.1 == key) = [] := by
      refine List.filter_eq_nil_iff.mpr fun e he hkey ↦ hnone (List.mem_eraseDups.mpr ?_)
      rw [← beq_iff_eq.mp hkey]
      exact List.mem_map_of_mem he
    rw [hempty]
    rfl

/-- Replacing an entry of a table without double keys changes this entry and no other. -/
theorem put_of_mem {key : String} {table : List (String × α)} (hnodup : (table.map Prod.fst).Nodup)
    (hkey : key ∈ table.map Prod.fst) (value : α) :
    put key value table = table.map fun e ↦ (e.1, if e.1 = key then value else e.2) := by
  induction table with
  | nil => cases hkey
  | cons e rest ih =>
    obtain ⟨k, old⟩ := e
    obtain ⟨hfirst, hrest⟩ := List.nodup_cons.mp hnodup
    rw [put, List.map_cons]
    by_cases hk : k = key
    · have hothers : rest.map (fun e ↦ (e.1, if e.1 = key then value else e.2)) = rest := by
        refine (List.map_congr_left fun e he ↦ ?_).trans (List.map_id rest)
        have hmem : e.1 ∈ rest.map Prod.fst := List.mem_map_of_mem he
        have hne : e.1 ≠ key := fun heq ↦ hfirst (hk.trans heq.symm ▸ hmem)
        rw [if_neg hne]
        rfl
      rw [if_pos hk, if_pos hk, hothers, hk]
    · rw [if_neg hk, if_neg hk, ih hrest ((List.mem_cons.mp hkey).resolve_left fun he ↦ hk he.symm)]

theorem push_grouped (items : List (String × α)) (e : String × α) :
    push e.1 e.2 (grouped items) = grouped (items ++ [e]) := by
  have hkeys : (grouped items).map Prod.fst = (items.map Prod.fst).eraseDups := by
    rw [grouped, List.map_map]
    exact List.map_id _
  have hitems : ∀ key, ((items ++ [e]).filter (·.1 == key)).map Prod.snd
      = (items.filter (·.1 == key)).map Prod.snd ++ if e.1 = key then [e.2] else [] := by
    intro key
    rw [List.filter_append, List.map_append]
    by_cases hkey : e.1 = key
    · rw [if_pos hkey, List.filter_cons_of_pos (by simpa using hkey)]
      rfl
    · rw [if_neg hkey, List.filter_cons_of_neg (by simpa using hkey)]
      rfl
  rw [push, lookup_grouped]
  by_cases hold : e.1 ∈ items.map Prod.fst
  · have hmem : e.1 ∈ (grouped items).map Prod.fst := by rwa [hkeys, List.mem_eraseDups]
    have hnodup : ((grouped items).map Prod.fst).Nodup := by
      rw [hkeys]
      exact nodup_eraseDups _
    rw [put_of_mem hnodup hmem, grouped, grouped, List.map_append, List.map_singleton,
      eraseDups_concat, if_pos hold, List.map_map]
    refine List.map_congr_left fun key _ ↦ ?_
    rw [hitems, Function.comp_apply]
    by_cases hkey : key = e.1
    · rw [if_pos hkey, if_pos hkey.symm, hkey]
    · rw [if_neg hkey, if_neg (Ne.symm hkey), List.append_nil]
  · have hnew : e.1 ∉ (grouped items).map Prod.fst := by rwa [hkeys, List.mem_eraseDups]
    rw [put_of_notMem hnew, grouped, grouped, List.map_append, List.map_singleton, eraseDups_concat,
      if_neg hold, List.map_append, List.map_singleton, hitems, if_pos rfl]
    refine congrArg (· ++ _) (List.map_congr_left fun key hkey ↦ ?_)
    have hne : e.1 ≠ key := fun he ↦ hold (he ▸ List.mem_eraseDups.mp hkey)
    rw [hitems, if_neg hne, List.append_nil]

/-- **Items that are pushed one after another are grouped by key.** -/
theorem foldl_push (items : List (String × α)) :
    items.foldl (fun table e ↦ push e.1 e.2 table) [] = grouped items := by
  induction items using List.reverseRecOn with
  | nil => rfl
  | append_singleton items e ih =>
      rw [List.foldl_append, ih, List.foldl_cons, push_grouped, List.foldl_nil]

end MissionIndex.Ordered
