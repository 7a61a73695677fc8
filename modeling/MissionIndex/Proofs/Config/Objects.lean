import Mathlib.Data.Finset.Card
import Mathlib.Data.Finset.Lattice.Basic
import MissionIndex.Config.Parse
import MissionIndex.Proofs.Config.Meaning

/-!
# Trees of objects

The store that statements change in place, and the classes that statements mean. The objects of a
class and of everything in it are its *footprint*. `Holds` says that a store holds a class at an
address with a footprint, and it asks that the footprints of the classes of a body are apart. So no
object is in two places, and a change of one class shows in no other.

## The invariant

While statements are executed in the body of a class, the store holds that class, and it holds the
classes around it but for the one entry of each in which the next one is open (`Around`). Footprints
of the two are apart. A statement changes only what is in the footprint of its class and makes new
objects (`Grows`); so it leaves the surroundings as they are, and they fit the class again when it
is closed.
-/

namespace MissionIndex.Config

open Text

/-! ## What a store holds -/

mutual

/-- The store holds the class `c` at address `a`, and `F` are the addresses of its objects. -/
inductive Holds (s : Store) : Address → ConfigClass → Finset Address → Prop
  | intro {a : Address} {c : ConfigClass} {entries : List (String × Address)} {F : Finset Address} :
      s.nodes[a]? = some ⟨c.name, c.base, c.location, ⟨c.body.values, entries⟩⟩ →
      HoldsAll s entries c.body.classes F → a ∉ F → Holds s a c (insert a F)

/-- The store holds classes under keys, with footprints that are apart. -/
inductive HoldsAll (s : Store) :
    List (String × Address) → List (String × ConfigClass) → Finset Address → Prop
  | nil : HoldsAll s [] [] ∅
  | cons {key : String} {a : Address} {c : ConfigClass} {F G : Finset Address}
      {entries : List (String × Address)} {classes : List (String × ConfigClass)} : Holds s a c F →
      HoldsAll s entries classes G → Disjoint F G →
      HoldsAll s ((key, a) :: entries) ((key, c) :: classes) (F ∪ G)

end

/-- Two stores have the same objects at the given addresses. -/
def Agree (F : Finset Address) (s s' : Store) : Prop := ∀ a ∈ F, s'.nodes[a]? = s.nodes[a]?

theorem Agree.mono {F G : Finset Address} {s s' : Store} (h : Agree G s s') (hsub : F ⊆ G) :
    Agree F s s' := fun a ha ↦ h a (hsub ha)

theorem Agree.trans {F : Finset Address} {s s' s'' : Store} (h : Agree F s s')
    (h' : Agree F s' s'') : Agree F s s'' :=
  fun a ha ↦ (h' a ha).trans (h a ha)

theorem Holds.mem {s : Store} {a : Address} {c : ConfigClass} {F : Finset Address}
    (h : Holds s a c F) : a ∈ F := by
  cases h with
  | intro hn hes ha => exact Finset.mem_insert_self ..

mutual

theorem Holds.frame {s s' : Store} {a : Address} {c : ConfigClass} {F : Finset Address} :
    Holds s a c F → Agree F s s' → Holds s' a c F
  | .intro hn hes ha, hagree =>
    .intro ((hagree _ (Finset.mem_insert_self ..)).trans hn)
      (hes.frame (hagree.mono (Finset.subset_insert ..))) ha

theorem HoldsAll.frame {s s' : Store} {entries : List (String × Address)}
    {classes : List (String × ConfigClass)} {F : Finset Address} :
    HoldsAll s entries classes F → Agree F s s' → HoldsAll s' entries classes F
  | .nil, _ => .nil
  | .cons hc hes hd, hagree =>
    .cons (hc.frame (hagree.mono Finset.subset_union_left))
      (hes.frame (hagree.mono Finset.subset_union_right)) hd

end

mutual

theorem Holds.lt_size {s : Store} {a : Address} {c : ConfigClass} {F : Finset Address} :
    Holds s a c F → ∀ b ∈ F, b < s.size
  | .intro hn hes _, b, hb => by
    rcases Finset.mem_insert.mp hb with rfl | hb
    · exact (Array.getElem?_eq_some_iff.mp hn).1
    · exact hes.lt_size b hb

theorem HoldsAll.lt_size {s : Store} {entries : List (String × Address)}
    {classes : List (String × ConfigClass)} {F : Finset Address} :
    HoldsAll s entries classes F → ∀ b ∈ F, b < s.size
  | .nil, b, hb => absurd hb (Finset.notMem_empty b)
  | .cons hc hes _, b, hb => by
    rcases Finset.mem_union.mp hb with hb | hb
    · exact hc.lt_size b hb
    · exact hes.lt_size b hb

end

mutual

theorem Holds.treeWithin_eq {s : Store} {a : Address} {c : ConfigClass} {F : Finset Address} :
    Holds s a c F → ∀ {depth : Nat}, F.card ≤ depth → s.treeWithin depth a = c
  | @Holds.intro _ a c entries F hn hes ha, depth, hcard => by
    rw [Finset.card_insert_of_notMem ha] at hcard
    obtain ⟨depth, rfl⟩ : ∃ d, depth = d + 1 := ⟨depth - 1, by omega⟩
    have hnode : s.node a = ⟨c.name, c.base, c.location, ⟨c.body.values, entries⟩⟩ := by
      simp [Store.node, hn]
    have hmap : entries.map (fun e ↦ (e.1, s.treeWithin depth e.2)) = c.body.classes :=
      hes.map_treeWithin (by omega)
    simp only [Store.treeWithin, hnode]
    rw [hmap]
    cases c
    rfl

theorem HoldsAll.map_treeWithin {s : Store} {entries : List (String × Address)}
    {classes : List (String × ConfigClass)} {F : Finset Address} :
    HoldsAll s entries classes F → ∀ {depth : Nat}, F.card ≤ depth →
      entries.map (fun e ↦ (e.1, s.treeWithin depth e.2)) = classes
  | .nil, _, _ => rfl
  | .cons hc hes hd, depth, hcard => by
    rw [Finset.card_union_of_disjoint hd] at hcard
    rw [List.map_cons, hc.treeWithin_eq (by omega), hes.map_treeWithin (by omega)]

end

theorem card_le_size {s : Store} {F : Finset Address} (h : ∀ a ∈ F, a < s.size) :
    F.card ≤ s.size := by
  have hsub : F ⊆ Finset.range s.size := fun a ha ↦ Finset.mem_range.mpr (h a ha)
  simpa using Finset.card_le_card hsub

theorem Holds.tree_eq {s : Store} {a : Address} {c : ConfigClass} {F : Finset Address}
    (h : Holds s a c F) : s.tree a = c :=
  h.treeWithin_eq (card_le_size h.lt_size)

/-! ## Entries of a body -/

section Entries

variable {s : Store} {entries : List (String × Address)} {classes : List (String × ConfigClass)}
  {F : Finset Address} {key : String}

theorem HoldsAll.lookup_eq_none_iff (h : HoldsAll s entries classes F) :
    entries.lookup key = none ↔ classes.lookup key = none := by
  induction entries generalizing classes F with
  | nil =>
    cases h
    simp
  | cons e entries ih =>
    cases h with
    | @cons k _ _ _ _ _ _ hc hes hd =>
      by_cases hk : key = k
      · simp [hk]
      · have hk' : (key == k) = false := by simpa using hk
        simpa [List.lookup_cons, hk'] using ih hes

/-- One class of a body, and what is left of the body without it: whatever is held in the place of
the class, apart from the rest, is held in the body. -/
theorem HoldsAll.focus (h : HoldsAll s entries classes F) {a : Address}
    (hl : entries.lookup key = some a) :
    ∃ c G R, classes.lookup key = some c ∧ Holds s a c G ∧ Disjoint G R ∧ F = G ∪ R ∧
      ∀ s' c' G', Agree R s s' → Holds s' a c' G' → Disjoint G' R →
        HoldsAll s' entries (Ordered.put key c' classes) (G' ∪ R) := by
  induction entries generalizing classes F with
  | nil => simp at hl
  | cons e entries ih =>
    cases h with
    | @cons k b c F₀ G₀ _ classes hc hes hd =>
      by_cases hk : key = k
      · subst hk
        obtain rfl : b = a := by simpa using hl
        refine ⟨c, F₀, G₀, by simp, hc, hd, rfl, ?_⟩
        intro s' c' G' hagree hc' hd'
        rw [Ordered.put, if_pos rfl]
        exact .cons hc' (hes.frame hagree) hd'
      · have hk' : (key == k) = false := by simpa using hk
        rw [List.lookup_cons, hk'] at hl
        -- The first class stays what it was, as its objects are none of those that change.
        obtain ⟨c₁, G, R, hl₁, hG, hGR, rfl, hback⟩ := ih hes hl
        obtain ⟨hdG, hdR⟩ := Finset.disjoint_union_right.mp hd
        refine ⟨c₁, G, F₀ ∪ R, by rw [List.lookup_cons, hk', hl₁], hG,
          Finset.disjoint_union_right.mpr ⟨hdG.symm, hGR⟩, by rw [Finset.union_left_comm],
          fun s' c' G' hagree hc' hd' ↦ ?_⟩
        obtain ⟨hd₀, hdR'⟩ := Finset.disjoint_union_right.mp hd'
        rw [Ordered.put, if_neg fun he ↦ hk he.symm, Finset.union_left_comm]
        exact .cons (hc.frame (hagree.mono Finset.subset_union_left))
          (hback s' c' G' (hagree.mono Finset.subset_union_right) hc' hdR')
          (Finset.disjoint_union_right.mpr ⟨hd₀.symm, hdR⟩)

theorem HoldsAll.put (h : HoldsAll s entries classes F) (hl : entries.lookup key = none)
    {a : Address} {c : ConfigClass} {G : Finset Address} (hc : Holds s a c G) (hd : Disjoint F G) :
    HoldsAll s (Ordered.put key a entries) (Ordered.put key c classes) (F ∪ G) := by
  induction entries generalizing classes F with
  | nil =>
    cases h
    rw [Finset.union_comm]
    exact .cons hc .nil (Finset.disjoint_empty_right _)
  | cons e entries ih =>
    cases h with
    | @cons k b c₀ F₀ G₀ _ classes hc₀ hes hd₀ =>
      have hk : ¬key = k := fun he ↦ by simp [he] at hl
      have hk' : (key == k) = false := by simpa using hk
      rw [List.lookup_cons, hk'] at hl
      obtain ⟨hdF, hdG⟩ := Finset.disjoint_union_left.mp hd
      rw [Ordered.put, if_neg fun he ↦ hk he.symm, Ordered.put, if_neg fun he ↦ hk he.symm,
        Finset.union_assoc]
      exact .cons hc₀ (ih hes hl hdG) (Finset.disjoint_union_right.mpr ⟨hd₀, hdF⟩)

theorem HoldsAll.erase (h : HoldsAll s entries classes F) (key : String) :
    ∃ F' ⊆ F, HoldsAll s (Ordered.erase key entries) (Ordered.erase key classes) F' := by
  induction entries generalizing classes F with
  | nil =>
    cases h
    exact ⟨∅, Finset.Subset.refl _, .nil⟩
  | cons e entries ih =>
    cases h with
    | @cons k b c₀ F₀ G₀ _ classes hc₀ hes hd₀ =>
      by_cases hk : k = key
      · rw [Ordered.erase, if_pos hk, Ordered.erase, if_pos hk]
        exact ⟨G₀, Finset.subset_union_right, hes⟩
      · obtain ⟨F', hsub, hF'⟩ := ih hes
        rw [Ordered.erase, if_neg hk, Ordered.erase, if_neg hk]
        exact ⟨F₀ ∪ F', Finset.union_subset_union_right hsub, .cons hc₀ hF' (hd₀.mono_right hsub)⟩

end Entries

/-! ## Growing -/

/-- A store has become another by changes of objects in `F` and by new objects, and all of `F'` was
in `F` or is new. -/
structure Grows (s s' : Store) (F F' : Finset Address) : Prop where
  size_le : s.size ≤ s'.size
  same : ∀ a < s.size, a ∉ F → s'.nodes[a]? = s.nodes[a]?
  fresh : ∀ a ∈ F', a ∈ F ∨ s.size ≤ a

namespace Grows

variable {s s' s'' : Store} {F F' F'' G : Finset Address}

theorem refl (h : F' ⊆ F) : Grows s s F F' := ⟨le_rfl, fun _ _ _ ↦ rfl, fun _ ha ↦ .inl (h ha)⟩

theorem trans (h : Grows s s' F F') (h' : Grows s' s'' F' F'') : Grows s s'' F F'' where
  size_le := h.size_le.trans h'.size_le
  same a ha hF := by
    have hF' : a ∉ F' := fun hF' ↦ (h.fresh a hF').elim hF fun hle ↦ absurd hle (by omega)
    exact (h'.same a (ha.trans_le h.size_le) hF').trans (h.same a ha hF)
  fresh a ha := by
    rcases h'.fresh a ha with hF' | hle
    · exact h.fresh a hF'
    · exact .inr (h.size_le.trans hle)

theorem agree (h : Grows s s' F F') (hG : ∀ a ∈ G, a < s.size) (hd : Disjoint F G) : Agree G s s' :=
  fun a ha ↦ h.same a (hG a ha) (Finset.disjoint_right.mp hd ha)

theorem disjoint (h : Grows s s' F F') (hG : ∀ a ∈ G, a < s.size) (hd : Disjoint F G) :
    Disjoint F' G := by
  refine Finset.disjoint_left.mpr fun a ha hG' ↦ ?_
  rcases h.fresh a ha with hF | hle
  · exact Finset.disjoint_left.mp hd hF hG'
  · exact absurd hle (Nat.not_le.mpr (hG a hG'))

theorem widen (h : Grows s s' F F') {K K' : Finset Address} (hF : F ⊆ K)
    (hK : ∀ a ∈ K', a ∈ F' ∨ a ∈ K) : Grows s s' K K' where
  size_le := h.size_le
  same a ha hK' := h.same a ha fun hF' ↦ hK' (hF hF')
  fresh a ha := by
    rcases hK a ha with hF' | hK'
    · exact (h.fresh a hF').imp_left fun ha ↦ hF ha
    · exact .inl hK'

theorem modify {a : Address} {f : Node → Node} (ha : a ∈ F) (h : F' ⊆ F) :
    Grows s (s.modify a f) F F' where
  size_le := by simp [Store.size, Store.modify]
  same b _ hb := by
    have hne : a ≠ b := fun he ↦ hb (he ▸ ha)
    rw [Store.modify, Array.getElem?_modify, if_neg hne]
  fresh b hb := .inl (h hb)

theorem make {n : Node} (h : ∀ a ∈ F', a ∈ F ∨ s.size ≤ a) : Grows s (s.make n).2 F F' where
  size_le := by simp [Store.size, Store.make]
  same a ha _ := by
    have hne : a ≠ s.nodes.size := Nat.ne_of_lt ha
    simp [Store.make, Array.getElem?_push, hne]
  fresh := h

end Grows

end MissionIndex.Config
