import Mathlib.Tactic.Tauto
import MissionIndex.Proofs.Config.Objects

/-!
# Changing in place means what statements mean

Each operation on a store gives what the same operation on classes means, and so do statements: if a
store holds a class among its surroundings, then after statements it holds what they make of the
class, in the same surroundings. Copies are new objects, which is why a derived class and its base
do not know of each other.
-/

namespace MissionIndex.Config

open Text

/-! ## Copies -/

theorem Store.node_eq {s : Store} {a : Address} {n : Node} (h : s.nodes[a]? = some n) :
    s.node a = n := by
  simp [Store.node, h]

theorem holds_make {s : Store} {c : ConfigClass} {entries : List (String × Address)}
    {F : Finset Address} (h : HoldsAll s entries c.body.classes F) :
    let made := s.make ⟨c.name, c.base, c.location, ⟨c.body.values, entries⟩⟩
    Holds made.2 made.1 c (insert s.size F) := by
  have hlt : s.size ∉ F := fun hF ↦ Nat.lt_irrefl _ (h.lt_size _ hF)
  have hgrows : Grows s (s.make ⟨c.name, c.base, c.location, ⟨c.body.values, entries⟩⟩).2 ∅ ∅ :=
    .make fun a ha ↦ absurd ha (Finset.notMem_empty a)
  exact .intro Array.getElem?_push_size
    (h.frame (hgrows.agree h.lt_size (Finset.disjoint_empty_left F))) hlt

/-- Copying classes one after another, given what copying one of them does. -/
theorem copyAll_holds {copyOne : Address → Store → Address × Store} {bound : Nat}
    (hone : ∀ s a c F, Holds s a c F → F.card ≤ bound →
      ∃ F', Holds (copyOne a s).2 (copyOne a s).1 c F' ∧ Grows s (copyOne a s).2 ∅ F')
    {s : Store} {entries : List (String × Address)} {classes : List (String × ConfigClass)}
    {F : Finset Address} (h : HoldsAll s entries classes F) (hcard : F.card ≤ bound) :
    let copied := Store.copyAll copyOne entries s
    ∃ F', HoldsAll copied.2 copied.1 classes F' ∧ Grows s copied.2 ∅ F' := by
  induction entries generalizing s classes F with
  | nil =>
    cases h
    exact ⟨∅, .nil, .refl (Finset.Subset.refl _)⟩
  | cons e entries ih =>
    cases h with
    | @cons key a c F₀ G₀ _ classes hc hes hd =>
      rw [Finset.card_union_of_disjoint hd] at hcard
      obtain ⟨F₁, hF₁, hgrows₁⟩ := hone s a c F₀ hc (by omega)
      have hes₁ : HoldsAll (copyOne a s).2 entries classes G₀ :=
        hes.frame (hgrows₁.agree hes.lt_size (Finset.disjoint_empty_left _))
      obtain ⟨F₂, hF₂, hgrows₂⟩ := ih hes₁ (by omega)
      have hd₂ : Disjoint F₂ F₁ := hgrows₂.disjoint hF₁.lt_size (Finset.disjoint_empty_left _)
      have hF₁' := hF₁.frame (hgrows₂.agree hF₁.lt_size (Finset.disjoint_empty_left _))
      refine ⟨F₁ ∪ F₂, .cons hF₁' hF₂ hd₂.symm, ?_⟩
      exact (hgrows₁.trans (hgrows₂.widen (Finset.empty_subset F₁) fun b hb ↦
        (Finset.mem_union.mp hb).symm))

theorem copyWithin_holds {depth : Nat} {s : Store} {a : Address} {c : ConfigClass}
    {F : Finset Address} (h : Holds s a c F) (hcard : F.card ≤ depth) :
    let copied := Store.copyWithin depth a s
    ∃ F', Holds copied.2 copied.1 c F' ∧ Grows s copied.2 ∅ F' := by
  induction depth generalizing s a c F with
  | zero =>
    have hF : F = ∅ := Finset.card_eq_zero.mp (Nat.le_zero.mp hcard)
    exact absurd (hF ▸ h.mem) (Finset.notMem_empty a)
  | succ depth ih =>
    cases h with
    | @intro _ _ entries F hn hes ha =>
      rw [Finset.card_insert_of_notMem ha] at hcard
      obtain ⟨F', hF', hgrows⟩ :=
        copyAll_holds (fun s a c F h hF ↦ ih h hF) hes (Nat.le_of_succ_le_succ hcard)
      simp only [Store.copyWithin, Store.node_eq hn]
      exact ⟨_, holds_make hF', hgrows.trans (.make fun b hb ↦
        (Finset.mem_insert.mp hb).symm.imp_right fun he ↦ he.ge)⟩

/-! ## Surroundings -/

/-- What is held under `key` in a body but for the class at `a`, whose objects are `R`: with any
class held at `a` in its place and apart from the rest, the body is whole. -/
def Gap (s : Store) (entries : List (String × Address)) (classes : List (String × ConfigClass))
    (key : String) (a : Address) (R : Finset Address) : Prop :=
  ∀ s' c G, Agree R s s' → Holds s' a c G → Disjoint G R →
    HoldsAll s' entries (Ordered.put key c classes) (G ∪ R)

/-- The store holds the classes around an open one at `a`, each but for the entry in which the next
one is open. -/
inductive Around (s : Store) : List Address → List Surrounding → Address → Finset Address → Prop
  | nil {a : Address} : Around s [] [] a ∅
  | cons {p a : Address} {e : Surrounding} {entries : List (String × Address)}
      {R G : Finset Address} {scopes : List Address} {around : List Surrounding} :
      s.nodes[p]? = some ⟨e.outer.name, e.outer.base, e.outer.location,
        ⟨e.outer.body.values, entries⟩⟩ →
      Gap s entries e.outer.body.classes e.key a R → (∀ b ∈ insert p R, b < s.size) → p ∉ R →
      Around s scopes around p G → Disjoint (insert p R) G →
      Around s (p :: scopes) (e :: around) a (insert p R ∪ G)

theorem Around.lt_size {s : Store} {scopes : List Address} {around : List Surrounding} {a : Address}
    {G : Finset Address} (h : Around s scopes around a G) : ∀ b ∈ G, b < s.size := by
  induction h with
  | nil => exact fun b hb ↦ absurd hb (Finset.notMem_empty b)
  | cons _ _ hlt _ _ _ ih => exact fun b hb ↦ (Finset.mem_union.mp hb).elim (hlt b) (ih b)

theorem Around.frame {s s' : Store} {scopes : List Address} {around : List Surrounding}
    {a : Address} {G : Finset Address} (h : Around s scopes around a G) (hagree : Agree G s s')
    (hsize : s.size ≤ s'.size) : Around s' scopes around a G := by
  induction h with
  | nil => exact .nil
  | @cons p a e entries R G scopes around hn hgap hlt hp _ hd ih =>
    have hR : Agree R s s' := hagree.mono
      ((Finset.subset_insert p R).trans Finset.subset_union_left)
    exact .cons ((hagree p (Finset.mem_union_left _ (Finset.mem_insert_self p R))).trans hn)
      (fun s'' c K hK ↦ hgap s'' c K (hR.trans hK)) (fun b hb ↦ (hlt b hb).trans_le hsize) hp
      (ih (hagree.mono Finset.subset_union_right)) hd

theorem holds_fill {s : Store} {p a : Address} {e : Surrounding} {c : ConfigClass}
    {entries : List (String × Address)} {R F : Finset Address}
    (hn : s.nodes[p]?
      = some ⟨e.outer.name, e.outer.base, e.outer.location, ⟨e.outer.body.values, entries⟩⟩)
    (hgap : Gap s entries e.outer.body.classes e.key a R) (hp : p ∉ R) (h : Holds s a c F)
    (hd : Disjoint F (insert p R)) : Holds s p (e.fill c) (insert p (F ∪ R)) := by
  obtain ⟨hpF, hFR⟩ := Finset.disjoint_insert_right.mp hd
  have hpFR : p ∉ F ∪ R := by simp [hpF, hp]
  exact .intro hn (hgap s c F (fun _ _ ↦ rfl) h hFR) hpFR

theorem Holds.lookup {s : Store} {here : Address} {c : ConfigClass} {F : Finset Address}
    (h : Holds s here c F) (key : String) :
    ((s.node here).body.classes.lookup key = none ∧ c.body.classes.lookup key = none) ∨
      ∃ b K cls, (s.node here).body.classes.lookup key = some b ∧
        c.body.classes.lookup key = some cls ∧ Holds s b cls K := by
  cases h with
  | @intro _ _ entries F hn hes ha =>
    rw [Store.node_eq hn]
    cases hl : entries.lookup key with
    | none => exact .inl ⟨rfl, hes.lookup_eq_none_iff.mp hl⟩
    | some b =>
      obtain ⟨cls, K, -, hcls, hK, -⟩ := hes.focus hl
      exact .inr ⟨b, K, cls, rfl, hcls, hK⟩

/-- The nearest class of a name in the store is the one that is visible. -/
theorem nearest_visible {s : Store} {here : Address} {c : ConfigClass} {F G : Finset Address}
    {scopes : List Address} {around : List Surrounding} (hc : Holds s here c F)
    (haround : Around s scopes around here G) (hd : Disjoint F G) (key : String) :
    (s.nearest? key (here :: scopes) = none ∧ c.visible? key around = none) ∨
      ∃ b K cls, s.nearest? key (here :: scopes) = some b ∧ c.visible? key around = some cls ∧
        Holds s b cls K := by
  induction haround generalizing c F with
  | nil =>
    rcases hc.lookup key with ⟨hl, hcl⟩ | ⟨b, K, cls, hl, hcl, hK⟩
    · exact .inl ⟨by simp [Store.nearest?, hl], hcl⟩
    · exact .inr ⟨b, K, cls, by simp [Store.nearest?, hl], hcl, hK⟩
  | @cons p here e entries R G scopes around hn hgap hlt hp _ hd' ih =>
    rcases hc.lookup key with ⟨hl, hcl⟩ | ⟨b, K, cls, hl, hcl, hK⟩
    -- Not in the class itself, so it is looked for in the class around, which holds the class
    -- again.
    · have hnearest : s.nearest? key (here :: p :: scopes) = s.nearest? key (p :: scopes) := by
        simp [Store.nearest?, hl]
      have hvisible : c.visible? key (e :: around) = (e.fill c).visible? key around := by
        simp [ConfigClass.visible?, hcl]
      obtain ⟨hdR, hdG⟩ := Finset.disjoint_union_right.mp hd
      obtain ⟨hpR, hpG⟩ := Finset.disjoint_insert_left.mp hd'
      rw [hnearest, hvisible]
      refine ih (holds_fill hn hgap hp hc hdR) (Finset.disjoint_insert_left.mpr ⟨hpR, ?_⟩)
      exact Finset.disjoint_union_left.mpr ⟨hdG, hpG⟩
    · exact .inr ⟨b, K, cls, by simp [Store.nearest?, hl], by simp [ConfigClass.visible?, hcl], hK⟩

/-! ## Classes -/

/-- An object may change in place in all but the classes in it. -/
theorem Holds.revise {s : Store} {a : Address} {c c' : ConfigClass} {F : Finset Address}
    (h : Holds s a c F) {f : Node → Node}
    (hf : ∀ entries, f ⟨c.name, c.base, c.location, ⟨c.body.values, entries⟩⟩
      = ⟨c'.name, c'.base, c'.location, ⟨c'.body.values, entries⟩⟩)
    (hclasses : c'.body.classes = c.body.classes) : Holds (s.modify a f) a c' F := by
  cases h with
  | @intro _ _ entries F hn hes ha =>
    have hgrows : Grows s (s.modify a f) {a} {a} :=
      .modify (Finset.mem_singleton_self a) (Finset.Subset.refl _)
    have hes' : HoldsAll (s.modify a f) entries c'.body.classes F :=
      hclasses ▸ hes.frame (hgrows.agree hes.lt_size (Finset.disjoint_singleton_left.mpr ha))
    have hn' : (s.modify a f).nodes[a]?
        = some ⟨c'.name, c'.base, c'.location, ⟨c'.body.values, entries⟩⟩ := by
      rw [Store.modify, Array.getElem?_modify, if_pos rfl, hn, Option.map_some, hf]
    exact .intro hn' hes' ha

section Classes

variable {s : Store} {here : Address} {c : ConfigClass} {F G : Finset Address}
  {scopes : List Address} {around : List Surrounding}

/-- A new class starts out in the store as it does by its meaning, and none of the objects that were
there takes part in it. -/
theorem newClass_holds (hc : Holds s here c F) (haround : Around s scopes around here G)
    (hd : Disjoint F G) (name : Name) (base : Option String) :
    let made := s.newClass (here :: scopes) name base
    ∃ K, Holds made.2 made.1 (c.started around name base) K ∧ Grows s made.2 ∅ K := by
  cases hlookup : base.bind fun b ↦ s.nearest? (lower b) (here :: scopes) with
  | none =>
    have hvisible : (base.bind fun b ↦ c.visible? (lower b) around) = none := by
      cases base with
      | none => rfl
      | some base =>
        rcases nearest_visible hc haround hd (lower base) with ⟨-, hv⟩ | ⟨b, K, cls, hl, -, -⟩
        · exact hv
        · rw [Option.bind_some, hl] at hlookup
          cases hlookup
    simp only [Store.newClass, hlookup, ConfigClass.started, hvisible]
    exact ⟨{s.size}, holds_make (c := ⟨name.text, base, name.location, {}⟩) .nil,
      .make fun a ha ↦ .inr (Finset.mem_singleton.mp ha).ge⟩
  | some b =>
    obtain ⟨base, rfl, hl⟩ := Option.bind_eq_some_iff.mp hlookup
    rcases nearest_visible hc haround hd (lower base) with ⟨hnone, -⟩ | ⟨b', K, cls, hl', hv, hK⟩
    · rw [hl] at hnone
      cases hnone
    · obtain rfl : b' = b := Option.some.inj (hl'.symm.trans hl)
      cases hK with
      | @intro _ _ entries K hn hes hb =>
        -- The base lends copies of its classes, so the new class shares no object with it.
        obtain ⟨K', hK', hgrows⟩ := copyAll_holds (fun s a c F h hF ↦ copyWithin_holds h hF) hes
          (card_le_size hes.lt_size)
        simp only [Store.newClass, Option.bind_some, hl, Store.copyBody, Store.node_eq hn,
          ConfigClass.started, hv]
        exact ⟨_, holds_make (c := ⟨name.text, some base, name.location, cls.body⟩) hK',
          hgrows.trans (.make fun a ha ↦
            (Finset.mem_insert.mp ha).symm.imp_right fun he ↦ he.ge)⟩

end Classes

/-- The class `inner` at `a` stands open under `key` in the class `c` at `here`. The objects of the
open class are `K`, and `R` are those of the other classes in `c`. -/
inductive Opened (s : Store) (here : Address) (c : ConfigClass) (key : String) (a : Address)
    (inner : ConfigClass) (K R : Finset Address) : Prop
  | intro {entries : List (String × Address)} :
      s.nodes[here]? = some ⟨c.name, c.base, c.location, ⟨c.body.values, entries⟩⟩ →
      Gap s entries c.body.classes key a R → Holds s a inner K → here ∉ R →
      (∀ b ∈ insert here R, b < s.size) → Disjoint K (insert here R) →
      Opened s here c key a inner K R

section Opened

variable {s s' : Store} {here a : Address} {c inner inner' : ConfigClass} {key : String}
  {F G K K' R : Finset Address} {scopes : List Address} {around : List Surrounding}

theorem Opened.holds (h : Opened s here c key a inner K R) : Holds s a inner K := by
  cases h with
  | intro _ _ hinner _ _ _ => exact hinner

theorem Opened.close (h : Opened s here c key a inner K R) (hgrows : Grows s s' K K')
    (hinner : Holds s' a inner' K') :
    Holds s' here (Surrounding.fill ⟨c, key⟩ inner') (insert here (K' ∪ R)) ∧
      Grows s s' (insert here (K ∪ R)) (insert here (K' ∪ R)) := by
  cases h with
  | intro hn hgap _ hhere hlt hd =>
    have hagree : Agree (insert here R) s s' := hgrows.agree hlt hd
    have hn' := (hagree here (Finset.mem_insert_self ..)).trans hn
    have hgap' : Gap s' _ c.body.classes key a R := fun s'' d L hL ↦
      hgap s'' d L ((hagree.mono (Finset.subset_insert ..)).trans hL)
    refine ⟨holds_fill hn' hgap' hhere hinner (hgrows.disjoint hlt hd), ?_⟩
    refine hgrows.widen (Finset.subset_union_left.trans (Finset.subset_insert ..)) fun b hb ↦ ?_
    rw [Finset.mem_insert, Finset.mem_union] at hb ⊢
    tauto

theorem Opened.surround (h : Opened s here c key a inner K R)
    (haround : Around s scopes around here G) (hd : Disjoint (insert here (K ∪ R)) G) :
    Around s (here :: scopes) (⟨c, key⟩ :: around) a (insert here R ∪ G) ∧
      Disjoint K (insert here R ∪ G) := by
  cases h with
  | intro hn hgap _ hhere hlt hK =>
    have hR : insert here R ⊆ insert here (K ∪ R) :=
      Finset.insert_subset_insert _ Finset.subset_union_right
    have hK' : K ⊆ insert here (K ∪ R) :=
      Finset.subset_union_left.trans (Finset.subset_insert ..)
    exact ⟨.cons hn hgap hlt hhere haround (hd.mono_left hR),
      Finset.disjoint_union_right.mpr ⟨hK, hd.mono_left hK'⟩⟩

/-- A class under a new key stands open where it is added. -/
theorem addClass_opened (hc : Holds s here c F) (haround : Around s scopes around here G)
    (hd : Disjoint F G) {name : Name} (hnew : c.body.classes.lookup (lower name.text) = none)
    (base : Option String) :
    let added := s.addClass here scopes name base
    ∃ K R, Opened added.2 here c (lower name.text) added.1 (c.started around name base) K R ∧
      Grows s added.2 F (insert here (K ∪ R)) := by
  obtain ⟨K, hK, hgrows⟩ := newClass_holds hc haround hd name base
  simp only [Store.addClass]
  generalize s.newClass (here :: scopes) name base = made at hK hgrows
  obtain ⟨a, s₁⟩ := made
  cases hc with
  | @intro _ _ entries R hn hes hhere =>
    have hlt : ∀ b ∈ insert here R, b < s.size := (Holds.intro hn hes hhere).lt_size
    have hagree : Agree (insert here R) s s₁ := hgrows.agree hlt (Finset.disjoint_empty_left _)
    have hKR : Disjoint K (insert here R) := hgrows.disjoint hlt (Finset.disjoint_empty_left _)
    obtain ⟨hhereK, -⟩ := Finset.disjoint_insert_right.mp hKR
    have hlt₁ : ∀ b ∈ insert here R, b < s₁.size := fun b hb ↦ (hlt b hb).trans_le hgrows.size_le
    have hn₁ := (hagree here (Finset.mem_insert_self ..)).trans hn
    -- The body around gets its entry only once the new class is there.
    have hgrows₂ : Grows s₁ (s₁.modifyBody here (Body.setClass (lower name.text) a))
        {here} {here} :=
      .modify (Finset.mem_singleton_self here) (Finset.Subset.refl _)
    have hagree₂ : Agree R s₁ (s₁.modifyBody here (Body.setClass (lower name.text) a)) :=
      hgrows₂.agree (fun b hb ↦ hlt₁ b (Finset.mem_insert_of_mem hb))
        (Finset.disjoint_singleton_left.mpr hhere)
    have hn₂ : (s₁.modifyBody here (Body.setClass (lower name.text) a)).nodes[here]?
        = some ⟨c.name, c.base, c.location,
            ⟨c.body.values, Ordered.put (lower name.text) a entries⟩⟩ := by
      simp [Store.modifyBody, Store.modify, Array.getElem?_modify, hn₁, Body.setClass]
    refine ⟨K, R, .intro hn₂ ?_ ?_ hhere ?_ hKR, ?_⟩
    · intro s' d L hagree' hL hdL
      have hes' := hes.frame (((hagree.mono (Finset.subset_insert ..)).trans hagree₂).trans hagree')
      rw [Finset.union_comm]
      exact hes'.put (hes.lookup_eq_none_iff.mpr hnew) hL hdL.symm
    · exact hK.frame (hgrows₂.agree hK.lt_size (Finset.disjoint_singleton_left.mpr hhereK))
    · intro b hb
      exact (hlt₁ b hb).trans_le hgrows₂.size_le
    · have hgrows₁ : Grows s s₁ (insert here R) (insert here (K ∪ R)) :=
        hgrows.widen (Finset.empty_subset _) fun b hb ↦ by
          rw [Finset.mem_insert, Finset.mem_union] at hb
          rw [Finset.mem_insert]
          tauto
      exact hgrows₁.trans (.modify (Finset.mem_insert_self ..) (Finset.Subset.refl _))

/-- A class whose definition is opened stands open. -/
theorem openClass_opened (hc : Holds s here c F) (haround : Around s scopes around here G)
    (hd : Disjoint F G) (name : Name) (base : Option String) :
    let opened := s.openClass here scopes name base
    ∃ K R, Opened opened.2 here c (lower name.text) opened.1 (c.reopened around name base) K R ∧
      Grows s opened.2 F (insert here (K ∪ R)) := by
  have hnode := hc.lookup (lower name.text)
  cases hold : c.body.classes.lookup (lower name.text) with
  | none =>
    obtain ⟨hnode, -⟩ | ⟨b, K, cls, -, hcls, -⟩ := hnode
    · simp only [Store.openClass, hnode, ConfigClass.reopened, hold]
      exact addClass_opened hc haround hd hold base
    · rw [hold] at hcls
      cases hcls
  | some old =>
    obtain ⟨-, hnone⟩ | ⟨a, -, -, hnode, -, -⟩ := hnode
    · rw [hold] at hnone
      cases hnone
    simp only [Store.openClass, hnode, ConfigClass.reopened, hold]
    -- The class is there: it changes in place, and what `here` holds beside it is out of reach of
    -- the change.
    cases hc with
    | @intro _ _ entries F hn hes hhere =>
      rw [Store.node_eq hn] at hnode
      obtain ⟨cls, K, R, hcls, hK, hKR, rfl, hgap⟩ := hes.focus hnode
      obtain rfl : cls = old := Option.some.inj (hcls.symm.trans hold)
      obtain ⟨hhereK, hhereR⟩ := Finset.notMem_union.mp hhere
      have hlt : ∀ b ∈ insert here (K ∪ R), b < s.size := (Holds.intro hn hes hhere).lt_size
      have haK : a ∈ K := hK.mem
      have hsub : insert here R ⊆ insert here (K ∪ R) :=
        Finset.insert_subset_insert _ Finset.subset_union_right
      have hdK : Disjoint K (insert here R) := Finset.disjoint_insert_right.mpr ⟨hhereK, hKR⟩
      set s₁ := s.modify a fun n ↦ { n with location := name.location, base := base.or n.base }
      have hgrows : Grows s s₁ {a} {a} :=
        .modify (Finset.mem_singleton_self a) (Finset.Subset.refl _)
      have hagree : Agree (insert here R) s s₁ :=
        hgrows.agree (fun b hb ↦ hlt b (hsub hb))
        (hdK.mono_left (Finset.singleton_subset_iff.mpr haK))
      have hmoved : Holds s₁ a { cls with location := name.location, base := base.or cls.base } K :=
        hK.revise (fun _ ↦ rfl) rfl
      refine ⟨K, R, .intro ((hagree here (Finset.mem_insert_self ..)).trans hn) ?_ hmoved
        hhereR ?_ hdK, .modify (Finset.mem_insert_of_mem (Finset.mem_union_left _ haK))
        (Finset.Subset.refl _)⟩
      · intro s' d L hagree'
        exact hgap s' d L ((hagree.mono (Finset.subset_insert ..)).trans hagree')
      · intro b hb
        exact (hlt b (hsub hb)).trans_le hgrows.size_le

end Opened

/-! ## Statements -/

/-- The class under a key goes away in the store and in the class. -/
theorem erase_holds {s : Store} {here : Address} {c : ConfigClass} {F : Finset Address}
    (hc : Holds s here c F) (key : String) :
    ∃ F', Holds (s.modifyBody here (Body.eraseClass key)) here
        { c with body := c.body.eraseClass key } F' ∧
      Grows s (s.modifyBody here (Body.eraseClass key)) F F' := by
  cases hc with
  | @intro _ _ entries F hn hes hhere =>
    have hgrows : Grows s (s.modifyBody here (Body.eraseClass key)) {here} {here} :=
      .modify (Finset.mem_singleton_self here) (Finset.Subset.refl _)
    have hes' := hes.frame (hgrows.agree hes.lt_size (Finset.disjoint_singleton_left.mpr hhere))
    obtain ⟨F', hsub, hF'⟩ := hes'.erase key
    have hn' : (s.modifyBody here (Body.eraseClass key)).nodes[here]?
        = some ⟨c.name, c.base, c.location, ⟨c.body.values, Ordered.erase key entries⟩⟩ := by
      simp [Store.modifyBody, Store.modify, Array.getElem?_modify, hn, Body.eraseClass]
    refine ⟨insert here F', ?_, ?_⟩
    · exact @Holds.intro _ here { c with body := c.body.eraseClass key } _ F' hn' hF'
        fun ha ↦ hhere (hsub ha)
    · exact .modify (Finset.mem_insert_self ..) (Finset.insert_subset_insert _ hsub)

theorem declare_holds {s : Store} {here : Address} {c : ConfigClass} {F G : Finset Address}
    {scopes : List Address} {around : List Surrounding} (hc : Holds s here c F)
    (haround : Around s scopes around here G) (hd : Disjoint F G) (name : Name)
    (base : Option String) :
    let declared := s.declareClass here scopes name base
    ∃ F', Holds declared here (Statement.effect around c (.declare name base)) F' ∧
      Grows s declared F F' := by
  obtain ⟨hnode, hclass⟩ | ⟨a, K, cls, hnode, hclass, -⟩ := hc.lookup (lower name.text)
  · simp only [Store.declareClass, hnode, Statement.effect, hclass]
    obtain ⟨K, R, hopened, hgrows⟩ := addClass_opened hc haround hd hclass base
    obtain ⟨hclosed, -⟩ := hopened.close (.refl (Finset.Subset.refl K)) hopened.holds
    exact ⟨_, hclosed, hgrows⟩
  · simp only [Store.declareClass, hnode, Statement.effect, hclass]
    exact ⟨F, hc, .refl (Finset.Subset.refl F)⟩

mutual

/-- Executing a statement in place does to the class at hand what the statement means, and it does
nothing to the classes around it. -/
theorem execute_holds (statement : Statement) {s : Store} {here : Address} {c : ConfigClass}
    {F G : Finset Address} {scopes : List Address} {around : List Surrounding}
    (hc : Holds s here c F) (haround : Around s scopes around here G) (hd : Disjoint F G) :
    let executed := Statement.execute here scopes s statement
    ∃ F', Holds executed here (Statement.effect around c statement) F' ∧ Grows s executed F F' := by
  cases statement with
  | assign name value =>
    simp only [Statement.execute, Statement.effect]
    exact ⟨F, hc.revise (fun _ ↦ rfl) rfl, .modify hc.mem (Finset.Subset.refl F)⟩
  | assignList name append items =>
    simp only [Statement.execute, Statement.effect]
    refine ⟨F, hc.revise (fun _ ↦ ?_) ?_, .modify hc.mem (Finset.Subset.refl F)⟩
    · cases append <;> rfl
    · cases append <;> rfl
  | declare name base =>
    simp only [Statement.execute]
    exact declare_holds hc haround hd name base
  | define name base body =>
    simp only [Statement.execute, Statement.effect]
    -- The body is run inside the opened class, and then the class is closed around what that has
    -- made of it.
    obtain ⟨K, R, hopened, hgrows⟩ := openClass_opened hc haround hd name base
    have hgap := haround.frame (hgrows.agree haround.lt_size hd) hgrows.size_le
    obtain ⟨hinside, hdK⟩ := hopened.surround hgap (hgrows.disjoint haround.lt_size hd)
    obtain ⟨K', hK', hgrows'⟩ := executeAll_holds body hopened.holds hinside hdK
    obtain ⟨hclosed, hgrows''⟩ := hopened.close hgrows' hK'
    exact ⟨_, hclosed, hgrows.trans hgrows''⟩
  | delete name =>
    simp only [Statement.execute, Statement.effect]
    exact erase_holds hc (lower name)

theorem executeAll_holds (statements : List Statement) {s : Store} {here : Address}
    {c : ConfigClass} {F G : Finset Address} {scopes : List Address} {around : List Surrounding}
    (hc : Holds s here c F) (haround : Around s scopes around here G) (hd : Disjoint F G) :
    let executed := Statement.executeAll here scopes s statements
    ∃ F', Holds executed here (Statement.effectAll around c statements) F' ∧
    Grows s executed F F' := by
  cases statements with
  | nil =>
    simp only [Statement.executeAll, Statement.effectAll]
    exact ⟨F, hc, .refl (Finset.Subset.refl F)⟩
  | cons statement rest =>
    simp only [Statement.executeAll, Statement.effectAll]
    obtain ⟨F₁, hF₁, hgrows₁⟩ := execute_holds statement hc haround hd
    have haround₁ := haround.frame (hgrows₁.agree haround.lt_size hd) hgrows₁.size_le
    obtain ⟨F₂, hF₂, hgrows₂⟩ :=
      executeAll_holds rest hF₁ haround₁ (hgrows₁.disjoint haround.lt_size hd)
    exact ⟨F₂, hF₂, hgrows₁.trans hgrows₂⟩

end

theorem rootClass_eq (file : String) (statements : List Statement) :
    rootClass file statements
      = Statement.effectAll [] { name := "", location := ⟨file, .empty⟩ } statements := by
  have hstart : Holds ⟨#[{ location := ⟨file, .empty⟩ }]⟩ 0
      { name := "", location := ⟨file, .empty⟩ } {0} :=
    .intro rfl .nil (Finset.notMem_empty 0)
  obtain ⟨F, hF, -⟩ := executeAll_holds statements hstart .nil (Finset.disjoint_empty_right {0})
  exact hF.tree_eq

/-- **The tree that a file builds in place is what its statements mean.** In what they mean, a class
is left alone by all statements that do not reach it by its own path: changes of its base, and of
what was derived from it, do not show in it. -/
theorem rootClass_eq_meaning (file : String) (tokens : List Token) :
    (readStatements file tokens).map (rootClass file)
        = (readStatements file tokens).map
            (Statement.effectAll [] { name := "", location := ⟨file, .empty⟩ }) ∧
      ∀ (around : List Surrounding) (c cls : ConfigClass) (statements : List Statement)
        (path : List String), (∀ s ∈ statements, ¬s.Reaches path) → c.descend? path = some cls →
          (Statement.effectAll around c statements).descend? path = some cls := by
  refine ⟨?_, fun around c cls statements path hreach h ↦
    Statement.descend?_effectAll statements hreach around h⟩
  have heq : rootClass file
      = Statement.effectAll [] { name := "", location := ⟨file, .empty⟩ } :=
    funext (rootClass_eq file)
  rw [heq]

/-- A class and another one that starts with its contents. -/
def baseAndDerived : List Statement :=
  [.define ⟨"B", ⟨"/m/description.ext", .empty⟩⟩ none [.assign "a" "1"],
    .define ⟨"D", ⟨"/m/description.ext", .empty⟩⟩ (some "B") []]

def changing (name : String) : Statement :=
  .define ⟨name, ⟨"/m/description.ext", .empty⟩⟩ none [.assign "a" "2"]

theorem changing_not_reaches {name asked : String} (hne : lower name ≠ lower asked) :
    ∀ s ∈ [changing name], ¬s.Reaches [asked] := by
  intro s hs hreaches
  obtain rfl := List.mem_singleton.mp hs
  cases hreaches with
  | opened hname => exact hne hname
  | within hname _ _ => exact hne hname

/-- A change of the base does not show in the derived class, nor the other way round, while each
shows in the class that is changed. -/
theorem rootClass_eq_meaning_derived :
    let c := Statement.effectAll [] { name := "", location := ⟨"/m/description.ext", .empty⟩ }
      baseAndDerived
    ∃ base derived, c.descend? ["B"] = some base ∧ c.descend? ["D"] = some derived ∧
      derived.text? "a" = some "1" ∧
      (Statement.effectAll [] c [changing "B"]).descend? ["D"] = some derived ∧
      (Statement.effectAll [] c [changing "D"]).descend? ["B"] = some base ∧
      ((Statement.effectAll [] c [changing "B"]).descend? ["B"]).bind (·.text? "a") = some "2" ∧
      ((Statement.effectAll [] c [changing "D"]).descend? ["D"]).bind (·.text? "a") = some "2" := by
  intro c
  obtain ⟨base, hbase⟩ : ∃ base, c.descend? ["B"] = some base :=
    Option.isSome_iff_exists.mp (by decide +kernel)
  obtain ⟨derived, hderived, hvalue⟩ : ∃ derived, c.descend? ["D"] = some derived ∧
      derived.text? "a" = some "1" :=
    Option.bind_eq_some_iff.mp (by decide +kernel)
  obtain ⟨-, halone⟩ := rootClass_eq_meaning "/m/description.ext" []
  have hnames : lower "B" ≠ lower "D" := by decide +kernel
  refine ⟨base, derived, hbase, hderived, hvalue, ?_, ?_, by decide +kernel, by decide +kernel⟩
  · exact halone [] c derived _ _ (changing_not_reaches hnames) hderived
  · exact halone [] c base _ _ (changing_not_reaches hnames.symm) hbase

end MissionIndex.Config
