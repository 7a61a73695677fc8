import Mathlib.Data.List.Basic
import Mathlib.Data.List.Nodup
import Mathlib.Data.List.Perm.Basic
import MissionIndex.Schedule.Coordinator

/-!
# Where requests are

Every request that was made is in one place: it has been settled, or it belongs to one burst that
waits, has been launched, or is in line. `Coordinator.Sound` says so by counting: the numbers of the
settled requests and those of the bursts together are the numbers given out, each once.

A transition moves bursts from one place to another. All that matters of most of them is that the
bursts are the same as before in another order (`perm_bursts_endWait`, `perm_bursts_enter`); a
request adds to a burst or makes one, and the end of a run takes one away.
-/

namespace MissionIndex.Schedule

variable {τ ρ : Type}

namespace Coordinator

variable (c : Coordinator τ ρ)

def inLine : List (Burst τ) := c.locks.flatMap fun e ↦ e.2.holder :: e.2.waiting

def bursts : List (Burst τ) := c.pending.map Prod.snd ++ (c.launched ++ c.inLine)

def burstsFor (key : String) : Nat := c.bursts.countP (·.last.key == key)

def numbersOf (bursts : List (Burst τ)) : List Nat :=
  bursts.flatMap fun b ↦ b.members.map Request.number

/-- The bursts at a key are for that key, and every number given out is that of one request that has
been settled or belongs to one burst. -/
structure Sound (c : Coordinator τ ρ) : Prop where
  pending : ∀ e ∈ c.pending, e.2.last.key = e.1
  locks : ∀ e ∈ c.locks, ∀ b ∈ e.2.holder :: e.2.waiting, b.last.key = e.1
  numbers : (c.settled.map (·.1.number) ++ numbersOf c.bursts).Perm (List.range c.made)

theorem sound_empty : ({} : Coordinator τ ρ).Sound := ⟨nofun, nofun, .refl _⟩

variable {c}

theorem numbersOf_perm {bs bs' : List (Burst τ)} (h : bs.Perm bs') :
    (numbersOf bs).Perm (numbersOf bs') := h.flatMap_right _

theorem holder_mem_inLine {key : String} {lock : Lock τ} (h : c.locks.lookup key = some lock) :
    lock.holder ∈ c.inLine :=
  List.mem_flatMap.mpr ⟨(key, lock), Ordered.mem_of_lookup h, List.mem_cons_self⟩

theorem mem_bursts_of_mem_inLine {burst : Burst τ} (h : burst ∈ c.inLine) : burst ∈ c.bursts :=
  List.mem_append_right _ (List.mem_append_right _ h)

theorem Sound.key_holder (h : c.Sound) {key : String} {lock : Lock τ}
    (hl : c.locks.lookup key = some lock) :
    lock.holder.last.key = key :=
      h.locks (key, lock) (Ordered.mem_of_lookup hl) lock.holder List.mem_cons_self

/-- Numbers are unique, so a burst is known by that of its last request. -/
theorem Sound.nodup_launched (h : c.Sound) : (c.launched.map (·.last.number)).Nodup := by
  -- Numbers are given out once, and the last number of a burst is one of its numbers.
  have hnodup : (numbersOf c.bursts).Nodup :=
    (List.nodup_append.mp (h.numbers.nodup_iff.mpr List.nodup_range)).2.1
  have hlast : ∀ bs : List (Burst τ), (bs.map (·.last.number)).Sublist (numbersOf bs) := by
    intro bs
    induction bs with
    | nil => exact .slnil
    | cons b rest ih =>
      have hb : [b.last.number].Sublist (b.members.map Request.number) := by
        rw [Burst.members, List.map_append]
        exact List.sublist_append_right _ _
      exact hb.append ih
  have hpart : (numbersOf c.launched).Sublist (numbersOf c.bursts) := by
    simp only [numbersOf, bursts, List.flatMap_append]
    exact (List.sublist_append_left _ _).trans (List.sublist_append_right _ _)
  exact ((hlast c.launched).trans hpart).nodup hnodup

theorem Sound.bursts_eq_nil (h : c.Sound)
    (hsettled : ∀ number < c.made, ∃ e ∈ c.settled, e.1.number = number) : c.bursts = [] := by
  refine List.eq_nil_iff_forall_not_mem.mpr fun b hb ↦ ?_
  have hnumber : b.last.number ∈ numbersOf c.bursts := by
    refine List.mem_flatMap.mpr ⟨b, hb, List.mem_map_of_mem ?_⟩
    exact List.mem_append_right _ (List.mem_singleton_self _)
  have hmade : b.last.number < c.made :=
    List.mem_range.mp (h.numbers.subset (List.mem_append_right _ hnumber))
  obtain ⟨e, he, heq⟩ := hsettled b.last.number hmade
  -- A settled number would be there twice.
  have hdisjoint := (List.nodup_append.mp (h.numbers.nodup_iff.mpr List.nodup_range)).2.2
  exact hdisjoint _ (List.mem_map_of_mem he) _ hnumber heq

theorem Sound.exists_settled (h : c.Sound) (hbursts : c.bursts = []) {number : Nat}
    (hnumber : number < c.made) :
    ∃ e ∈ c.settled, e.1.number = number := by
  have hmem := h.numbers.symm.subset (List.mem_range.mpr hnumber)
  rw [hbursts, numbersOf, List.flatMap_nil, List.append_nil] at hmem
  exact List.mem_map.mp hmem

theorem bursts_eq_nil_iff : c.bursts = [] ↔ c.pending = [] ∧ c.launched = [] ∧ c.locks = [] := by
  have hlocks : c.inLine = [] ↔ c.locks = [] := by
    rw [inLine, List.flatMap_eq_nil_iff]
    constructor
    · intro h
      exact List.eq_nil_iff_forall_not_mem.mpr fun e he ↦ List.cons_ne_nil _ _ (h e he)
    · intro h
      rw [h]
      exact nofun
  rw [bursts, List.append_eq_nil_iff, List.append_eq_nil_iff, List.map_eq_nil_iff, hlocks]

/-! ## Requests -/

/-- A request makes a burst in place of the one that is pending for its key, with one member
more. -/
theorem bursts_request (c : Coordinator τ ρ) (key : String) (task : τ) :
    ∃ burst rest, (c.request key task).bursts.Perm (burst :: rest) ∧ burst.last.key = key ∧
      c.bursts.Perm ((c.pending.lookup key).toList ++ rest) ∧ c.inLine ⊆ rest ∧
      burst.members.map Request.number
        = numbersOf (c.pending.lookup key).toList ++ [c.made] := by
  refine ⟨_, (Ordered.erase key c.pending).map Prod.snd ++ (c.launched ++ c.inLine),
    ((Ordered.perm_put key _ c.pending).map Prod.snd).append_right _, rfl, ?_, ?_, ?_⟩
  · cases hl : c.pending.lookup key with
    | none =>
      rw [Ordered.erase_of_lookup_eq_none hl]
      exact .refl _
    | some burst => exact ((Ordered.perm_of_lookup hl).map Prod.snd).append_right _
  · intro b hb
    exact List.mem_append_right _ (List.mem_append_right _ hb)
  · cases c.pending.lookup key with
    | none => rfl
    | some burst => simp [Burst.members, numbersOf]

theorem Sound.request (h : c.Sound) (key : String) (task : τ) : (c.request key task).Sound := by
  obtain ⟨burst, rest, hnew, -, hold, -, hnumbers⟩ := c.bursts_request key task
  refine ⟨fun e he ↦ ?_, h.locks, ?_⟩
  · rcases Ordered.mem_of_mem_put he with rfl | he
    · rfl
    · exact h.pending e he
  · have hafter : (numbersOf (c.request key task).bursts).Perm (numbersOf c.bursts ++
        [c.made]) := by
      refine (numbersOf_perm hnew).trans ?_
      refine .trans ?_ ((numbersOf_perm hold).symm.append_right [c.made])
      simp only [numbersOf, List.flatMap_cons, List.flatMap_append] at hnumbers ⊢
      rw [hnumbers, List.append_assoc, List.append_assoc]
      exact List.perm_append_comm.append_left _
    have hmade : (c.request key task).made = c.made + 1 := rfl
    rw [hmade, List.range_succ]
    refine (hafter.append_left _).trans ?_
    rw [← List.append_assoc]
    exact h.numbers.append_right _

theorem Sound.burstsFor_request (h : c.Sound) {key other : String} (hne : other ≠ key) (task : τ) :
    (c.request key task).burstsFor other = c.burstsFor other := by
  obtain ⟨burst, rest, hnew, hkey, hold, -, -⟩ := c.bursts_request key task
  have hfalse : ∀ b : Burst τ, b.last.key = key → (b.last.key == other) = false := fun b hb ↦ by
    rw [hb]
    exact beq_eq_false_iff_ne.mpr (Ne.symm hne)
  rw [burstsFor, burstsFor, hnew.countP_eq, hold.countP_eq, List.countP_append,
    List.countP_cons_of_neg (by simp [hfalse burst hkey])]
  cases hl : c.pending.lookup key with
  | none => exact (Nat.zero_add _).symm
  | some old =>
    have hold := hfalse old (h.pending _ (Ordered.mem_of_lookup hl))
    rw [Option.toList_some, List.countP_cons_of_neg (by simp [hold]), List.countP_nil, Nat.zero_add]

theorem burstsFor_request_self (c : Coordinator τ ρ) (key : String) (task : τ) :
    c.inLine.countP (·.last.key == key) < (c.request key task).burstsFor key := by
  have hpending : 0 < ((c.request key task).pending.map Prod.snd).countP (·.last.key == key) := by
    refine List.countP_pos_iff.mpr ⟨_, List.mem_map_of_mem (Ordered.mem_of_lookup
      (Ordered.lookup_put_self key _ c.pending)), ?_⟩
    exact beq_self_eq_true key
  rw [burstsFor, bursts, List.countP_append, List.countP_append]
  exact Nat.lt_of_le_of_lt (Nat.le_add_left _ _) (Nat.lt_add_of_pos_left hpending)

/-! ## The end of a wait, and getting in line -/

theorem perm_bursts_endWait (c : Coordinator τ ρ) (key : String) (number : Nat) :
    (c.endWait key number).1.bursts.Perm c.bursts := by
  rw [endWait]
  split
  · next burst hl =>
    split
    · have hpending := (Ordered.perm_of_lookup hl).map Prod.snd
      refine .trans ?_ (hpending.symm.append_right _)
      rw [bursts, List.append_assoc, List.singleton_append, List.map_cons, List.cons_append,
        ← List.append_assoc, ← List.append_assoc]
      exact List.perm_middle
    · exact .refl _
  · exact .refl _

theorem locks_endWait (c : Coordinator τ ρ) (key : String) (number : Nat) :
    (c.endWait key number).1.locks = c.locks := by
  rw [endWait]
  split
  · split
    · rfl
    · rfl
  · rfl

theorem Sound.endWait (h : c.Sound) (key : String) (number : Nat) :
    (c.endWait key number).1.Sound := by
  have hperm := c.perm_bursts_endWait key number
  have hsame : (c.endWait key number).1.settled = c.settled ∧
    (c.endWait key number).1.made = c.made ∧
      (c.endWait key number).1.pending ⊆ c.pending := by
    rw [Coordinator.endWait]
    split
    · split
      · exact ⟨rfl, rfl, (Ordered.erase_sublist _ _).subset⟩
      · exact ⟨rfl, rfl, List.Subset.refl _⟩
    · exact ⟨rfl, rfl, List.Subset.refl _⟩
  obtain ⟨hsettled, hmade, hpending⟩ := hsame
  refine ⟨fun e he ↦ h.pending e (hpending he), c.locks_endWait key number ▸ h.locks, ?_⟩
  rw [hsettled, hmade]
  exact ((numbersOf_perm hperm).append_left _).trans h.numbers

theorem perm_filter_launched {bs : List (Burst τ)} (hnodup : (bs.map (·.last.number)).Nodup)
    {burst : Burst τ} (hmem : burst ∈ bs) :
    bs.Perm (burst :: bs.filter (·.last.number != burst.last.number)) := by
  induction bs with
  | nil => cases hmem
  | cons b rest ih =>
    obtain ⟨hb, hrest⟩ := List.nodup_cons.mp hnodup
    rcases List.mem_cons.mp hmem with rfl | hmem
    · have hkeep : rest.filter (·.last.number != burst.last.number) = rest :=
        List.filter_eq_self.mpr fun b' hb' ↦ bne_iff_ne.mpr fun he ↦
          hb (List.mem_map.mpr ⟨b', hb', he⟩)
      rw [List.filter_cons_of_neg (by simp), hkeep]
    · have hne : (b.last.number != burst.last.number) = true :=
        bne_iff_ne.mpr fun he ↦ hb (List.mem_map.mpr ⟨burst, hmem, he.symm⟩)
      rw [List.filter_cons, if_pos hne]
      exact ((ih hrest hmem).cons b).trans (.swap ..)

/-- Getting in line leaves the bursts as they are. -/
theorem Sound.perm_bursts_enter (h : c.Sound) {burst : Burst τ} (hmem : burst ∈ c.launched) :
    (c.enter burst).1.bursts.Perm c.bursts := by
  have hlaunched := perm_filter_launched h.nodup_launched hmem
  have hline : ∀ locks : List (String × Lock τ),
      (locks.flatMap fun e ↦ e.2.holder :: e.2.waiting).Perm (burst :: c.inLine) →
      (c.pending.map Prod.snd ++ (c.launched.filter (·.last.number != burst.last.number)
        ++ locks.flatMap fun e ↦ e.2.holder :: e.2.waiting)).Perm c.bursts := by
    intro locks hlocks
    refine .append_left _ ((hlocks.append_left _).trans (List.perm_middle.trans ?_))
    exact (hlaunched.append_right c.inLine).symm
  rw [enter]
  -- Either the burst goes to the end of a line that is there, or it makes one.
  split
  · next lock hl =>
    have hlock := (Ordered.perm_of_lookup hl).flatMap_right fun e ↦ e.2.holder :: e.2.waiting
    refine hline _ (((Ordered.perm_put _ _ _).flatMap_right _).trans
      (.trans ?_ (hlock.symm.cons burst)))
    have hlast : ∀ others, ((lock.holder :: (lock.waiting ++ [burst])) ++ others).Perm
        (burst :: ((lock.holder :: lock.waiting) ++ others)) := fun others ↦ by
      rw [← List.cons_append, List.append_assoc, List.singleton_append]
      exact List.perm_middle
    exact hlast _
  · next hl =>
    refine hline _ (((Ordered.perm_put _ _ _).flatMap_right _).trans ?_)
    rw [Ordered.erase_of_lookup_eq_none hl]
    exact .refl _

theorem Sound.enter (h : c.Sound) {burst : Burst τ} (hmem : burst ∈ c.launched) :
    (c.enter burst).1.Sound := by
  have hperm := h.perm_bursts_enter hmem
  have hsame : (c.enter burst).1.settled = c.settled ∧ (c.enter burst).1.made = c.made ∧
      (c.enter burst).1.pending = c.pending := by
    rw [Coordinator.enter]
    split <;> exact ⟨rfl, rfl, rfl⟩
  obtain ⟨hsettled, hmade, hpending⟩ := hsame
  refine ⟨hpending ▸ h.pending, ?_, ?_⟩
  · rw [Coordinator.enter]
    split
    · next lock hl =>
      intro e he b hb
      rcases Ordered.mem_of_mem_put he with rfl | he
      · rw [← List.cons_append] at hb
        rcases List.mem_append.mp hb with hb | hb
        · exact h.locks _ (Ordered.mem_of_lookup hl) b hb
        · rw [List.mem_singleton.mp hb]
      · exact h.locks e he b hb
    · intro e he b hb
      rcases Ordered.mem_of_mem_put he with rfl | he
      · rw [List.mem_singleton.mp hb]
      · exact h.locks e he b hb
  · rw [hsettled, hmade]
    exact ((numbersOf_perm hperm).append_left _).trans h.numbers

theorem exists_lookup_locks_enter (c : Coordinator τ ρ) (burst : Burst τ) {key : String}
    {lock : Lock τ} (h : c.locks.lookup key = some lock) :
    ∃ lock', (c.enter burst).1.locks.lookup key = some lock' := by
  have hput : ∀ front, ∃ lock', (Ordered.put burst.last.key front c.locks).lookup key
      = some lock' := by
    intro front
    by_cases hkey : key = burst.last.key
    · exact ⟨front, hkey ▸ Ordered.lookup_put_self _ _ _⟩
    · exact ⟨lock, (Ordered.lookup_put_of_ne hkey _ _).trans h⟩
  rw [enter]
  split
  · exact hput _
  · exact hput _

/-! ## The end of a run -/

/-- The end of a run takes its burst away, and settles its requests. -/
theorem finish_spec (c : Coordinator τ ρ) {key : String} {lock : Lock τ}
    (hl : c.locks.lookup key = some lock) (result : Option ρ) :
    c.bursts.Perm (lock.holder :: (c.finish key result).1.bursts) ∧
      (c.finish key result).1.settled
        = c.settled ++ lock.holder.members.map (·, .done result) := by
  have hlock := (Ordered.perm_of_lookup hl).flatMap_right fun e ↦ e.2.holder :: e.2.waiting
  have hline : ∀ locks : List (String × Lock τ),
      (locks.flatMap fun e ↦ e.2.holder :: e.2.waiting).Perm
        (lock.waiting ++ (Ordered.erase key c.locks).flatMap fun e ↦ e.2.holder :: e.2.waiting) →
      c.bursts.Perm (lock.holder :: (c.pending.map Prod.snd ++ (c.launched
        ++ locks.flatMap fun e ↦ e.2.holder :: e.2.waiting))) := by
    intro locks hlocks
    refine .trans ?_ (((hlocks.symm.append_left c.launched).append_left _).cons lock.holder)
    refine .trans ((hlock.append_left c.launched).append_left _) ?_
    rw [List.flatMap_cons, List.cons_append, ← List.append_assoc, ← List.append_assoc]
    exact List.perm_middle
  rw [finish, hl]
  simp only
  split
  · next next waiting hwaiting =>
    refine ⟨hline _ ?_, rfl⟩
    rw [hwaiting]
    exact (Ordered.perm_put _ _ _).flatMap_right _
  · next hwaiting =>
    refine ⟨hline _ ?_, rfl⟩
    rw [hwaiting]
    exact .refl _

theorem Sound.finish (h : c.Sound) (key : String) (result : Option ρ) :
    (c.finish key result).1.Sound := by
  cases hl : c.locks.lookup key with
  | none =>
    rw [Coordinator.finish, hl]
    exact h
  | some lock =>
    obtain ⟨hbursts, hsettled⟩ := c.finish_spec hl result
    have hsame : (c.finish key result).1.made = c.made ∧
        (c.finish key result).1.pending = c.pending := by
      rw [Coordinator.finish, hl]
      simp only
      split <;> exact ⟨rfl, rfl⟩
    refine ⟨hsame.2 ▸ h.pending, ?_, ?_⟩
    · rw [Coordinator.finish, hl]
      simp only
      split
      · next next waiting hwaiting =>
        intro e he b hb
        rcases Ordered.mem_of_mem_put he with rfl | he
        · exact h.locks _ (Ordered.mem_of_lookup hl) b (List.mem_cons_of_mem _ (hwaiting ▸ hb))
        · exact h.locks e he b hb
      · intro e he
        exact h.locks e ((Ordered.erase_sublist _ _).subset he)
    · rw [hsettled, hsame.1, List.map_append, List.map_map, List.append_assoc]
      exact .trans (((numbersOf_perm hbursts).symm).append_left _) h.numbers

theorem Sound.burstsFor_finish (h : c.Sound) {key : String} {lock : Lock τ}
    (hl : c.locks.lookup key = some lock) (result : Option ρ) (other : String) :
    c.burstsFor other = (c.finish key result).1.burstsFor other + if other = key then 1 else 0 := by
  rw [burstsFor, burstsFor, (c.finish_spec hl result).1.countP_eq, List.countP_cons,
    h.key_holder hl]
  simp only [beq_iff_eq, eq_comm (a := key)]

theorem lookup_locks_finish (c : Coordinator τ ρ) {key other : String} (h : other ≠ key)
    (result : Option ρ) :
    (c.finish key result).1.locks.lookup other = c.locks.lookup other := by
  rw [finish]
  split
  · simp only
    split
    · exact Ordered.lookup_put_of_ne h _ _
    · exact Ordered.lookup_erase_of_ne h _
  · rfl

/-! ## A request alone -/

/-- A request made while nothing is under way is at the front of its line once its wait has ended,
and nothing is under way when its run has. -/
theorem exists_enter_of_bursts_eq_nil (h : c.bursts = []) (key : String) (task : τ) :
    let waited := ((c.request key task).endWait key c.made).1
    ∃ burst ∈ waited.launched, ∃ lock, (waited.enter burst).1.locks.lookup key = some lock ∧
      ∀ result, ((waited.enter burst).1.finish key result).1.bursts = [] := by
  obtain ⟨made, pending, launched, locks, settled⟩ := c
  obtain ⟨rfl, rfl, rfl⟩ := bursts_eq_nil_iff.mp h
  let burst : Burst τ := ⟨[], ⟨made, key, task⟩⟩
  have hwaited : ((request (ρ := ρ) ⟨made, [], [], [], settled⟩ key task).endWait key made).1
      = ⟨made + 1, [], [burst], [], settled⟩ := by
    simp [endWait, request, burst, Ordered.erase, Ordered.put]
  have hentered : (enter (ρ := ρ) ⟨made + 1, [], [burst], [], settled⟩ burst).1
      = ⟨made + 1, [], [], [(key, ⟨burst, []⟩)], settled⟩ := by
    simp [enter, burst, Ordered.put]
  simp only [hwaited]
  refine ⟨burst, List.mem_singleton_self burst, ⟨burst, []⟩, ?_, fun result ↦ ?_⟩
  · rw [hentered, List.lookup_cons, beq_self_eq_true]
  · rw [hentered]
    simp [finish, settle, bursts, inLine, Ordered.erase]

end Coordinator

end MissionIndex.Schedule
