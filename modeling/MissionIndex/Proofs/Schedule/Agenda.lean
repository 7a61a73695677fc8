import Mathlib.Data.List.Perm.Basic
import Mathlib.Logic.Equiv.Basic
import MissionIndex.Schedule.Agenda

/-!
# Agendas keep what is due in order

Both ways of repairing an agenda only swap entries, so no entry is lost and none is made up
(`perm_insert`, `perm_dropNext`, `perm_span`). And both repair it: what comes out first is due
before all others, or with them (`IsHeap.not_before_next`).

## One entry out of place

While an entry rises or sinks, all pairs of an entry and the one above it that do not touch its
position are in order, and what is below the position is not due before what is above it. This is
enough for the next swap, and for the order of all once the entry has come to rest.
-/

namespace MissionIndex.Schedule

namespace Moment

variable {a b c : Moment}

theorem before_iff : a.before b = true ↔ a.time < b.time ∨ a.time = b.time ∧ a.tick < b.tick := by
  simp [before]

theorem not_before_iff : a.before b = false ↔ b.time < a.time ∨ b.time = a.time ∧
    b.tick ≤ a.tick := by
  rw [← Bool.not_eq_true, before_iff]
  omega

theorem not_before_of_before (h : a.before b = true) : b.before a = false := by
  rw [before_iff] at h
  rw [not_before_iff]
  omega

theorem not_before_trans (hab : a.before b = false) (hbc : b.before c = false) :
    a.before c = false := by
  rw [not_before_iff] at hab hbc ⊢
  omega

end Moment

namespace Agenda

variable {α : Type}

section Entries

variable {entries : Array (Moment × α)} {i j k : Nat}

/-! ## Entries that are swapped -/

theorem perm_swapIfInBounds (entries : Array (Moment × α)) (i j : Nat) :
    (entries.swapIfInBounds i j).toList.Perm entries.toList := by
  rw [Array.swapIfInBounds_def]
  split
  · split
    · exact (Array.swap_perm _ _).toList
    · exact .refl _
  · exact .refl _

theorem perm_rise (entries : Array (Moment × α)) (i : Nat) :
    (rise entries i).toList.Perm entries.toList := by
  fun_induction rise entries i with
  | case1 entries i hpos above hbefore ih => exact ih.trans (perm_swapIfInBounds entries above i)
  | case2 entries i hpos above hbefore => exact .refl _
  | case3 entries i hpos => exact .refl _

theorem perm_sink (entries : Array (Moment × α)) (i : Nat) :
    (sink entries i).1.toList.Perm entries.toList := by
  fun_induction sink entries i with
  | case1 entries i left hleft below ih => exact ih.trans (perm_swapIfInBounds entries i below)
  | case2 entries i left hleft => exact .refl _

/-! ## Order -/

theorem isBefore_eq_false_of_le (h : entries.size ≤ i) : isBefore entries i j = false := by
  rw [isBefore, Array.getElem?_eq_none h]

theorem isBefore_eq (hi : i < entries.size) (hj : j < entries.size) :
    isBefore entries i j = entries[i].1.before entries[j].1 := by
  rw [isBefore, Array.getElem?_eq_getElem hi, Array.getElem?_eq_getElem hj]

theorem not_isBefore_of_isBefore (h : isBefore entries i j = true) :
    isBefore entries j i = false := by
  by_cases hi : i < entries.size
  · by_cases hj : j < entries.size
    · rw [isBefore_eq hi hj] at h
      rw [isBefore_eq hj hi, Moment.not_before_of_before h]
    · exact isBefore_eq_false_of_le (Nat.not_lt.mp hj)
  · rw [isBefore_eq_false_of_le (Nat.not_lt.mp hi)] at h
    cases h

theorem not_isBefore_trans (hj : j < entries.size) (hij : isBefore entries i j = false)
    (hjk : isBefore entries j k = false) : isBefore entries i k = false := by
  by_cases hi : i < entries.size
  · by_cases hk : k < entries.size
    · rw [isBefore_eq hi hj] at hij
      rw [isBefore_eq hj hk] at hjk
      rw [isBefore_eq hi hk, Moment.not_before_trans hij hjk]
    · rw [isBefore, Array.getElem?_eq_none (Nat.not_lt.mp hk)]
      split <;> simp_all
  · exact isBefore_eq_false_of_le (Nat.not_lt.mp hi)

theorem isBefore_swapIfInBounds (hi : i < entries.size) (hj : j < entries.size) (k l : Nat) :
    isBefore (entries.swapIfInBounds i j) k l
      = isBefore entries (Equiv.swap i j k) (Equiv.swap i j l) := by
  have hget : ∀ k : Nat, (entries.swapIfInBounds i j)[k]? = entries[Equiv.swap i j k]? := by
    intro k
    rw [Array.swapIfInBounds_def, dif_pos hi, dif_pos hj, Array.getElem?_swap]
    by_cases hkj : j = k
    · rw [if_pos hkj, ← hkj, Equiv.swap_apply_right, Array.getElem?_eq_getElem hi]
    · by_cases hki : i = k
      · rw [if_neg hkj, if_pos hki, ← hki, Equiv.swap_apply_left, Array.getElem?_eq_getElem hj]
      · rw [if_neg hkj, if_neg hki, Equiv.swap_apply_of_ne_of_ne (Ne.symm hki) (Ne.symm hkj)]
  rw [isBefore, isBefore, hget, hget]

def above (i : Nat) : Nat := (i - 1) / 2

theorem above_lt (h : 0 < i) : above i < i := by
  rw [above]
  omega

def InOrder (entries : Array (Moment × α)) : Prop :=
  ∀ j, 0 < j → isBefore entries j (above j) = false

/-- What is below a position is not due before what is above it. -/
def Spans (entries : Array (Moment × α)) (i : Nat) : Prop :=
  ∀ j, 0 < i → 0 < j → above j = i → isBefore entries j (above i) = false

/-- Entries are in order if the one at a position is due before the one above it. -/
structure MayRise (entries : Array (Moment × α)) (i : Nat) : Prop where
  others : ∀ j, 0 < j → j ≠ i → isBefore entries j (above j) = false
  spans : Spans entries i

/-- Entries are in order apart from the one at a position. -/
structure MaySink (entries : Array (Moment × α)) (i : Nat) : Prop where
  others : ∀ j, 0 < j → j ≠ i → above j ≠ i → isBefore entries j (above j) = false
  spans : Spans entries i

theorem MayRise.swap (h : MayRise entries i) (hi : i < entries.size) (hpos : 0 < i)
    (hbefore : isBefore entries i (above i) = true) :
    MayRise (entries.swapIfInBounds (above i) i) (above i) := by
  have hlt := above_lt hpos
  have hswap := isBefore_swapIfInBounds (Nat.lt_trans hlt hi) hi
  have hkept : ∀ {j : Nat}, j ≠ above i → j ≠ i → Equiv.swap (above i) i j = j :=
    Equiv.swap_apply_of_ne_of_ne
  refine ⟨fun j hj hne ↦ ?_, fun j hup hj hjup ↦ ?_⟩
  · rw [hswap]
    by_cases hji : j = i
    · rw [hji, Equiv.swap_apply_right, Equiv.swap_apply_left]
      exact not_isBefore_of_isBefore hbefore
    · rw [hkept hne hji]
      have hold := h.others j hj hji
      by_cases hjup : above j = i
      · rw [hjup, Equiv.swap_apply_right]
        exact h.spans j hpos hj hjup
      · by_cases hjside : above j = above i
        · rw [hjside] at hold
          rw [hjside, Equiv.swap_apply_left]
          exact not_isBefore_trans (Nat.lt_trans hlt hi) hold (not_isBefore_of_isBefore hbefore)
        · rw [hkept hjside hjup]
          exact hold
  · have htop := above_lt hup
    have hold := h.others (above i) hup (Nat.ne_of_lt hlt)
    rw [hswap, hkept (Nat.ne_of_lt htop) (Nat.ne_of_lt (Nat.lt_trans htop hlt))]
    by_cases hji : j = i
    · rwa [hji, Equiv.swap_apply_right]
    · have hne : j ≠ above i := fun he ↦ Nat.ne_of_lt (above_lt hj) (hjup.trans he.symm)
      have hside := h.others j hj hji
      rw [hjup] at hside
      rw [hkept hne hji]
      exact not_isBefore_trans (Nat.lt_trans hlt hi) hside hold

theorem MayRise.inOrder_rise (h : MayRise entries i) (hi : i < entries.size) :
    InOrder (rise entries i) := by
  fun_induction rise entries i with
  | case1 entries i hpos up hbefore ih =>
    refine ih (h.swap hi hpos hbefore) ?_
    rw [Array.size_swapIfInBounds]
    exact Nat.lt_trans (above_lt hpos) hi
  | case2 entries i hpos up hbefore =>
    intro j hj
    by_cases hji : j = i
    · rw [hji]
      exact Bool.eq_false_iff.mpr hbefore
    · exact h.others j hj hji
  | case3 entries i hpos => exact fun j hj ↦ h.others j hj (by omega)

theorem MaySink.swap (h : MaySink entries i) {below other : Nat} (hbelow : below < entries.size)
    (hup : above below = i) (hpos : 0 < below) (hchildren : ∀ j, 0 < j → above j = i →
      j = below ∨ j = other)
    (hfirst : isBefore entries other below = false) :
    MaySink (entries.swapIfInBounds i below) below := by
  have hlt : i < below := hup ▸ above_lt hpos
  have hi := Nat.lt_trans hlt hbelow
  have hswap := isBefore_swapIfInBounds hi hbelow
  have hkept : ∀ {j : Nat}, j ≠ i → j ≠ below → Equiv.swap i below j = j :=
    Equiv.swap_apply_of_ne_of_ne
  refine ⟨fun j hj hne hjup ↦ ?_, fun j _ hj hjup ↦ ?_⟩
  · rw [hswap]
    by_cases hji : j = i
    · have htop := above_lt (hji ▸ hj)
      rw [hji, Equiv.swap_apply_left,
        hkept (Nat.ne_of_lt htop) (Nat.ne_of_lt (Nat.lt_trans htop hlt))]
      exact h.spans below (hji ▸ hj) hpos hup
    · rw [hkept hji hne]
      by_cases hside : above j = i
      · rw [hside, Equiv.swap_apply_left]
        rcases hchildren j hj hside with rfl | rfl
        · exact absurd rfl hne
        · exact hfirst
      · rw [hkept hside hjup]
        exact h.others j hj hji hside
  · have hgt := above_lt hj
    rw [hjup] at hgt
    have hold := h.others j hj (by omega) (by omega)
    rw [hjup] at hold
    rw [hswap, hup, Equiv.swap_apply_left, hkept (by omega) (by omega)]
    exact hold

/-- An entry that sinks comes to rest where nothing is below it. -/
theorem MaySink.mayRise_sink (h : MaySink entries i) (hi : i < entries.size) :
    MayRise (sink entries i).1 (sink entries i).2 ∧
    (sink entries i).2 < (sink entries i).1.size := by
  fun_induction sink entries i with
  | case1 entries i left hleft below ih =>
    -- Of the two entries below the position, the one that is due first takes its place.
    obtain ⟨hbelow, hup, hpos, other, hchildren, hfirst⟩ : below < entries.size ∧
      above below = i ∧ 0 < below ∧
        ∃ other, (∀ j, 0 < j → above j = i → j = below ∨ j = other) ∧
        isBefore entries other below = false := by
      simp only [above, below]
      split
      · next hright =>
        rw [Bool.and_eq_true, decide_eq_true_eq, Bool.not_eq_true'] at hright
        exact ⟨hright.1, by omega, by omega, left, fun j hj hji ↦ by omega, hright.2⟩
      · next hright =>
        refine ⟨hleft, by omega, by omega, left + 1, fun j hj hji ↦ by omega, ?_⟩
        by_cases hsize : left + 1 < entries.size
        · rw [Bool.and_eq_true, decide_eq_true_eq, Bool.not_eq_true', not_and, Bool.not_eq_false]
            at hright
          exact not_isBefore_of_isBefore (hright hsize)
        · exact isBefore_eq_false_of_le (Nat.not_lt.mp hsize)
    refine ih (h.swap hbelow hup hpos hchildren hfirst) ?_
    rwa [Array.size_swapIfInBounds]
  | case2 entries i left hleft =>
    refine ⟨⟨fun j hj hne ↦ ?_, h.spans⟩, hi⟩
    by_cases hside : above j = i
    · refine isBefore_eq_false_of_le (Nat.le_trans (Nat.not_lt.mp hleft) ?_)
      rw [above] at hside
      omega
    · exact h.others j hj hne hside

theorem InOrder.not_isBefore_zero (h : InOrder entries) (i : Nat) :
    isBefore entries i 0 = false := by
  induction i using Nat.strongRecOn with
  | ind i ih =>
    by_cases hpos : 0 < i
    · have hlt := above_lt hpos
      by_cases hi : i < entries.size
      · exact not_isBefore_trans (Nat.lt_trans hlt hi) (h i hpos) (ih (above i) hlt)
      · exact isBefore_eq_false_of_le (Nat.not_lt.mp hi)
    · obtain rfl : i = 0 := Nat.eq_zero_of_not_pos hpos
      rw [← Bool.not_eq_true]
      intro hself
      rw [not_isBefore_of_isBefore hself] at hself
      cases hself

end Entries

/-! ## Agendas -/

variable {agenda : Agenda α} {due : Moment} {item : α}

def items (agenda : Agenda α) : List (Moment × α) := agenda.entries.toList

def IsHeap (agenda : Agenda α) : Prop := InOrder agenda.entries

theorem isHeap_empty : ({} : Agenda α).IsHeap := fun _ _ ↦ isBefore_eq_false_of_le (Nat.zero_le _)

theorem perm_insert (agenda : Agenda α) (due : Moment) (item : α) :
    (agenda.insert due item).items.Perm ((due, item) :: agenda.items) := by
  refine (perm_rise _ _).trans ?_
  rw [Array.toList_push]
  exact List.perm_append_singleton _ _

theorem IsHeap.insert (h : agenda.IsHeap) (due : Moment) (item : α) :
    (agenda.insert due item).IsHeap := by
  have hpush : ∀ i j : Nat, i < agenda.entries.size → j < agenda.entries.size →
      isBefore (agenda.entries.push (due, item)) i j = isBefore agenda.entries i j := by
    intro i j hi hj
    rw [isBefore, isBefore, Array.getElem?_push_lt hi, Array.getElem?_push_lt hj,
      Array.getElem?_eq_getElem hi, Array.getElem?_eq_getElem hj]
  refine MayRise.inOrder_rise ⟨fun j hj hne ↦ ?_, fun j hpos hj hjup ↦ ?_⟩ ?_
  · by_cases hlt : j < agenda.entries.size
    · rw [hpush j _ hlt (Nat.lt_trans (above_lt hj) hlt)]
      exact h j hj
    · refine isBefore_eq_false_of_le ?_
      rw [Array.size_push]
      omega
  · refine isBefore_eq_false_of_le ?_
    have hlt := above_lt hj
    rw [Array.size_push]
    omega
  · rw [Array.size_push]
    exact Nat.lt_succ_self _

theorem IsHeap.not_before_next (h : agenda.IsHeap) (hnext : agenda.next? = some (due, item))
    {e : Moment × α} (he : e ∈ agenda.items) : e.1.before due = false := by
  obtain ⟨i, hi, rfl⟩ := List.getElem_of_mem he
  rw [items, Array.length_toList] at hi
  have hzero : 0 < agenda.entries.size := Nat.zero_lt_of_lt hi
  rw [next?, Array.getElem?_eq_getElem hzero] at hnext
  have hfirst := h.not_isBefore_zero i
  rw [isBefore_eq hi hzero, Option.some.inj hnext] at hfirst
  exact hfirst

theorem next?_eq_none_iff : agenda.next? = none ↔ agenda.items = [] := by
  rw [next?, Array.getElem?_eq_none_iff, Nat.le_zero, items, ← Array.length_toList,
    List.length_eq_zero_iff]

theorem perm_dropNext_pop (agenda : Agenda α) :
    agenda.dropNext.items.Perm
      (agenda.entries.swapIfInBounds 0 (agenda.entries.size - 1)).pop.toList :=
  (perm_rise _ _).trans (perm_sink _ 0)

theorem perm_dropNext (hnext : agenda.next? = some (due, item)) :
    agenda.items.Perm ((due, item) :: agenda.dropNext.items) := by
  have hzero : 0 < agenda.entries.size := by
    by_contra hzero
    rw [next?, Array.getElem?_eq_none (Nat.not_lt.mp hzero)] at hnext
    cases hnext
  have hlast : (agenda.entries.swapIfInBounds 0 (agenda.entries.size - 1)).toList.getLast?
      = some (due, item) := by
    rw [List.getLast?_eq_getElem?, Array.getElem?_toList, Array.length_toList,
      Array.size_swapIfInBounds,
      Array.getElem?_eq_getElem (by rw [Array.size_swapIfInBounds]; omega),
      Array.getElem_swapIfInBounds_right hzero,
      ← Array.getElem?_eq_getElem hzero]
    exact hnext
  refine (perm_swapIfInBounds _ 0 (agenda.entries.size - 1)).symm.trans ?_
  refine .trans ?_ (agenda.perm_dropNext_pop.symm.cons _)
  rw [← List.dropLast_append_getLast? _ hlast, Array.toList_pop]
  exact List.perm_append_singleton _ _

theorem IsHeap.dropNext (h : agenda.IsHeap) : agenda.dropNext.IsHeap := by
  generalize hleft : (agenda.entries.swapIfInBounds 0 (agenda.entries.size - 1)).pop = left
  have hsize : left.size = agenda.entries.size - 1 := by
    rw [← hleft, Array.size_pop, Array.size_swapIfInBounds]
  have hget : ∀ i : Nat, 0 < i → i < left.size → left[i]? = agenda.entries[i]? := by
    intro i hi hlt
    rw [← hleft, Array.getElem?_pop, Array.size_swapIfInBounds, if_pos (hsize ▸ hlt),
      Array.getElem?_eq_getElem
      (by rw [Array.size_swapIfInBounds]; omega),
      Array.getElem_swapIfInBounds_of_ne_of_ne (by omega) (by omega),
      ← Array.getElem?_eq_getElem]
  have hsame : agenda.dropNext = ⟨rise (sink left 0).1 (sink left 0).2⟩ := by rw [← hleft]; rfl
  rw [hsame]
  by_cases hpos : 0 < left.size
  · have hsink : MaySink left 0 := by
      refine ⟨fun j hj _ hup ↦ ?_, fun _ hnot ↦ absurd hnot (Nat.lt_irrefl 0)⟩
      by_cases hlt : j < left.size
      · have hbelow := above_lt hj
        rw [isBefore, hget j hj hlt, hget _ (Nat.pos_of_ne_zero hup) (Nat.lt_trans hbelow hlt)]
        exact h j hj
      · exact isBefore_eq_false_of_le (Nat.not_lt.mp hlt)
    obtain ⟨hrise, hlt⟩ := hsink.mayRise_sink hpos
    exact hrise.inOrder_rise hlt
  · refine fun j _ ↦ isBefore_eq_false_of_le ?_
    have hlength := ((perm_rise (sink left 0).1 (sink left 0).2).trans (perm_sink left 0)).length_eq
    rw [Array.length_toList, Array.length_toList] at hlength
    change (rise (sink left 0).1 (sink left 0).2).size ≤ j
    omega

/-! ## Taking out what is due -/

/-- What comes out of the front of an agenda while something holds of it, and what stays in it. -/
structure Parts (p : Moment → α → Bool) (agenda : Agenda α) (taken : List (Moment × α))
    (rest : Agenda α) : Prop where
  perm : (taken ++ rest.items).Perm agenda.items
  holds : ∀ e ∈ taken, p e.1 e.2 = true
  stops : ∀ e, rest.next? = some e → p e.1 e.2 = false
  isHeap : agenda.IsHeap → rest.IsHeap
  sorted : agenda.IsHeap → taken.Pairwise fun a b ↦ b.1.before a.1 = false

theorem exists_spanNext (p : Moment → α → Bool) {n : Nat} {agenda : Agenda α}
    (hn : agenda.items.length ≤ n) :
    ∃ taken : List (Moment × α), taken.map Prod.snd = (spanNext p n agenda).1 ∧
      Parts p agenda taken (spanNext p n agenda).2 := by
  induction n generalizing agenda with
  | zero =>
    have hnone : agenda.next? = none :=
      next?_eq_none_iff.mpr (List.length_eq_zero_iff.mp (Nat.le_zero.mp hn))
    refine ⟨[], rfl, .refl _, nofun, fun e he ↦ ?_, id, fun _ ↦ .nil⟩
    rw [spanNext, hnone] at he
    cases he
  | succ n ih =>
    rw [spanNext]
    split
    · next hnone =>
      refine ⟨[], rfl, .refl _, nofun, fun e he ↦ ?_, id, fun _ ↦ .nil⟩
      rw [hnone] at he
      cases he
    · next due item hnext =>
      split
      · next hp =>
        have hperm := perm_dropNext hnext
        have hlength : agenda.dropNext.items.length ≤ n := by
          rw [hperm.length_eq, List.length_cons] at hn
          exact Nat.le_of_succ_le_succ hn
        obtain ⟨taken, htaken, hparts⟩ := ih hlength
        have hperm' := (hparts.perm.cons (due, item)).trans hperm.symm
        refine ⟨(due, item) :: taken, congrArg (item :: ·) htaken, hperm', ?_, hparts.stops,
          fun h ↦ hparts.isHeap h.dropNext,
          fun h ↦ List.pairwise_cons.mpr ⟨fun e he ↦ ?_, hparts.sorted h.dropNext⟩⟩
        · exact List.forall_mem_cons.mpr ⟨hp, hparts.holds⟩
        · exact h.not_before_next hnext
            (hperm'.subset (List.mem_cons_of_mem _ (List.mem_append_left _ he)))
      · next hp =>
        refine ⟨[], rfl, .refl _, nofun, fun e he ↦ ?_, id, fun _ ↦ .nil⟩
        rw [hnext] at he
        rw [← Option.some.inj he]
        exact Bool.eq_false_iff.mpr hp

/-- **What an agenda gives out and what stays in it.** -/
theorem exists_span (p : Moment → α → Bool) (agenda : Agenda α) :
    ∃ taken : List (Moment × α), taken.map Prod.snd = (agenda.span p).1 ∧
    Parts p agenda taken (agenda.span p).2 :=
  exists_spanNext p (Nat.le_of_eq Array.length_toList)

end Agenda

end MissionIndex.Schedule
