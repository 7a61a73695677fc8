import Mathlib.Data.List.Nodup
import MissionIndex.Schedule.Dispatcher

/-!
# Waits and who waits with them

Of the tables of a dispatcher three are about requests that wait: the waits that are under way, the
handles by which they can be broken off, and the requests that are answered when they end. `Waiting`
says that these tables go together whatever moves are made. There is one wait for each key at most,
and it is the wait of the request that came last.
-/

namespace MissionIndex.Schedule

def Ending.settled {ρ : Type} (numbers : List Nat) : Ending ρ → List (Nat × Settled ρ)
  | .returned result => numbers.map (·, .done result)
  | .cancelled => []

namespace Dispatcher

variable {τ ρ : Type} {d d' : Dispatcher τ ρ}

/-! ## Lists without repetition -/

/-- Of items that a function tells apart, the ones that differ from a member are those around it. -/
theorem exists_split_of_mem {α β : Type} [BEq β] [LawfulBEq β] {f : α → β} {items : List α} {a : α}
    (hnodup : (items.map f).Nodup) (ha : a ∈ items) :
    ∃ before after, items = before ++ a :: after ∧ items.filter (f · != f a) = before ++ after := by
  obtain ⟨before, after, rfl⟩ := List.append_of_mem ha
  refine ⟨before, after, rfl, ?_⟩
  rw [List.map_append, List.map_cons] at hnodup
  have hbefore : before.filter (f · != f a) = before := by
    refine List.filter_eq_self.mpr fun b hb ↦ bne_iff_ne.mpr fun he ↦ ?_
    exact List.disjoint_of_nodup_append hnodup (List.mem_map_of_mem hb) (he ▸ List.mem_cons_self)
  have hafter : after.filter (f · != f a) = after := by
    refine List.filter_eq_self.mpr fun b hb ↦ bne_iff_ne.mpr fun he ↦ ?_
    exact (List.nodup_cons.mp hnodup.of_append_right).1 (he ▸ List.mem_map_of_mem hb)
  rw [List.filter_append, List.filter_cons_of_neg (by simp), hbefore, hafter]

theorem filter_ne_eq_filter_ne {α β γ : Type} [BEq β] [LawfulBEq β] [BEq γ]
    [LawfulBEq γ] {f : α → β} {g : α → γ} {items : List α} {a : α} (hf : (items.map f).Nodup)
    (hg : (items.map g).Nodup) (ha : a ∈ items) :
    items.filter (f · != f a) = items.filter (g · != g a) := by
  refine List.filter_congr fun b hb ↦ ?_
  rw [Bool.eq_iff_iff, bne_iff_ne, bne_iff_ne, not_iff_not]
  exact ⟨fun h ↦ congrArg g (List.inj_on_of_nodup_map hf hb ha h),
    fun h ↦ congrArg f (List.inj_on_of_nodup_map hg hb ha h)⟩

/-! ## The tables -/

def handleOf (wait : Wait τ) : String × Nat := (wait.key, wait.number)

def othersThan (d : Dispatcher τ ρ) (key : String) : List (Wait τ) := d.waits.filter (·.key != key)

/-- There is a handle for each wait, and one wait for each key at most. -/
structure Handled (d : Dispatcher τ ρ) : Prop where
  handles : d.handles = d.waits.map handleOf
  keys : (d.waits.map Wait.key).Nodup
  numbers : (d.waits.map Wait.number).Nodup

/-- The tables of what waits go together. -/
structure Waiting (d : Dispatcher τ ρ) : Prop extends Handled d where
  lt : ∀ w ∈ d.waits, w.number < d.made
  due : ∀ w ∈ d.waits, d.now ≤ w.due
  waiterKeys : (d.waiters.map Prod.fst).Nodup
  mem_iff : ∀ key, key ∈ d.waiters.map Prod.fst ↔ key ∈ d.waits.map Wait.key
  /-- The wait is that of the request that came last. -/
  last : ∀ w ∈ d.waits, ∃ earlier, d.waiters.lookup w.key = some (earlier ++ [w.number])

/-- Two dispatchers have the same tables of what waits. -/
structure SameWaiting (d d' : Dispatcher τ ρ) : Prop where
  now : d'.now = d.now
  made : d'.made = d.made
  handles : d'.handles = d.handles
  waiters : d'.waiters = d.waiters
  waits : d'.waits = d.waits

theorem SameWaiting.refl (d : Dispatcher τ ρ) : SameWaiting d d := ⟨rfl, rfl, rfl, rfl, rfl⟩

theorem SameWaiting.trans {d'' : Dispatcher τ ρ} (h : SameWaiting d d') (h' : SameWaiting d' d'') :
    SameWaiting d d'' :=
  ⟨h'.now.trans h.now, h'.made.trans h.made, h'.handles.trans h.handles, h'.waiters.trans h.waiters,
    h'.waits.trans h.waits⟩

theorem Waiting.of_same (h : d.Waiting) (hsame : SameWaiting d d') : d'.Waiting := by
  obtain ⟨hnow, hmade, hhandles, hwaiters, hwaits⟩ := hsame
  refine ⟨⟨?_, ?_, ?_⟩, ?_, ?_, ?_, ?_, ?_⟩
  · rw [hhandles, hwaits, h.handles]
  · rw [hwaits]; exact h.keys
  · rw [hwaits]; exact h.numbers
  · rw [hwaits, hmade]; exact h.lt
  · rw [hwaits, hnow]; exact h.due
  · rw [hwaiters]; exact h.waiterKeys
  · rw [hwaiters, hwaits]; exact h.mem_iff
  · rw [hwaits, hwaiters]; exact h.last

theorem waiting_empty : ({} : Dispatcher τ ρ).Waiting :=
  ⟨⟨rfl, .nil, .nil⟩, nofun, nofun, .nil, fun _ ↦ .rfl, nofun⟩

/-! ### Settling -/

theorem settleAll_eq (d : Dispatcher τ ρ) (numbers : List Nat) (outcome : Settled ρ) :
    ∃ settled, d.settleAll numbers outcome = { d with settled } := by
  induction numbers generalizing d with
  | nil => exact ⟨d.settled, rfl⟩
  | cons number rest ih =>
    rw [settleAll, List.foldl_cons]
    obtain ⟨settled, hsettled⟩ := ih (d.settle outcome number)
    refine ⟨settled, hsettled.trans ?_⟩
    rw [settle]
    split <;> rfl

theorem answer_eq (d : Dispatcher τ ρ) (numbers : List Nat) (ending : Ending ρ) :
    ∃ settled, d.answer numbers ending = { d with settled } := by
  cases ending with
  | returned result => exact d.settleAll_eq numbers (.done result)
  | cancelled => exact ⟨d.settled, rfl⟩

/-- Requests are settled in turn, those that have been settled before excepted. -/
theorem settled_settleAll (d : Dispatcher τ ρ) {numbers : List Nat} (h : numbers.Nodup)
    (outcome : Settled ρ) :
    (d.settleAll numbers outcome).settled
      = d.settled ++ (numbers.filter (!d.isSettled ·)).map (·, outcome) := by
  induction numbers generalizing d with
  | nil => exact (List.append_nil _).symm
  | cons number rest ih =>
    obtain ⟨hnumber, hrest⟩ := List.nodup_cons.mp h
    rw [settleAll, List.foldl_cons, ← settleAll, ih _ hrest]
    by_cases hsettled : d.isSettled number = true
    · rw [settle, if_pos hsettled, List.filter_cons_of_neg (by simp [hsettled])]
    · rw [settle, if_neg hsettled, List.filter_cons_of_pos (by simpa using hsettled), List.map_cons,
        List.append_assoc, List.singleton_append]
      -- What has just been settled is not among the rest.
      refine congrArg (fun left : List Nat ↦ d.settled ++ (number, outcome) ::
        left.map (·, outcome)) ?_
      refine List.filter_congr fun n hn ↦ ?_
      have hne : number ≠ n := fun he ↦ hnumber (he ▸ hn)
      simp [isSettled, hne]

theorem settled_answer (d : Dispatcher τ ρ) {numbers : List Nat} (h : numbers.Nodup)
    (ending : Ending ρ) :
    (d.answer numbers ending).settled
      = d.settled ++ ending.settled (numbers.filter (!d.isSettled ·)) := by
  cases ending with
  | returned result => exact settled_settleAll d h (.done result)
  | cancelled => exact (List.append_nil _).symm

theorem sameWaiting_settleAll (d : Dispatcher τ ρ) (numbers : List Nat) (outcome : Settled ρ) :
    SameWaiting d (d.settleAll numbers outcome) := by
  obtain ⟨settled, hsettled⟩ := d.settleAll_eq numbers outcome
  rw [hsettled]
  exact ⟨rfl, rfl, rfl, rfl, rfl⟩

theorem sameWaiting_answer (d : Dispatcher τ ρ) (numbers : List Nat) (ending : Ending ρ) :
    SameWaiting d (d.answer numbers ending) := by
  obtain ⟨settled, hsettled⟩ := d.answer_eq numbers ending
  rw [hsettled]
  exact ⟨rfl, rfl, rfl, rfl, rfl⟩

/-! ### Handles -/

theorem lookup_handles (h : d.Handled) {key : String} {w : Wait τ} (hw : w ∈ d.waits)
    (hkey : w.key = key) :
    d.handles.lookup key = some w.number := by
  refine Ordered.lookup_of_mem ?_ ?_
  · rw [h.handles, List.map_map]
    exact h.keys
  · rw [h.handles, ← hkey]
    exact List.mem_map_of_mem hw

theorem erase_handles (h : d.Handled) (key : String) :
    Ordered.erase key d.handles = (d.othersThan key).map handleOf := by
  have hall : ∀ waits : List (Wait τ), (waits.map Wait.key).Nodup →
      Ordered.erase key (waits.map handleOf) = (waits.filter (·.key != key)).map handleOf := by
    intro waits hnodup
    induction waits with
    | nil => rfl
    | cons w rest ih =>
      obtain ⟨hw, hrest⟩ := List.nodup_cons.mp hnodup
      rw [List.map_cons, handleOf, Ordered.erase]
      by_cases hkey : w.key = key
      · have hkeep : rest.filter (·.key != key) = rest := by
          refine List.filter_eq_self.mpr fun v hv ↦ bne_iff_ne.mpr fun he ↦ hw ?_
          rw [hkey, ← he]
          exact List.mem_map_of_mem hv
        rw [if_pos hkey, List.filter_cons_of_neg (by simp [hkey]), hkeep]
      · rw [if_neg hkey, List.filter_cons_of_pos (by simp [hkey]), ih hrest,
          List.map_cons, handleOf]
  rw [h.handles]
  exact hall d.waits h.keys

theorem dropHandle_eq (h : d.Handled) (key : String) :
    d.dropHandle key
      = { d with handles := (d.othersThan key).map handleOf, waits := d.othersThan key } := by
  rw [dropHandle]
  by_cases hkey : key ∈ d.waits.map Wait.key
  · obtain ⟨w, hw, rfl⟩ := List.mem_map.mp hkey
    rw [lookup_handles h hw rfl]
    simp only
    rw [erase_handles h, filter_ne_eq_filter_ne h.numbers h.keys hw, othersThan]
  · have hnone : d.handles.lookup key = none := by
      rw [← Option.not_isSome_iff_eq_none, Ordered.isSome_lookup_iff, h.handles, List.map_map]
      exact hkey
    have hothers : d.othersThan key = d.waits := by
      refine List.filter_eq_self.mpr fun w hw ↦ bne_iff_ne.mpr fun he ↦ hkey ?_
      exact List.mem_map.mpr ⟨w, hw, he⟩
    rw [hnone, hothers, ← h.handles]

theorem mem_othersThan {key : String} {w : Wait τ} :
    w ∈ d.othersThan key ↔ w ∈ d.waits ∧ w.key ≠ key := by
  rw [othersThan, List.mem_filter, bne_iff_ne]

theorem notMem_keys_othersThan (d : Dispatcher τ ρ) (key : String) :
    key ∉ (d.othersThan key).map Wait.key := by
  intro hmem
  obtain ⟨w, hw, hkey⟩ := List.mem_map.mp hmem
  exact (mem_othersThan.mp hw).2 hkey

/-- The tables without what waits for a key. -/
theorem Waiting.without (h : d.Waiting) (key : String) :
    Waiting { d with
      handles := (d.othersThan key).map handleOf
      waits := d.othersThan key
      waiters := Ordered.erase key d.waiters } where
  handles := rfl
  keys := (List.filter_sublist.map _).nodup h.keys
  numbers := (List.filter_sublist.map _).nodup h.numbers
  lt w hw := h.lt w (mem_othersThan.mp hw).1
  due w hw := h.due w (mem_othersThan.mp hw).1
  waiterKeys := Ordered.nodup_map_fst_erase h.waiterKeys key
  mem_iff other := by
    simp only
    by_cases hother : other = key
    · rw [hother, ← Ordered.isSome_lookup_iff, Ordered.lookup_erase_self h.waiterKeys]
      simp [notMem_keys_othersThan]
    · rw [← Ordered.isSome_lookup_iff, Ordered.lookup_erase_of_ne hother,
        Ordered.isSome_lookup_iff, h.mem_iff]
      simp only [List.mem_map, mem_othersThan]
      constructor
      · rintro ⟨w, hw, rfl⟩
        exact ⟨w, ⟨hw, hother⟩, rfl⟩
      · rintro ⟨w, ⟨hw, -⟩, rfl⟩
        exact ⟨w, hw, rfl⟩
  last w hw := by
    obtain ⟨hw, hne⟩ := mem_othersThan.mp hw
    simp only [Ordered.lookup_erase_of_ne hne]
    exact h.last w hw

/-! ## Moves -/

theorem request_eq (h : d.Waiting) (key : String) (task : τ) :
    d.request key task =
      { d with
        made := d.made + 1
        waiters := Ordered.push key d.made d.waiters
        handles := (d.othersThan key).map handleOf ++ [(key, d.made)]
        waits := d.othersThan key ++ [⟨d.made, key, task, d.now + d.delay⟩] } := by
  have hdrop := dropHandle_eq
    (d := { d with made := d.made + 1, waiters := Ordered.push key d.made d.waiters })
    ⟨h.handles, h.keys, h.numbers⟩ key
  have hkey : key ∉ ((d.othersThan key).map handleOf).map Prod.fst := by
    rw [List.map_map]
    exact notMem_keys_othersThan d key
  rw [request, hdrop]
  simp only [othersThan] at hkey ⊢
  rw [Ordered.put_of_notMem hkey]

theorem cancel_eq (h : d.Handled) (key : String) :
    d.cancel key =
      settleAll
        { d with
          handles := (d.othersThan key).map handleOf
          waits := d.othersThan key
          waiters := Ordered.erase key d.waiters }
        ((d.waiters.lookup key).getD []) .cancelled := by
  rw [cancel, dropHandle_eq h]

/-- If the end of a wait does anything, it is the wait of a key that is over now, and a run is
launched that answers all requests waiting for the key. -/
theorem endWait_cases (h : d.Waiting) (number : Nat) :
    d.endWait number = d ∧ (∀ w ∈ d.waits, w.number = number → d.now < w.due) ∨
      ∃ w ∈ d.waits, ∃ earlier, w.number = number ∧ w.due = d.now ∧
        d.waiters.lookup w.key = some (earlier ++ [number]) ∧
        d.endWait number =
          note
            { d with
              handles := (d.othersThan w.key).map handleOf
              waits := d.othersThan w.key
              waiters := Ordered.erase w.key d.waiters
              launched := d.launched ++ [⟨number, w.key, w.task, earlier ++ [number]⟩] }
            (.launched ⟨number, w.key, w.task, earlier ++ [number]⟩) := by
  rw [endWait]
  cases hfind : d.waits.find? (·.number == number) with
  | none =>
    refine .inl ⟨rfl, fun w hw hnumber ↦ ?_⟩
    have hnone := List.find?_eq_none.mp hfind w hw
    simp [hnumber] at hnone
  | some w =>
    have hw := List.mem_of_find?_eq_some hfind
    have hnumber : w.number = number := by simpa using List.find?_some hfind
    simp only
    split
    · next hdue =>
      obtain ⟨earlier, hlookup⟩ := h.last w hw
      refine .inr ⟨w, hw, earlier, hnumber, Nat.le_antisymm hdue (h.due w hw),
        hnumber ▸ hlookup, ?_⟩
      rw [hlookup, Option.getD_some, erase_handles h.toHandled, ← hnumber,
        filter_ne_eq_filter_ne h.numbers h.keys hw, othersThan]
    · next hdue =>
      refine .inl ⟨rfl, fun v hv hnumber' ↦ ?_⟩
      rw [List.inj_on_of_nodup_map h.numbers hv hw (hnumber'.trans hnumber.symm)]
      exact Nat.lt_of_not_le hdue

theorem Waiting.request (h : d.Waiting) (key : String) (task : τ) :
    (d.request key task).Waiting := by
  have hwithout := h.without key
  rw [request_eq h]
  have hfresh : ∀ w ∈ d.othersThan key, w.number < d.made := hwithout.lt
  refine ⟨⟨?_, ?_, ?_⟩, ?_, ?_, ?_, ?_, ?_⟩
  · rw [List.map_append]
    rfl
  · rw [List.map_append]
    refine hwithout.keys.append (List.nodup_singleton _) ?_
    exact List.disjoint_singleton.mpr (notMem_keys_othersThan d key)
  · rw [List.map_append]
    refine hwithout.numbers.append (List.nodup_singleton _) (List.disjoint_singleton.mpr
      fun hmem ↦ ?_)
    obtain ⟨w, hw, hnumber⟩ := List.mem_map.mp hmem
    exact absurd hnumber (Nat.ne_of_lt (hfresh w hw))
  · intro w hw
    rcases List.mem_append.mp hw with hw | hw
    · exact Nat.lt_succ_of_lt (hfresh w hw)
    · rw [List.mem_singleton.mp hw]
      exact Nat.lt_succ_self _
  · intro w hw
    rcases List.mem_append.mp hw with hw | hw
    · exact hwithout.due w hw
    · rw [List.mem_singleton.mp hw]
      exact Nat.le_add_right _ _
  · exact Ordered.nodup_map_fst_put h.waiterKeys _ _
  · intro other
    have hothers := hwithout.mem_iff other
    simp only [List.map_append, List.mem_append, List.map_cons, List.map_nil, List.mem_singleton]
    by_cases hother : other = key
    · rw [hother, ← Ordered.isSome_lookup_iff, Ordered.push, Ordered.lookup_put_self]
      simp
    · rw [← hothers, ← Ordered.isSome_lookup_iff, Ordered.push, Ordered.lookup_put_of_ne hother,
        ← Ordered.isSome_lookup_iff, Ordered.lookup_erase_of_ne hother]
      simp [hother]
  · intro w hw
    rcases List.mem_append.mp hw with hw | hw
    · obtain ⟨hmem, hne⟩ := mem_othersThan.mp hw
      simp only [Ordered.push, Ordered.lookup_put_of_ne hne]
      exact h.last w hmem
    · rw [List.mem_singleton.mp hw]
      exact ⟨_, Ordered.lookup_put_self _ _ _⟩

theorem Waiting.cancel (h : d.Waiting) (key : String) : (d.cancel key).Waiting := by
  rw [cancel_eq h.toHandled]
  exact (h.without key).of_same (sameWaiting_settleAll _ _ _)

theorem Waiting.close (h : d.Waiting) : d.close.Waiting := by
  rw [Dispatcher.close]
  generalize d.handles.map Prod.fst = keys
  induction keys generalizing d with
  | nil => exact h
  | cons key rest ih => exact ih (h.cancel key)

theorem Waiting.pass (h : d.Waiting) (time : Nat) : (d.pass time).Waiting := by
  rw [Dispatcher.pass]
  split
  · next hall =>
    rw [List.all_eq_true] at hall
    refine ⟨⟨h.handles, h.keys, h.numbers⟩, h.lt, fun w hw ↦ ?_, h.waiterKeys, h.mem_iff, h.last⟩
    exact Nat.max_le.mpr ⟨h.due w hw, of_decide_eq_true (hall w hw)⟩
  · exact h

theorem Waiting.endWait (h : d.Waiting) (number : Nat) : (d.endWait number).Waiting := by
  obtain ⟨hsame, -⟩ | ⟨w, hw, earlier, -, -, -, heq⟩ := endWait_cases h number
  · rwa [hsame]
  · rw [heq]
    exact (h.without w.key).of_same ⟨rfl, rfl, rfl, rfl, rfl⟩

/-! ### Moves of runs -/

theorem sameWaiting_retain (d : Dispatcher τ ρ) (key : String) :
    SameWaiting d ((d.provideGate key).retain key) := by
  rw [retain, provideGate]
  split <;> exact ⟨rfl, rfl, rfl, rfl, rfl⟩

theorem sameWaiting_arrive (d : Dispatcher τ ρ) (run : Run τ) (number : Nat) :
    SameWaiting d (d.arrive run number) := by
  rw [arrive]
  simp only
  split <;> exact ⟨rfl, rfl, rfl, rfl, rfl⟩

theorem sameWaiting_enter (d : Dispatcher τ ρ) : SameWaiting d d.enter := by
  rw [enter]
  split
  · next run launched _ =>
    have hlaunched : SameWaiting d { d with launched } := ⟨rfl, rfl, rfl, rfl, rfl⟩
    have hretain := hlaunched.trans (sameWaiting_retain _ run.key)
    simp only
    split
    · exact hretain.trans (sameWaiting_arrive _ _ _)
    · exact hretain
  · exact .refl d

theorem sameWaiting_wake (d : Dispatcher τ ρ) (number : Nat) : SameWaiting d (d.wake number) := by
  rw [wake]
  simp only
  split
  · split <;> exact ⟨rfl, rfl, rfl, rfl, rfl⟩
  · exact .refl d

theorem sameWaiting_finish (d : Dispatcher τ ρ) (number : Nat) (ending : Ending ρ) :
    SameWaiting d (d.finish number ending) := by
  rw [finish]
  split
  · refine .trans ?_ (sameWaiting_answer _ _ _)
    rw [release]
    split <;> exact ⟨rfl, rfl, rfl, rfl, rfl⟩
  · exact .refl d

theorem sameWaiting_abandon (d : Dispatcher τ ρ) (number : Nat) :
    SameWaiting d (d.abandon number) := by
  rw [abandon]
  split
  · rw [settle]
    split <;> exact ⟨rfl, rfl, rfl, rfl, rfl⟩
  · exact .refl d

theorem Waiting.move (h : d.Waiting) (move : Move τ ρ) : (d.move move).Waiting := by
  cases move with
  | request key task => exact h.request key task
  | cancel key => exact h.cancel key
  | close => exact h.close
  | abandon number => exact h.of_same (sameWaiting_abandon d number)
  | setDelay delay => exact h.of_same ⟨rfl, rfl, rfl, rfl, rfl⟩
  | pass time => exact h.pass time
  | endWait number => exact h.endWait number
  | enter => exact h.of_same (sameWaiting_enter d)
  | wake gate => exact h.of_same (sameWaiting_wake d gate)
  | finish number ending => exact h.of_same (sameWaiting_finish d number ending)

end Dispatcher

end MissionIndex.Schedule
