import Mathlib.Logic.Relation
import MissionIndex.Proofs.Schedule.Gates

/-!
# A dispatcher does what a coordinator asks for

A coordinator keeps whole bursts and whole lines, in one table each. A dispatcher keeps handles,
waits, requests, gates, counts and visits apart. As long as no caller gives up a request and no task
is cancelled, whatever a dispatcher goes through is a way that a coordinator can go
(`exists_reaches_follow`): the requests that wait with a wait are a burst, a run is the burst that
it answers, and the visits for a key are its line (`Mirrors`).

Time, and the question whether a gate is held or free, are the dispatcher's own: where only these
change, the coordinator stands still. A dispatcher that is closed is mirrored by one cancellation
after another.
-/

namespace MissionIndex.Schedule

variable {τ ρ : Type}

def Burst.toRun (burst : Burst τ) : Run τ where
  number := burst.last.number
  key := burst.last.key
  task := burst.last.task
  answers := burst.members.map Request.number

namespace Coordinator

/-- What can happen to a coordinator. -/
inductive Step : Coordinator τ ρ → Coordinator τ ρ → Prop
  | request {c : Coordinator τ ρ} (key : String) (task : τ) : Step c (c.request key task)
  | cancel {c : Coordinator τ ρ} (key : String) : Step c (c.cancel key)
  | endWait {c : Coordinator τ ρ} (key : String) (number : Nat) : Step c (c.endWait key number).1
  | enter {c : Coordinator τ ρ} {burst : Burst τ} : burst ∈ c.launched → Step c (c.enter burst).1
  | finish {c : Coordinator τ ρ} (key : String) (result : Option ρ) : Step c (c.finish key result).1

/-- What a coordinator can become in any number of steps. -/
abbrev Reaches : Coordinator τ ρ → Coordinator τ ρ → Prop := Relation.ReflTransGen Step

def lineFor (c : Coordinator τ ρ) (key : String) : List (Burst τ) :=
  match c.locks.lookup key with
  | some lock => lock.holder :: lock.waiting
  | none => []

theorem lineFor_put (c : Coordinator τ ρ) {c' : Coordinator τ ρ} {key : String} {lock : Lock τ}
    (h : c'.locks = Ordered.put key lock c.locks) (other : String) :
    c'.lineFor other = if other = key then lock.holder :: lock.waiting else c.lineFor other := by
  rw [lineFor, h]
  by_cases hother : other = key
  · rw [if_pos hother, hother, Ordered.lookup_put_self]
  · rw [if_neg hother, Ordered.lookup_put_of_ne hother, lineFor]

theorem lineFor_enter (c : Coordinator τ ρ) (burst : Burst τ) (key : String) :
    (c.enter burst).1.lineFor key = c.lineFor key ++ if burst.last.key = key then [burst]
      else [] := by
  rw [enter]
  cases hlock : c.locks.lookup burst.last.key with
  | none =>
    simp only
    rw [c.lineFor_put rfl]
    by_cases hkey : key = burst.last.key
    · rw [if_pos hkey, if_pos hkey.symm, lineFor, hkey, hlock, List.nil_append]
    · rw [if_neg hkey, if_neg (Ne.symm hkey), List.append_nil]
  | some lock =>
    simp only
    rw [c.lineFor_put rfl]
    by_cases hkey : key = burst.last.key
    · rw [if_pos hkey, if_pos hkey.symm, lineFor, hkey, hlock, List.cons_append]
    · rw [if_neg hkey, if_neg (Ne.symm hkey), List.append_nil]

theorem enter_spec (c : Coordinator τ ρ) (burst : Burst τ) :
    (c.enter burst).1.made = c.made ∧ (c.enter burst).1.pending = c.pending ∧
      (c.enter burst).1.settled = c.settled ∧
      (c.enter burst).1.launched = c.launched.filter (·.last.number != burst.last.number) ∧
      ((c.locks.map Prod.fst).Nodup → ((c.enter burst).1.locks.map Prod.fst).Nodup) := by
  rw [enter]
  split
  · exact ⟨rfl, rfl, rfl, rfl, fun hkeys ↦ Ordered.nodup_map_fst_put hkeys _ _⟩
  · exact ⟨rfl, rfl, rfl, rfl, fun hkeys ↦ Ordered.nodup_map_fst_put hkeys _ _⟩

/-- The end of a run takes the first out of its line, and settles its requests. -/
theorem finish_of_lineFor {c : Coordinator τ ρ} (hkeys : (c.locks.map Prod.fst).Nodup)
    {key : String} {first : Burst τ} {rest : List (Burst τ)} (hline : c.lineFor key = first :: rest)
    (result : Option ρ) :
    ∃ locks, (locks.map Prod.fst).Nodup ∧
      (c.finish key result).1 = { c with locks }.settle first (.done result) ∧
      ∀ other, { c with locks }.lineFor other = if other = key then rest else c.lineFor other := by
  rw [lineFor] at hline
  cases hlock : c.locks.lookup key with
  | none =>
    rw [hlock] at hline
    cases hline
  | some lock =>
    rw [hlock] at hline
    obtain ⟨rfl, rfl⟩ := List.cons.inj hline
    rw [finish, hlock]
    cases hwaiting : lock.waiting with
    | nil =>
      refine ⟨Ordered.erase key c.locks, Ordered.nodup_map_fst_erase hkeys key, ?_, fun other ↦ ?_⟩
      · simp only [hwaiting]
        rfl
      · rw [lineFor]
        by_cases hother : other = key
        · rw [if_pos hother, hother, Ordered.lookup_erase_self hkeys]
        · rw [if_neg hother, Ordered.lookup_erase_of_ne hother, lineFor]
    | cons next waiting =>
      refine ⟨Ordered.put key { holder := next, waiting } c.locks,
        Ordered.nodup_map_fst_put hkeys _ _, ?_, ?_⟩
      · simp only [hwaiting]
        rfl
      · intro other
        rw [c.lineFor_put rfl]

end Coordinator

namespace Dispatcher

theorem map_run_line (d : Dispatcher τ ρ) (key : String) :
    (d.line key).map Visit.run = runsFor key (d.visits.map Visit.run) := by
  rw [line, runsFor, List.filter_map]
  rfl

/-- The numbers of the requests of a burst. -/
abbrev numbersOf (e : String × Burst τ) : String × List Nat := (e.1, e.2.members.map Request.number)

/-- A coordinator keeps the same as a dispatcher. -/
structure Mirrors (c : Coordinator τ ρ) (d : Dispatcher τ ρ) : Prop where
  made : c.made = d.made
  waiters : c.pending.map numbersOf = d.waiters
  waits : ∀ w ∈ d.waits, ∃ burst, c.pending.lookup w.key = some burst ∧
    burst.last = ⟨w.number, w.key, w.task⟩
  launched : c.launched.map Burst.toRun = d.launched
  line : ∀ key, (c.lineFor key).map Burst.toRun = (d.line key).map Visit.run
  lockKeys : (c.locks.map Prod.fst).Nodup
  settled : c.settled.map (fun e ↦ (e.1.number, e.2)) = d.settled
  /-- No caller has given up a request. -/
  abandoned : d.abandoned = []

theorem mirrors_empty : Mirrors ({} : Coordinator τ ρ) {} :=
  ⟨rfl, rfl, nofun, rfl, fun _ ↦ rfl, .nil, rfl, rfl⟩

variable {c : Coordinator τ ρ} {d d' : Dispatcher τ ρ}

namespace Mirrors

variable (h : Mirrors c d)

include h

theorem lookup_waiters (key : String) :
    d.waiters.lookup key = (c.pending.lookup key).map fun burst ↦
      burst.members.map Request.number := by
  rw [← h.waiters]
  exact Ordered.lookup_map_snd (fun burst : Burst τ ↦ burst.members.map Request.number)
    c.pending key

theorem waiters_erase (key : String) :
    (Ordered.erase key c.pending).map numbersOf = Ordered.erase key d.waiters := by
  rw [← h.waiters]
  exact Ordered.map_snd_erase (fun burst : Burst τ ↦ burst.members.map Request.number) key c.pending

theorem waits_erase {key : String} {w : Wait τ} (hw : w ∈ d.othersThan key) :
    ∃ burst, (Ordered.erase key c.pending).lookup w.key = some burst ∧
    burst.last = ⟨w.number, w.key, w.task⟩ := by
  obtain ⟨hmem, hne⟩ := mem_othersThan.mp hw
  rw [Ordered.lookup_erase_of_ne hne]
  exact h.waits w hmem

theorem settle {burst : Burst τ} (hnodup : (burst.members.map Request.number).Nodup)
    (hnumbers : ∀ n ∈ burst.members.map Request.number, ¬ d.isSettled n = true)
    (outcome : Settled ρ) :
    Mirrors (c.settle burst outcome) (d.settleAll (burst.members.map Request.number) outcome) := by
  have hall := settled_settleAll d hnodup outcome
  rw [List.filter_eq_self.mpr fun n hn ↦ by simpa using hnumbers n hn] at hall
  obtain ⟨settled, hsame⟩ := settleAll_eq d (burst.members.map Request.number) outcome
  rw [hsame] at hall ⊢
  refine ⟨h.made, h.waiters, h.waits, h.launched, h.line, h.lockKeys, ?_, h.abandoned⟩
  rw [hall, ← h.settled, List.map_map]
  refine List.map_append.trans (congrArg _ ?_)
  rw [List.map_map]
  rfl

theorem request (hwaiting : d.Waiting) (key : String) (task : τ) :
    Mirrors (c.request key task) (d.request key task) := by
  have hlookup := h.lookup_waiters key
  rw [request_eq hwaiting]
  refine ⟨?_, ?_, ?_, h.launched, h.line, h.lockKeys, h.settled, h.abandoned⟩
  · rw [Coordinator.request, h.made]
  · rw [Coordinator.request, Ordered.push, hlookup, ← h.waiters, ← h.made]
    refine (Ordered.map_snd_put (fun burst : Burst τ ↦ burst.members.map Request.number) key _
      c.pending).trans ?_
    refine congrArg (Ordered.put key · _) ?_
    cases c.pending.lookup key with
    | none => rfl
    | some burst => exact List.map_append
  · intro w hw
    rw [Coordinator.request, h.made]
    rcases List.mem_append.mp hw with hw | hw
    · obtain ⟨hmem, hne⟩ := mem_othersThan.mp hw
      simp only [Ordered.lookup_put_of_ne hne]
      exact h.waits w hmem
    · rw [List.mem_singleton.mp hw]
      exact ⟨_, Ordered.lookup_put_self _ _ _, rfl⟩

theorem cancel (hd : d.Sound) (key : String) : Mirrors (c.cancel key) (d.cancel key) := by
  have hlookup := h.lookup_waiters key
  rw [cancel_eq hd.waiting.toHandled, Coordinator.cancel]
  cases hburst : c.pending.lookup key with
  | none =>
    rw [hlookup, hburst]
    refine ⟨h.made, ?_, ?_, h.launched, h.line, h.lockKeys, h.settled, h.abandoned⟩
    · rw [← Ordered.erase_of_lookup_eq_none hburst]
      exact h.waiters_erase key
    · exact fun w hw ↦ h.waits w (mem_othersThan.mp hw).1
  | some burst =>
    rw [hburst, Option.map_some] at hlookup
    have hplaces : ∀ n ∈ burst.members.map Request.number, n ∈ d.places := fun n hn ↦
      List.mem_append_left _ (List.mem_flatMap.mpr ⟨_, Ordered.mem_of_lookup hlookup, hn⟩)
    have hnodup : (burst.members.map Request.number).Nodup :=
      hd.accounts.nodup_waiters hlookup
    rw [hlookup, Option.getD_some]
    apply Mirrors.settle
    · exact ⟨h.made, h.waiters_erase key, fun w hw ↦ h.waits_erase hw, h.launched, h.line,
        h.lockKeys, h.settled, h.abandoned⟩
    · exact hnodup
    · exact fun n hn ↦ hd.accounts.not_isSettled h.abandoned (hplaces n hn)

theorem close (hd : d.Sound) : ∃ c', Coordinator.Reaches c c' ∧ Mirrors c' d.close := by
  rw [Dispatcher.close]
  generalize d.handles.map Prod.fst = keys
  induction keys generalizing c d with
  | nil => exact ⟨c, .refl, h⟩
  | cons key rest ih =>
    obtain ⟨c', hreaches, h'⟩ := ih (h.cancel hd key) (hd.move (.cancel key))
    exact ⟨c', .head (.cancel key) hreaches, h'⟩

theorem endWait (hwaiting : d.Waiting) (number : Nat) :
    ∃ c', Coordinator.Reaches c c' ∧ Mirrors c' (d.endWait number) := by
  obtain ⟨hsame, -⟩ | ⟨w, hw, earlier, hnumber, -, hwaiters, heq⟩ := endWait_cases hwaiting number
  · rw [hsame]
    exact ⟨c, .refl, h⟩
  · refine ⟨_, .single (.endWait w.key number), ?_⟩
    obtain ⟨burst, hburst, hlast⟩ := h.waits w hw
    rw [h.lookup_waiters, hburst, Option.map_some] at hwaiters
    have hrun : burst.toRun = ⟨number, w.key, w.task, earlier ++ [number]⟩ := by
      rw [Burst.toRun, hlast, Option.some.inj hwaiters, hnumber]
    have hstep : (c.endWait w.key number).1
        = { c with
            pending := Ordered.erase w.key c.pending,
            launched := c.launched ++ [burst] } := by
      rw [Coordinator.endWait, hburst]
      simp only [hlast, hnumber, if_true]
    rw [heq, hstep]
    refine ⟨h.made, h.waiters_erase w.key, fun v hv ↦ h.waits_erase hv, ?_, h.line,
      h.lockKeys, h.settled, h.abandoned⟩
    rw [List.map_append, h.launched, List.map_singleton, hrun]
    rfl

theorem of_runs {c' : Coordinator τ ρ} (hwaiting : SameWaiting d d') (hsettled : SameSettled d d')
    (hmade : c'.made = c.made) (hpending : c'.pending = c.pending)
    (hsettled' : c'.settled = c.settled) (hlaunched : c'.launched.map Burst.toRun = d'.launched)
    (hline : ∀ key, (c'.lineFor key).map Burst.toRun = runsFor key (d'.visits.map Visit.run))
    (hkeys : (c'.locks.map Prod.fst).Nodup) : Mirrors c' d' := by
  refine ⟨?_, ?_, ?_, hlaunched, fun key ↦ (hline key).trans (d'.map_run_line key).symm,
    hkeys, ?_, ?_⟩
  · rw [hmade, hwaiting.made, h.made]
  · rw [hpending, hwaiting.waiters, h.waiters]
  · rw [hpending, hwaiting.waits]
    exact h.waits
  · rw [hsettled', hsettled.settled, h.settled]
  · rw [hsettled.abandoned, h.abandoned]

theorem lineFor_eq (key : String) :
    (c.lineFor key).map Burst.toRun = runsFor key (d.visits.map Visit.run) :=
  (h.line key).trans (d.map_run_line key)

/-- A run that goes to its gate is a burst that gets in line. -/
theorem enter (hd : d.Sound) : ∃ c', Coordinator.Reaches c c' ∧ Mirrors c' d.enter := by
  obtain ⟨-, hsame⟩ | ⟨run, launched, hlaunched, hcases⟩ := enter_cases hd.gated
  · rw [hsame]
    exact ⟨c, .refl, h⟩
  · have hboth := h.launched
    rw [hlaunched] at hboth
    obtain ⟨burst, rest, hc, rfl, hrest⟩ := List.map_eq_cons_iff.mp hboth
    refine ⟨_, .single (.enter (hc ▸ List.mem_cons_self)), ?_⟩
    obtain ⟨hmade, hpending, hsettled, hfilter, hkeys⟩ := c.enter_spec burst
    obtain ⟨hlaunched', hvisits⟩ : d.enter.launched = launched ∧
        d.enter.visits.map Visit.run = d.visits.map Visit.run ++ [burst.toRun] := by
      obtain ⟨number, -, heq⟩ | ⟨-, heq⟩ := hcases
      · rw [heq]
        exact ⟨rfl, List.map_append⟩
      · rw [heq]
        exact ⟨rfl, List.map_append⟩
    refine h.of_runs (sameWaiting_enter d) (inProgress_enter d).2 hmade hpending hsettled ?_
      (fun key ↦ ?_)
      (hkeys h.lockKeys)
    · -- No other burst launched has the number of this one.
      have hnodup : ((burst :: rest).map fun b : Burst τ ↦ b.toRun.number).Nodup := by
        have hnumbers := hd.accounts.nodup_numbers
        rw [inProgress, List.map_append, hlaunched, ← hrest, ← List.map_cons, List.map_map]
          at hnumbers
        exact hnumbers.of_append_left
      have hkeep : rest.filter (·.last.number != burst.last.number) = rest := by
        refine List.filter_eq_self.mpr fun b hb ↦ bne_iff_ne.mpr fun he ↦ ?_
        exact (List.nodup_cons.mp hnodup).1 (List.mem_map.mpr ⟨b, hb, he⟩)
      rw [hfilter, hc, List.filter_cons_of_neg (by simp), hkeep, hrest, hlaunched']
    · rw [Coordinator.lineFor_enter, hvisits, List.map_append, runsFor_append, h.lineFor_eq,
        runsFor_singleton]
      refine congrArg _ ?_
      have hkey : burst.toRun.key = burst.last.key := rfl
      rw [hkey]
      split <;> rfl

theorem wake (hd : d.Sound) (gate : Nat) : Mirrors c (d.wake gate) := by
  obtain ⟨hruns, hsettled⟩ := inProgress_wake d gate
  have hlaunched : (d.wake gate).launched = d.launched := by
    obtain ⟨hsame, -⟩ | ⟨before, v, after, -, -, -, -, heq⟩ :=
      wake_cases hd.gated hd.accounts.nodup_visits gate
    · rw [hsame]
    · rw [heq]
      rfl
  rw [inProgress, inProgress, hlaunched, List.append_cancel_left_eq] at hruns
  refine h.of_runs (sameWaiting_wake d gate) hsettled rfl rfl rfl ?_ (fun key ↦ ?_) h.lockKeys
  · rw [hlaunched, h.launched]
  · rw [hruns, h.lineFor_eq]

/-- A run that ends is the burst at the front of its line. -/
theorem finish (hd : d.Sound) (number : Nat) (result : Option ρ) :
    ∃ c', Coordinator.Reaches c c' ∧ Mirrors c' (d.finish number (.returned result)) := by
  obtain ⟨hsame, -⟩ | ⟨before, v, after, hvisits, -, hrunning, heq⟩ :=
    finish_cases hd.accounts number (.returned result)
  · rw [hsame]
    exact ⟨c, .refl, h⟩
  · refine ⟨_, .single (.finish v.run.key result), ?_⟩
    have hbefore := (hd.gated.eq_head hvisits hrunning).1
    have hfront := h.line v.run.key
    rw [line_eq hvisits, hbefore, List.nil_append, List.map_cons] at hfront
    obtain ⟨first, rest, hline, hfirst, hrest⟩ := List.map_eq_cons_iff.mp hfront
    obtain ⟨locks, hkeys, hstep, hlines⟩ := Coordinator.finish_of_lineFor h.lockKeys hline result
    have hanswers : v.run.answers = first.members.map Request.number := by
      rw [← hfirst]
      rfl
    have hmem : v.run ∈ d.inProgress :=
      List.mem_append_right _ (List.mem_map_of_mem
        (hvisits ▸ List.mem_append_right _ List.mem_cons_self))
    have hplaces : ∀ n ∈ first.members.map Request.number, n ∈ d.places := fun n hn ↦
      List.mem_append_right _
        (List.mem_append_left _ (List.mem_flatMap.mpr ⟨v.run, hmem, hanswers ▸ hn⟩))
    have hnodup : (first.members.map Request.number).Nodup :=
      hanswers ▸ hd.accounts.nodup_answers hmem
    obtain ⟨users, gateOf, hrelease⟩ := release_eq (note
      { d with
        gates := d.gates.set v.gate { d.gateAt v.gate with isHeld := false }
        visits := before ++ after } (.ended v.run (.returned result))) v.run.key
    rw [heq, hrelease, hstep, answer, hanswers]
    apply Mirrors.settle
    · refine ⟨h.made, h.waiters, h.waits, h.launched, fun key ↦ ?_, hkeys, h.settled, h.abandoned⟩
      refine (congrArg (List.map Burst.toRun) (hlines key)).trans ?_
      rw [Dispatcher.line]
      simp only [note, List.filter_append]
      by_cases hkey : key = v.run.key
      · rw [if_pos hkey, hkey, hbefore, List.nil_append]
        exact hrest
      · rw [if_neg hkey, h.line, Dispatcher.line, hvisits, List.filter_append,
          List.filter_cons_of_neg]
        simpa using Ne.symm hkey
    · exact hnodup
    · exact fun n hn ↦ hd.accounts.not_isSettled h.abandoned (hplaces n hn)

/-- Each move of a dispatcher by which no request is given up and no task is cancelled is mirrored
by steps of a coordinator. -/
theorem move (hd : d.Sound) (move : Move τ ρ) (hmove : ∀ number, move ≠ .abandon number)
    (hreturns : ∀ number, move ≠ .finish number .cancelled) :
    ∃ c', Coordinator.Reaches c c' ∧ Mirrors c' (d.move move) := by
  cases move with
  | request key task => exact ⟨_, .single (.request key task), h.request hd.waiting key task⟩
  | cancel key => exact ⟨_, .single (.cancel key), h.cancel hd key⟩
  | close => exact h.close hd
  | abandon number => exact absurd rfl (hmove number)
  | setDelay delay =>
    exact ⟨c, .refl, h.made, h.waiters, h.waits, h.launched, h.line, h.lockKeys, h.settled,
      h.abandoned⟩
  | pass time =>
    refine ⟨c, .refl, ?_⟩
    rw [Dispatcher.move, pass]
    split
    · exact ⟨h.made, h.waiters, h.waits, h.launched, h.line, h.lockKeys, h.settled, h.abandoned⟩
    · exact h
  | endWait number => exact h.endWait hd.waiting number
  | enter => exact h.enter hd
  | wake gate => exact ⟨c, .refl, h.wake hd gate⟩
  | finish number ending =>
    cases ending with
    | returned result => exact h.finish hd number result
    | cancelled => exact absurd rfl (hreturns number)

end Mirrors

/-- **Whatever a dispatcher goes through while no caller gives up a request and no task is cancelled
is a way that a coordinator can go**, and in the end the coordinator has the same requests waiting,
the same runs launched and in line, and the same requests settled in the same order. -/
theorem exists_reaches_follow (moves : List (Move τ ρ)) (hmoves : ∀ number, .abandon number ∉ moves)
    (hreturns : ∀ number, .finish number .cancelled ∉ moves) :
    ∃ c : Coordinator τ ρ, Coordinator.Reaches {} c ∧ Mirrors c (follow moves) := by
  have hrun : ∀ (moves : List (Move τ ρ)) (c : Coordinator τ ρ) (d : Dispatcher τ ρ),
      Mirrors c d → d.Sound → (∀ number, .abandon number ∉ moves) →
      (∀ number, .finish number .cancelled ∉ moves) →
      ∃ c', Coordinator.Reaches c c' ∧ Mirrors c' (moves.foldl Dispatcher.move d) := by
    intro moves
    induction moves with
    | nil => exact fun c d h _ _ _ ↦ ⟨c, .refl, h⟩
    | cons move rest ih =>
      intro c d h hd hmoves hreturns
      obtain ⟨c', hreaches, h'⟩ := h.move hd move
        (fun number he ↦ hmoves number (he ▸ List.mem_cons_self))
        fun number he ↦ hreturns number (he ▸ List.mem_cons_self)
      obtain ⟨c'', hreaches', h''⟩ := ih c' _ h' (hd.move move)
        (fun number hmem ↦ hmoves number (List.mem_cons_of_mem move hmem))
        fun number hmem ↦ hreturns number (List.mem_cons_of_mem move hmem)
      exact ⟨c'', hreaches.trans hreaches', h''⟩
  exact hrun moves {} {} mirrors_empty sound_empty hmoves hreturns

end Dispatcher

end MissionIndex.Schedule
