import MissionIndex.Proofs.Schedule.Launching

/-!
# How requests are settled

A request waits with others for its key, then a run in progress answers it, and in the end it is
settled. There are three ways to be settled (`Settles`): the caller gives the request up, it is
cancelled with everything else that waits for its key, or the task of the run that answers it
returns. A move settles what waits for a key, or what a run answers, all together and with one
outcome, so nothing of a burst is left behind.

## Cancelled tasks

A task that is cancelled, since a request is that it awaits, ends its run as any other does: the run
leaves its gate. But the requests that the run answers are passed over. They are in no place any
more and nothing is left that would settle them (`unanswered_iff`, `unanswered_cancelled`).

## Whose run it is

The run that answers a request is its own or that of a request that came for the key while it waited
(`Succeeds`). From the request on this is so of the last in the list that the request stands in,
which a run takes over as it is.
-/

namespace MissionIndex.Schedule

namespace Dispatcher

variable {τ ρ : Type} {d d' : Dispatcher τ ρ}

def WaitsFor (d : Dispatcher τ ρ) (key : String) (n : Nat) : Prop :=
  ∃ numbers, d.waiters.lookup key = some numbers ∧ n ∈ numbers

/-- What a move has to be to settle a request with an outcome. -/
inductive Settles (d : Dispatcher τ ρ) (n : Nat) : Move τ ρ → Settled ρ → Prop
  | abandoned : n < d.made → Settles d n (.abandon n) .cancelled
  | cancelled {key : String} : d.WaitsFor key n → Settles d n (.cancel key) .cancelled
  | closed {key : String} : d.WaitsFor key n → Settles d n .close .cancelled
  | answered {v : Visit τ} {result : Option ρ} : v ∈ d.visits → v.isRunning = true →
      n ∈ v.run.answers → Settles d n (.finish v.run.number (.returned result)) (.done result)

/-! ## What a move settles -/

theorem mem_settledNumbers {n : Nat} :
    n ∈ d.settledNumbers ↔ ∃ outcome, (n, outcome) ∈ d.settled := by
  rw [settledNumbers, List.mem_map]
  constructor
  · rintro ⟨⟨n, outcome⟩, he, rfl⟩
    exact ⟨outcome, he⟩
  · rintro ⟨outcome, he⟩
    exact ⟨_, he, rfl⟩

/-- Requests are settled alike, those that have been settled before excepted. -/
theorem mem_settled_settleAll (d : Dispatcher τ ρ) {numbers : List Nat} (h : numbers.Nodup)
    (outcome : Settled ρ) (n : Nat) (o : Settled ρ) :
    (n, o) ∈ (d.settleAll numbers outcome).settled ↔
      (n, o) ∈ d.settled ∨ n ∉ d.settledNumbers ∧ n ∈ numbers ∧ o = outcome := by
  rw [settled_settleAll d h, List.mem_append, List.mem_map]
  refine or_congr_right ?_
  constructor
  · rintro ⟨m, hm, he⟩
    obtain ⟨rfl, rfl⟩ := Prod.mk.inj he
    obtain ⟨hm, hnot⟩ := List.mem_filter.mp hm
    rw [Bool.not_eq_true', ← Bool.not_eq_true, isSettled_iff] at hnot
    exact ⟨hnot, hm, rfl⟩
  · rintro ⟨hnot, hm, rfl⟩
    refine ⟨n, List.mem_filter.mpr ⟨hm, ?_⟩, rfl⟩
    rwa [Bool.not_eq_true', ← Bool.not_eq_true, isSettled_iff]

theorem mem_settled_cancel (h : d.Sound) (key : String) (n : Nat) (o : Settled ρ) :
    (n, o) ∈ (d.cancel key).settled ↔
      (n, o) ∈ d.settled ∨ n ∉ d.settledNumbers ∧ d.WaitsFor key n ∧ o = .cancelled := by
  have hnodup : ((d.waiters.lookup key).getD []).Nodup := by
    cases hlookup : d.waiters.lookup key with
    | none => exact .nil
    | some numbers => exact h.accounts.nodup_waiters hlookup
  have hmem : n ∈ (d.waiters.lookup key).getD [] ↔ d.WaitsFor key n := by
    cases hlookup : d.waiters.lookup key with
    | none => simp [WaitsFor, hlookup]
    | some numbers => simp [WaitsFor, hlookup]
  rw [cancel_eq h.waiting.toHandled, mem_settled_settleAll _ hnodup, hmem]
  rfl

theorem waitsFor_cancel (h : d.Waiting) (key other : String) (n : Nat) :
    (d.cancel key).WaitsFor other n ↔ other ≠ key ∧ d.WaitsFor other n := by
  rw [WaitsFor, cancel_eq h.toHandled, (sameWaiting_settleAll _ _ _).waiters]
  simp only
  by_cases hother : other = key
  · rw [hother, Ordered.lookup_erase_self h.waiterKeys]
    simp
  · rw [Ordered.lookup_erase_of_ne hother]
    simp [hother, WaitsFor]

theorem Sound.cancel (h : d.Sound) (key : String) : (d.cancel key).Sound := h.move (.cancel key)

theorem mem_settledNumbers_cancel (h : d.Sound) (key : String) (n : Nat) :
    n ∈ (d.cancel key).settledNumbers ↔ n ∈ d.settledNumbers ∨ d.WaitsFor key n := by
  simp only [mem_settledNumbers, mem_settled_cancel h]
  constructor
  · rintro ⟨outcome, hold | ⟨-, hwaits, -⟩⟩
    · exact .inl ⟨outcome, hold⟩
    · exact .inr hwaits
  · rintro (⟨outcome, hold⟩ | hwaits)
    · exact ⟨outcome, .inl hold⟩
    · by_cases hold : ∃ outcome, (n, outcome) ∈ d.settled
      · exact hold.imp fun _ ↦ .inl
      · exact ⟨.cancelled, .inr ⟨hold, hwaits, rfl⟩⟩

theorem mem_settled_cancels (h : d.Sound) (keys : List String) (n : Nat) (o : Settled ρ) :
    (n, o) ∈ (keys.foldl cancel d).settled ↔
      (n, o) ∈ d.settled ∨ n ∉ d.settledNumbers ∧ (∃ key ∈ keys, d.WaitsFor key n) ∧
      o = .cancelled := by
  induction keys generalizing d with
  | nil => simp
  | cons key rest ih =>
    rw [List.foldl_cons, ih (h.cancel key), mem_settled_cancel h,
      mem_settledNumbers_cancel h, not_or]
    simp only [waitsFor_cancel h.waiting, List.exists_mem_cons_iff]
    constructor
    · rintro ((hold | ⟨hnot, hwaits, ho⟩) | ⟨⟨hnot, -⟩, ⟨other, hother, -, hwaits⟩, ho⟩)
      · exact .inl hold
      · exact .inr ⟨hnot, .inl hwaits, ho⟩
      · exact .inr ⟨hnot, .inr ⟨other, hother, hwaits⟩, ho⟩
    · rintro (hold | ⟨hnot, hwaits, ho⟩)
      · exact .inl (.inl hold)
      · by_cases hkey : d.WaitsFor key n
        · exact .inl (.inr ⟨hnot, hkey, ho⟩)
        · obtain ⟨other, hother, hwaits⟩ := hwaits.resolve_left hkey
          exact .inr ⟨⟨hnot, hkey⟩, ⟨other, hother, fun he ↦ hkey (he ▸ hwaits), hwaits⟩, ho⟩

theorem isSome_handles_iff (h : d.Waiting) (key : String) :
    (d.handles.lookup key).isSome ↔ (d.waiters.lookup key).isSome := by
  rw [Ordered.isSome_lookup_iff, Ordered.isSome_lookup_iff, h.mem_iff, h.handles, List.map_map]
  rfl

theorem mem_handles_of_waitsFor (h : d.Waiting) {key : String} {n : Nat}
    (hwaits : d.WaitsFor key n) :
    key ∈ d.handles.map Prod.fst := by
  obtain ⟨numbers, hlookup, -⟩ := hwaits
  rw [← Ordered.isSome_lookup_iff, isSome_handles_iff h, hlookup]
  rfl

theorem mem_settled_abandon (d : Dispatcher τ ρ) (number n : Nat) (o : Settled ρ) :
    (n, o) ∈ (d.abandon number).settled ↔
      (n, o) ∈ d.settled ∨ n ∉ d.settledNumbers ∧ Settles d n (.abandon number) o := by
  obtain ⟨hsame, hold⟩ | ⟨hlt, hnot, heq⟩ := abandon_cases d number
  · rw [hsame]
    refine ⟨.inl, ?_⟩
    rintro (h | ⟨hnot, hlt | _⟩)
    · exact h
    · exact absurd (hold hlt) hnot
  · rw [heq, List.mem_append, List.mem_singleton, Prod.mk.injEq]
    refine or_congr_right ?_
    constructor
    · rintro ⟨rfl, rfl⟩
      exact ⟨hnot, .abandoned hlt⟩
    · rintro ⟨-, _ | _⟩
      exact ⟨rfl, rfl⟩

/-- The end of a task settles the requests that its run answers with the result, and none if it has
been cancelled. -/
theorem mem_settled_finish (h : d.Sound) (number : Nat) (ending : Ending ρ) (n : Nat)
    (o : Settled ρ) :
    (n, o) ∈ (d.finish number ending).settled ↔
      (n, o) ∈ d.settled ∨ n ∉ d.settledNumbers ∧ Settles d n (.finish number ending) o := by
  obtain ⟨hsame, hnone⟩ | ⟨before, v, after, hsplit, hnumber, hrunning, heq⟩ :=
    finish_cases h.accounts number ending
  · rw [hsame]
    refine ⟨.inl, fun hor ↦ hor.resolve_right ?_⟩
    rintro ⟨-, _ | _ | _ | ⟨hv, hrunning, -⟩⟩
    rw [hnone _ hv rfl] at hrunning
    cases hrunning
  · have hv : v ∈ d.visits := hsplit ▸ List.mem_append_right _ List.mem_cons_self
    have hrun : v.run ∈ d.inProgress := List.mem_append_right _ (List.mem_map_of_mem hv)
    rw [heq]
    generalize hleft : note _ _ = left
    obtain ⟨users, gateOf, hrelease⟩ := release_eq left v.run.key
    have hold : (left.release v.run.key).settled = d.settled := by rw [hrelease, ← hleft]; rfl
    cases ending with
    | returned result =>
      rw [answer, mem_settled_settleAll _ (h.accounts.nodup_answers hrun), settledNumbers, hold]
      refine or_congr_right (and_congr_right fun _ ↦ ?_)
      constructor
      · rintro ⟨hn, rfl⟩
        exact hnumber ▸ .answered hv hrunning hn
      · intro hsettles
        generalize hmove : Move.finish number (.returned result) = move at hsettles
        cases hsettles with
        | answered hu _ hn =>
          obtain ⟨rfl, hending⟩ := Move.finish.inj hmove
          obtain rfl := Ending.returned.inj hending
          obtain rfl := List.inj_on_of_nodup_map h.accounts.nodup_visits hv hu hnumber
          exact ⟨hn, rfl⟩
        | _ => cases hmove
    | cancelled =>
      refine ⟨fun hmem ↦ .inl (hold ▸ hmem), ?_⟩
      rintro (hmem | ⟨-, hsettles⟩)
      · exact hold.symm ▸ hmem
      · cases hsettles

/-- **A move settles what it has reason to settle**, and nothing else. -/
theorem mem_settled_move (h : d.Sound) (move : Move τ ρ) (n : Nat) (o : Settled ρ) :
    (n, o) ∈ (d.move move).settled ↔
      (n, o) ∈ d.settled ∨ n ∉ d.settledNumbers ∧ Settles d n move o := by
  have hkeep : (d.move move).settled = d.settled → ¬ Settles d n move o →
      ((n, o) ∈ (d.move move).settled ↔ (n, o) ∈ d.settled ∨ n ∉ d.settledNumbers ∧
        Settles d n move o) := by
    intro hsame hnot
    rw [hsame]
    simp [hnot]
  cases move with
  | request key task =>
    refine hkeep ?_ (by rintro ⟨⟩)
    rw [Dispatcher.move, request_eq h.waiting]
  | cancel key =>
    rw [Dispatcher.move, mem_settled_cancel h]
    refine or_congr_right (and_congr_right fun _ ↦ ?_)
    constructor
    · rintro ⟨hwaits, rfl⟩
      exact .cancelled hwaits
    · rintro (_ | hwaits)
      exact ⟨hwaits, rfl⟩
  | close =>
    rw [Dispatcher.move, close, mem_settled_cancels h]
    refine or_congr_right (and_congr_right fun _ ↦ ?_)
    constructor
    · rintro ⟨⟨key, -, hwaits⟩, rfl⟩
      exact .closed hwaits
    · rintro (_ | _ | hwaits)
      exact ⟨⟨_, mem_handles_of_waitsFor h.waiting hwaits, hwaits⟩, rfl⟩
  | abandon number => exact mem_settled_abandon d number n o
  | setDelay delay => exact hkeep rfl (by rintro ⟨⟩)
  | pass time =>
    refine hkeep ?_ (by rintro ⟨⟩)
    rw [Dispatcher.move, pass]
    split <;> rfl
  | endWait number =>
    refine hkeep ?_ (by rintro ⟨⟩)
    rw [Dispatcher.move]
    obtain ⟨hsame, -⟩ | ⟨w, -, earlier, -, -, -, heq⟩ := endWait_cases h.waiting number
    · rw [hsame]
    · rw [heq]
      rfl
  | enter => exact hkeep (inProgress_enter d).2.settled (by rintro ⟨⟩)
  | wake gate => exact hkeep (inProgress_wake d gate).2.settled (by rintro ⟨⟩)
  | finish number ending => exact mem_settled_finish h number ending n o

/-! ## What a move leaves without an answer -/

theorem log_finish (h : d.Sound) {v : Visit τ} (hv : v ∈ d.visits) (hrunning : v.isRunning = true)
    (ending : Ending ρ) :
    (d.finish v.run.number ending).log = d.log ++ [(d.now, .ended v.run ending)] := by
  obtain ⟨-, hnone⟩ | ⟨before, u, after, hsplit, hnumber, -, heq⟩ :=
    finish_cases h.accounts v.run.number ending
  · rw [hnone v hv rfl] at hrunning
    cases hrunning
  · obtain rfl := List.inj_on_of_nodup_map h.accounts.nodup_visits
      (hsplit ▸ List.mem_append_right _ List.mem_cons_self) hv hnumber
    obtain ⟨users, gateOf, hrelease⟩ := release_eq (note _ (.ended u.run ending)) u.run.key
    rw [heq, (sameRuns_answer _ _ _).log, hrelease]
    rfl

/-- A run is marked as ended when its task ends, and by no other move. -/
theorem ended_move_iff (h : d.Sound) (move : Move τ ρ) (time : Nat) (run : Run τ)
    (ending : Ending ρ) :
    (time, Mark.ended run ending) ∈ (d.move move).log ↔
      (time, Mark.ended run ending) ∈ d.log ∨ time = d.now ∧
        ∃ v ∈ d.visits, v.isRunning = true ∧ v.run = run ∧ move = .finish run.number ending := by
  constructor
  · intro hended
    obtain hsame | ⟨mark, hlog, -, hfinish⟩ := log_move h move
    · exact .inl (hsame ▸ hended)
    · rw [hlog] at hended
      rcases List.mem_append.mp hended with hended | hended
      · exact .inl hended
      · obtain ⟨rfl, hmark⟩ := Prod.mk.inj (List.mem_singleton.mp hended)
        exact .inr ⟨rfl, hfinish run ending hmark.symm⟩
  · rintro (hended | ⟨rfl, v, hv, hrunning, rfl, rfl⟩)
    · obtain hsame | ⟨mark, hlog, -, -⟩ := log_move h move
      · rwa [hsame]
      · exact hlog ▸ List.mem_append_left _ hended
    · rw [Dispatcher.move, log_finish h hv hrunning]
      exact List.mem_append_right _ (List.mem_singleton_self _)

theorem mem_unanswered {n : Nat} :
    n ∈ d.unanswered ↔ ∃ time run, (time, Mark.ended run .cancelled) ∈ d.log ∧ n ∈ run.answers := by
  rw [unanswered, List.mem_flatMap]
  constructor
  · rintro ⟨⟨time, mark⟩, hmark, hn⟩
    cases mark with
    | ended run ending =>
      cases ending with
      | cancelled => exact ⟨time, run, hmark, hn⟩
      | returned => cases hn
    | launched | started => cases hn
  · rintro ⟨time, run, hmark, hn⟩
    exact ⟨_, hmark, hn⟩

theorem mem_unanswered_move (h : d.Sound) (move : Move τ ρ) (n : Nat) :
    n ∈ (d.move move).unanswered ↔
      n ∈ d.unanswered ∨ ∃ v ∈ d.visits, v.isRunning = true ∧ n ∈ v.run.answers ∧
        move = .finish v.run.number .cancelled := by
  simp only [mem_unanswered, ended_move_iff h]
  constructor
  · rintro ⟨time, run, hold | ⟨-, v, hv, hrunning, rfl, hmove⟩, hn⟩
    · exact .inl ⟨time, run, hold, hn⟩
    · exact .inr ⟨v, hv, hrunning, hn, hmove⟩
  · rintro (⟨time, run, hold, hn⟩ | ⟨v, hv, hrunning, hn, hmove⟩)
    · exact ⟨time, run, .inl hold, hn⟩
    · exact ⟨d.now, v.run, .inr ⟨rfl, v, hv, hrunning, rfl, hmove⟩, hn⟩

/-! ## Whose run answers a request -/

/-- The last of the requests that stand with a request: it is the request itself, or has come for
the key while the request waited. -/
def Succeeds (before : List (Move τ ρ)) (key : String) (task : τ) (last : Nat)
    (after : List (Move τ ρ)) : Prop :=
  last = (follow before).made ∨
    Sometime (fun mid move ↦ (∃ task', move = .request key task') ∧
      (since before key task mid).made = last ∧
      (since before key task mid).WaitsFor key (follow before).made) after

theorem lookup_erase_waiters (h : d.Waiting) {key other : String} {numbers : List Nat}
    (hlookup : (Ordered.erase other d.waiters).lookup key = some numbers) :
    d.waiters.lookup key = some numbers := by
  by_cases hkey : key = other
  · rw [hkey, Ordered.lookup_erase_self h.waiterKeys] at hlookup
    cases hlookup
  · rwa [Ordered.lookup_erase_of_ne hkey] at hlookup

theorem lookup_waiters_cancels (h : d.Waiting) (keys : List String) {key : String}
    {numbers : List Nat} (hlookup : (keys.foldl cancel d).waiters.lookup key = some numbers) :
    d.waiters.lookup key = some numbers := by
  induction keys generalizing d with
  | nil => exact hlookup
  | cons other rest ih =>
    have hcancel := ih (h.cancel other) hlookup
    rw [cancel_eq h.toHandled, (sameWaiting_settleAll _ _ _).waiters] at hcancel
    exact lookup_erase_waiters h hcancel

/-- Requests that wait for a key after a move have waited for it before, or it is the request that
the move has made. -/
theorem waiters_move (h : d.Waiting) (move : Move τ ρ) {key : String} {numbers : List Nat}
    (hlookup : (d.move move).waiters.lookup key = some numbers) :
    d.waiters.lookup key = some numbers ∨
      (∃ task, move = .request key task) ∧ numbers = (d.waiters.lookup key).getD [] ++
        [d.made] := by
  cases move with
  | request other task =>
    rw [Dispatcher.move, request_eq h] at hlookup
    by_cases hkey : key = other
    · subst hkey
      refine .inr ⟨⟨task, rfl⟩, ?_⟩
      exact (Option.some.inj ((Ordered.lookup_put_self _ _ _).symm.trans hlookup)).symm
    · exact .inl ((Ordered.lookup_put_of_ne hkey _ _).symm.trans hlookup)
  | cancel other => exact .inl (lookup_waiters_cancels h [other] hlookup)
  | close => exact .inl (lookup_waiters_cancels h _ hlookup)
  | abandon number => exact .inl ((sameWaiting_abandon d number).waiters ▸ hlookup)
  | setDelay delay => exact .inl hlookup
  | pass time =>
    rw [Dispatcher.move, pass] at hlookup
    split at hlookup <;> exact .inl hlookup
  | endWait number =>
    rw [Dispatcher.move] at hlookup
    obtain ⟨hsame, -⟩ | ⟨w, -, earlier, -, -, -, heq⟩ := endWait_cases h number
    · rw [hsame] at hlookup
      exact .inl hlookup
    · rw [heq] at hlookup
      exact .inl (lookup_erase_waiters h hlookup)
  | enter => exact .inl ((sameWaiting_enter d).waiters ▸ hlookup)
  | wake gate => exact .inl ((sameWaiting_wake d gate).waiters ▸ hlookup)
  | finish number ending => exact .inl ((sameWaiting_finish d number ending).waiters ▸ hlookup)

/-- A run in progress after a move has been in progress before, or takes over what waited for its
key. -/
theorem inProgress_move (h : d.Sound) (move : Move τ ρ) {run : Run τ}
    (hrun : run ∈ (d.move move).inProgress) :
    run ∈ d.inProgress ∨
      ∃ earlier, d.waiters.lookup run.key = some (earlier ++ [run.number]) ∧
      run.answers = earlier ++ [run.number] := by
  have hsame : SameRuns d (d.move move) → run ∈ d.inProgress := fun hsame ↦ by
    rwa [inProgress, hsame.launched, hsame.visits] at hrun
  cases move with
  | request key task => exact .inl (hsame (sameRuns_request h.waiting key task))
  | cancel key => exact .inl (hsame (sameRuns_cancel h.waiting.toHandled key))
  | close => exact .inl (hsame (sameRuns_close h.waiting))
  | abandon number => exact .inl (hsame (sameRuns_abandon d number))
  | setDelay delay => exact .inl hrun
  | pass time => exact .inl (hsame (sameRuns_pass d time))
  | endWait number =>
    rw [Dispatcher.move] at hrun
    obtain ⟨heq, -⟩ | ⟨w, -, earlier, -, -, hlookup, heq⟩ := endWait_cases h.waiting number
    · rw [heq] at hrun
      exact .inl hrun
    · rw [heq, inProgress] at hrun
      simp only [note, List.mem_append, List.mem_singleton] at hrun
      rcases hrun with (hrun | rfl) | hrun
      · exact .inl (List.mem_append_left _ hrun)
      · exact .inr ⟨earlier, hlookup, rfl⟩
      · exact .inl (List.mem_append_right _ hrun)
  | enter => exact .inl ((inProgress_enter d).1.subset hrun)
  | wake gate => exact .inl ((inProgress_wake d gate).1 ▸ hrun)
  | finish number ending =>
    rw [Dispatcher.move] at hrun
    obtain ⟨heq, -⟩ | ⟨before, v, after, hsplit, -, -, heq⟩ := finish_cases h.accounts number ending
    · rw [heq] at hrun
      exact .inl hrun
    · obtain ⟨users, gateOf, hrelease⟩ := release_eq
        (note
          { d with
            gates := d.gates.set v.gate { d.gateAt v.gate with isHeld := false }
            visits := before ++ after }
          (.ended v.run ending))
        v.run.key
      rw [heq, hrelease, inProgress, (sameRuns_answer _ _ _).launched,
        (sameRuns_answer _ _ _).visits] at hrun
      refine .inl ((List.Sublist.append_left (List.Sublist.map _ ?_) _).subset hrun)
      rw [hsplit]
      exact (List.sublist_cons_self v after).append_left before

/-- Where a request stands with others, the last of them succeeds it. -/
structure Stands (before : List (Move τ ρ)) (key : String) (task : τ) (after : List (Move τ ρ)) :
    Prop where
  waits : ∀ other numbers, (since before key task after).waiters.lookup other = some numbers →
    (follow before).made ∈ numbers →
    other = key ∧ ∃ earlier last, numbers = earlier ++ [last] ∧ Succeeds before key task last after
  held : ∀ run ∈ (since before key task after).inProgress, (follow before).made ∈ run.answers →
    run.key = key ∧ Succeeds before key task run.number after

theorem Succeeds.concat {before : List (Move τ ρ)} {key : String} {task : τ} {last : Nat}
    {after : List (Move τ ρ)} (h : Succeeds before key task last after) (move : Move τ ρ) :
    Succeeds before key task last (after ++ [move]) :=
      h.imp_right fun hsome ↦ sometime_concat.mpr (.inl hsome)

theorem stands (before : List (Move τ ρ)) (key : String) (task : τ) (after : List (Move τ ρ)) :
    Stands before key task after := by
  induction after using List.reverseRecOn with
  | nil =>
    have hsound := sound_follow before
    -- What waited before the request has smaller numbers.
    have hfresh : ∀ other numbers, (follow before).waiters.lookup other = some numbers →
        (follow before).made ∉ numbers := fun other numbers hlookup hn ↦ by
      refine Nat.lt_irrefl _ (hsound.accounts.lt_of_mem_places (follow before).made
        (List.mem_append_left _ ?_))
      exact List.mem_flatMap.mpr ⟨_, Ordered.mem_of_lookup hlookup, hn⟩
    refine ⟨fun other numbers hlookup hn ↦ ?_, fun run hrun hn ↦ ?_⟩
    · rw [since_nil] at hlookup
      rcases waiters_move hsound.waiting (.request key task)
        hlookup with hold | ⟨⟨task', hmove⟩, rfl⟩
      · exact absurd hn (hfresh other numbers hold)
      · obtain ⟨rfl, -⟩ := Move.request.inj hmove
        exact ⟨rfl, _, _, rfl, .inl rfl⟩
    · rw [since_nil] at hrun
      rcases inProgress_move hsound (.request key task) hrun with hold | ⟨earlier,
        hlookup, hanswers⟩
      · exact absurd (hsound.accounts.lt_of_mem_answers hold _ hn) (Nat.lt_irrefl _)
      · exact absurd (hanswers ▸ hn) (hfresh run.key _ hlookup)
  | append_singleton after move ih =>
    have hsound := sound_since before key task after
    have hlt := made_lt_made_since before key task after
    refine ⟨fun other numbers hlookup hn ↦ ?_, fun run hrun hn ↦ ?_⟩
    · rw [since_concat] at hlookup
      rcases waiters_move hsound.waiting move hlookup with hold | ⟨⟨task', rfl⟩, rfl⟩
      · obtain ⟨hkey, earlier, last, hnumbers, hlast⟩ := ih.waits other numbers hold hn
        exact ⟨hkey, earlier, last, hnumbers, hlast.concat move⟩
      · cases hold : (since before key task after).waiters.lookup other with
        | none =>
          rw [hold] at hn
          exact absurd (List.mem_singleton.mp hn) (Nat.ne_of_lt hlt)
        | some old =>
          rw [hold] at hn
          have hmem : (follow before).made ∈ old := by
            refine (List.mem_append.mp hn).resolve_right fun hn ↦ ?_
            exact Nat.ne_of_lt hlt (List.mem_singleton.mp hn)
          obtain ⟨rfl, -⟩ := ih.waits other old hold hmem
          exact ⟨rfl, _, _, rfl,
            .inr (sometime_concat.mpr (.inr ⟨⟨task', rfl⟩, rfl, old, hold, hmem⟩))⟩
    · rw [since_concat] at hrun
      rcases inProgress_move hsound move hrun with hold | ⟨earlier, hlookup, hanswers⟩
      · obtain ⟨hkey, hlast⟩ := ih.held run hold hn
        exact ⟨hkey, hlast.concat move⟩
      · obtain ⟨hkey, earlier', last, hnumbers, hlast⟩ := ih.waits run.key _ hlookup (hanswers ▸ hn)
        obtain ⟨-, hnumber⟩ := List.append_inj' hnumbers rfl
        obtain ⟨rfl, -⟩ := List.cons.inj hnumber
        exact ⟨hkey, hlast.concat move⟩

/-! ## Bursts -/

/-- The numbers of the requests that are settled together. -/
def bursts (d : Dispatcher τ ρ) : List (List Nat) :=
  d.waiters.map Prod.snd ++ d.inProgress.map Run.answers

theorem flatten_bursts (d : Dispatcher τ ρ) :
    d.bursts.flatten = d.waitingNumbers ++ d.heldNumbers := by
  rw [bursts, List.flatten_append, ← List.flatMap_def, ← List.flatMap_def]
  rfl

theorem places_eq_flatten_bursts (d : Dispatcher τ ρ) :
    d.places = d.bursts.flatten ++ d.unanswered := by
  rw [places, flatten_bursts, List.append_assoc]

theorem Accounts.eq_of_mem_bursts (h : d.Accounts) {burst burst' : List Nat} {n : Nat}
    (hburst : burst ∈ d.bursts) (hburst' : burst' ∈ d.bursts) (hn : n ∈ burst) (hn' : n ∈ burst') :
    burst = burst' := by
  have hnodup := h.nodup_places
  rw [places_eq_flatten_bursts] at hnodup
  replace hnodup := hnodup.of_append_left
  rw [List.nodup_flatten] at hnodup
  have hsymm : Std.Symm (List.Disjoint (α := Nat)) := ⟨fun _ _ hab _ ha hb ↦ hab hb ha⟩
  by_contra hne
  exact hnodup.2.forall hburst hburst' hne hn hn'

/-- What is not given up is settled with a whole burst. -/
theorem Settles.burst {n : Nat} {move : Move τ ρ} {outcome : Settled ρ}
    (h : Settles d n move outcome) (hmove : move ≠ .abandon n) :
    ∃ burst ∈ d.bursts, n ∈ burst ∧ ∀ m ∈ burst, Settles d m move outcome := by
  have hwaits : ∀ {key numbers}, d.waiters.lookup key = some numbers → numbers ∈ d.bursts :=
      fun hlookup ↦
    List.mem_append_left _ (List.mem_map_of_mem (f := Prod.snd) (Ordered.mem_of_lookup hlookup))
  cases h with
  | abandoned => exact absurd rfl hmove
  | cancelled h =>
    obtain ⟨numbers, hlookup, hn⟩ := h
    exact ⟨numbers, hwaits hlookup, hn, fun m hm ↦ .cancelled ⟨numbers, hlookup, hm⟩⟩
  | closed h =>
    obtain ⟨numbers, hlookup, hn⟩ := h
    exact ⟨numbers, hwaits hlookup, hn, fun m hm ↦ .closed ⟨numbers, hlookup, hm⟩⟩
  | @answered v _ hv hrunning hn =>
    refine ⟨v.run.answers, List.mem_append_right _ (List.mem_map_of_mem ?_), hn,
      fun m hm ↦ .answered hv hrunning hm⟩
    exact List.mem_append_right _ (List.mem_map_of_mem hv)

theorem Accounts.notMem_settledNumbers (h : d.Accounts) {burst : List Nat} {n : Nat}
    (hburst : burst ∈ d.bursts) (hn : n ∈ burst) (hkept : n ∉ d.abandoned) :
    n ∉ d.settledNumbers := by
  refine fun hsettled ↦ hkept (h.apart n ?_ hsettled)
  rw [places_eq_flatten_bursts]
  exact List.mem_append_left _ (List.mem_flatten_of_mem hburst hn)

theorem abandoned_settleAll (d : Dispatcher τ ρ) (numbers : List Nat) (outcome : Settled ρ) :
    (d.settleAll numbers outcome).abandoned = d.abandoned := by
  obtain ⟨settled, hsettled⟩ := d.settleAll_eq numbers outcome
  rw [hsettled]

theorem abandoned_answer (d : Dispatcher τ ρ) (numbers : List Nat) (ending : Ending ρ) :
    (d.answer numbers ending).abandoned = d.abandoned := by
  obtain ⟨settled, hsettled⟩ := d.answer_eq numbers ending
  rw [hsettled]

theorem abandoned_cancels (h : d.Waiting) (keys : List String) :
    (keys.foldl cancel d).abandoned = d.abandoned := by
  induction keys generalizing d with
  | nil => rfl
  | cons key rest ih =>
    rw [List.foldl_cons, ih (h.cancel key), cancel_eq h.toHandled, abandoned_settleAll]

/-- What is given up stays so. -/
theorem abandoned_subset_move (h : d.Sound) (move : Move τ ρ) :
    d.abandoned ⊆ (d.move move).abandoned := by
  have hkeep : (d.move move).abandoned = d.abandoned →
      d.abandoned ⊆ (d.move move).abandoned := fun hsame ↦
    hsame ▸ List.Subset.refl _
  cases move with
  | request key task =>
    apply hkeep
    rw [Dispatcher.move, request_eq h.waiting]
  | cancel key => exact hkeep (abandoned_cancels h.waiting [key])
  | close => exact hkeep (abandoned_cancels h.waiting _)
  | abandon number =>
    rw [Dispatcher.move]
    obtain ⟨hsame, -⟩ | ⟨-, -, heq⟩ := abandon_cases d number
    · rw [hsame]
      exact List.Subset.refl _
    · rw [heq]
      exact List.subset_append_left _ _
  | setDelay delay => exact hkeep rfl
  | pass time =>
    apply hkeep
    rw [Dispatcher.move, pass]
    split <;> rfl
  | endWait number =>
    apply hkeep
    rw [Dispatcher.move]
    obtain ⟨hsame, -⟩ | ⟨w, -, earlier, -, -, -, heq⟩ := endWait_cases h.waiting number
    · rw [hsame]
    · rw [heq]
      rfl
  | enter => exact hkeep (inProgress_enter d).2.abandoned
  | wake gate => exact hkeep (inProgress_wake d gate).2.abandoned
  | finish number ending =>
    apply hkeep
    rw [Dispatcher.move]
    obtain ⟨hsame, -⟩ | ⟨before, v, after, -, -, -, heq⟩ := finish_cases h.accounts number ending
    · rw [hsame]
    · obtain ⟨users, gateOf, hrelease⟩ := release_eq (note _ (.ended v.run ending)) v.run.key
      rw [heq, abandoned_answer, hrelease]
      rfl

theorem ne_abandon_of_notMem {move : Move τ ρ} {n : Nat} (hlt : n < d.made)
    (hnot : n ∉ d.settledNumbers) (hkept : n ∉ (d.move move).abandoned) : move ≠ .abandon n := by
  rintro rfl
  obtain ⟨-, hold⟩ | ⟨-, -, heq⟩ := abandon_cases d n
  · exact hnot (hold hlt)
  · apply hkept
    rw [Dispatcher.move, heq]
    exact List.mem_append_right _ (List.mem_singleton.mpr rfl)

/-! ## What becomes of a request -/

/-- Where a request is: it waits for its key with a wait under way, one run in progress answers it,
it has been settled, or the task of its run was cancelled and it is left without an answer. -/
inductive Place (d : Dispatcher τ ρ) (key : String) (n : Nat) : Prop
  | waits {w : Wait τ} : d.WaitsFor key n → w ∈ d.waits → w.key = key →
      d.handles.lookup key = some w.number → d.waitingNumbers.count n = 1 →
      d.heldNumbers.count n = 0 → d.settledNumbers.count n = 0 → n ∉ d.unanswered → Place d key n
  | held {run : Run τ} : run ∈ d.inProgress → run.key = key → n ∈ run.answers →
      d.waitingNumbers.count n = 0 → d.heldNumbers.count n = 1 → d.settledNumbers.count n = 0 →
      n ∉ d.unanswered → Place d key n
  | settled : d.waitingNumbers.count n = 0 → d.heldNumbers.count n = 0 →
      d.settledNumbers.count n = 1 → n ∉ d.unanswered → Place d key n
  | unanswered : d.waitingNumbers.count n = 0 → d.heldNumbers.count n = 0 →
      d.settledNumbers.count n = 0 → n ∈ d.unanswered → Place d key n

section Request

variable {before : List (Move τ ρ)} {key : String} {task : τ} {after : List (Move τ ρ)}

theorem abandoned_subset_since (rest : List (Move τ ρ)) :
    (since before key task after).abandoned
      ⊆ (since before key task (after ++ rest)).abandoned := by
  induction rest using List.reverseRecOn with
  | nil =>
    rw [List.append_nil]
    exact List.Subset.refl _
  | append_singleton rest move ih =>
    rw [← List.append_assoc, since_concat]
    exact List.Subset.trans ih
      (abandoned_subset_move (sound_since before key task (after ++ rest)) move)

/-- A request that has not been given up is in one place. -/
theorem place (hkept : (follow before).made ∉ (since before key task after).abandoned) :
    Place (since before key task after) key (follow before).made := by
  have hsound := sound_since before key task after
  have hstands := stands before key task after
  have hcomplete := hsound.accounts.complete _ (made_lt_made_since before key task after)
  have hplaces := hsound.accounts.nodup_places
  have hapart : (follow before).made ∈ (since before key task after).places →
      (since before key task after).settledNumbers.count (follow before).made = 0 := fun hn ↦
    List.count_eq_zero.mpr fun hsettled ↦ hkept (hsound.accounts.apart _ hn hsettled)
  by_cases hwaiting : (follow before).made ∈ (since before key task after).waitingNumbers
  · obtain ⟨hheld, hleft⟩ : (follow before).made ∉ (since before key task after).heldNumbers ∧
        (follow before).made ∉ (since before key task after).unanswered := by
      rw [← not_or, ← List.mem_append]
      exact List.disjoint_of_nodup_append hplaces hwaiting
    obtain ⟨⟨other, numbers⟩, he, hn⟩ := List.mem_flatMap.mp hwaiting
    have hlookup := Ordered.lookup_of_mem hsound.waiting.waiterKeys he
    obtain ⟨rfl, -⟩ := hstands.waits other numbers hlookup hn
    obtain ⟨w, hw, hkey⟩ := List.mem_map.mp
      ((hsound.waiting.mem_iff other).mp (List.mem_map_of_mem (f := Prod.fst) he))
    exact .waits ⟨numbers, hlookup, hn⟩ hw hkey (lookup_handles hsound.waiting.toHandled hw hkey)
      (List.count_eq_one_of_mem hsound.accounts.nodup_waiting hwaiting)
      (List.count_eq_zero.mpr hheld) (hapart (List.mem_append_left _ hwaiting)) hleft
  · have hnone := List.count_eq_zero.mpr hwaiting
    by_cases hheld : (follow before).made ∈ (since before key task after).heldNumbers
    · obtain ⟨run, hrun, hn⟩ := List.mem_flatMap.mp hheld
      exact .held hrun (hstands.held run hrun hn).1 hn hnone
        (List.count_eq_one_of_mem hsound.accounts.nodup_held hheld)
        (hapart (List.mem_append_right _ (List.mem_append_left _ hheld)))
        (List.disjoint_of_nodup_append hplaces.of_append_right hheld)
    · have hnone' := List.count_eq_zero.mpr hheld
      by_cases hleft : (follow before).made ∈ (since before key task after).unanswered
      · exact .unanswered hnone hnone'
          (hapart (List.mem_append_right _ (List.mem_append_right _ hleft))) hleft
      · refine .settled hnone hnone'
          (List.count_eq_one_of_mem hsound.accounts.nodup_settled ?_) hleft
        refine hcomplete.resolve_left fun hn ↦ ?_
        rcases List.mem_append.mp hn with hn | hn
        · exact hwaiting hn
        · exact (List.mem_append.mp hn).elim hheld hleft

theorem mem_settled_iff (outcome : Settled ρ) :
    ((follow before).made, outcome) ∈ (since before key task after).settled ↔
      Sometime (fun mid move ↦ (follow before).made ∉ (since before key task mid).settledNumbers ∧
        Settles (since before key task mid) (follow before).made move outcome) after := by
  induction after using List.reverseRecOn with
  | nil =>
    refine iff_of_false (fun hsettled ↦ ?_) (not_sometime_nil _)
    rw [since_nil, request_eq (sound_follow before).waiting] at hsettled
    exact Nat.lt_irrefl _ ((sound_follow before).accounts.lt_of_mem_settled _
      (mem_settledNumbers.mpr ⟨_, hsettled⟩))
  | append_singleton after move ih =>
    rw [since_concat, mem_settled_move (sound_since before key task after), ih, sometime_concat]

/-- What has become of a request at a move that settles it, if it has not been given up. -/
theorem settles_iff {mid rest : List (Move τ ρ)} {move : Move τ ρ}
    (hkept : (follow before).made ∉ (since before key task (mid ++ move :: rest)).abandoned)
    (outcome : Settled ρ) :
    ((follow before).made ∉ (since before key task mid).settledNumbers ∧
      Settles (since before key task mid) (follow before).made move outcome) ↔
    Settles (since before key task mid) (follow before).made move outcome ∧
    move ≠ .abandon (follow before).made := by
  have hsound := sound_since before key task mid
  have hkeptMid : (follow before).made ∉ (since before key task mid).abandoned := fun hn ↦
    hkept (abandoned_subset_since _ hn)
  have hkeptMove : (follow before).made ∉ ((since before key task mid).move move).abandoned :=
      fun hn ↦ by
    refine hkept ?_
    rw [← since_concat] at hn
    have hlater := abandoned_subset_since rest hn
    rwa [List.append_assoc] at hlater
  constructor
  · rintro ⟨hnot, hsettles⟩
    exact ⟨hsettles, ne_abandon_of_notMem (made_lt_made_since before key task mid) hnot hkeptMove⟩
  · rintro ⟨hsettles, hmove⟩
    obtain ⟨burst, hburst, hn, -⟩ := hsettles.burst hmove
    exact ⟨hsound.accounts.notMem_settledNumbers hburst hn hkeptMid, hsettles⟩

/-- A request that is not given up is cancelled just if its key is, or everything is, while it
waits. -/
theorem cancelled_iff (hkept : (follow before).made ∉ (since before key task after).abandoned) :
    ((follow before).made, .cancelled) ∈ (since before key task after).settled ↔
      Sometime (fun mid move ↦ (move = .cancel key ∨ move = .close) ∧
        (since before key task mid).WaitsFor key (follow before).made) after := by
  rw [mem_settled_iff]
  constructor
  · rintro ⟨mid, move, rest, rfl, hp⟩
    refine ⟨mid, move, rest, rfl, ?_⟩
    obtain ⟨hsettles, hmove⟩ := (settles_iff hkept _).mp hp
    cases hsettles with
    | abandoned => exact absurd rfl hmove
    | cancelled h =>
      obtain ⟨numbers, hlookup, hn⟩ := h
      obtain ⟨rfl, -⟩ := (stands before key task mid).waits _ numbers hlookup hn
      exact ⟨.inl rfl, numbers, hlookup, hn⟩
    | closed h =>
      obtain ⟨numbers, hlookup, hn⟩ := h
      obtain ⟨rfl, -⟩ := (stands before key task mid).waits _ numbers hlookup hn
      exact ⟨.inr rfl, numbers, hlookup, hn⟩
  · rintro ⟨mid, move, rest, rfl, hmove, hwaits⟩
    refine ⟨mid, move, rest, rfl, (settles_iff hkept _).mpr ?_⟩
    rcases hmove with rfl | rfl
    · exact ⟨.cancelled hwaits, nofun⟩
    · exact ⟨.closed hwaits, nofun⟩

/-- A request that is not given up gets a result just if the task of the run that answers it returns
with it. -/
theorem done_iff (hkept : (follow before).made ∉ (since before key task after).abandoned)
    (result : Option ρ) :
    ((follow before).made, .done result) ∈ (since before key task after).settled ↔
      Sometime (fun mid move ↦ ∃ v ∈ (since before key task mid).visits, v.isRunning = true ∧
        v.run.key = key ∧ (follow before).made ∈ v.run.answers ∧
        Succeeds before key task v.run.number mid ∧
        move = .finish v.run.number (.returned result)) after := by
  rw [mem_settled_iff]
  constructor
  · rintro ⟨mid, move, rest, rfl, hp⟩
    refine ⟨mid, move, rest, rfl, ?_⟩
    obtain ⟨hsettles, -⟩ := (settles_iff hkept _).mp hp
    cases hsettles with
    | @answered v _ hv hrunning hn =>
      obtain ⟨hkey, hsucceeds⟩ := (stands before key task mid).held v.run
        (List.mem_append_right _ (List.mem_map_of_mem hv)) hn
      exact ⟨v, hv, hrunning, hkey, hn, hsucceeds, rfl⟩
  · rintro ⟨mid, move, rest, rfl, v, hv, hrunning, -, hn, -, rfl⟩
    exact ⟨mid, _, rest, rfl, (settles_iff hkept _).mpr ⟨.answered hv hrunning hn, nofun⟩⟩

/-- A request is left without an answer just if the task of the run that answers it is cancelled. -/
theorem unanswered_iff :
    (follow before).made ∈ (since before key task after).unanswered ↔
      Sometime (fun mid move ↦ ∃ v ∈ (since before key task mid).visits, v.isRunning = true ∧
        v.run.key = key ∧ (follow before).made ∈ v.run.answers ∧
        Succeeds before key task v.run.number mid ∧
        move = .finish v.run.number .cancelled) after := by
  induction after using List.reverseRecOn with
  | nil =>
    refine iff_of_false (fun hmem ↦ ?_) (not_sometime_nil _)
    rw [since_nil, request_eq (sound_follow before).waiting] at hmem
    exact Nat.lt_irrefl _ ((sound_follow before).accounts.lt_of_mem_places _
      (List.mem_append_right _ (List.mem_append_right _ hmem)))
  | append_singleton after move ih =>
    rw [since_concat, mem_unanswered_move (sound_since before key task after), ih, sometime_concat]
    refine or_congr_right (exists_congr fun v ↦ and_congr_right fun hv ↦ and_congr_right fun _ ↦ ?_)
    constructor
    · rintro ⟨hn, hmove⟩
      obtain ⟨hkey, hsucceeds⟩ := (stands before key task after).held v.run
        (List.mem_append_right _ (List.mem_map_of_mem hv)) hn
      exact ⟨hkey, hn, hsucceeds, hmove⟩
    · rintro ⟨-, hn, -, hmove⟩
      exact ⟨hn, hmove⟩

/-- A move that settles a request settles all that stand with it alike. -/
theorem settled_together {mid rest : List (Move τ ρ)} {move : Move τ ρ}
    (hkept : (follow before).made ∉ (since before key task (mid ++ move :: rest)).abandoned)
    {outcome : Settled ρ} (hsettles : (follow before).made
      ∉ (since before key task mid).settledNumbers ∧
      Settles (since before key task mid) (follow before).made move outcome) {burst : List Nat}
    (hburst : burst ∈ (since before key task mid).bursts)
    (hn : (follow before).made ∈ burst) {n : Nat}
    (hmem : n ∈ burst) (hn' : n ∉ (since before key task mid).abandoned) :
    n ∉ (since before key task mid).settledNumbers ∧
      (n, outcome) ∈ (since before key task (mid ++ [move])).settled := by
  have hsound := sound_since before key task mid
  obtain ⟨hsettles, hmove⟩ := (settles_iff hkept outcome).mp hsettles
  obtain ⟨burst', hburst', hmade, hall⟩ := hsettles.burst hmove
  obtain rfl := hsound.accounts.eq_of_mem_bursts hburst hburst' hn hmade
  have hnot := hsound.accounts.notMem_settledNumbers hburst hmem hn'
  refine ⟨hnot, ?_⟩
  rw [since_concat, mem_settled_move hsound]
  exact .inr ⟨hnot, hall n hmem⟩

theorem settled_subset_since (rest : List (Move τ ρ)) :
    (since before key task after).settled ⊆ (since before key task (after ++ rest)).settled := by
  induction rest using List.reverseRecOn with
  | nil =>
    rw [List.append_nil]
    exact List.Subset.refl _
  | append_singleton rest move ih =>
    rintro ⟨n, outcome⟩ hsettled
    rw [← List.append_assoc, since_concat,
      mem_settled_move (sound_since before key task (after ++ rest))]
    exact .inl (ih hsettled)

theorem unanswered_subset_since (rest : List (Move τ ρ)) :
    (since before key task after).unanswered ⊆
      (since before key task (after ++ rest)).unanswered := by
  induction rest using List.reverseRecOn with
  | nil =>
    rw [List.append_nil]
    exact List.Subset.refl _
  | append_singleton rest move ih =>
    intro n hn
    rw [← List.append_assoc, since_concat,
      mem_unanswered_move (sound_since before key task (after ++ rest))]
    exact .inl (ih hn)

/-- **Every request is in one place, and is settled once, together with those that stand with it, or
is left without an answer.** Whatever moves come before a request and after it: a key has a handle
just if something waits for it. If its caller does not give the request up, it waits for its key,
with a wait under way, or one run in progress answers it, or it has been settled once, or it is left
without an answer, and of these only one. It is cancelled just if its key or everything is cancelled
while it waits. It gets a result just if the task of the run that answers it returns with it, and is
left without an answer just if that task is cancelled. That run is its own or that of a request that
came for the key while it waited. The move that settles it settles all requests that wait with it,
or are answered with it, and have not been given up, with the same outcome, and none of them has
been settled before. What has been settled stays so, and what is left without an answer does too. -/
theorem settled_once_with_burst
    (hkept : (follow before).made ∉ (since before key task after).abandoned) :
    (∀ other, ((since before key task after).handles.lookup other).isSome ↔
      ((since before key task after).waiters.lookup other).isSome) ∧
    Place (since before key task after) key (follow before).made ∧
    (((follow before).made, .cancelled) ∈ (since before key task after).settled ↔
      Sometime (fun mid move ↦ (move = .cancel key ∨ move = .close) ∧
        (since before key task mid).WaitsFor key (follow before).made) after) ∧
    (∀ result, ((follow before).made, .done result) ∈ (since before key task after).settled ↔
      Sometime (fun mid move ↦ ∃ v ∈ (since before key task mid).visits, v.isRunning = true ∧
        v.run.key = key ∧ (follow before).made ∈ v.run.answers ∧
        Succeeds before key task v.run.number mid ∧
        move = .finish v.run.number (.returned result)) after) ∧
    ((follow before).made ∈ (since before key task after).unanswered ↔
      Sometime (fun mid move ↦ ∃ v ∈ (since before key task mid).visits, v.isRunning = true ∧
        v.run.key = key ∧ (follow before).made ∈ v.run.answers ∧
        Succeeds before key task v.run.number mid ∧
        move = .finish v.run.number .cancelled) after) ∧
    (∀ mid move rest outcome, after = mid ++ move :: rest →
      (follow before).made ∉ (since before key task mid).settledNumbers →
      ((follow before).made, outcome) ∈ (since before key task (mid ++ [move])).settled →
      ∀ burst ∈ (since before key task mid).bursts, (follow before).made ∈ burst →
      ∀ n ∈ burst, n ∉ (since before key task mid).abandoned →
        n ∉ (since before key task mid).settledNumbers ∧
          (n, outcome) ∈ (since before key task (mid ++ [move])).settled) ∧
    ∀ rest,
      (since before key task after).settled ⊆ (since before key task (after ++ rest)).settled ∧
      (since before key task after).unanswered ⊆
        (since before key task (after ++ rest)).unanswered := by
  refine ⟨isSome_handles_iff (sound_since before key task after).waiting, place hkept,
    cancelled_iff hkept, done_iff hkept, unanswered_iff, ?_,
    fun rest ↦ ⟨settled_subset_since rest, unanswered_subset_since rest⟩⟩
  rintro mid move rest outcome rfl hnot hsettled burst hburst hn n hmem hn'
  rw [since_concat, mem_settled_move (sound_since before key task mid)] at hsettled
  rcases hsettled with hsettled | hsettles
  · exact absurd (mem_settledNumbers.mpr ⟨outcome, hsettled⟩) hnot
  · exact settled_together hkept hsettles hburst hn hmem hn'

end Request

/-- A request is superseded by another one, and their run answers both. -/
theorem settled_once_with_burst_superseded :
    let before : List (Move Nat Nat) := [.setDelay 2]
    let after : List (Move Nat Nat) :=
      [.pass 1, .request "k" 20, .pass 3, .endWait 1, .enter, .finish 1 (.returned (some 7))]
    (follow before).made ∉ (since before "k" 10 after).abandoned ∧
      Place (since before "k" 10 after) "k" 0 ∧
      Sometime (fun mid move ↦ ∃ v ∈ (since before "k" 10 mid).visits, v.isRunning = true ∧
        v.run.key = "k" ∧ 0 ∈ v.run.answers ∧ Succeeds before "k" 10 v.run.number mid ∧
        move = .finish v.run.number (.returned (some 7))) after := by
  intro before after
  have hkept : (follow before).made ∉ (since before "k" 10 after).abandoned := by decide
  obtain ⟨-, hplace, -, hdone, -, -, -⟩ := settled_once_with_burst hkept
  exact ⟨hkept, hplace, (hdone (some 7)).mp (List.Mem.head _)⟩

/-- The task for `a` asks for `b` and awaits it. When `b` is cancelled while it waits, so is the
task. The run for `a` has come to its end then, nobody has given up the request for `a`, and it is
in none of the places where it would be settled. -/
theorem unanswered_cancelled :
    let moves : List (Move Nat Nat) :=
      [.request "a" 10, .endWait 0, .enter, .setDelay 5, .request "b" 20, .cancel "b",
        .finish 0 .cancelled]
    (follow moves).settled = [(1, .cancelled)] ∧ (follow moves).abandoned = [] ∧
      (follow moves).waitingNumbers = [] ∧ (follow moves).inProgress = [] ∧
      (follow moves).unanswered = [0] ∧
      ¬ (0 ∈ (follow moves).waitingNumbers ∨ 0 ∈ (follow moves).heldNumbers ∨
        0 ∈ (follow moves).settledNumbers) := by
  refine ⟨rfl, rfl, rfl, rfl, rfl, ?_⟩
  decide

end Dispatcher

end MissionIndex.Schedule
