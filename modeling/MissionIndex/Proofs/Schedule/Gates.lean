import MissionIndex.Proofs.Schedule.Accounts

/-!
# One run after another

The runs for a key pass its gate one by one, in the order in which they were launched. A gate is
made when the first of them comes and is lost with the last, so it has to be shown that no run is
left behind at a gate that is lost, and that none passes a gate that another one still holds.

## The line of a key

The visits for a key, in the order in which they came, are its *line*. A gate that somebody holds is
held by the first in its line, and the others are in its queue; a gate that is free has the whole
line in its queue, and the first is about to go on (`Passes`). What has become of the runs for a key
is in order too: those that have ended, then those in line, then those that have not come to the
gate are the runs launched, in this order.
-/

namespace MissionIndex.Schedule

def Mark.launch? {τ ρ : Type} : Mark τ ρ → Option (Run τ)
  | .launched run => some run
  | .started _ | .ended _ _ => none

def Mark.start? {τ ρ : Type} : Mark τ ρ → Option (Run τ)
  | .started run => some run
  | .launched _ | .ended _ _ => none

def Mark.end? {τ ρ : Type} : Mark τ ρ → Option (Run τ)
  | .ended run _ => some run
  | .launched _ | .started _ => none

namespace Dispatcher

variable {τ ρ : Type} {d d' : Dispatcher τ ρ}

/-! ## Lines -/

def launches (d : Dispatcher τ ρ) : List (Run τ) := d.log.filterMap (·.2.launch?)

/-- The runs whose tasks have started, from the first on. -/
def starts (d : Dispatcher τ ρ) : List (Run τ) := d.log.filterMap (·.2.start?)

/-- The runs whose tasks have ended, from the first on. -/
def ends (d : Dispatcher τ ρ) : List (Run τ) := d.log.filterMap (·.2.end?)

def runsFor (key : String) (runs : List (Run τ)) : List (Run τ) := runs.filter (·.key == key)

def line (d : Dispatcher τ ρ) (key : String) : List (Visit τ) := d.visits.filter (·.run.key == key)

/-- How a line stands at its gate. -/
inductive Passes : List (Visit τ) → Gate → Prop
  | held {first : Visit τ} {rest : List (Visit τ)} : first.isRunning = true →
      (∀ v ∈ rest, v.isRunning = false) → Passes (first :: rest) ⟨true, rest.map (·.run.number)⟩
  | free {line : List (Visit τ)} : (∀ v ∈ line, v.isRunning = false) →
      Passes line ⟨false, line.map (·.run.number)⟩

/-- The lines stand at their gates, and the runs in them are counted. -/
structure Gated (d : Dispatcher τ ρ) : Prop where
  gateKeys : (d.gateOf.map Prod.fst).Nodup
  userKeys : (d.users.map Prod.fst).Nodup
  users : ∀ key, d.users.lookup key = if d.line key = [] then none
    else some ((d.line key).length : Int)
  gate : ∀ v ∈ d.visits, d.gateOf.lookup v.run.key = some v.gate
  line : ∀ key number, d.gateOf.lookup key = some number →
    d.line key ≠ [] ∧ number < d.gates.length ∧ Passes (d.line key) (d.gateAt number)
  /-- No two keys share a gate. -/
  injective : ∀ key key' number, d.gateOf.lookup key = some number →
    d.gateOf.lookup key' = some number →
    key = key'
  /-- Nobody is left at a gate that no key has. -/
  spare : ∀ number, (∀ key, d.gateOf.lookup key ≠ some number) → d.gateAt number = {}

/-- The runs for a key are in the order in which they were launched: those that have ended, those in
line, and those that have not come to the gate. -/
structure InOrder (d : Dispatcher τ ρ) : Prop where
  launches : ∀ key, runsFor key d.launches
    = runsFor key d.ends ++ ((d.line key).map Visit.run ++ runsFor key d.launched)
  starts : ∀ key, runsFor key d.starts
    = runsFor key d.ends ++ ((d.line key).filter (·.isRunning)).map Visit.run

theorem gated_empty : ({} : Dispatcher τ ρ).Gated :=
  ⟨.nil, .nil, fun _ ↦ rfl, nofun, nofun, nofun, fun _ _ ↦ rfl⟩

theorem inOrder_empty : ({} : Dispatcher τ ρ).InOrder := ⟨fun _ ↦ rfl, fun _ ↦ rfl⟩

/-- Two dispatchers have the same gates, and the same runs at them. -/
structure SameGates (d d' : Dispatcher τ ρ) : Prop where
  gateOf : d'.gateOf = d.gateOf
  users : d'.users = d.users
  gates : d'.gates = d.gates
  visits : d'.visits = d.visits

/-- Two dispatchers have the same runs, with what has become of them. -/
structure SameRuns (d d' : Dispatcher τ ρ) : Prop extends SameGates d d' where
  launched : d'.launched = d.launched
  log : d'.log = d.log

theorem SameRuns.refl (d : Dispatcher τ ρ) : SameRuns d d := ⟨⟨rfl, rfl, rfl, rfl⟩, rfl, rfl⟩

theorem SameRuns.trans {d'' : Dispatcher τ ρ} (h : SameRuns d d') (h' : SameRuns d' d'') :
    SameRuns d d'' :=
  ⟨⟨h'.gateOf.trans h.gateOf, h'.users.trans h.users, h'.gates.trans h.gates,
    h'.visits.trans h.visits⟩, h'.launched.trans h.launched, h'.log.trans h.log⟩

theorem Gated.of_same (h : d.Gated) (hsame : SameGates d d') : d'.Gated := by
  obtain ⟨hgateOf, husers, hgates, hvisits⟩ := hsame
  have hline : ∀ key, d'.line key = d.line key := fun key ↦ congrArg (List.filter _) hvisits
  have hat : ∀ number, d'.gateAt number = d.gateAt number :=
    fun number ↦ by rw [gateAt, hgates, gateAt]
  refine ⟨?_, ?_, ?_, ?_, ?_, ?_, ?_⟩
  · rw [hgateOf]; exact h.gateKeys
  · rw [husers]; exact h.userKeys
  · simp only [husers, hline]; exact h.users
  · rw [hvisits, hgateOf]; exact h.gate
  · simp only [hgateOf, hline, hat, hgates]; exact h.line
  · rw [hgateOf]; exact h.injective
  · simp only [hgateOf, hat]; exact h.spare

theorem InOrder.of_same (h : d.InOrder) (hsame : SameRuns d d') : d'.InOrder := by
  have hline : ∀ key, d'.line key = d.line key := fun key ↦ congrArg (List.filter _) hsame.visits
  have hlaunches : d'.launches = d.launches := congrArg (List.filterMap _) hsame.log
  have hstarts : d'.starts = d.starts := congrArg (List.filterMap _) hsame.log
  have hends : d'.ends = d.ends := congrArg (List.filterMap _) hsame.log
  refine ⟨?_, ?_⟩
  · simp only [hlaunches, hends, hline, hsame.launched]; exact h.launches
  · simp only [hstarts, hends, hline]; exact h.starts

theorem Passes.isHeld_or {line : List (Visit τ)} {gate : Gate} (h : Passes line gate)
    (hne : line ≠ []) :
    (gate.isHeld || !gate.queue.isEmpty) = true := by
  cases h with
  | held => rfl
  | free hfree => cases line with
    | nil => exact absurd rfl hne
    | cons v rest => rfl

theorem Passes.eq_head {line before after : List (Visit τ)} {v : Visit τ} {gate : Gate}
    (h : Passes line gate) (hline : line = before ++ v :: after) (hv : v.isRunning = true) :
    before = [] ∧ gate = ⟨true, after.map (·.run.number)⟩ ∧ ∀ u ∈ after, u.isRunning = false := by
  cases h with
  | held hfirst hrest =>
    cases before with
    | nil =>
      obtain ⟨rfl, rfl⟩ := List.cons.inj hline
      exact ⟨rfl, rfl, hrest⟩
    | cons u before =>
      obtain ⟨-, rfl⟩ := List.cons.inj hline
      have hfalse := hrest v (List.mem_append_right _ List.mem_cons_self)
      rw [hv] at hfalse
      cases hfalse
  | free hfree =>
    have hfalse := hfree v (hline ▸ List.mem_append_right _ List.mem_cons_self)
    rw [hv] at hfalse
    cases hfalse

theorem mem_line {key : String} {v : Visit τ} :
    v ∈ d.line key ↔ v ∈ d.visits ∧ v.run.key = key := by
  rw [line, List.mem_filter, beq_iff_eq]

theorem Gated.line_eq_nil (h : d.Gated) {key : String} (hkey : d.gateOf.lookup key = none) :
    d.line key = [] := by
  refine List.eq_nil_iff_forall_not_mem.mpr fun v hv ↦ ?_
  obtain ⟨hmem, rfl⟩ := mem_line.mp hv
  rw [h.gate v hmem] at hkey
  cases hkey

theorem Gated.gate_of_mem_line (h : d.Gated) {key : String} {number : Nat}
    (hgate : d.gateOf.lookup key = some number) : ∀ v ∈ d.line key, v.gate = number := by
  intro v hv
  obtain ⟨hmem, rfl⟩ := mem_line.mp hv
  exact Option.some.inj ((h.gate v hmem).symm.trans hgate)

theorem Gated.gate_eq_iff (h : d.Gated) {key other : String} {number n : Nat}
    (hgate : d.gateOf.lookup key = some number) (hother : d.gateOf.lookup other = some n) :
    n = number ↔ other = key :=
  ⟨fun he ↦ h.injective other key number (he ▸ hother) hgate,
    fun he ↦ Option.some.inj (hother.symm.trans (he ▸ hgate))⟩

theorem line_eq {before after : List (Visit τ)} {v : Visit τ}
    (hvisits : d.visits = before ++ v :: after) :
    d.line v.run.key = before.filter (·.run.key == v.run.key) ++ v ::
      after.filter (·.run.key == v.run.key) := by
  rw [line, hvisits, List.filter_append, List.filter_cons_of_pos (by simp)]

theorem Gated.eq_head (h : d.Gated) {before after : List (Visit τ)} {v : Visit τ}
    (hvisits : d.visits = before ++ v :: after) (hv : v.isRunning = true) :
    before.filter (·.run.key == v.run.key) = [] ∧
      d.gateAt v.gate = ⟨true, (after.filter (·.run.key == v.run.key)).map (·.run.number)⟩ ∧
      ∀ u ∈ after.filter (·.run.key == v.run.key), u.isRunning = false := by
  have hgate := h.gate v (hvisits ▸ List.mem_append_right _ List.mem_cons_self)
  obtain ⟨-, -, hpasses⟩ := h.line v.run.key v.gate hgate
  exact hpasses.eq_head (line_eq hvisits) hv

theorem gateAt_set {gates : List Gate} {number : Nat} (hlt : number < gates.length) (gate : Gate)
    (other : Nat) :
    ((gates.set number gate)[other]?).getD {} = if number = other then gate
      else gates[other]?.getD {} := by
  by_cases hother : number = other
  · rw [if_pos hother, ← hother, List.getElem?_set_self hlt, Option.getD_some]
  · rw [if_neg hother, List.getElem?_set_ne hother]

/-! ## What runs do at gates -/

theorem provideGate_of_some {key : String} {number : Nat} (h : d.gateOf.lookup key = some number) :
    d.provideGate key = d := by rw [provideGate, h]

theorem provideGate_of_none {key : String} (h : d.gateOf.lookup key = none) :
    d.provideGate key =
      { d with
        gateOf := Ordered.put key d.gates.length d.gateOf
        gates := d.gates ++ [{}] } := by rw [provideGate, h]

/-- The first run launched finds a gate that has a line, and goes to its end, or makes one, and
starts. -/
theorem enter_cases (h : d.Gated) :
    d.launched = [] ∧ d.enter = d ∨
      ∃ run launched, d.launched = run :: launched ∧
        ((∃ number, d.gateOf.lookup run.key = some number ∧
            d.enter =
              { d with
                launched
                users := Ordered.put run.key ((d.line run.key).length + 1 : Int) d.users
                gates := d.gates.set number
                  { d.gateAt number with queue := (d.gateAt number).queue ++ [run.number] }
                visits := d.visits ++ [⟨run, number, false⟩] }) ∨
          d.gateOf.lookup run.key = none ∧
            d.enter =
              note
                { d with
                  launched
                  users := Ordered.put run.key 1 d.users
                  gateOf := Ordered.put run.key d.gates.length d.gateOf
                  gates := d.gates ++ [⟨true, []⟩]
                  visits := d.visits ++ [⟨run, d.gates.length, true⟩] }
                (.started run)) := by
  rw [enter]
  cases hlaunched : d.launched with
  | nil => exact .inl ⟨rfl, rfl⟩
  | cons run launched =>
    refine .inr ⟨run, launched, rfl, ?_⟩
    cases hgate : d.gateOf.lookup run.key with
    | some number =>
      obtain ⟨hne, -, hpasses⟩ := h.line run.key number hgate
      have husers : (d.users.lookup run.key).getD 0 = (d.line run.key).length := by
        rw [h.users, if_neg hne, Option.getD_some]
      have hprovide : { d with launched }.provideGate run.key = { d with launched } :=
        provideGate_of_some hgate
      refine .inl ⟨number, rfl, ?_⟩
      simp only [hprovide, retain, hgate, husers]
      exact if_pos (hpasses.isHeld_or hne)
    | none =>
      have husers : (d.users.lookup run.key).getD 0 = 0 := by
        rw [h.users, if_pos (h.line_eq_nil hgate), Option.getD_none]
      have hprovide := provideGate_of_none (d := { d with launched }) hgate
      refine .inr ⟨rfl, ?_⟩
      simp only [hprovide, retain, Ordered.lookup_put_self, husers]
      simp [arrive, gateAt]

theorem Gated.exists_gateOf (h : d.Gated) {number : Nat} (hqueue : (d.gateAt number).queue ≠ []) :
    ∃ key, d.gateOf.lookup key = some number := by
  by_contra hnone
  rw [h.spare number (not_exists.mp hnone)] at hqueue
  exact hqueue rfl

theorem Passes.exists_first {line : List (Visit τ)} {gate : Gate} {first : Nat} {queue : List Nat}
    (h : Passes line gate) (hheld : gate.isHeld = false) (hqueue : gate.queue = first :: queue) :
    ∃ v rest, line = v :: rest ∧ v.run.number = first ∧ rest.map (·.run.number) = queue ∧
      ∀ u ∈ line, u.isRunning = false := by
  cases h with
  | held => cases hheld
  | free hfree =>
    cases line with
    | nil => cases hqueue
    | cons v rest =>
      obtain ⟨hfirst, hrest⟩ := List.cons.inj hqueue
      exact ⟨v, rest, rfl, hfirst, hrest, hfree⟩

section Apart

variable {before after : List (Visit τ)} {v : Visit τ}

theorem find?_visit (hnumber : ∀ u ∈ before ++ after, u.run.number ≠ v.run.number) :
    (before ++ v :: after).find? (·.run.number == v.run.number) = some v := by
  rw [List.find?_eq_some_iff_append]
  refine ⟨beq_self_eq_true _, before, after, rfl, fun u hu ↦ ?_⟩
  rw [Bool.not_eq_true', beq_eq_false_iff_ne]
  exact hnumber u (List.mem_append_left _ hu)

theorem map_start_visit (hnumber : ∀ u ∈ before ++ after, u.run.number ≠ v.run.number) :
    (before ++ v :: after).map (fun u ↦ if u.run.number = v.run.number then u.start else u)
      = before ++ v.start :: after := by
  have hkeep : ∀ us : List (Visit τ), (∀ u ∈ us, u ∈ before ++ after) →
      us.map (fun u ↦ if u.run.number = v.run.number then u.start else u) = us := by
    intro us hus
    refine (List.map_congr_left fun u hu ↦ ?_).trans (List.map_id us)
    exact if_neg (hnumber u (hus u hu))
  rw [List.map_append, List.map_cons, if_pos rfl, hkeep before fun u hu ↦ List.mem_append_left _ hu,
    hkeep after fun u hu ↦ List.mem_append_right _ hu]

/-- Nobody comes before the first in a line, and the others in the line come after it. -/
theorem line_head {rest : List (Visit τ)} (hvisits : d.visits = before ++ v :: after)
    (hline : d.line v.run.key = v :: rest) (hbefore : v ∉ before) :
    before.filter (·.run.key == v.run.key) = [] ∧
      after.filter (·.run.key == v.run.key) = rest := by
  have hsplit := line_eq hvisits
  rw [hline] at hsplit
  cases hhead : before.filter (·.run.key == v.run.key) with
  | nil =>
    rw [hhead] at hsplit
    exact ⟨rfl, (List.cons.inj hsplit).2.symm⟩
  | cons u others =>
    rw [hhead] at hsplit
    obtain ⟨rfl, -⟩ := List.cons.inj hsplit
    have hmem : v ∈ before.filter (·.run.key == v.run.key) := hhead ▸ List.mem_cons_self
    exact absurd (List.mem_filter.mp hmem).1 hbefore

end Apart

/-- If a gate lets anyone go on, it is the first in its line, which nobody else in line has gone on
before. -/
theorem wake_cases (h : d.Gated) (hvisits : (d.visits.map (·.run.number)).Nodup) (number : Nat) :
    d.wake number = d ∧ ((d.gateAt number).isHeld = true ∨ (d.gateAt number).queue = []) ∨
      ∃ before v after, d.visits = before ++ v :: after ∧ v.gate = number ∧
        (∀ u ∈ d.line v.run.key, u.isRunning = false) ∧
        before.filter (·.run.key == v.run.key) = [] ∧
        d.wake number =
          note
            { d with
              gates := d.gates.set number
                ⟨true, (after.filter (·.run.key == v.run.key)).map (·.run.number)⟩
              visits := before ++ v.start :: after }
            (.started v.run) := by
  rw [wake]
  simp only
  split
  · next first queue hheld hqueue =>
    refine .inr ?_
    have hwaits : (d.gateAt number).queue ≠ [] := hqueue ▸ List.cons_ne_nil _ _
    obtain ⟨key, hkey⟩ := h.exists_gateOf hwaits
    obtain ⟨v, rest, hline, rfl, rfl, hfree⟩ :=
      (h.line key number hkey).2.2.exists_first hheld hqueue
    obtain ⟨hv, rfl⟩ := mem_line.mp (hline ▸ List.mem_cons_self : v ∈ d.line key)
    have hgate : v.gate = number := Option.some.inj ((h.gate v hv).symm.trans hkey)
    obtain ⟨before, after, hsplit, hfilter⟩ := exists_split_of_mem hvisits hv
    have hnumber : ∀ u ∈ before ++ after, u.run.number ≠ v.run.number := by
      intro u hu
      rw [← hfilter] at hu
      exact bne_iff_ne.mp (List.mem_filter.mp hu).2
    obtain ⟨hbefore, hafter⟩ := line_head hsplit hline fun hmem ↦
      hnumber v (List.mem_append_left _ hmem) rfl
    refine ⟨before, v, after, hsplit, hgate, hfree, hbefore, ?_⟩
    simp only [hsplit, find?_visit hnumber, map_start_visit hnumber, hafter]
  · next hno =>
    refine .inl ⟨rfl, ?_⟩
    cases hheld : (d.gateAt number).isHeld with
    | true => exact .inl rfl
    | false =>
      cases hqueue : (d.gateAt number).queue with
      | nil => exact .inr rfl
      | cons first queue => exact absurd hqueue (hno first queue hheld)

/-! ## Moves -/

/-- Lines at gates, where the line of one key and its gate are all that has changed. -/
theorem Gated.of_line (h : d.Gated) (key : String) (number : Nat)
    (hothers : ∀ other ≠ key, d'.line other = d.line other ∧
      d'.gateOf.lookup other = d.gateOf.lookup other ∧ d'.users.lookup other = d.users.lookup other)
    (hgateKeys : (d'.gateOf.map Prod.fst).Nodup) (huserKeys : (d'.users.map Prod.fst).Nodup)
    (husers : d'.users.lookup key = if d'.line key = [] then none
      else some ((d'.line key).length : Int))
    (hgateOf : d'.gateOf.lookup key = if d'.line key = [] then none else some number)
    (hvisits : ∀ v ∈ d'.line key, v.gate = number)
    (hnumber : ∀ other n, d.gateOf.lookup other = some n → (n = number ↔ other = key))
    (hlt : number < d'.gates.length) (hlength : d.gates.length ≤ d'.gates.length)
    (hpasses : Passes (d'.line key) (d'.gateAt number))
    (hgates : ∀ other ≠ number, d'.gateAt other = d.gateAt other) : d'.Gated := by
  have hother : ∀ {other}, other ≠ key → d.gateOf.lookup other ≠ some number := fun hne hsome ↦
    hne ((hnumber _ number hsome).mp rfl)
  have hself : ∀ {n}, d'.gateOf.lookup key = some n → n = number ∧ d'.line key ≠ [] := by
    intro n hn
    rw [hgateOf] at hn
    split at hn
    · cases hn
    · next hne => exact ⟨(Option.some.inj hn).symm, hne⟩
  refine ⟨hgateKeys, huserKeys, fun other ↦ ?_, fun v hv ↦ ?_, fun other n hn ↦ ?_,
    fun a b n ha hb ↦ ?_, fun n hn ↦ ?_⟩
  · by_cases hne : other = key
    · rw [hne]
      exact husers
    · obtain ⟨hline, -, husers⟩ := hothers other hne
      rw [husers, hline]
      exact h.users other
  · by_cases hne : v.run.key = key
    · have hmem : v ∈ d'.line key := mem_line.mpr ⟨hv, hne⟩
      rw [hne, hgateOf, if_neg (List.ne_nil_of_mem hmem), hvisits v hmem]
    · obtain ⟨hline, hsame, -⟩ := hothers _ hne
      have hmem : v ∈ d.line v.run.key := hline ▸ mem_line.mpr ⟨hv, rfl⟩
      rw [hsame]
      exact h.gate v (mem_line.mp hmem).1
  · by_cases hne : other = key
    · subst hne
      obtain ⟨rfl, hline⟩ := hself hn
      exact ⟨hline, hlt, hpasses⟩
    · obtain ⟨hline, hsame, -⟩ := hothers other hne
      rw [hsame] at hn
      have hn' : n ≠ number := fun he ↦ hother hne (he ▸ hn)
      rw [hline, hgates n hn']
      obtain ⟨hne, hlt, hpasses⟩ := h.line other n hn
      exact ⟨hne, Nat.lt_of_lt_of_le hlt hlength, hpasses⟩
  · by_cases hakey : a = key
    · by_cases hbkey : b = key
      · rw [hakey, hbkey]
      · rw [(hothers b hbkey).2.1] at hb
        exact absurd ((hself (hakey ▸ ha)).1 ▸ hb) (hother hbkey)
    · rw [(hothers a hakey).2.1] at ha
      by_cases hbkey : b = key
      · exact absurd ((hself (hbkey ▸ hb)).1 ▸ ha) (hother hakey)
      · rw [(hothers b hbkey).2.1] at hb
        exact h.injective a b n ha hb
  · by_cases hsame : n = number
    · -- The key has lost its gate, so nobody stands at it.
      have hline : d'.line key = [] := by
        by_contra hne
        exact hn key (by rw [hgateOf, if_neg hne, hsame])
      rw [hline] at hpasses
      rw [hsame]
      generalize d'.gateAt number = gate at hpasses
      cases hpasses
      rfl
    · rw [hgates n hsame]
      refine h.spare n fun other hsome ↦ ?_
      by_cases hne : other = key
      · exact hsame ((hnumber other n hsome).mpr hne)
      · exact hn other ((hothers other hne).2.1.trans hsome)

theorem Passes.queue {line : List (Visit τ)} {gate : Gate} (h : Passes line gate) (hne : line ≠ [])
    {v : Visit τ} (hv : v.isRunning = false) :
    Passes (line ++ [v]) { gate with queue := gate.queue ++ [v.run.number] } := by
  have hnumbers : ∀ us : List (Visit τ),
      us.map (·.run.number) ++ [v.run.number] = (us ++ [v]).map (·.run.number) := by simp
  have hwait : ∀ us : List (Visit τ), (∀ u ∈ us, u.isRunning = false) →
      ∀ u ∈ us ++ [v], u.isRunning = false := by
    intro us hus u hu
    rcases List.mem_append.mp hu with hu | hu
    · exact hus u hu
    · rwa [List.mem_singleton.mp hu]
  cases h with
  | held hfirst hrest =>
    simp only [List.cons_append, hnumbers]
    exact .held hfirst (hwait _ hrest)
  | free hfree =>
    simp only [hnumbers]
    exact .free (hwait _ hfree)

theorem line_of_append {v : Visit τ} (hvisits : d'.visits = d.visits ++ [v]) (key : String) :
    d'.line key = d.line key ++ if v.run.key = key then [v] else [] := by
  rw [line, hvisits, List.filter_append, List.filter_cons, List.filter_nil, line]
  simp only [beq_iff_eq]

theorem line_of_middle (middle middle' : List (Visit τ)) {before after : List (Visit τ)}
    {key : String} (hvisits : d.visits = before ++ (middle ++ after))
    (hvisits' : d'.visits = before ++ (middle' ++ after)) (hmiddle : ∀ v ∈ middle, v.run.key ≠ key)
    (hmiddle' : ∀ v ∈ middle', v.run.key ≠ key) :
    d'.line key = d.line key := by
  have hnone : ∀ vs : List (Visit τ), (∀ v ∈ vs, v.run.key ≠ key) →
      vs.filter (·.run.key == key) = [] :=
    fun vs hvs ↦ List.filter_eq_nil_iff.mpr fun v hv ↦ by simpa using hvs v hv
  simp only [line, hvisits, hvisits', List.filter_append, hnone _ hmiddle, hnone _ hmiddle']

theorem Gated.enter (h : d.Gated) : d.enter.Gated := by
  obtain ⟨-, hsame⟩ | ⟨run, launched, hlaunched, ⟨number, hgate, heq⟩ | ⟨hgate, heq⟩⟩ :=
    enter_cases h
  · rwa [hsame]
  · obtain ⟨hne, hlt, hpasses⟩ := h.line run.key number hgate
    have hline := line_of_append (congrArg visits heq)
    have hself := hline run.key
    rw [if_pos rfl] at hself
    rw [heq] at hline hself ⊢
    refine h.of_line run.key number (fun other hother ↦ ⟨?_, rfl, ?_⟩) h.gateKeys
      (Ordered.nodup_map_fst_put h.userKeys _ _) ?_ ?_ ?_ ?_ ?_ ?_ ?_ ?_
    · rw [hline, if_neg (Ne.symm hother), List.append_nil]
    · exact Ordered.lookup_put_of_ne hother _ _
    · rw [hself, if_neg (by simp), List.length_append]
      exact Ordered.lookup_put_self _ _ _
    · rw [hself, if_neg (by simp)]
      exact hgate
    · intro v hv
      rw [hself] at hv
      rcases List.mem_append.mp hv with hv | hv
      · exact h.gate_of_mem_line hgate v hv
      · rw [List.mem_singleton.mp hv]
    · exact fun other n hn ↦ h.gate_eq_iff hgate hn
    · rw [List.length_set]
      exact hlt
    · exact Nat.le_of_eq List.length_set.symm
    · rw [hself, gateAt, gateAt_set hlt, if_pos rfl]
      exact hpasses.queue hne rfl
    · intro other hother
      rw [gateAt, gateAt_set hlt, if_neg (Ne.symm hother), gateAt]
  · have hnil := h.line_eq_nil hgate
    have hline := line_of_append (congrArg visits heq)
    have hself := hline run.key
    rw [if_pos rfl, hnil, List.nil_append] at hself
    rw [heq] at hline hself ⊢
    refine h.of_line run.key d.gates.length (fun other hother ↦ ⟨?_, ?_, ?_⟩)
      (Ordered.nodup_map_fst_put h.gateKeys _ _) (Ordered.nodup_map_fst_put h.userKeys _ _) ?_ ?_ ?_
        ?_ ?_ ?_ ?_ ?_
    · rw [hline, if_neg (Ne.symm hother), List.append_nil]
    · exact Ordered.lookup_put_of_ne hother _ _
    · exact Ordered.lookup_put_of_ne hother _ _
    · rw [hself]
      exact Ordered.lookup_put_self _ _ _
    · rw [hself]
      exact Ordered.lookup_put_self _ _ _
    · rw [hself]
      exact fun v hv ↦ List.mem_singleton.mp hv ▸ rfl
    · intro other n hn
      -- A gate that a key has is older than the new one.
      refine ⟨fun he ↦ absurd (h.line other n hn).2.1 (he ▸ Nat.lt_irrefl _), fun he ↦ ?_⟩
      rw [he, hgate] at hn
      cases hn
    · simp [note]
    · simp [note]
    · rw [hself, gateAt]
      simp only [note, List.getElem?_concat_length, Option.getD_some]
      exact .held rfl (List.forall_mem_nil _)
    · intro other hother
      simp only [gateAt, note]
      rcases Nat.lt_trichotomy other d.gates.length with hlt | he | hgt
      · rw [List.getElem?_append_left hlt]
      · exact absurd he hother
      · rw [List.getElem?_eq_none (List.length_append ▸ hgt),
          List.getElem?_eq_none (Nat.le_of_lt hgt)]

theorem Gated.wake (h : d.Gated) (hvisits : (d.visits.map (·.run.number)).Nodup) (number : Nat) :
    (d.wake number).Gated := by
  obtain ⟨hsame, -⟩ | ⟨before, v, after, hsplit, rfl, hwait, hbefore, heq⟩ :=
    wake_cases h hvisits number
  · rwa [hsame]
  · have hgate := h.gate v (hsplit ▸ List.mem_append_right _ List.mem_cons_self)
    obtain ⟨-, hlt, -⟩ := h.line v.run.key v.gate hgate
    have hline := line_eq hsplit
    have hself : (d.wake v.gate).line v.run.key = v.start ::
        after.filter (·.run.key == v.run.key) := by
      rw [heq]
      exact (line_eq (v := v.start) rfl).trans (congrArg (· ++ v.start :: _) hbefore)
    rw [hbefore, List.nil_append] at hline
    rw [heq] at hself ⊢
    refine h.of_line v.run.key v.gate (fun other hother ↦ ⟨?_, rfl, rfl⟩) h.gateKeys h.userKeys
      ?_ ?_ ?_ ?_ ?_ ?_ ?_ ?_
    · exact line_of_middle [v] [v.start] hsplit rfl
        (List.forall_mem_singleton.mpr (Ne.symm hother))
          (List.forall_mem_singleton.mpr (Ne.symm hother))
    · rw [hself, if_neg (by simp)]
      exact (h.users v.run.key).trans (by rw [hline, if_neg (by simp)]; rfl)
    · rw [hself, if_neg (by simp)]
      exact hgate
    · intro u hu
      rw [hself] at hu
      have hsame := h.gate_of_mem_line hgate
      rw [hline] at hsame
      rcases List.mem_cons.mp hu with rfl | hu
      · rfl
      · exact hsame u (List.mem_cons_of_mem _ hu)
    · exact fun other n hn ↦ h.gate_eq_iff hgate hn
    · exact List.length_set.symm ▸ hlt
    · exact Nat.le_of_eq List.length_set.symm
    · rw [hself, gateAt]
      simp only [note]
      rw [gateAt_set hlt, if_pos rfl]
      refine .held rfl fun u hu ↦ hwait u (hline ▸ List.mem_cons_of_mem _ hu)
    · intro other hother
      rw [gateAt]
      simp only [note]
      rw [gateAt_set hlt, if_neg (Ne.symm hother), gateAt]

/-- What is left of the tables when one of some runs for a key leaves. -/
structure Released (key : String) (others : Nat) (d d' : Dispatcher τ ρ) : Prop where
  gateKeys : (d'.gateOf.map Prod.fst).Nodup
  userKeys : (d'.users.map Prod.fst).Nodup
  users : d'.users.lookup key = if others = 0 then none else some (others : Int)
  gateOf : d'.gateOf.lookup key = if others = 0 then none else d.gateOf.lookup key
  /-- Nothing changes for other keys. -/
  rest : ∀ other ≠ key, d'.gateOf.lookup other = d.gateOf.lookup other ∧
    d'.users.lookup other = d.users.lookup other

theorem release_cases {key : String} {others : Nat} (hgateKeys : (d.gateOf.map Prod.fst).Nodup)
    (huserKeys : (d.users.map Prod.fst).Nodup)
    (husers : d.users.lookup key = some ((others + 1 : Nat) : Int)) :
    Released key others d (d.release key) := by
  have hleft : ((others + 1 : Nat) : Int) - 1 = others := by omega
  simp only [release, husers, Option.getD_some, hleft, Int.natCast_eq_zero]
  split
  · next hothers =>
    refine ⟨Ordered.nodup_map_fst_erase hgateKeys key, Ordered.nodup_map_fst_erase huserKeys key,
      ?_, ?_, fun other hother ↦
      ⟨Ordered.lookup_erase_of_ne hother _, Ordered.lookup_erase_of_ne hother _⟩⟩
    · rw [if_pos hothers]
      exact Ordered.lookup_erase_self huserKeys
    · rw [if_pos hothers]
      exact Ordered.lookup_erase_self hgateKeys
  · next hothers =>
    refine ⟨hgateKeys, Ordered.nodup_map_fst_put huserKeys _ _, ?_, ?_,
      fun other hother ↦ ⟨rfl, Ordered.lookup_put_of_ne hother _ _⟩⟩
    · rw [if_neg hothers]
      exact Ordered.lookup_put_self _ _ _
    · rw [if_neg hothers]

theorem sameRuns_settleAll (d : Dispatcher τ ρ) (numbers : List Nat) (outcome : Settled ρ) :
    SameRuns d (d.settleAll numbers outcome) := by
  obtain ⟨settled, hsettled⟩ := d.settleAll_eq numbers outcome
  rw [hsettled]
  exact ⟨⟨rfl, rfl, rfl, rfl⟩, rfl, rfl⟩

theorem sameRuns_answer (d : Dispatcher τ ρ) (numbers : List Nat) (ending : Ending ρ) :
    SameRuns d (d.answer numbers ending) := by
  obtain ⟨settled, hsettled⟩ := d.answer_eq numbers ending
  rw [hsettled]
  exact ⟨⟨rfl, rfl, rfl, rfl⟩, rfl, rfl⟩

theorem Gated.finish (h : d.Gated) (haccounts : d.Accounts) (number : Nat) (ending : Ending ρ) :
    (d.finish number ending).Gated := by
  obtain ⟨hsame, -⟩ | ⟨before, v, after, hsplit, -, hrunning, heq⟩ :=
    finish_cases haccounts number ending
  · rwa [hsame]
  · have hgate := h.gate v (hsplit ▸ List.mem_append_right _ List.mem_cons_self)
    have hlt := (h.line v.run.key v.gate hgate).2.1
    obtain ⟨hbefore, hat, hwait⟩ := h.eq_head hsplit hrunning
    have hline := line_eq hsplit
    rw [hbefore, List.nil_append] at hline
    have husers := h.users v.run.key
    rw [hline, if_neg (by simp), List.length_cons] at husers
    rw [heq]
    refine Gated.of_same ?_ (sameRuns_answer _ _ _).toSameGates
    generalize hleft : note _ _ = left
    have hlines : ∀ key, left.line key = (before ++ after).filter (·.run.key == key) := fun key ↦ by
      rw [← hleft]; rfl
    have hgates : left.gates = d.gates.set v.gate
      { d.gateAt v.gate with isHeld := false } := by rw [← hleft]; rfl
    have hself : left.line v.run.key = after.filter (·.run.key == v.run.key) := by
      rw [hlines, List.filter_append, hbefore, List.nil_append]
    have hreleased : Released v.run.key (left.line v.run.key).length left
        (left.release v.run.key) := by
      rw [hself, ← hleft]
      exact release_cases h.gateKeys h.userKeys husers
    have hgateOf : left.gateOf = d.gateOf := by rw [← hleft]; rfl
    have husers : left.users = d.users := by rw [← hleft]; rfl
    obtain ⟨users, gateOf, hrelease⟩ := release_eq left v.run.key
    rw [hrelease] at hreleased ⊢
    refine h.of_line v.run.key v.gate (fun other hother ↦ ⟨?_, ?_, ?_⟩) hreleased.gateKeys
      hreleased.userKeys ?_ ?_ ?_ (fun other n hn ↦ h.gate_eq_iff hgate hn) ?_ ?_ ?_ ?_
    · exact line_of_middle [v] [] hsplit (hleft ▸ rfl)
        (List.forall_mem_singleton.mpr (Ne.symm hother)) nofun
    · exact (hreleased.rest other hother).1.trans (by rw [hgateOf])
    · exact (hreleased.rest other hother).2.trans (by rw [husers])
    · exact hreleased.users.trans (by simp only [List.length_eq_zero_iff]; rfl)
    · exact hreleased.gateOf.trans (by simp only [List.length_eq_zero_iff, hgateOf, hgate]; rfl)
    · intro u hu
      have hu : u ∈ left.line v.run.key := hu
      rw [hself] at hu
      exact h.gate_of_mem_line hgate u (hline ▸ List.mem_cons_of_mem _ hu)
    · exact (congrArg List.length hgates).trans List.length_set ▸ hlt
    · exact Nat.le_of_eq ((congrArg List.length hgates).trans List.length_set).symm
    · have hstands : Passes (left.line v.run.key) (left.gateAt v.gate) := by
        rw [gateAt, hgates, gateAt_set hlt, if_pos rfl, hat, hself]
        exact .free hwait
      exact hstands
    · intro other hother
      have hstays : left.gateAt other = d.gateAt other := by
        rw [gateAt, hgates, gateAt_set hlt, if_neg (Ne.symm hother), gateAt]
      exact hstays

/-! ## The order of runs -/

theorem launches_note (d : Dispatcher τ ρ) (mark : Mark τ ρ) :
    (d.note mark).launches = d.launches ++ mark.launch?.toList := by
  rw [launches, note, List.filterMap_append]
  cases mark <;> rfl

theorem starts_note (d : Dispatcher τ ρ) (mark : Mark τ ρ) :
    (d.note mark).starts = d.starts ++ mark.start?.toList := by
  rw [starts, note, List.filterMap_append]
  cases mark <;> rfl

theorem ends_note (d : Dispatcher τ ρ) (mark : Mark τ ρ) :
    (d.note mark).ends = d.ends ++ mark.end?.toList := by
  rw [ends, note, List.filterMap_append]
  cases mark <;> rfl

theorem runsFor_append (key : String) (runs runs' : List (Run τ)) :
    runsFor key (runs ++ runs') = runsFor key runs ++ runsFor key runs' := List.filter_append ..

theorem runsFor_singleton (key : String) (run : Run τ) :
    runsFor key [run] = if run.key = key then [run] else [] := by
  rw [runsFor, List.filter_cons, List.filter_nil]
  simp only [beq_iff_eq]

theorem map_run_visitFor (key : String) (v : Visit τ) :
    (if v.run.key = key then [v] else []).map Visit.run = runsFor key [v.run] := by
  rw [runsFor_singleton]
  split <;> rfl

theorem filter_isRunning_eq_nil {vs : List (Visit τ)} (h : ∀ v ∈ vs, v.isRunning = false) :
    vs.filter (·.isRunning) = [] := List.filter_eq_nil_iff.mpr fun v hv ↦ by simp [h v hv]

theorem InOrder.endWait (h : d.InOrder) (hwaiting : d.Waiting) (number : Nat) :
    (d.endWait number).InOrder := by
  obtain ⟨hsame, -⟩ | ⟨w, -, earlier, -, -, -, heq⟩ := endWait_cases hwaiting number
  · rwa [hsame]
  · generalize hrun : (⟨number, w.key, w.task, earlier ++ [number]⟩ : Run τ) = run at heq
    have hlaunched : (d.endWait number).launched = d.launched ++ [run] := by rw [heq]; rfl
    have hline : ∀ key, (d.endWait number).line key = d.line key := fun key ↦ by rw [heq]; rfl
    have hlaunches : (d.endWait number).launches = d.launches ++
      [run] := by rw [heq]; exact launches_note _ _
    have hstarts : (d.endWait number).starts = d.starts := by
      rw [heq]; exact (starts_note _ _).trans (List.append_nil _)
    have hends : (d.endWait number).ends
      = d.ends := by rw [heq]; exact (ends_note _ _).trans (List.append_nil _)
    refine ⟨fun key ↦ ?_, fun key ↦ ?_⟩
    · rw [hlaunches, hends, hline, hlaunched, runsFor_append, runsFor_append, h.launches,
        List.append_assoc, List.append_assoc]
    · rw [hstarts, hends, hline, h.starts]

theorem InOrder.enter (h : d.InOrder) (hgated : d.Gated) : d.enter.InOrder := by
  obtain ⟨-, hsame⟩ | ⟨run, launched, hlaunched, hcases⟩ := enter_cases hgated
  · rwa [hsame]
  · -- The run leaves those launched and comes into line, and starts or does not.
    obtain ⟨v, hv, hlaunched', hvisits, hlaunches, hends, hstarts⟩ : ∃ v : Visit τ, v.run = run ∧
        d.enter.launched = launched ∧ d.enter.visits = d.visits ++ [v] ∧
        d.enter.launches = d.launches ∧
        d.enter.ends = d.ends ∧ d.enter.starts = d.starts ++ if v.isRunning then [run] else [] := by
      obtain ⟨number, -, heq⟩ | ⟨-, heq⟩ := hcases
      · refine ⟨⟨run, number, false⟩, rfl, ?_⟩
        rw [heq]
        exact ⟨rfl, rfl, rfl, rfl, (List.append_nil _).symm⟩
      · refine ⟨⟨run, d.gates.length, true⟩, rfl, ?_⟩
        rw [heq]
        exact ⟨rfl, rfl, (launches_note _ _).trans (List.append_nil _),
          (ends_note _ _).trans (List.append_nil _), starts_note _ _⟩
    have hline := line_of_append hvisits
    refine ⟨fun key ↦ ?_, fun key ↦ ?_⟩
    · have hsplit : runsFor key d.launched = runsFor key [v.run] ++ runsFor key launched := by
        rw [hlaunched, hv]
        exact runsFor_append key [run] launched
      rw [hlaunches, hends, hline, hlaunched', h.launches, hsplit, List.map_append,
        map_run_visitFor, List.append_assoc]
    · rw [hstarts, hends, hline, runsFor_append, h.starts, List.filter_append, List.map_append,
        List.append_assoc]
      refine congrArg _ (congrArg _ ?_)
      cases hrunning : v.isRunning with
      | true =>
        rw [if_pos rfl, ← hv, ← map_run_visitFor]
        split
        · rw [List.filter_cons_of_pos hrunning]
          rfl
        · rfl
      | false =>
        rw [if_neg (by simp)]
        split
        · rw [List.filter_cons_of_neg (by simp [hrunning])]
          rfl
        · rfl

theorem InOrder.wake (h : d.InOrder) (hgated : d.Gated)
    (hvisits : (d.visits.map (·.run.number)).Nodup)
    (number : Nat) : (d.wake number).InOrder := by
  obtain ⟨hsame, -⟩ | ⟨before, v, after, hsplit, -, hwait, hbefore, heq⟩ :=
    wake_cases hgated hvisits number
  · rwa [hsame]
  · have hline := line_eq hsplit
    have hself : (d.wake number).line v.run.key = v.start ::
        after.filter (·.run.key == v.run.key) := by
      rw [heq]
      exact (line_eq (v := v.start) rfl).trans (congrArg (· ++ v.start :: _) hbefore)
    rw [hbefore, List.nil_append] at hline
    have hothers : ∀ key, v.run.key ≠ key → (d.wake number).line key = d.line key := by
      intro key hkey
      rw [heq]
      exact line_of_middle [v] [v.start] hsplit rfl
        (List.forall_mem_singleton.mpr hkey) (List.forall_mem_singleton.mpr hkey)
    have hlaunched : (d.wake number).launched = d.launched := by rw [heq]; rfl
    have hlaunches : (d.wake number).launches = d.launches := by
      rw [heq]; exact (launches_note _ _).trans (List.append_nil _)
    have hstarts : (d.wake number).starts = d.starts ++
      [v.run] := by rw [heq]; exact starts_note _ _
    have hends : (d.wake number).ends
      = d.ends := by rw [heq]; exact (ends_note _ _).trans (List.append_nil _)
    refine ⟨fun key ↦ ?_, fun key ↦ ?_⟩
    · rw [hlaunches, hends, hlaunched, h.launches]
      by_cases hkey : v.run.key = key
      · rw [← hkey, hself, hline]
        rfl
      · rw [hothers key hkey]
    · rw [hstarts, hends, runsFor_append, runsFor_singleton, h.starts, List.append_assoc]
      refine congrArg _ ?_
      by_cases hkey : v.run.key = key
      · have hrest : ∀ u ∈ after.filter (·.run.key == v.run.key), u.isRunning = false :=
          fun u hu ↦ hwait u (hline ▸ List.mem_cons_of_mem _ hu)
        rw [if_pos hkey, ← hkey, hself, filter_isRunning_eq_nil hwait, List.filter_cons_of_pos rfl,
          filter_isRunning_eq_nil hrest]
        rfl
      · rw [if_neg hkey, hothers key hkey, List.append_nil]

theorem InOrder.finish (h : d.InOrder) (hgated : d.Gated) (haccounts : d.Accounts) (number : Nat)
    (ending : Ending ρ) : (d.finish number ending).InOrder := by
  obtain ⟨hsame, -⟩ | ⟨before, v, after, hsplit, -, hrunning, heq⟩ :=
    finish_cases haccounts number ending
  · rwa [hsame]
  · obtain ⟨hbefore, -, hwait⟩ := hgated.eq_head hsplit hrunning
    have hline := line_eq hsplit
    rw [hbefore, List.nil_append] at hline
    rw [heq]
    refine InOrder.of_same ?_ (sameRuns_answer _ _ _)
    generalize hleft : note _ _ = left
    obtain ⟨users, gateOf, hrelease⟩ := release_eq left v.run.key
    rw [hrelease]
    have hself : left.line v.run.key = after.filter (·.run.key == v.run.key) := by
      have hnone := congrArg (· ++ after.filter (·.run.key == v.run.key)) hbefore
      rw [← hleft, line]
      exact (List.filter_append before after).trans hnone
    have hothers : ∀ key, v.run.key ≠ key → left.line key = d.line key := fun key hkey ↦
      line_of_middle [v] [] hsplit (hleft ▸ rfl) (List.forall_mem_singleton.mpr hkey) nofun
    have hlaunched : left.launched = d.launched := by rw [← hleft]; rfl
    have hlaunches : left.launches = d.launches := by
      rw [← hleft]; exact (launches_note _ _).trans (List.append_nil _)
    have hstarts : left.starts
      = d.starts := by rw [← hleft]; exact (starts_note _ _).trans (List.append_nil _)
    have hends : left.ends = d.ends ++ [v.run] := by rw [← hleft]; exact ends_note _ _
    have horder : left.InOrder := by
      refine ⟨fun key ↦ ?_, fun key ↦ ?_⟩
      · rw [hlaunches, hends, hlaunched, h.launches, runsFor_append, runsFor_singleton,
          List.append_assoc]
        refine congrArg _ ?_
        by_cases hkey : v.run.key = key
        · rw [if_pos hkey, ← hkey, hself, hline]
          rfl
        · rw [if_neg hkey, hothers key hkey, List.nil_append]
      · rw [hstarts, hends, h.starts, runsFor_append, runsFor_singleton, List.append_assoc]
        refine congrArg _ ?_
        by_cases hkey : v.run.key = key
        · rw [if_pos hkey, ← hkey, hself, hline, List.filter_cons_of_pos hrunning,
            filter_isRunning_eq_nil hwait]
          rfl
        · rw [if_neg hkey, hothers key hkey, List.nil_append]
    exact ⟨horder.launches, horder.starts⟩

/-! ## Every course of moves -/

/-- Everything that a dispatcher keeps is in its place. -/
structure Sound (d : Dispatcher τ ρ) : Prop where
  waiting : d.Waiting
  accounts : d.Accounts
  gated : d.Gated
  inOrder : d.InOrder

theorem sound_empty : ({} : Dispatcher τ ρ).Sound :=
    ⟨waiting_empty, accounts_empty, gated_empty, inOrder_empty⟩

theorem sameRuns_request (h : d.Waiting) (key : String) (task : τ) :
    SameRuns d (d.request key task) := by
  rw [request_eq h]
  exact ⟨⟨rfl, rfl, rfl, rfl⟩, rfl, rfl⟩

theorem sameRuns_cancel (h : d.Handled) (key : String) : SameRuns d (d.cancel key) := by
  rw [cancel_eq h]
  refine .trans ?_ (sameRuns_settleAll _ _ _)
  exact ⟨⟨rfl, rfl, rfl, rfl⟩, rfl, rfl⟩

theorem sameRuns_close (h : d.Waiting) : SameRuns d d.close := by
  rw [close]
  generalize d.handles.map Prod.fst = keys
  induction keys generalizing d with
  | nil => exact .refl d
  | cons key rest ih => exact (sameRuns_cancel h.toHandled key).trans (ih (h.cancel key))

theorem sameRuns_abandon (d : Dispatcher τ ρ) (number : Nat) : SameRuns d (d.abandon number) := by
  rw [abandon]
  split
  · rw [settle]
    split <;> exact ⟨⟨rfl, rfl, rfl, rfl⟩, rfl, rfl⟩
  · exact .refl d

theorem sameRuns_pass (d : Dispatcher τ ρ) (time : Nat) : SameRuns d (d.pass time) := by
  rw [pass]
  split <;> exact ⟨⟨rfl, rfl, rfl, rfl⟩, rfl, rfl⟩

theorem Sound.of_sameRuns (h : d.Sound) (hwaiting : d'.Waiting) (haccounts : d'.Accounts)
    (hsame : SameRuns d d') : d'.Sound :=
  ⟨hwaiting, haccounts, h.gated.of_same hsame.toSameGates, h.inOrder.of_same hsame⟩

theorem Sound.move (h : d.Sound) (move : Move τ ρ) : (d.move move).Sound := by
  have hwaiting := h.waiting.move move
  have haccounts := h.accounts.move h.waiting move
  cases move with
  | request key task => exact h.of_sameRuns hwaiting haccounts (sameRuns_request h.waiting key task)
  | cancel key => exact h.of_sameRuns hwaiting haccounts (sameRuns_cancel h.waiting.toHandled key)
  | close => exact h.of_sameRuns hwaiting haccounts (sameRuns_close h.waiting)
  | abandon number => exact h.of_sameRuns hwaiting haccounts (sameRuns_abandon d number)
  | setDelay delay => exact h.of_sameRuns hwaiting haccounts ⟨⟨rfl, rfl, rfl, rfl⟩, rfl, rfl⟩
  | pass time => exact h.of_sameRuns hwaiting haccounts (sameRuns_pass d time)
  | endWait number =>
    refine ⟨hwaiting, haccounts, h.gated.of_same ?_, h.inOrder.endWait h.waiting number⟩
    obtain ⟨hsame, -⟩ | ⟨w, -, earlier, -, -, -, heq⟩ := endWait_cases h.waiting number
    · rw [Dispatcher.move, hsame]
      exact ⟨rfl, rfl, rfl, rfl⟩
    · rw [Dispatcher.move, heq]
      exact ⟨rfl, rfl, rfl, rfl⟩
  | enter => exact ⟨hwaiting, haccounts, h.gated.enter, h.inOrder.enter h.gated⟩
  | wake gate =>
    exact ⟨hwaiting, haccounts, h.gated.wake h.accounts.nodup_visits gate,
      h.inOrder.wake h.gated h.accounts.nodup_visits gate⟩
  | finish number ending =>
    exact ⟨hwaiting, haccounts, h.gated.finish h.accounts number ending,
      h.inOrder.finish h.gated h.accounts number ending⟩

theorem Sound.follow (h : d.Sound) (moves : List (Move τ ρ)) :
    (moves.foldl Dispatcher.move d).Sound := by
  induction moves generalizing d with
  | nil => exact h
  | cons move rest ih => exact ih (h.move move)

theorem sound_follow (moves : List (Move τ ρ)) : (follow moves).Sound := sound_empty.follow moves

theorem Passes.filter_isRunning {line : List (Visit τ)} {gate : Gate} (h : Passes line gate) :
    (line.filter (·.isRunning)).length ≤ 1 ∧ line.filter (·.isRunning) <+: line := by
  cases h with
  | held hfirst hrest =>
    rw [List.filter_cons_of_pos hfirst, filter_isRunning_eq_nil hrest]
    exact ⟨Nat.le_refl 1, List.prefix_append [_] _⟩
  | free hfree =>
    rw [filter_isRunning_eq_nil hfree]
    exact ⟨Nat.zero_le 1, List.nil_prefix⟩

theorem Gated.filter_isRunning (h : d.Gated) (key : String) :
    ((d.line key).filter (·.isRunning)).length ≤ 1 ∧
    (d.line key).filter (·.isRunning) <+: d.line key := by
  cases hgate : d.gateOf.lookup key with
  | none =>
    rw [h.line_eq_nil hgate]
    exact ⟨Nat.zero_le 1, List.prefix_refl []⟩
  | some number => exact (h.line key number hgate).2.2.filter_isRunning

theorem Gated.isSome_gateOf_iff (h : d.Gated) (key : String) :
    (d.gateOf.lookup key).isSome ↔ d.line key ≠ [] := by
  cases hgate : d.gateOf.lookup key with
  | none => simp [h.line_eq_nil hgate]
  | some number => simp [(h.line key number hgate).1]

theorem InOrder.starts_prefix (h : d.InOrder) (hgated : d.Gated) (key : String) :
    runsFor key d.starts <+: runsFor key d.launches := by
  have hfirst := (hgated.filter_isRunning key).2.map Visit.run
  rw [h.starts, h.launches, List.prefix_append_right_inj]
  exact hfirst.trans (List.prefix_append _ _)

theorem visits_eq_nil_iff : d.visits = [] ↔ ∀ key, d.line key = [] := by
  refine ⟨fun h key ↦ by rw [line, h, List.filter_nil], fun h ↦ ?_⟩
  refine List.eq_nil_iff_forall_not_mem.mpr fun v hv ↦ ?_
  have hline : v ∈ d.line v.run.key := mem_line.mpr ⟨hv, rfl⟩
  rw [h v.run.key] at hline
  cases hline

theorem eq_nil_iff_lookup {α : Type} {table : List (String × α)} :
    table = [] ↔ ∀ key, table.lookup key = none := by
  refine ⟨fun h key ↦ by rw [h, List.lookup_nil], fun h ↦ ?_⟩
  refine List.eq_nil_iff_forall_not_mem.mpr fun e he ↦ ?_
  have hsome := Ordered.isSome_lookup_iff.mpr (List.mem_map_of_mem (f := Prod.fst) he)
  rw [h e.1] at hsome
  cases hsome

/-- **The runs for a key follow one another, in the order in which they were launched.** Whatever
moves are made, the runs for a key that have been launched are those that have ended, those in line
at the gate, and those that have not come to it. The ones that have started are those that have
ended and one more at most. The key has a gate, and a count of the runs in line, exactly while there
are any, so no run leaves anything behind. -/
theorem runs_follow_one_another (moves : List (Move τ ρ)) :
    (∀ key,
      runsFor key (follow moves).launches = runsFor key (follow moves).ends ++
        (((follow moves).line key).map Visit.run ++ runsFor key (follow moves).launched) ∧
      (∃ running : List (Run τ), running.length ≤ 1 ∧
        runsFor key (follow moves).starts = runsFor key (follow moves).ends ++ running) ∧
      runsFor key (follow moves).starts <+: runsFor key (follow moves).launches ∧
      (follow moves).users.lookup key =
        (if (follow moves).line key = [] then none
          else some (((follow moves).line key).length : Int)) ∧
      (((follow moves).gateOf.lookup key).isSome ↔ 0 < ((follow moves).line key).length)) ∧
    ((follow moves).users = [] ↔ (follow moves).visits = []) ∧
    ((follow moves).gateOf = [] ↔ (follow moves).visits = []) := by
  obtain ⟨-, -, hgated, horder⟩ := sound_follow moves
  generalize follow moves = d at hgated horder
  refine ⟨fun key ↦ ⟨horder.launches key, ⟨_, ?_, horder.starts key⟩, ?_, hgated.users key, ?_⟩, ?_,
    ?_⟩
  · rw [List.length_map]
    exact (hgated.filter_isRunning key).1
  · exact horder.starts_prefix hgated key
  · rw [hgated.isSome_gateOf_iff, List.length_pos_iff]
  · rw [visits_eq_nil_iff, eq_nil_iff_lookup]
    refine forall_congr' fun key ↦ ?_
    rw [hgated.users key]
    simp
  · rw [visits_eq_nil_iff, eq_nil_iff_lookup]
    refine forall_congr' fun key ↦ ?_
    rw [← Option.not_isSome_iff_eq_none, hgated.isSome_gateOf_iff, not_not]

end Dispatcher

end MissionIndex.Schedule
