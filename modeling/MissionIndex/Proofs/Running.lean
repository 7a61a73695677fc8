/-!
# Computations that may end early

A computation that keeps a state may end early, and the state stays what it was then. One
computation after another is run in the state that the first one leaves (`run_bind`), and a loop of
computations that never end early goes along with a fold (`exists_run_foldlM_eq`).
-/

namespace MissionIndex

variable {ε σ α β τ : Type}

theorem run_bind (a : ExceptT ε (StateM σ) α) (f : α → ExceptT ε (StateM σ) β) (s : σ) :
    (a >>= f).run.run s = match a.run.run s with
      | (.ok x, next) => (f x).run.run next
      | (.error fault, next) => (.error fault, next) := by
  simp only [ExceptT.run, StateT.run, bind, ExceptT.bind, ExceptT.mk, StateT.bind]
  cases a s with
  | mk result next => cases result <;> rfl

/-- What holds of the state and the result along with the value of a fold, and is kept by each step,
holds in the end. In particular, there is an end. -/
theorem exists_run_foldlM_eq {holds : τ → β → σ → Prop} {step : τ → α → τ}
    {act : β → α → ExceptT ε (StateM σ) β} {items : List α}
    (hstep : ∀ item ∈ items, ∀ t b s, holds t b s →
      ∃ b' s', (act b item).run.run s = (.ok b', s') ∧ holds (step t item) b' s')
    {t : τ} {b : β} {s : σ} (h : holds t b s) :
    ∃ b' s', (items.foldlM act b).run.run s = (.ok b', s') ∧ holds (items.foldl step t) b' s' := by
  induction items generalizing t b s with
  | nil => exact ⟨b, s, rfl, h⟩
  | cons item items ih =>
    obtain ⟨hitem, hitems⟩ := List.forall_mem_cons.mp hstep
    obtain ⟨b', s', hrun, h'⟩ := hitem t b s h
    obtain ⟨last, final, hrest, hfinal⟩ := ih hitems h'
    refine ⟨last, final, ?_, hfinal⟩
    rw [List.foldlM_cons, run_bind, hrun]
    exact hrest

end MissionIndex
