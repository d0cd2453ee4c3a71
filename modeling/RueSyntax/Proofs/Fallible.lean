/-!
# Steps that may fail

A step on a state answers or fails, and what it has changed by then stays changed.  The lemmas say
how steps run one after the other and how a failure is caught.
-/

namespace RueSyntax

namespace Fallible

variable {ε σ α β : Type}

theorem run_bind (x : ExceptT ε (StateM σ) α) (f : α → ExceptT ε (StateM σ) β) (s : σ) :
    (x >>= f).run s = match x.run s with
      | (.ok a, s') => (f a).run s'
      | (.error e, s') => (.error e, s') := by
  show (x >>= f).run.run s = _
  rw [ExceptT.run_bind, StateT.run_bind]
  show (match (x.run s).1 with
    | .ok a => (f a).run
    | .error e => pure (.error e) : StateM σ (Except ε β)).run (x.run s).2 = _
  cases x.run s with
  | mk r s' => cases r <;> rfl

theorem run_tryCatch (x : ExceptT ε (StateM σ) α) (f : ε → ExceptT ε (StateM σ) α) (s : σ) :
    (tryCatch x f).run s = match x.run s with
      | (.ok a, s') => (.ok a, s')
      | (.error e, s') => (f e).run s' := by
  show (tryCatch x f).run.run s = _
  rw [ExceptT.run_tryCatch, StateT.run_bind]
  show (match (x.run s).1 with
    | .ok a => pure (.ok a)
    | .error e => (f e).run : StateM σ (Except ε α)).run (x.run s).2 = _
  cases x.run s with
  | mk r s' => cases r <;> rfl

variable {x : ExceptT ε (StateM σ) α} {f : α → ExceptT ε (StateM σ) β} {s s' : σ}

theorem run_bind_ok {a : α} (h : x.run s = (.ok a, s')) : (x >>= f).run s = (f a).run s' := by
  rw [run_bind, h]

theorem run_bind_error {e : ε} (h : x.run s = (.error e, s')) :
    (x >>= f).run s = (.error e, s') := by
  rw [run_bind, h]

/-- What succeeds in two steps has succeeded in each. -/
theorem exists_of_run_bind {b : β} (h : (x >>= f).run s = (.ok b, s')) :
    ∃ a s₁, x.run s = (.ok a, s₁) ∧ (f a).run s₁ = (.ok b, s') := by
  rw [run_bind] at h
  rcases hx : x.run s with ⟨e | a, s₁⟩
  · rw [hx] at h
    cases h
  · rw [hx] at h
    exact ⟨a, s₁, rfl, h⟩

end Fallible

end RueSyntax
