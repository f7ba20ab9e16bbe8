/-! Work that may stop before its end: if it comes to its end, so have its steps. -/
namespace Predictive

variable {ε σ α β : Type}

theorem exists_of_bind {x : Except ε α} {w : α → Except ε β} {b : β} (h : x.bind w = .ok b) :
    ∃ a, x = .ok a ∧ w a = .ok b := by
  cases x with
  | error e => cases h
  | ok a => exact ⟨a, rfl, h⟩

theorem exists_of_map {x : Except ε α} {f : α → β} {b : β} (h : x.map f = .ok b) : ∃ a, x = .ok a ∧ f a = b := by
  cases x with
  | error e => cases h
  | ok a => exact ⟨a, rfl, Except.ok.inj h⟩

variable {w : EStateM ε σ α} {k : α → EStateM ε σ β} {s s' : σ}

theorem bind_eq_error {e : ε} (h : (w >>= k) s = .error e s') :
    w s = .error e s' ∨ ∃ a s₁, w s = .ok a s₁ ∧ k a s₁ = .error e s' := by
  change EStateM.bind w k s = _ at h
  unfold EStateM.bind at h
  cases hw : w s with
  | ok a s₁ =>
    rw [hw] at h
    exact .inr ⟨a, s₁, rfl, h⟩
  | error e' s₁ =>
    rw [hw] at h
    cases h
    exact .inl rfl

theorem bind_eq_ok {b : β} (h : (w >>= k) s = .ok b s') : ∃ a s₁, w s = .ok a s₁ ∧ k a s₁ = .ok b s' := by
  change EStateM.bind w k s = _ at h
  unfold EStateM.bind at h
  cases hw : w s with
  | ok a s₁ =>
    rw [hw] at h
    exact ⟨a, s₁, rfl, h⟩
  | error e s₁ =>
    rw [hw] at h
    cases h

end Predictive
