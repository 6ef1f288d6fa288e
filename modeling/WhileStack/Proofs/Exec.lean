/-! Computations that change a state and may stop, applied to a state. -/
namespace WhileStack.Exec
variable {α β ε σ : Type} (s : σ)

@[simp] theorem pure_apply (a : α) : (pure a : EStateM ε σ α) s = .ok a s := rfl

@[simp] theorem bind_apply (x : EStateM ε σ α) (f : α → EStateM ε σ β) :
    (x >>= f) s = match x s with
      | .ok a s' => f a s'
      | .error e s' => .error e s' := by
  cases h : x s <;> simp [bind, EStateM.bind, h]

@[simp] theorem map_apply (f : α → β) (x : EStateM ε σ α) :
    (f <$> x) s = match x s with
      | .ok a s' => .ok (f a) s'
      | .error e s' => .error e s' := by
  cases h : x s <;> simp [Functor.map, EStateM.map, h]

@[simp] theorem get_apply : (get : EStateM ε σ σ) s = .ok s s := rfl

@[simp] theorem throw_apply (e : ε) : (throw e : EStateM ε σ α) s = .error e s := rfl

@[simp] theorem modify_apply (f : σ → σ) : (modify f : EStateM ε σ PUnit) s = .ok ⟨⟩ (f s) := rfl

@[simp] theorem modifyGet_apply (f : σ → α × σ) : (modifyGet f : EStateM ε σ α) s = .ok (f s).1 (f s).2 := rfl

omit s in
theorem bind_eq_ok {x : EStateM ε σ α} {f : α → EStateM ε σ β} {b : β} {s s' : σ} :
    (x >>= f) s = .ok b s' ↔ ∃ a s'', x s = .ok a s'' ∧ f a s'' = .ok b s' := by
  rw [bind_apply]
  cases x s <;> simp [and_assoc]

omit s in
/-- A part that does not see the inner state leaves it as it is. -/
theorem lift_bind {τ : Type} (x : EStateM ε σ α) (f : α → StateT τ (EStateM ε σ) β) (t : τ) :
    (liftM x >>= f : StateT τ (EStateM ε σ) β) t = x >>= fun a => f a t := by
  have h : (liftM x >>= f : StateT τ (EStateM ε σ) β) t = (x >>= fun a => pure (a, t)) >>= fun p => f p.1 p.2 := rfl
  rw [h, bind_assoc]
  simp only [pure_bind]

omit s in
theorem run_bind_eq_ok {τ : Type} {x : StateT τ (EStateM ε σ) α} {f : α → StateT τ (EStateM ε σ) β} {t : τ} {s s' : σ}
    {r : β × τ} : (x >>= f) t s = .ok r s' ↔ ∃ a t' s'', x t s = .ok (a, t') s'' ∧ f a t' s'' = .ok r s' := by
  have h : (x >>= f) t s = (x t >>= fun p => f p.1 p.2) s := rfl
  rw [h, bind_apply]
  cases hx : x t s with
  | ok p s'' =>
    obtain ⟨a, t'⟩ := p
    simp [and_assoc]
  | error e s'' => simp

end WhileStack.Exec

/-! Computations that give a result and a state, or an error alone. -/
namespace WhileStack.Partial
variable {α β ε σ : Type} {s s' : σ} {a b : α}

theorem bind_eq_ok {x : StateT σ (Except ε) α} {f : α → StateT σ (Except ε) β} {r : β × σ} :
    (x >>= f) s = .ok r ↔ ∃ a s', x s = .ok (a, s') ∧ f a s' = .ok r := by
  rcases h : x s with e | ⟨a, s'⟩ <;> simp [bind, StateT.bind, Except.bind, h, and_assoc]

theorem pure_eq_ok : (pure a : StateT σ (Except ε) α) s = .ok (b, s') ↔ a = b ∧ s = s' := by
  show (Except.ok (a, s) : Except ε (α × σ)) = .ok (b, s') ↔ a = b ∧ s = s'
  simp

@[simp] theorem mapError_ok {ε' : Type} (f : ε → ε') : (Except.ok a : Except ε α).mapError f = .ok a := rfl

@[simp] theorem mapError_error {ε' : Type} (f : ε → ε') (e : ε) :
    (Except.error e : Except ε α).mapError f = .error (f e) := rfl

theorem mapError_eq_ok {ε' : Type} {f : ε → ε'} {x : Except ε α} : x.mapError f = .ok a ↔ x = .ok a := by
  cases x <;> simp

theorem ok_then (a : α) (f : α → Except ε β) : Except.ok a >>= f = f a := rfl

/-- As `bind_eq_ok`, where there is no state. -/
theorem then_eq_ok {x : Except ε α} {f : α → Except ε β} {b : β} : x >>= f = .ok b ↔ ∃ a, x = .ok a ∧ f a = .ok b := by
  cases x <;> simp [bind, Except.bind]

theorem then_eq_error {x : Except ε α} {f : α → Except ε β} {e : ε} :
    x >>= f = .error e ↔ x = .error e ∨ ∃ a, x = .ok a ∧ f a = .error e := by
  cases x <;> simp [bind, Except.bind]

theorem then_congr {x : Except ε α} {f g : α → Except ε β} (h : ∀ a, x = .ok a → f a = g a) : x >>= f = x >>= g := by
  cases x with
  | ok a => exact h a rfl
  | error e => rfl

theorem map_eq_ok {x : Except ε α} {f : α → β} {b : β} : x.map f = .ok b ↔ ∃ a, x = .ok a ∧ f a = b := by
  cases x <;> simp [Except.map]

theorem exists_eq_ok {x : Except ε α} (h : x.toOption.isSome = true) : ∃ a, x = .ok a := by
  cases x with
  | ok a => exact ⟨a, rfl⟩
  | error e => cases h

theorem eq_ok_of_toOption_map {x : Except ε α} {f : α → β} {b : β} (h : x.toOption.map f = some b) :
    ∃ a, x = .ok a ∧ f a = b := by
  cases x with
  | ok a => exact ⟨a, rfl, Option.some.inj h⟩
  | error e => cases h

theorem throw_ne_ok {e : ε} {r : α × σ} : (throw e : StateT σ (Except ε) α) s ≠ .ok r := nofun

end WhileStack.Partial
