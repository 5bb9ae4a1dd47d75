/-
  Actions: computations with a state that can fail.
-/
namespace JavaToCpp

variable {σ ε ε' α β : Type} {s s' : σ}

theorem ok_or_error : ∀ x : Except ε α, (∃ a, x = .ok a) ∨ ∃ e, x = .error e
  | .ok a => .inl ⟨a, rfl⟩
  | .error e => .inr ⟨e, rfl⟩

theorem run_bind (a : ExceptT ε (StateM σ) α) (f : α → ExceptT ε (StateM σ) β) (s : σ) : (a >>= f).run s =
      match a.run s with
      | (.ok x, s₁) => (f x).run s₁
      | (.error e, s₁) => (.error e, s₁) := by
  change StateT.bind a (ExceptT.bindCont f) s = _
  cases ha : a.run s with
  | mk r s₁ =>
    have ha : a s = (r, s₁) := ha
    cases r <;> simp only [StateT.bind, ha, bind] <;> rfl

theorem run_get_bind (f : σ → ExceptT ε (StateM σ) β) (s : σ) : (get >>= f).run s = (f s).run s := by
  have hget : (get : ExceptT ε (StateM σ) σ).run s = (.ok s, s) := rfl
  rw [run_bind, hget]

theorem run_lift_bind (x : Except ε α) (f : α → ExceptT ε (StateM σ) β) (s : σ) :
    ((liftM x : ExceptT ε (StateM σ) α) >>= f).run s =
      match x with
      | .ok y => (f y).run s
      | .error e => (.error e, s) := by
  have hlift : (liftM x : ExceptT ε (StateM σ) α).run s = (x, s) := rfl
  rw [run_bind, hlift]
  cases x <;> rfl

theorem run_adapt (f : ε → ε') (a : ExceptT ε (StateM σ) α) (s : σ) :
    (ExceptT.adapt f a).run s = ((a.run s).1.mapError f, (a.run s).2) := rfl

variable {a : ExceptT ε (StateM σ) α}

theorem bind_cases {f : α → ExceptT ε (StateM σ) β} {r : Except ε β} (h : (a >>= f).run s = (r, s')) :
    (∃ x s₁, a.run s = (.ok x, s₁) ∧ (f x).run s₁ = (r, s')) ∨
      ∃ e, a.run s = (.error e, s') ∧ r = .error e := by
  rw [run_bind] at h
  split at h
  · rename_i x s₁ ha
    exact .inl ⟨x, s₁, ha, h⟩
  · rename_i e s₁ ha
    cases h
    exact .inr ⟨e, ha, rfl⟩

theorem adapt_cases {f : ε → ε'} {r : Except ε' α} (h : (ExceptT.adapt f a).run s = (r, s')) :
    (∃ x, a.run s = (.ok x, s') ∧ r = .ok x) ∨ ∃ e, a.run s = (.error e, s') ∧ r = .error (f e) := by
  rw [run_adapt] at h
  match ha : a.run s with
  | (.ok x, s₁) =>
    rw [ha] at h
    cases h
    exact .inl ⟨x, rfl, rfl⟩
  | (.error e, s₁) =>
    rw [ha] at h
    cases h
    exact .inr ⟨e, rfl, rfl⟩

theorem bind_adapt_cases {f : ε → ε'} {k : α → ExceptT ε' (StateM σ) β} {r : Except ε' β}
    (h : (ExceptT.adapt f a >>= k).run s = (r, s')) :
    (∃ x s₁, a.run s = (.ok x, s₁) ∧ (k x).run s₁ = (r, s')) ∨
      ∃ e, a.run s = (.error e, s') ∧ r = .error (f e) := by
  rcases bind_cases h with ⟨x, s₁, hadapt, h⟩ | ⟨e, hadapt, rfl⟩
  · rcases adapt_cases hadapt with ⟨_, ha, hx⟩ | ⟨_, _, hx⟩
    · cases hx
      exact .inl ⟨x, s₁, ha, h⟩
    · cases hx
  · rcases adapt_cases hadapt with ⟨_, _, he⟩ | ⟨e', ha, he⟩
    · cases he
    · cases he
      exact .inr ⟨e', ha, rfl⟩

end JavaToCpp
