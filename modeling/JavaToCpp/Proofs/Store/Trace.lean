/-
  What actions do to a store.
-/
import JavaToCpp.Proofs.Action
import JavaToCpp.Store.Basic

namespace JavaToCpp.Store

variable {s s' : Store}

/-! ## Statements -/

/-- The store that a statement was noted in, with what is planned then. -/
def noted (s : Store) (st : Statement) (plan : Plan) : Store := { s with log := s.log ++ [st], plan }

variable {r : Except Event Unit}

theorem send_cases {st : Statement} (h : (send st).run s = (r, s')) :
    ∃ plan, r = .ok () ∧ s' = (s.noted st plan).after st ∨
      r = .error st.event ∧ s' = (s.noted st plan).afterFailed st := by
  refine ⟨(s.plan.next st.event).2, ?_⟩
  have hrun : (send st).run s = if (s.plan.next st.event).1 then
      (.ok (), (s.noted st (s.plan.next st.event).2).after st)
      else (.error st.event, (s.noted st (s.plan.next st.event).2).afterFailed st) := rfl
  rw [hrun] at h
  split at h
  · cases h
    exact .inl ⟨rfl, rfl⟩
  · cases h
    exact .inr ⟨rfl, rfl⟩

theorem happen_cases {e : Event} (h : (happen e).run s = (r, s')) :
    ∃ plan, s' = { s with plan } ∧ (r = .ok () ∨ r = .error e) := by
  have hrun : (happen e).run s = (if (s.plan.next e).1 then .ok () else .error e,
      { s with plan := (s.plan.next e).2 }) := rfl
  rw [hrun] at h
  refine ⟨_, (Prod.mk.inj h).2.symm, ?_⟩
  rw [← (Prod.mk.inj h).1]
  split
  · exact .inl rfl
  · exact .inr rfl

/-- The statements lead from one store to the other, and each is safe where it is sent. -/
inductive Trace (safe : Store → Statement → Prop) : Store → List Statement → Store → Prop
  | done {s : Store} : Trace safe s [] s
  | send {s s' : Store} {st : Statement} {sts : List Statement} : safe s st →
      Trace safe ((send st).run s).2 sts s' → Trace safe s (st :: sts) s'
  | happen {s s' : Store} {e : Event} {sts : List Statement} :
      Trace safe ((happen e).run s).2 sts s' → Trace safe s sts s'

variable {safe : Store → Statement → Prop} {sts : List Statement}

theorem Trace.append {s₁ : Store} {sts₁ : List Statement} (h : Trace safe s sts s₁)
    (h₁ : Trace safe s₁ sts₁ s') : Trace safe s (sts ++ sts₁) s' := by
  induction h with
  | done => exact h₁
  | send hsafe _ ih => exact .send hsafe (ih h₁)
  | happen _ ih => exact .happen (ih h₁)

theorem log_send (s : Store) (st : Statement) : ((Store.send st).run s).2.log = s.log ++ [st] := by
  match h : (Store.send st).run s with
  | (r, s') =>
    obtain ⟨plan, ⟨-, rfl⟩ | ⟨-, rfl⟩⟩ := send_cases h
    · cases st <;> rfl
    · cases st <;> rfl

theorem Trace.log (h : Trace safe s sts s') : s'.log = s.log ++ sts := by
  induction h with
  | done => rw [List.append_nil]
  | send _ _ ih => rw [ih, log_send, List.append_assoc]; rfl
  | happen _ ih => exact ih

def Traced (safe : Store → Statement → Prop) (s s' : Store) : Prop := ∃ sts, Trace safe s sts s'

theorem Traced.refl (s : Store) : Traced safe s s := ⟨[], .done⟩

theorem Traced.trans {s₁ : Store} (h : Traced safe s s₁) (h₁ : Traced safe s₁ s') : Traced safe s s' := by
  obtain ⟨sts, h⟩ := h
  obtain ⟨sts₁, h₁⟩ := h₁
  exact ⟨sts ++ sts₁, h.append h₁⟩

theorem traced_send {st : Statement} (h : (send st).run s = (r, s'))
    (hsafe : safe s st) : Traced safe s s' := by
  refine ⟨[st], .send hsafe ?_⟩
  rw [h]
  exact .done

theorem traced_happen {e : Event} (h : (happen e).run s = (r, s')) : Traced safe s s' := by
  refine ⟨[], .happen (e := e) ?_⟩
  rw [h]
  exact .done

end JavaToCpp.Store
