/-
  Computations that can fail, from the side of their success.
-/
import Mathlib.Data.List.Forall2

namespace JavaToCpp

open List

variable {ε α β γ : Type} {f : α → Except ε β} {b : β}

theorem bind_eq_ok {x : Except ε α} : x >>= f = .ok b ↔ ∃ a, x = .ok a ∧ f a = .ok b := by
  cases x <;> simp [bind, Except.bind]

theorem map_eq_ok {x : Except ε α} {f : α → β} : x.map f = .ok b ↔ ∃ a, x = .ok a ∧ f a = b := by
  cases x <;> simp [Except.map]

theorem toOption_bind (x : Except ε α) :
    (x >>= f).toOption = x.toOption.bind fun a => (f a).toOption := by
  cases x <;> rfl

theorem toOption_map (f : α → β) (x : Except ε α) : (x.map f).toOption = x.toOption.map f := by
  cases x <;> rfl

theorem exists_of_any {f : α → Bool} : ∀ {x : Except ε α}, x.toOption.any f → ∃ a, x = .ok a ∧ f a
  | .ok a, h => ⟨a, rfl, h⟩

theorem forM_eq_ok {f : α → Except ε Unit} : ∀ {xs : List α}, xs.forM f = .ok () → ∀ x ∈ xs, f x = .ok ()
  | [], _ => by simp
  | x :: xs, h => by
    obtain ⟨⟨⟩, hx, h⟩ := bind_eq_ok.1 h
    exact forall_mem_cons.2 ⟨hx, forM_eq_ok h⟩

theorem mapM_eq_ok :
    ∀ {as : List α} {bs : List β}, as.mapM f = .ok bs ↔ Forall₂ (fun a b => f a = .ok b) as bs
  | [], bs => by simp [pure, Except.pure, eq_comm]
  | a :: as, bs => by
    rw [mapM_cons, bind_eq_ok, forall₂_cons_left_iff]
    constructor
    · rintro ⟨b, hb, h⟩
      obtain ⟨bs', hbs, h⟩ := bind_eq_ok.1 h
      cases h
      exact ⟨b, bs', hb, mapM_eq_ok.1 hbs, rfl⟩
    · rintro ⟨b, bs', hb, hbs, rfl⟩
      exact ⟨b, hb, bind_eq_ok.2 ⟨bs', mapM_eq_ok.2 hbs, rfl⟩⟩

theorem mapM_map_eq_ok {t : γ → α} {g : γ → β} (h : ∀ c, f (t c) = .ok (g c)) :
    ∀ cs : List γ, (cs.map t).mapM f = .ok (cs.map g)
  | [] => rfl
  | c :: cs => by
    rw [map_cons, mapM_cons, h, mapM_map_eq_ok h cs]
    rfl

theorem mapM_comm {δ : Type} {f' : γ → Except ε δ} {p : α → γ} {q : β → δ}
    (h : ∀ a, f' (p a) = (f a).map q) (as : List α) :
    (as.map p).mapM f' = (as.mapM f).map (map q) := by
  induction as with
  | nil => rfl
  | cons a as ih =>
    rw [map_cons, mapM_cons, mapM_cons, h, ih]
    cases f a with
    | error e => rfl
    | ok b => cases as.mapM f <;> rfl

theorem exists_of_mem_mapM {as : List α} {bs : List β}
    (h : as.mapM f = .ok bs) (hb : b ∈ bs) : ∃ a ∈ as, f a = .ok b := by
  have hf := mapM_eq_ok.1 h
  clear h
  induction hf with
  | nil => cases hb
  | cons h _ ih =>
    rcases mem_cons.1 hb with rfl | hb
    · exact ⟨_, mem_cons_self, h⟩
    · obtain ⟨a, ha, hab⟩ := ih hb
      exact ⟨a, mem_cons_of_mem _ ha, hab⟩

theorem exists_mapM {P : β → Prop} :
    ∀ {as : List α}, (∀ a ∈ as, ∃ b, f a = .ok b ∧ P b) → ∃ bs, as.mapM f = .ok bs ∧ ∀ b ∈ bs, P b
  | [], _ => ⟨[], rfl, by simp⟩
  | a :: as, h => by
    obtain ⟨b, hb, hPb⟩ := h a (by simp)
    obtain ⟨bs, hbs, hPbs⟩ := exists_mapM fun a ha => h a (mem_cons_of_mem _ ha)
    refine ⟨b :: bs, ?_, forall_mem_cons.2 ⟨hPb, hPbs⟩⟩
    rw [mapM_cons, hb, hbs]
    rfl

theorem exists_mapM_ok {as : List α} (h : ∀ a ∈ as, ∃ b, f a = .ok b) : ∃ bs, as.mapM f = .ok bs := by
  have htrue (a : α) (ha : a ∈ as) : ∃ b, f a = .ok b ∧ True := by simpa using h a ha
  obtain ⟨bs, hbs, -⟩ := exists_mapM htrue
  exact ⟨bs, hbs⟩

end JavaToCpp
