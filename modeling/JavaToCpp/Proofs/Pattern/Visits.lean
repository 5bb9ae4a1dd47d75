/-
  Matches without marks.

  The marks of the search stay from one place to the next, so that an array is enough for the whole
  text.  What they tell at a place is which instructions were come to there, and that is a set.
-/
import JavaToCpp.Proofs.Pattern.Marks
import Mathlib.Algebra.Group.Nat.Defs

namespace JavaToCpp.Pattern

/-- Follows the ways of a list like `follow`.  The bits of `seen` tell which instructions were come
    to. -/
def Program.visit (p : Program) (place : Place) :
    (fuel : Nat) → List Thread → (seen : Nat) → (waiting : List Thread) →
    List Thread × Option (List Nat)
  | 0, _, _, waiting => (waiting, none)
  | _ + 1, [], _, waiting => (waiting, none)
  | fuel + 1, w :: ts, seen, waiting =>
    if seen.testBit w.place then p.visit place fuel ts seen waiting
    else
      match p[w.place]? with
      | none => p.visit place fuel ts seen waiting
      | some (.take _) => p.visit place fuel ts (seen ||| 2 ^ w.place) (w :: waiting)
      | some (.require a) =>
        p.visit place fuel (if a.holds place then { w with place := w.place + 1 } :: ts else ts)
          (seen ||| 2 ^ w.place) waiting
      | some (.enter n) =>
        p.visit place fuel (⟨w.place + 1, n :: w.entered⟩ :: ts) (seen ||| 2 ^ w.place) waiting
      | some (.fork first second) =>
        p.visit place fuel ({ w with place := first } :: { w with place := second } :: ts)
          (seen ||| 2 ^ w.place) waiting
      | some (.jump target) =>
        p.visit place fuel ({ w with place := target } :: ts) (seen ||| 2 ^ w.place) waiting
      | some .accept => (waiting, some w.entered)

/-- Follows ways from a place to the end of the text like `search`. -/
def Program.seek (p : Program) : Text → (skip : Nat) → (before : Option UInt8) → (taken : Nat) →
    List Thread → (best : Option Match) → Option Match
  | b :: t, skip + 1, _, taken, ts, best => p.seek t skip (some b) (taken + 1) ts best
  | [], _, before, taken, ts, best =>
    better taken (p.visit ⟨before, taken, []⟩ (ts.length + 2 * p.size + 1) ts 0 []).2 best
  | b :: t, 0, before, taken, ts, best =>
    match p.visit ⟨before, taken, b :: t⟩ (ts.length + 2 * p.size + 1) ts 0 [] with
    | (waiting, ended) =>
      match waiting.foldl (p.advance (Text.decodeHead b t).1) [] with
      | [] => better taken ended best
      | ts => p.seek t (Text.decodeHead b t).2 (some b) (taken + 1) ts (better taken ended best)

variable {p : Program} {place : Place} {met : Array Nat} {seen : Nat}

/-- The bits tell what the marks tell. -/
def Tells (place : Place) (met : Array Nat) (seen : Nat) : Prop :=
  ∀ i, Met place met i ↔ seen.testBit i

theorem tells_zero (hbound : ∀ i, met.getD i 0 ≤ place.taken) : Tells place met 0 := by
  intro i
  have hi := hbound i
  rw [Nat.zero_testBit, Met]
  simp only [Bool.false_eq_true, iff_false]
  omega

theorem Tells.mark (h : Tells place met seen) (hmarks : Marks p place met) {i : Nat}
    (hi : i < p.size) :
    Tells place (met.setIfInBounds i (place.taken + 1)) (seen ||| 2 ^ i) := by
  intro j
  rw [met_mark hmarks hi, h j, Nat.testBit_or, Nat.testBit_two_pow]
  simp only [Bool.or_eq_true, decide_eq_true_eq]
  rw [or_comm, eq_comm (a := i)]

theorem visit_eq (place : Place) (fuel : Nat) : ∀ (ts : List Thread) (met : Array Nat) (seen : Nat)
    (waiting : List Thread), Marks p place met → Tells place met seen →
    Marks p place (p.follow place fuel ts met waiting).met ∧
    p.visit place fuel ts seen waiting = ((p.follow place fuel ts met waiting).waiting,
      (p.follow place fuel ts met waiting).ended) := by
  induction fuel with
  | zero => exact fun ts met seen waiting hmarks _ => ⟨hmarks, rfl⟩
  | succ fuel ih =>
    intro ts met seen waiting hmarks htells
    cases ts with
    | nil => exact ⟨hmarks, rfl⟩
    | cons w ts =>
      rw [Program.follow, Program.visit]
      by_cases hmet : met.getD w.place 0 = place.taken + 1
      · rw [if_pos hmet, if_pos ((htells _).1 hmet)]
        exact ih ts met seen waiting hmarks htells
      rw [if_neg hmet, if_neg (mt (htells _).2 hmet)]
      cases hc : p[w.place]? with
      | none =>
        have hsize : met.size ≤ w.place := hmarks.size ▸ Array.getElem?_eq_none_iff.1 hc
        simp only [Array.setIfInBounds_eq_of_size_le hsize]
        exact ih ts met seen waiting hmarks htells
      | some c =>
        obtain ⟨hw, -⟩ := Array.getElem?_eq_some_iff.1 hc
        have hmarked := hmarks.mark hw
        have htold := htells.mark hmarks hw
        cases c with
        | take | require | enter | fork | jump => exact ih _ _ _ _ hmarked htold
        | accept => exact ⟨hmarked, rfl⟩

theorem search_eq (rest : Text) : ∀ (skip : Nat) (before : Option UInt8) (n : Nat)
    (met : Array Nat) (ts : List Thread) (best : Option Match), met.size = p.size →
    (∀ i, met.getD i 0 ≤ n) →
    p.search rest skip before n met ts best = p.seek rest skip before n ts best := by
  induction rest with
  | nil =>
    intro skip before n met ts best hsize hbound
    obtain ⟨-, hvisit⟩ := visit_eq (p := p) ⟨before, n, []⟩ (ts.length + 2 * p.size + 1) ts met 0
      [] ⟨hsize, fun i => Nat.le_succ_of_le (hbound i)⟩ (tells_zero hbound)
    cases skip <;> rw [Program.search, Program.seek, hvisit] <;> rfl
  | cons b rest ih =>
    intro skip before n met ts best hsize hbound
    cases skip with
    | succ skip =>
      rw [Program.search, Program.seek]
      exact ih skip _ _ met ts best hsize fun i => Nat.le_succ_of_le (hbound i)
    | zero =>
      obtain ⟨hmarks, hvisit⟩ := visit_eq (p := p) ⟨before, n, b :: rest⟩
        (ts.length + 2 * p.size + 1) ts met 0 [] ⟨hsize, fun i => Nat.le_succ_of_le (hbound i)⟩
        (tells_zero hbound)
      rw [Program.search, Program.seek, hvisit, Program.front]
      generalize p.follow _ _ ts met [] = f at hmarks ⊢
      dsimp only
      cases List.foldl (p.advance (Text.decodeHead b rest).1) [] f.waiting with
      | nil => rfl
      | cons w ws => exact ih _ _ _ _ _ _ hmarks.size hmarks.bound

/-- **The match is the same without marks.** -/
theorem match?_eq (t : Text) : p.match? t = p.seek t 0 none 0 [⟨0, []⟩] none := by
  refine search_eq t 0 none 0 _ _ none Array.size_replicate fun i => ?_
  rw [Array.getD_eq_getD_getElem?, Array.getElem?_replicate]
  split <;> exact Nat.le_refl 0

end JavaToCpp.Pattern
