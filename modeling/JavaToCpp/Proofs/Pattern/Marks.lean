/-
  What the marks of a search tell.
-/
import JavaToCpp.Pattern.Match
import Mathlib.Data.Finset.Card

namespace JavaToCpp.Pattern

variable {p : Program}

def Met (place : Place) (met : Array Nat) (i : Nat) : Prop := met.getD i 0 = place.taken + 1

/-- The marks belong to the instructions, and none is from behind the place. -/
structure Marks (p : Program) (place : Place) (met : Array Nat) : Prop where
  size : met.size = p.size
  bound : ∀ i, met.getD i 0 ≤ place.taken + 1

def unmet (p : Program) (place : Place) (met : Array Nat) : Finset Nat :=
  (Finset.range p.size).filter fun i => met.getD i 0 ≠ place.taken + 1

section Mark

variable {place : Place} {met : Array Nat} {i : Nat}

theorem getD_mark (hi : i < met.size) (v j : Nat) :
    (met.setIfInBounds i v).getD j 0 = if j = i then v else met.getD j 0 := by
  simp only [Array.getD_eq_getD_getElem?, Array.getElem?_setIfInBounds, hi, if_true]
  by_cases hj : j = i
  · simp [hj]
  · simp [hj, Ne.symm hj]

theorem met_mark (hmarks : Marks p place met) (hi : i < p.size) (j : Nat) :
    Met place (met.setIfInBounds i (place.taken + 1)) j ↔ j = i ∨ Met place met j := by
  rw [Met, getD_mark (hmarks.size ▸ hi)]
  by_cases hj : j = i <;> simp [hj, Met]

theorem Marks.mark (hmarks : Marks p place met) (hi : i < p.size) :
    Marks p place (met.setIfInBounds i (place.taken + 1)) where
  size := by simp [hmarks.size]
  bound j := by
    rw [getD_mark (hmarks.size ▸ hi)]
    split
    · exact Nat.le_refl _
    · exact hmarks.bound j

theorem card_unmet_mark (hmarks : Marks p place met) (hi : i < p.size) (hnew : ¬ Met place met i) :
    (unmet p place (met.setIfInBounds i (place.taken + 1))).card + 1 = (unmet p place met).card := by
  have herase : unmet p place (met.setIfInBounds i (place.taken + 1)) =
      (unmet p place met).erase i := by
    ext j
    have hmet := met_mark hmarks hi j
    simp only [unmet, Finset.mem_filter, Finset.mem_erase, Finset.mem_range, ne_eq]
    rw [← Met, ← Met, hmet]
    tauto
  have hmem : i ∈ unmet p place met := Finset.mem_filter.2 ⟨Finset.mem_range.2 hi, hnew⟩
  rw [herase, Finset.card_erase_add_one hmem]

end Mark

end JavaToCpp.Pattern
