/-
  Every way through a program is followed.
-/
import JavaToCpp.Proofs.Pattern.Preferred

namespace JavaToCpp.Pattern

open List hiding set

variable {p : Program} {t : Text} {n : Nat}

theorem attempt_take_eq_some {seen : Finset Nat} {i : Nat} {set : RuneSet} {m : Match}
    (hc : p[i]? = some (.take set)) (h : p.attempt t seen i n = some m) :
    ∃ b rest, t.drop n = b :: rest ∧ set.mem (Text.decodeHead b rest).1 ∧
      p.attempt t ∅ (i + 1) (n + 1 + (Text.decodeHead b rest).2) = some m := by
  have hi : i ∉ seen := fun hi => by simp [attempt_of_mem hi] at h
  cases hrest : t.drop n with
  | nil => simp [attempt_take_nil hc hrest] at h
  | cons b rest =>
    rw [attempt_take_cons hi hc hrest, Option.ite_none_right_eq_some] at h
    exact ⟨b, rest, rfl, h⟩

theorem ends_of_attempt (seen : Finset Nat) (i n : Nat) : ∀ {e : List Nat} {m : Match},
    Way p t ⟨i, e⟩ n → p.attempt t seen i n = some m → Ends p t (m.after e) ∧ n ≤ m.taken := by
  induction seen, i, n using attempt_induction (p := p) (t := t) with
  | step seen i n hplace hbehind =>
    intro e m hway h
    have hi : i ∉ seen := fun hi => by simp [attempt_of_mem hi] at h
    cases hc : p[i]? with
    | none => simp [attempt_of_none hc] at h
    | some c =>
      have hplace := hplace hi (Array.getElem?_eq_some_iff.1 hc).1
      cases c with
      | take set =>
        obtain ⟨b, rest, hrest, hmem, h⟩ := attempt_take_eq_some hc h
        obtain ⟨hends, hle⟩ := hbehind (lt_length_of_drop hrest) _ _ (by omega)
          (hway.take hc hrest hmem) h
        exact ⟨hends, by omega⟩
      | require a =>
        rw [attempt_require hi hc, Option.ite_none_right_eq_some] at h
        exact hplace _ (hway.require hc h.1) h.2
      | enter g =>
        rw [attempt_enter hi hc] at h
        obtain ⟨m, hm, rfl⟩ := Option.map_eq_some_iff.1 h
        rw [Match.after_after]
        exact hplace _ (hway.enter hc) hm
      | fork j k =>
        rw [attempt_fork hi hc] at h
        rcases Option.or_eq_some_iff.1 h with h | ⟨-, h⟩
        · exact hplace _ (hway.first hc) h
        · exact hplace _ (hway.second hc) h
      | jump j =>
        rw [attempt_jump hi hc] at h
        exact hplace _ (hway.jump hc) h
      | accept =>
        rw [attempt_accept hi hc] at h
        cases h
        exact ⟨⟨i, hway, hc⟩, Nat.le_refl n⟩

theorem ends_of_match? {m : Match} (h : p.match? t = some m) : Ends p t m := by
  rw [match?_eq_attempt] at h
  simpa using (ends_of_attempt ∅ 0 0 .start h).1

theorem taken_le_of_match? {m : Match} (h : p.match? t = some m) : m.taken ≤ t.length := by
  obtain ⟨i, hway, -⟩ := ends_of_match? h
  exact hway.le_length

/-- **A group matches nothing but the words**, if the table of the program says so. -/
theorem mem_of_spells {g : Nat} {words : List Text} (h : p.spells g words) {m : Match}
    (hm : p.match? t = some m) (hg : g ∈ m.entered) : t.take m.taken ∈ words := by
  obtain ⟨hback, hwords⟩ := Bool.and_eq_true_iff.1 h
  have hback : ∀ i c, p[i]? = some c → ∀ j ∈ c.targets i,
      i < j ∨ ((p.reach g).getD j {}).through = some [] := by
    intro i c hc j hj
    have hmem : (c, i) ∈ p.toList.zipIdx :=
      mk_mem_zipIdx_iff_getElem?.2 (by rw [Array.getElem?_toList, hc])
    simpa using all_eq_true.1 (all_eq_true.1 hback _ hmem) j hj
  have htells := (ends_of_match? hm).rest.tells hback
  cases hthrough : ((p.reach g).getD 0 {}).through with
  | none =>
    rw [hthrough] at hwords
    cases hwords
  | some xs =>
    rw [hthrough, Option.any_some, all_eq_true] at hwords
    have hx := htells.through (mem_reverse.2 hg) xs hthrough
    exact contains_iff_mem.1 (hwords _ hx)

end JavaToCpp.Pattern
