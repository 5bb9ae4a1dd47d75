/-
  Trees shrink on the way down.

  Every child, every child found by its label and every item of an unrolled list is smaller than
  the tree it comes from, so that a tree can be read by recursion along `child`, `find` and
  `flatten`.
-/
import JavaToCpp.Tree.Basic

namespace JavaToCpp.Tree

theorem isHole_eq_false {t : Tree} {l : Text} (h : t.label = .ok l) : t.isHole = false := by
  cases t <;> simp_all [label, isHole]

theorem one_lt_sizeOf {t : Tree} (h : t.isHole = false) : 1 < sizeOf t := by
  cases t with
  | leaf t =>
    cases t
    rw [leaf.sizeOf_spec, Token.mk.sizeOf_spec]
    omega
  | branch l cs =>
    rw [branch.sizeOf_spec]
    cases cs with
    | nil => rw [List.nil.sizeOf_spec]; omega
    | cons c cs => rw [List.cons.sizeOf_spec]; omega
  | hole => simp [isHole] at h

theorem sizeOf_of_mem_children {t c : Tree} (h : c ∈ t.children) : sizeOf c < sizeOf t := by
  cases t with
  | branch l cs =>
    have := List.sizeOf_lt_of_mem (show c ∈ cs from h)
    simp only [branch.sizeOf_spec]
    omega
  | leaf _ | hole => simp [children] at h

theorem sizeOf_lt_of_child_or_hole {t c : Tree} (h : t.isHole = false)
    (hc : c ∈ t.children ∨ c = hole) : sizeOf c < sizeOf t := by
  rcases hc with hc | rfl
  · exact sizeOf_of_mem_children hc
  · exact one_lt_sizeOf h

theorem child_mem_or_hole (t : Tree) (i : Nat) : t.child i ∈ t.children ∨ t.child i = hole := by
  unfold child
  cases h : t.children[i]? with
  | none => exact Or.inr rfl
  | some c => exact Or.inl (List.mem_of_getElem? h)

theorem lastChild_mem_or_hole (t : Tree) : t.lastChild ∈ t.children ∨ t.lastChild = hole := by
  unfold lastChild
  cases h : t.children.getLast? with
  | none => exact Or.inr rfl
  | some c => exact Or.inl (List.mem_of_getLast? h)

theorem findIn_mem_or_hole {l : Text} {cs : List Tree} {c : Tree} (h : findIn l cs = .ok c) :
    c ∈ cs ∨ c = hole := by
  induction cs with
  | nil => exact Or.inr (by simpa [findIn] using h.symm)
  | cons d ds ih =>
    simp only [findIn] at h
    cases hd : d.label with
    | error e => simp [hd, bind, Except.bind] at h
    | ok l' =>
      simp only [hd, bind, Except.bind] at h
      split at h
      · exact Or.inl (by simp_all [pure, Except.pure])
      · rcases ih h with hm | hm
        · exact Or.inl (List.mem_cons_of_mem _ hm)
        · exact Or.inr hm

theorem sizeOf_child {t : Tree} (h : t.isHole = false) (i : Nat) : sizeOf (t.child i) < sizeOf t :=
  sizeOf_lt_of_child_or_hole h (child_mem_or_hole t i)

theorem sizeOf_lastChild {t : Tree} (h : t.isHole = false) : sizeOf t.lastChild < sizeOf t :=
  sizeOf_lt_of_child_or_hole h (lastChild_mem_or_hole t)

theorem sizeOf_find {t c : Tree} {l : Text} (h : t.isHole = false) (hc : t.find l = .ok c) :
    sizeOf c < sizeOf t :=
  sizeOf_lt_of_child_or_hole h (findIn_mem_or_hole hc)

theorem sizeOf_of_mem_flatten {item : Text} {t c : Tree} {cs : List Tree}
    (h : t.flatten item = .ok cs) (hc : c ∈ cs) : sizeOf c < sizeOf t := by
  fun_induction flatten item t generalizing cs with
  | case1 => simp at h
  | case2 l ts | case4 l ts =>
    cases h
    exact sizeOf_of_mem_children (t := branch l ts) (List.mem_filter.1 hc).1
  | case3 l ts _ _ next hn ih =>
    have hn' : sizeOf next < sizeOf (branch l ts) :=
      sizeOf_of_mem_children (t := branch l ts) (mem_of_lastWith? hn)
    cases hf : next.flatten item with
    | error e => simp [hf, Except.map] at h
    | ok rest =>
      simp only [hf, Except.map, Except.ok.injEq] at h
      subst h
      rcases List.mem_append.1 hc with hc | hc
      · exact sizeOf_of_mem_children (t := branch l ts) (List.mem_filter.1 hc).1
      · exact Nat.lt_trans (ih hf hc) hn'
  | case5 | case6 => cases h; cases hc

theorem sizeOf_child_le (t : Tree) (i : Nat) : sizeOf (t.child i) ≤ sizeOf t := by
  cases h : t.isHole with
  | false => exact Nat.le_of_lt (sizeOf_child h i)
  | true =>
    cases t <;> simp [isHole] at h
    simp [child, children]

/-- An item of a list that is itself a child is smaller than the tree. -/
theorem sizeOf_of_mem_find_flatten {l item : Text} {t list c : Tree} {cs : List Tree}
    (hl : t.find l = .ok list) (h : list.flatten item = .ok cs) (hc : c ∈ cs) :
    sizeOf c < sizeOf t := by
  rcases findIn_mem_or_hole hl with hm | rfl
  · exact Nat.lt_trans (sizeOf_of_mem_flatten h hc) (sizeOf_of_mem_children hm)
  · simp only [flatten, Except.ok.injEq] at h
    subst h
    cases hc

/-- Induction along the size of a tree, as the readers of trees recurse. -/
theorem sizeInduction {motive : Tree → Prop}
    (step : ∀ t : Tree, (∀ u : Tree, sizeOf u < sizeOf t → motive u) → motive t) (t : Tree) :
    motive t :=
  (measure sizeOf).wf.induction t step

end JavaToCpp.Tree
