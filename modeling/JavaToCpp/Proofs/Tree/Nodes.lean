/-
  The nodes of parse trees.
-/
import JavaToCpp.Proofs.Outcome
import JavaToCpp.Tree.Size

namespace JavaToCpp.Tree

open List

variable {t c : Tree} {l item : Text} {ls : List Text}

theorem tokensOf_append : ∀ ts us : List Tree, tokensOf (ts ++ us) = tokensOf ts ++ tokensOf us
  | [], _ => rfl
  | t :: ts, us => by simp [tokensOf, tokensOf_append ts us]

theorem tokensOf_singleton (t : Tree) : tokensOf [t] = t.tokens := by simp [tokensOf]

mutual

/-- The tree and all trees below it. -/
def nodes : Tree → List Tree
  | leaf t => [leaf t]
  | branch l cs => branch l cs :: nodesOf cs
  | hole => [hole]

def nodesOf : List Tree → List Tree
  | [] => []
  | c :: cs => c.nodes ++ nodesOf cs

end

theorem mem_nodesOf {n : Tree} : ∀ {ts : List Tree}, n ∈ nodesOf ts ↔ ∃ t ∈ ts, n ∈ t.nodes
  | [] => by simp [nodesOf]
  | t :: ts => by simp [nodesOf, mem_nodesOf]

theorem mem_nodes_self (t : Tree) : t ∈ t.nodes := by
  cases t <;> simp [nodes]

theorem nodes_subset (h : c ∈ t.children) : c.nodes ⊆ t.nodes := by
  intro n hn
  cases t with
  | leaf k => cases h
  | branch l cs => exact mem_cons_of_mem _ (mem_nodesOf.2 ⟨c, h, hn⟩)
  | hole => cases h

theorem nodes_subset_of_mem : ∀ {t c : Tree}, c ∈ t.nodes → c.nodes ⊆ t.nodes
  | leaf k, c, h => by
    obtain rfl : c = leaf k := by simpa [nodes] using h
    exact fun _ hn => hn
  | branch l cs, c, h => by
    rcases mem_cons.1 h with rfl | h
    · exact fun _ hn => hn
    · obtain ⟨d, hd, hc⟩ := mem_nodesOf.1 h
      exact Subset.trans (nodes_subset_of_mem hc) (nodes_subset (t := branch l cs) hd)
  | hole, c, h => by
    obtain rfl : c = hole := by simpa [nodes] using h
    exact fun _ hn => hn

/-! ## Labels -/

theorem hasLabel_of_label {l' : Text} (h : t.label = .ok l) :
    t.hasLabel l' = (l == l') := by
  cases t with
  | leaf k => cases h; rfl
  | branch k cs => cases h; rfl
  | hole => cases h

@[simp] theorem isHole_hole : hole.isHole = true := rfl

theorem label_of_hasLabel (h : t.hasLabel l) : t.label = .ok l := by
  cases t <;> simp_all [hasLabel, label]

theorem eq_hole_of_isHole (h : t.isHole) : t = hole := by
  cases t <;> simp_all [isHole]

theorem eq_hole_of_label {e : Missing} (h : t.label = .error e) : t = hole := by
  cases t <;> simp_all [label]

theorem children_labels (h : t.labels = .ok ls) :
    Forall₂ (fun c l => c.label = .ok l) t.children ls := by
  cases t with
  | leaf k | branch l cs => exact mapM_eq_ok.1 h
  | hole => cases h

theorem labels_of_map {cs : List Tree} (h : cs.map label = ls.map .ok) :
    (branch l cs).labels = .ok ls := by
  refine mapM_eq_ok.2 ?_
  induction cs generalizing ls with
  | nil =>
    obtain rfl : ls = [] := by simpa using h.symm
    exact .nil
  | cons c cs ih =>
    cases ls with
    | nil => cases h
    | cons k ls =>
      obtain ⟨hc, hcs⟩ := List.cons.inj h
      exact .cons hc (ih hcs)

theorem child_of_labels {i : Nat} (h : t.labels = .ok ls) (hi : ls[i]? = some l) :
    t.child i ∈ t.children ∧ (t.child i).label = .ok l := by
  have hlabels := children_labels h
  obtain ⟨hlt, rfl⟩ := List.getElem?_eq_some_iff.1 hi
  have hlt' : i < t.children.length := hlabels.length_eq ▸ hlt
  have hchild : t.child i = t.children[i] := by simp [child, hlt']
  rw [hchild]
  exact ⟨getElem_mem hlt', hlabels.get hlt' hlt⟩

theorem findIn_of_labels {cs : List Tree} (h : Forall₂ (fun c l => c.label = .ok l) cs ls)
    (l : Text) : ∃ c, findIn l cs = .ok c ∧
      (l ∈ ls ∧ c ∈ cs ∧ c.label = .ok l ∨ l ∉ ls ∧ c = hole) := by
  induction h with
  | nil => exact ⟨hole, rfl, by simp⟩
  | @cons c l' cs ls hc _ ih =>
    by_cases hl : l' = l
    · exact ⟨c, by simp [findIn, hc, hl, bind, Except.bind, pure, Except.pure], by simp [hc, hl]⟩
    · obtain ⟨d, hd, hcase⟩ := ih
      refine ⟨d, by simpa [findIn, hc, hl, bind, Except.bind] using hd, ?_⟩
      rcases hcase with ⟨hmem, hdcs, hdl⟩ | ⟨hmem, rfl⟩
      · exact .inl ⟨mem_cons_of_mem _ hmem, mem_cons_of_mem _ hdcs, hdl⟩
      · exact .inr ⟨by simp [hmem, Ne.symm hl], rfl⟩

theorem find_of_labels (h : t.labels = .ok ls) (l : Text) : ∃ c, t.find l = .ok c ∧
    (l ∈ ls ∧ c ∈ t.children ∧ c.label = .ok l ∨ l ∉ ls ∧ c = hole) :=
  findIn_of_labels (children_labels h) l

/-! ## Lists -/

theorem flatten_branch (item l : Text) (cs : List Tree) :
    flatten item (branch l cs) =
      if cs.any isHole then .error .node
      else if l == item then .ok (cs.filter (hasLabel item))
      else
        match lastWith? l cs with
        | some next => (flatten item next).map (cs.filter (hasLabel item) ++ ·)
        | none => .ok (cs.filter (hasLabel item)) := by
  rw [flatten]
  congr 2
  split <;> simp [*]

theorem mem_nodes_of_filter {cs : List Tree} (hc : c ∈ cs.filter (hasLabel item)) :
    c ∈ (branch l cs).nodes ∧ c.label = .ok item := by
  obtain ⟨hc, hl⟩ := mem_filter.1 hc
  exact ⟨nodes_subset (t := branch l cs) hc c.mem_nodes_self, label_of_hasLabel hl⟩

theorem flatten_of_present (item : Text) (h : hole ∉ t.nodes) : ∃ items, t.flatten item = .ok items ∧
    ∀ c ∈ items, c ∈ t.nodes ∧ c.label = .ok item := by
  fun_induction flatten item t with
  | case1 l cs hany =>
    obtain ⟨c, hc, hhole⟩ := any_eq_true.1 hany
    obtain rfl := eq_hole_of_isHole hhole
    exact absurd (nodes_subset (t := branch l cs) hc hole.mem_nodes_self) h
  | case2 l cs | case4 l cs => exact ⟨_, rfl, fun c => mem_nodes_of_filter⟩
  | case3 l cs _ _ next hn ih =>
    have hsub : next.nodes ⊆ (branch l cs).nodes := nodes_subset (mem_of_lastWith? hn)
    obtain ⟨items, hitems, hcase⟩ := ih fun hhole => h (hsub hhole)
    refine ⟨_, by rw [hitems]; rfl, fun c hc => ?_⟩
    rcases mem_append.1 hc with hc | hc
    · exact mem_nodes_of_filter hc
    · exact ⟨hsub (hcase c hc).1, (hcase c hc).2⟩
  | case5 | case6 => exact ⟨[], rfl, by simp⟩

end JavaToCpp.Tree
