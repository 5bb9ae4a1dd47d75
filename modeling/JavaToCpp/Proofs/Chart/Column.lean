/-
  Columns.

  A column only grows, and no two of its states have the same key.  So the number of states is
  bounded, and working through a column ends because there is no state left, not because the fuel
  is spent.
-/
import Mathlib.Algebra.GroupWithZero.Nat
import JavaToCpp.Chart.Recognise
import JavaToCpp.Proofs.Grammar.WellFormed

namespace JavaToCpp.Chart

open List
open Grammar (Rule)

namespace Column

variable {c d : Column} {s t : State}

/-- `d` has the states of `c`, at the same places, and perhaps further ones after them. -/
def Grows (c d : Column) : Prop := c.states.toList <+: d.states.toList

def Distinct (c : Column) : Prop := (c.states.toList.map State.key).Nodup

theorem Grows.refl (c : Column) : c.Grows c := prefix_rfl

theorem Grows.trans {e : Column} (h : c.Grows d) (h' : d.Grows e) : c.Grows e :=
  IsPrefix.trans h h'

theorem Grows.getElem? (h : c.Grows d) {n : Nat} (hs : c.states[n]? = some s) :
    d.states[n]? = some s := by
  obtain ⟨rest, hd⟩ := h
  rw [← Array.getElem?_toList] at hs ⊢
  rw [← hd, List.getElem?_append_left (List.getElem?_eq_some_iff.1 hs).1, hs]

theorem Grows.keys (h : c.Grows d) {k : Nat × Nat × Nat} (hk : k ∈ c.keys) : k ∈ d.keys := by
  obtain ⟨s, hs, rfl⟩ := (c.mem_keys k).1 hk
  exact (d.mem_keys _).2 ⟨s, Array.mem_toList_iff.1 (h.subset (Array.mem_toList_iff.2 hs)), rfl⟩

theorem key_mem (hs : s ∈ c.states) : s.key ∈ c.keys := (c.mem_keys _).2 ⟨s, hs, rfl⟩

theorem distinct_empty : empty.Distinct := nodup_nil

/-! ## Insertion -/

theorem grows_insert (c : Column) (s : State) : c.Grows (c.insert s) := by
  unfold insert
  split
  · exact .refl c
  · exact ⟨[s], by simp [push]⟩

theorem mem_of_mem_insert (h : t ∈ (c.insert s).states) : t ∈ c.states ∨ t = s := by
  unfold insert at h
  split at h
  · exact Or.inl h
  · exact Array.mem_push.1 h

theorem key_mem_insert (c : Column) (s : State) : s.key ∈ (c.insert s).keys := by
  unfold insert
  split
  · assumption
  · exact key_mem Array.mem_push_self

theorem Distinct.insert (h : c.Distinct) (s : State) : (c.insert s).Distinct := by
  unfold Column.insert
  split
  · exact h
  · rename_i hs
    simp only [Distinct, push, Array.toList_push, map_append, map_cons, map_nil]
    refine Nodup.append h (nodup_singleton _) fun k hk hk' => hs ?_
    obtain ⟨t, ht, rfl⟩ := mem_map.1 hk
    rw [← mem_singleton.1 hk']
    exact key_mem (Array.mem_toList_iff.1 ht)

theorem grows_insertAll : ∀ (ss : List State) (c : Column), c.Grows (ss.foldl insert c)
  | [], c => .refl c
  | s :: ss, c => (grows_insert c s).trans (grows_insertAll ss (c.insert s))

theorem mem_of_mem_insertAll : ∀ {ss : List State} {c : Column},
    t ∈ (ss.foldl insert c).states → t ∈ c.states ∨ t ∈ ss
  | [], _, h => Or.inl h
  | s :: ss, c, h => by
    rw [foldl_cons] at h
    rcases mem_of_mem_insertAll h with h | h
    · rcases mem_of_mem_insert h with h | rfl
      · exact Or.inl h
      · exact Or.inr mem_cons_self
    · exact Or.inr (mem_cons_of_mem _ h)

theorem key_mem_insertAll : ∀ {ss : List State} (c : Column), s ∈ ss →
    s.key ∈ (ss.foldl insert c).keys
  | [], _, h => by cases h
  | u :: ss, c, h => by
    rcases mem_cons.1 h with rfl | h
    · exact (grows_insertAll ss _).keys (key_mem_insert c s)
    · exact key_mem_insertAll (c.insert u) h

theorem Distinct.insertAll : ∀ (ss : List State) {c : Column}, c.Distinct →
    (ss.foldl Column.insert c).Distinct
  | [], _, h => h
  | s :: ss, _, h => Distinct.insertAll ss (h.insert s)

/-! ## The number of states -/

/-- The keys of the states that can stand at place `i`. -/
def possibleKeys (g : Grammar) (i : Nat) : List (Nat × Nat × Nat) :=
  (topRule g :: g.rules).flatMap fun r =>
    (range (r.rhs.length + 1)).flatMap fun dot =>
      (range (i + 1)).map fun origin => (r.number, dot, origin)

theorem total_eq_sum : ∀ ns : List Nat, total ns = ns.sum
  | [] => rfl
  | n :: ns => by rw [total, total_eq_sum ns, sum_cons]

theorem total_map_mul (n : Nat) : ∀ ns : List Nat, total (ns.map (· * n)) = total ns * n
  | [] => by simp [total]
  | m :: ns => by simp [total, total_map_mul n ns, Nat.add_mul]

theorem length_possibleKeys (g : Grammar) (i : Nat) :
    (possibleKeys g i).length = capacity g i := by
  rw [possibleKeys, length_flatMap, ← total_eq_sum, capacity, ← total_map_mul, map_map]
  congr 1
  refine map_congr_left fun r _ => ?_
  simp [length_flatMap]

end Column

/-- The rule, the dot and the beginning of the state are possible at place `i`; a state that has
    moved began before that place. -/
structure State.Fits (g : Grammar) (i : Nat) (s : State) : Prop where
  rule : s.rule ∈ topRule g :: g.rules
  dot : s.dot ≤ s.rule.rhs.length
  origin : s.origin ≤ i
  started : 0 < s.dot → s.origin < i

theorem State.Fits.key_mem {g : Grammar} {i : Nat} {s : State} (h : s.Fits g i) :
    s.key ∈ Column.possibleKeys g i := by
  simp only [Column.possibleKeys, mem_flatMap, mem_map, mem_range]
  exact ⟨s.rule, h.rule, s.dot, Nat.lt_succ_of_le h.dot, s.origin, Nat.lt_succ_of_le h.origin, rfl⟩

theorem size_le_capacity {g : Grammar} {i : Nat} {c : Column} (hc : c.Distinct)
    (h : ∀ s ∈ c.states, s.Fits g i) : c.states.size ≤ capacity g i := by
  have hsub : c.states.toList.map State.key ⊆ Column.possibleKeys g i := by
    intro k hk
    obtain ⟨s, hs, rfl⟩ := mem_map.1 hk
    exact (h s (Array.mem_toList_iff.1 hs)).key_mem
  have hlen := Nodup.length_le_of_subset hc hsub
  rwa [length_map, Column.length_possibleKeys] at hlen

/-! ## Working through a column -/

section
variable {es : List Entry} {earlier : Array Column} {i : Nat}

theorem grows_close : ∀ (fuel n : Nat) (c : Column), c.Grows (close es earlier i fuel n c)
  | 0, _, c => .refl c
  | fuel + 1, n, c => by
    unfold close
    split
    · exact .refl c
    · exact (Column.grows_insertAll _ c).trans (grows_close fuel _ _)

theorem distinct_close : ∀ (fuel n : Nat) {c : Column}, c.Distinct →
    (close es earlier i fuel n c).Distinct
  | 0, _, _, h => h
  | fuel + 1, n, c, h => by
    unfold close
    split
    · exact h
    · exact distinct_close fuel _ (h.insertAll _)

/-- What the followers of a state inherit from it holds of all states if it holds of the first
    ones. -/
theorem mem_close {P : State → Prop} (hP : ∀ s, P s → ∀ f ∈ followers es earlier i s, P f) :
    ∀ {fuel n : Nat} {c : Column}, (∀ s ∈ c.states, P s) →
      ∀ s ∈ (close es earlier i fuel n c).states, P s
  | 0, _, _, h => h
  | fuel + 1, n, c, h => by
    unfold close
    split
    · exact h
    · rename_i s hs
      refine mem_close hP fun t ht => ?_
      rcases Column.mem_of_mem_insertAll ht with ht | ht
      · exact h t ht
      · exact hP s (h s (Array.mem_of_getElem? hs)) t ht

/-- The followers of the first `n` states are there. -/
def Column.ClosedTo (es : List Entry) (earlier : Array Column) (i n : Nat) (c : Column) : Prop :=
  ∀ m < n, ∀ s, c.states[m]? = some s → ∀ f ∈ followers es earlier i s, f.key ∈ c.keys

theorem Column.ClosedTo.insertAll {n : Nat} {c : Column} {s : State}
    (h : c.ClosedTo es earlier i n) (hs : c.states[n]? = some s) :
    ((followers es earlier i s).foldl Column.insert c).ClosedTo es earlier i (n + 1) := by
  have hg := Column.grows_insertAll (followers es earlier i s) c
  intro m hm t ht f hf
  have hm' : m < c.states.size := by
    have := (Array.getElem?_eq_some_iff.1 hs).1
    omega
  have ht' : c.states[m]? = some t := by
    have hc := Array.getElem?_eq_getElem hm'
    rw [hc, ← ht, hg.getElem? hc]
  rcases Nat.lt_or_eq_of_le (Nat.le_of_lt_succ hm) with hlt | rfl
  · exact hg.keys (h m hlt t ht' f hf)
  · rw [hs] at ht'
    cases ht'
    exact Column.key_mem_insertAll c hf

/-- **A column that has been worked through has the followers of its states**, when the fuel is
    not less than the number of states that the column can have. -/
theorem close_closed {P : State → Prop} {bound : Nat}
    (hP : ∀ s, P s → ∀ f ∈ followers es earlier i s, P f)
    (hb : ∀ c : Column, c.Distinct → (∀ s ∈ c.states, P s) → c.states.size ≤ bound) :
    ∀ {fuel n : Nat} {c : Column}, bound ≤ n + fuel → c.Distinct → (∀ s ∈ c.states, P s) →
      c.ClosedTo es earlier i n →
      ∀ s ∈ (close es earlier i fuel n c).states, ∀ f ∈ followers es earlier i s,
        f.key ∈ (close es earlier i fuel n c).keys := by
  intro fuel
  induction fuel with
  | zero =>
    intro n c hn hd hc h s hs
    rw [close] at hs ⊢
    obtain ⟨m, hm, rfl⟩ := Array.getElem_of_mem hs
    have := hb c hd hc
    exact h m (by omega) _ (Array.getElem?_eq_getElem hm)
  | succ fuel ih =>
    intro n c hn hd hc h
    unfold close
    split
    · rename_i hnone
      intro s hs
      obtain ⟨m, hm, rfl⟩ := Array.getElem_of_mem hs
      have := Array.getElem?_eq_none_iff.1 hnone
      exact h m (by omega) _ (Array.getElem?_eq_getElem hm)
    · rename_i s hs
      refine ih (by omega) (hd.insertAll _) (fun t ht => ?_) (h.insertAll hs)
      rcases Column.mem_of_mem_insertAll ht with ht | ht
      · exact hc t ht
      · exact hP s (hc s (Array.mem_of_getElem? hs)) t ht

end

end JavaToCpp.Chart
