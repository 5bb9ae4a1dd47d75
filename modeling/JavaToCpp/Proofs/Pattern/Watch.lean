/-
  Ways through a program, watched.

  Tables are computed and checked inside proofs, so what they are made with is written for that.
-/
import JavaToCpp.Proofs.Pattern.Ways

namespace JavaToCpp.Pattern

open List hiding set

/-- Tells kinds of characters apart, and keeps in a state what it has seen of a text. -/
structure Watcher (κ σ : Type) where
  /-- the kinds of characters by their code points: the greatest ones of some stretches, in order -/
  stretches : List (Nat × κ)
  /-- the kind of the characters behind all stretches -/
  beyond : κ
  start : σ
  next : σ → κ → σ

namespace Watcher

variable {κ σ : Type} (W : Watcher κ σ)

/-- The kind of a character, if the stretches in `ks` are left. -/
def kindIn : List (Nat × κ) → Nat → κ
  | [], _ => W.beyond
  | (hi, k) :: ks, rune => if rune ≤ hi then k else kindIn ks rune

def kind (rune : Nat) : κ := W.kindIn W.stretches rune

/-- The kinds of the characters from `c` to `d`, if the stretches in `ks` are left. -/
def kindsFrom (c d : Nat) : List (Nat × κ) → List κ
  | [] => [W.beyond]
  | (hi, k) :: ks =>
    bif Nat.ble c hi then bif Nat.ble d hi then [k] else k :: kindsFrom c d ks
    else kindsFrom c d ks

def kindsIn (set : RuneSet) : List κ := set.flatMap fun (c, d) => W.kindsFrom c d W.stretches

/-- The state after `n` bytes of a text, if these are whole characters. -/
def read (s : σ) (t : Text) (n : Nat) : Option σ :=
  match t, n with
  | _, 0 => some s
  | [], _ + 1 => none
  | b :: t, n + 1 =>
    let (rune, more) := Text.decodeHead b t
    if more ≤ n then read (W.next s (W.kind rune)) (t.drop more) (n - more) else none
termination_by n
decreasing_by exact Nat.lt_succ_of_le (Nat.sub_le n more)

theorem mem_kindsFrom {c d rune : Nat} (hc : c ≤ rune) (hd : rune ≤ d) :
    ∀ ks : List (Nat × κ), W.kindIn ks rune ∈ W.kindsFrom c d ks
  | [] => mem_singleton_self _
  | (hi, k) :: ks => by
    have ih := mem_kindsFrom hc hd ks
    simp only [kindIn, kindsFrom, Bool.cond_eq_ite, Nat.ble_eq]
    by_cases hhi : rune ≤ hi
    · rw [if_pos hhi, if_pos (Nat.le_trans hc hhi)]
      split
      · exact mem_singleton_self _
      · exact mem_cons_self
    · rw [if_neg hhi, if_neg (by omega : ¬ d ≤ hi)]
      split
      · exact mem_cons_of_mem _ ih
      · exact ih

theorem mem_kindsIn {set : RuneSet} {rune : Nat} (h : set.mem rune) :
    W.kind rune ∈ W.kindsIn set := by
  obtain ⟨⟨c, d⟩, hset, hcd⟩ := any_eq_true.1 h
  simp only [Bool.and_eq_true, decide_eq_true_eq] at hcd
  exact mem_flatMap.2 ⟨(c, d), hset, W.mem_kindsFrom hcd.1 hcd.2 W.stretches⟩

variable {W} {s s' : σ} {t x : Text} {n : Nat}

theorem of_kindIn {P : κ → Prop} (hbeyond : P W.beyond) {lo rune : Nat} (hrune : lo ≤ rune) :
    ∀ {ks : List (Nat × κ)}, (∀ k ∈ ks, lo ≤ k.1 → P k.2) → P (W.kindIn ks rune)
  | [], _ => hbeyond
  | (hi, k) :: ks, h => by
    obtain ⟨hk, hks⟩ := forall_mem_cons.1 h
    rw [kindIn]
    split
    · exact hk (by omega)
    · exact of_kindIn hbeyond hrune hks

theorem read_add (h : W.read s t n = some s') (k : Nat) :
    W.read s t (n + k) = W.read s' (t.drop n) k := by
  fun_induction read W s t n with
  | case1 s t =>
    cases h
    rw [Nat.zero_add, drop_zero]
  | case2 | case4 => cases h
  | case3 s b t n rune more hdecode hmore ih =>
    have hadd : n + 1 + k = n + k + 1 := by omega
    have hsub : n + k - more = n - more + k := by omega
    have hdrop : (b :: t).drop (n + 1) = (t.drop more).drop (n - more) := by
      rw [drop_succ_cons, drop_drop, Nat.add_sub_cancel' hmore]
    rw [hadd, read, hdecode, hdrop, ← ih h, ← hsub]
    exact if_pos (by omega)

theorem exists_of_read (h : W.read s t n = some s') : n = 0 ∧ s' = s ∨ 0 < n ∧ ∃ s₁ rune,
    s' = W.next s₁ (W.kind rune) ∧ (rune < 128 → t[n - 1]? = some (UInt8.ofNat rune)) := by
  fun_induction read W s t n with
  | case1 s t =>
    cases h
    exact .inl ⟨rfl, rfl⟩
  | case2 | case4 => cases h
  | case3 s b t n rune more hdecode hmore ih =>
    right
    refine ⟨Nat.succ_pos n, ?_⟩
    rcases ih h with ⟨hzero, rfl⟩ | ⟨hpos, s₁, rune', rfl, hlast⟩
    · refine ⟨s, rune, rfl, fun hrune => ?_⟩
      have hascii : Text.decodeHead b t = (b.toNat, 0) := Text.decodeHead_of_lt (by rwa [hdecode])
      rw [hdecode, Prod.mk.injEq] at hascii
      obtain rfl : n = 0 := by omega
      rw [hascii.1, UInt8.ofNat_toNat]
      rfl
    · refine ⟨s₁, rune', rfl, fun hrune => ?_⟩
      obtain ⟨k, rfl⟩ : ∃ k, n = k + 1 := ⟨n - 1, by omega⟩
      rw [← hlast hrune, getElem?_drop]
      show t[k]? = _
      congr 1
      omega

theorem read_next (h : W.read s t n = some s') {b : UInt8} {rest : Text} (hrest : t.drop n = b :: rest) :
    W.read s t (n + 1 + (Text.decodeHead b rest).2) =
      some (W.next s' (W.kind (Text.decodeHead b rest).1)) := by
  rw [Nat.add_assoc, read_add h, hrest, Nat.add_comm 1, read]
  simp [read]

theorem read_append (hx : Text.EndsAscii x) (hn : n ≤ x.length) (c : Text) :
    W.read s (x ++ c) n = W.read s x n := by
  fun_induction read W s x n with
  | case1 s x => rw [read]
  | case2 => cases hn
  | case3 s b x n rune more hdecode hmore ih =>
    have hdecode' : Text.decodeHead b (x ++ c) = (rune, more) := by
      rw [hx.decodeHead_append, hdecode]
    have hle : more ≤ x.length := by
      have := Text.decodeHead_le b x
      rwa [hdecode] at this
    rw [length_cons] at hn
    rw [cons_append, read, hdecode', ← ih (hx.drop (more + 1)) (by rw [length_drop]; omega),
      ← drop_append_of_le_length hle]
    exact if_pos hmore
  | case4 s b x n rune more hdecode hmore =>
    have hdecode' : Text.decodeHead b (x ++ c) = (rune, more) := by
      rw [hx.decodeHead_append, hdecode]
    rw [cons_append, read, hdecode']
    exact if_neg hmore

end Watcher

/-- What is known of a way to an instruction. -/
structure Sight (σ : Type) where
  entered : List Nat
  state : σ
  /-- the assertions that the way has come by since the last character -/
  required : List Assertion
deriving DecidableEq

/-- What is known of the ways to instructions: to the first, and to those behind it in turn. -/
inductive Sights (σ : Type) where
  | none
  | node (here : List (Sight σ)) (left right : Sights σ)

section Sights

variable {κ σ : Type} [DecidableEq σ] (W : Watcher κ σ)

def Sights.get : Sights σ → Nat → List (Sight σ)
  | none, _ => []
  | node here _ _, 0 => here
  | node _ left right, n + 1 =>
    bif Nat.beq (n % 2) 0 then left.get (n / 2) else right.get (n / 2)

/-- Adds to what is known of the ways to an instruction; `fuel` is more than its number. -/
def Sights.add (v : Sight σ) : (fuel : Nat) → Sights σ → Nat → Sights σ
  | 0, table, _ => table
  | _ + 1, none, 0 => node [v] none none
  | _ + 1, node here left right, 0 => node (bif here.contains v then here else v :: here) left right
  | fuel + 1, none, n + 1 =>
    bif Nat.beq (n % 2) 0 then node [] (add v fuel none (n / 2)) none
    else node [] none (add v fuel none (n / 2))
  | fuel + 1, node here left right, n + 1 =>
    bif Nat.beq (n % 2) 0 then node here (add v fuel left (n / 2)) right
    else node here left (add v fuel right (n / 2))

/-- Where the `i`th instruction goes on, and what is known then. -/
def Sight.after (v : Sight σ) (i : Nat) : Instruction → List (Nat × Sight σ)
  | .take set => (W.kindsIn set).map fun k => (i + 1, ⟨v.entered, W.next v.state k, []⟩)
  | .require a => [(i + 1, { v with required := a :: v.required })]
  | .enter g => [(i + 1, { v with entered := g :: v.entered })]
  | .fork j k => [(j, v), (k, v)]
  | .jump j => [(j, v)]
  | .accept => []

/-- What is known after a round through the instructions from the `i`th on.  The table is looked into
    at each of them, so that it does not pile up unevaluated. -/
def Sights.round (size : Nat) : (i : Nat) → List Instruction → Sights σ → Sights σ
  | _, [], table => table
  | i, c :: cs, table =>
    match table.get i with
    | [] => round size (i + 1) cs table
    | vs => round size (i + 1) cs ((vs.flatMap fun v => v.after W i c).foldl
      (fun table x => table.add x.2 size x.1) table)

/-- What is known of the ways to all instructions, after some rounds. -/
def Program.sights (p : Program) (rounds : Nat) : Sights σ :=
  rounds.repeat (.round W p.size 0 p.toList) (.add ⟨[], W.start, []⟩ p.size .none 0)

/-- Whether a table tells of all ways. -/
def Program.sees (p : Program) (table : Sights σ) : Bool :=
  (table.get 0).contains ⟨[], W.start, []⟩ &&
  p.toList.zipIdx.all fun (c, i) => (table.get i).all fun v =>
    (v.after W i c).all fun (j, v') => (table.get j).contains v'

variable {W} {p : Program} {t : Text} {n : Nat} {table : Sights σ}

theorem mem_after (hsees : p.sees W table) {i j : Nat} {c : Instruction} {v v' : Sight σ}
    (hc : p[i]? = some c) (hv : v ∈ table.get i) (hj : (j, v') ∈ v.after W i c) :
    v' ∈ table.get j := by
  obtain ⟨-, hall⟩ := Bool.and_eq_true_iff.1 hsees
  have hmem : (c, i) ∈ p.toList.zipIdx :=
    mk_mem_zipIdx_iff_getElem?.2 (by rw [Array.getElem?_toList, hc])
  have hafter := all_eq_true.1 (all_eq_true.1 (all_eq_true.1 hall _ hmem) v hv) _ hj
  exact contains_iff_mem.1 hafter

/-- What a table says of a way: the groups it has entered, the state of the watcher behind what it has
    taken, and assertions that hold there. -/
structure Told (W : Watcher κ σ) (t : Text) (w : Thread) (n : Nat) (v : Sight σ) : Prop where
  entered : v.entered = w.entered
  state : W.read W.start t n = some v.state
  required : ∀ a ∈ v.required, a.holds (placeAt t n)

/-- **A table tells of all ways.** -/
theorem exists_told (hsees : p.sees W table) {w : Thread} (h : Way p t w n) :
    ∃ v ∈ table.get w.place, Told W t w n v := by
  induction h with
  | start =>
    obtain ⟨hstart, -⟩ := Bool.and_eq_true_iff.1 hsees
    exact ⟨_, contains_iff_mem.1 hstart, rfl, by rw [Watcher.read], forall_mem_nil _⟩
  | require _ hc hholds ih =>
    obtain ⟨v, hv, htold⟩ := ih
    exact ⟨_, mem_after hsees hc hv (mem_singleton_self _), htold.entered, htold.state,
      forall_mem_cons.2 ⟨hholds, htold.required⟩⟩
  | enter _ hc ih =>
    obtain ⟨v, hv, htold⟩ := ih
    exact ⟨_, mem_after hsees hc hv (mem_singleton_self _), congrArg _ htold.entered,
      htold.state, htold.required⟩
  | first _ hc ih | second _ hc ih | jump _ hc ih =>
    obtain ⟨v, hv, htold⟩ := ih
    exact ⟨v, mem_after hsees hc hv (by simp [Sight.after]), htold.entered, htold.state,
      htold.required⟩
  | take _ hc hrest hmem ih =>
    obtain ⟨v, hv, htold⟩ := ih
    refine ⟨_, mem_after hsees hc hv (mem_map.2 ⟨_, ?_, rfl⟩), htold.entered,
      W.read_next htold.state hrest, forall_mem_nil _⟩
    exact W.mem_kindsIn hmem

end Sights

end JavaToCpp.Pattern
