/-
  The precedence of C++ operators.

  A chain is a row of operands with binary operators between them.  C++ applies the operator that
  binds tighter first, and operators that bind alike from the left.
-/
import JavaToCpp.Proofs.Cpp.Rendering
import Mathlib.Logic.ExistsUnique

namespace JavaToCpp.Cpp

open List
open JavaToCpp.Java (spaced)

/-- The binary operators, from those that bind loosest on. -/
def operators : List (List String) := [
  ["||"], ["&&"], ["|"], ["^"], ["&"], ["==", "!="], ["<", "<=", ">", ">="], ["<=>"], ["<<", ">>"],
  ["+", "-"], ["*", "/", "%"]]

def strength (op : Text) : Nat :=
  operators.findIdx fun alike => alike.any fun o => Text.ofString o == op

/-- Operands with operators between them: the first, then the others with the operators before
    them. -/
structure Chain where
  first : Text
  rest : List (Text × Text)
deriving DecidableEq

namespace Chain

def join (c : Chain) (op : Text) (d : Chain) : Chain := ⟨c.first, c.rest ++ (op, d.first) :: d.rest⟩

def text (c : Chain) : Text :=
  c.first ++ c.rest.flatMap fun q => spaced q.1 ++ q.2

theorem text_join (c : Chain) (op : Text) (d : Chain) :
    (c.join op d).text = c.text ++ spaced op ++ d.text := by
  simp [join, text]

theorem forall_mem_join {P : Text → Prop} {c d : Chain} {op : Text} :
    (∀ q ∈ (c.join op d).rest, P q.1) ↔ (∀ q ∈ c.rest, P q.1) ∧ P op ∧ ∀ q ∈ d.rest, P q.1 := by
  simp only [join, forall_mem_append, forall_mem_cons]

end Chain

/-- Operands and operators as they are applied. -/
inductive Grouping where
  | operand (t : Text)
  | binary (l : Grouping) (op : Text) (r : Grouping)
deriving DecidableEq

namespace Grouping

variable {l r g : Grouping} {op t : Text} {n : Nat}

def chain : Grouping → Chain
  | operand t => ⟨t, []⟩
  | binary l op r => l.chain.join op r.chain

/-- The outermost operator, if there is one, binds at least as tight as `n`. -/
def Tight (n : Nat) : Grouping → Prop
  | operand _ => True
  | binary _ op _ => n ≤ strength op

/-- The rules of precedence: the left operand of an operator binds at least as tight as the
    operator, the right one tighter. -/
def Proper : Grouping → Prop
  | operand _ => True
  | binary l op r => l.Proper ∧ r.Proper ∧ l.Tight (strength op) ∧ r.Tight (strength op + 1)

theorem Tight.mono {m : Nat} (h : m ≤ n) : g.Tight n → g.Tight m := by
  cases g with
  | operand t => exact id
  | binary l op r => exact Nat.le_trans h

theorem tight_iff (hg : g.Proper) : g.Tight n ↔ ∀ q ∈ g.chain.rest, n ≤ strength q.1 := by
  induction g with
  | operand t => simp [Tight, chain]
  | binary l op r ihl ihr =>
    obtain ⟨hl, hr, hlop, hrop⟩ := hg
    simp only [chain, Chain.join, mem_append, mem_cons]
    constructor
    · rintro (hn : n ≤ strength op) q (hq | rfl | hq)
      · exact (ihl hl).1 (hlop.mono hn) q hq
      · exact hn
      · exact (ihr hr).1 (hrop.mono (Nat.le_succ_of_le hn)) q hq
    · exact fun h => h (op, r.chain.first) (.inr (.inl rfl))

/-! ## Reading from the left -/

/-- A grouping with one more operator and operand behind it. -/
def push (op t : Text) : Grouping → Grouping
  | operand a => binary (operand a) op (operand t)
  | binary l o r =>
    if strength op ≤ strength o then binary (binary l o r) op (operand t)
    else binary l o (r.push op t)

theorem push_of_tight (h : g.Tight (strength op)) : g.push op t = binary g op (operand t) := by
  cases g with
  | operand a => rfl
  | binary l o r => exact if_pos h

theorem chain_push : (g.push op t).chain = ⟨g.chain.first, g.chain.rest ++ [(op, t)]⟩ := by
  induction g with
  | operand a => rfl
  | binary l o r _ ih =>
    rw [push]
    split
    · rfl
    · simp [chain, Chain.join, ih]

theorem Tight.push (hg : g.Tight n) (hn : n ≤ strength op) : (g.push op t).Tight n := by
  cases g with
  | operand a => exact hn
  | binary l o r =>
    rw [Grouping.push]
    split
    · exact hn
    · exact hg

theorem Proper.push (hg : g.Proper) : (g.push op t).Proper := by
  induction g with
  | operand a => exact ⟨trivial, trivial, trivial, trivial⟩
  | binary l o r _ ih =>
    rw [Grouping.push]
    split
    · rename_i hop
      exact ⟨hg, trivial, hop, trivial⟩
    · rename_i hop
      obtain ⟨hl, hr, hlo, hro⟩ := hg
      exact ⟨hl, ih hr, hlo, hro.push (Nat.lt_of_not_le hop)⟩

def pushAll (g : Grouping) (qs : List (Text × Text)) : Grouping :=
  qs.foldl (fun g q => g.push q.1 q.2) g

theorem pushAll_cons (q : Text × Text) (qs : List (Text × Text)) :
    g.pushAll (q :: qs) = (g.push q.1 q.2).pushAll qs := rfl

theorem pushAll_append (ps qs : List (Text × Text)) :
    g.pushAll (ps ++ qs) = (g.pushAll ps).pushAll qs :=
  foldl_append

theorem chain_pushAll (qs : List (Text × Text)) : ∀ g : Grouping,
    (g.pushAll qs).chain = ⟨g.chain.first, g.chain.rest ++ qs⟩ := by
  induction qs with
  | nil => simp [pushAll]
  | cons q qs ih =>
    intro g
    rw [pushAll_cons, ih, chain_push]
    simp

theorem Proper.pushAll (qs : List (Text × Text)) : ∀ {g : Grouping}, g.Proper →
    (g.pushAll qs).Proper := by
  induction qs with
  | nil => exact id
  | cons q qs ih => exact fun hg => ih hg.push

theorem pushAll_binary (qs : List (Text × Text)) : ∀ {r : Grouping},
    (∀ q ∈ qs, strength op < strength q.1) →
    (binary l op r).pushAll qs = binary l op (r.pushAll qs) := by
  induction qs with
  | nil => exact fun _ => rfl
  | cons q qs ih =>
    intro r h
    have hq : ¬ strength q.1 ≤ strength op := Nat.not_le_of_lt (h q mem_cons_self)
    rw [pushAll_cons, pushAll_cons, push, if_neg hq,
      ih fun q' hq' => h q' (mem_cons_of_mem q hq')]

end Grouping

open Grouping

/-- The grouping of a chain, read from the left. -/
def Chain.grouped (c : Chain) : Grouping := (operand c.first).pushAll c.rest

/-- C++ reads the chain as the grouping. -/
structure Groups (c : Chain) (g : Grouping) : Prop where
  proper : g.Proper
  chain_eq : g.chain = c

theorem groups_grouped (c : Chain) : Groups c c.grouped where
  proper := Proper.pushAll c.rest trivial
  chain_eq := chain_pushAll c.rest (operand c.first)

theorem Grouping.Proper.grouped_chain {g : Grouping} (hg : g.Proper) : g.chain.grouped = g := by
  induction g with
  | operand t => rfl
  | binary l op r ihl ihr =>
    obtain ⟨hl, hr, hlop, hrop⟩ := hg
    calc (binary l op r).chain.grouped
        = ((l.chain.grouped).push op r.chain.first).pushAll r.chain.rest := by
          simp only [chain, Chain.join, Chain.grouped, pushAll_append, pushAll_cons]
      _ = (binary l op (operand r.chain.first)).pushAll r.chain.rest := by
          rw [ihl hl, push_of_tight hlop]
      _ = binary l op r.chain.grouped := pushAll_binary _ ((tight_iff hr).1 hrop)
      _ = binary l op r := by rw [ihr hr]

/-- **C++ reads every chain in one way.** -/
theorem existsUnique_groups (c : Chain) : ∃! g, Groups c g := by
  refine ⟨c.grouped, groups_grouped c, ?_⟩
  rintro g ⟨hproper, rfl⟩
  exact hproper.grouped_chain.symm

theorem groups_between {a b op : Text} {c : Chain} :
    (∃ g, Groups c g ∧ Groups (((⟨a, []⟩ : Chain).join op c).join op ⟨b, []⟩)
      (binary (binary (operand a) op g) op (operand b))) ↔
    ∀ q ∈ c.rest, strength op < strength q.1 := by
  constructor
  · rintro ⟨g, ⟨hg, rfl⟩, hproper, -⟩
    exact (tight_iff hg).1 hproper.1.2.2.2
  · intro h
    obtain ⟨hg, hc⟩ := groups_grouped c
    refine ⟨c.grouped, ⟨hg, hc⟩, ⟨⟨trivial, hg, trivial, ?_⟩, trivial, Nat.le_refl _, trivial⟩, ?_⟩
    · exact (tight_iff hg).2 (by rwa [hc])
    · simp only [chain, hc]

end JavaToCpp.Cpp
