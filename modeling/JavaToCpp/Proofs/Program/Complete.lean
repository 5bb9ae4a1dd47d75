/-
  Programs without missing parts.

  The stages behind the parser look for nodes by place and by label, and some of the nodes must be
  there: a loop has a condition, an operator two operands.  Whether they are can be told from the
  labels below a node.
-/
import JavaToCpp.Proofs.Program.Equations

namespace JavaToCpp.Program

open Java List Label JavaToCpp.Tree

/-! ## Whole trees -/

/-- Whether an assignment with the labels below it has the value that it assigns. -/
def Assigns (ls : List Symbol) : Prop :=
  assign ∈ ls ∨ opAssign ∈ ls → expr ∈ ls

instance (ls : List Symbol) : Decidable (Assigns ls) :=
  inferInstanceAs (Decidable (_ → _))

/-- The labels of nodes that are read through a child. -/
def parents : List Symbol :=
  [member, instruction, forInit, expr, operand, funcCall]

/-- The labels of nodes that hold one operand, or an operator between two. -/
def operations : List Symbol := [disjunction, relation, mathExpr]

/-- The labels of statements with a condition. -/
def conditioned : List Symbol :=
  [ifStatement, forLoop, whileLoop, doWhile]

/-- The labels below a node are enough for its own label. -/
structure Provides (l : Symbol) (ls : List Symbol) : Prop where
  child : l ∈ parents → ls ≠ []
  operands : l ∈ operations → ls.length = 1 ∨ 3 ≤ ls.length
  term : l = term →
    if ls.head? = some booleanNot then 2 ≤ ls.length
    else ls.head? = some operand ∨ expr ∈ ls
  test : l ∈ conditioned → expr ∈ ls
  init : l = forLoop → forInit ∈ ls
  value : l = assignment → Assigns ls

theorem provides_iff {l : Symbol} {ls : List Symbol} : Provides l ls ↔
    (l ∈ parents → ls ≠ []) ∧ (l ∈ operations → ls.length = 1 ∨ 3 ≤ ls.length) ∧
    (l = term →
      if ls.head? = some booleanNot then 2 ≤ ls.length
      else ls.head? = some operand ∨ expr ∈ ls) ∧
    (l ∈ conditioned → expr ∈ ls) ∧ (l = forLoop → forInit ∈ ls) ∧
    (l = assignment → Assigns ls) := by
  constructor
  · intro h
    exact ⟨h.child, h.operands, h.term, h.test, h.init, h.value⟩
  · rintro ⟨h₁, h₂, h₃, h₄, h₅, h₆⟩
    exact ⟨h₁, h₂, h₃, h₄, h₅, h₆⟩

instance (l : Symbol) (ls : List Symbol) : Decidable (Provides l ls) :=
  decidable_of_iff _ provides_iff.symm

/-- Every node of the tree has a label and enough below it. -/
structure Whole (t : Tree) : Prop where
  node : ∀ n ∈ t.nodes, ∃ l ls, n.label = .ok l ∧ n.labels = .ok ls ∧ Provides l ls
  /-- the step of a for statement is read as an assignment, whatever its label -/
  step : ∀ n ∈ t.nodes, n.label = .ok forStep →
    ∀ ls, (n.child 0).labels = .ok ls → Assigns ls

variable {t c : Tree} {l item : Text} {ls : List Symbol}

theorem Whole.of_mem_nodes (h : Whole t) (hc : c.nodes ⊆ t.nodes) : Whole c :=
  ⟨fun n hn => h.node n (hc hn), fun n hn => h.step n (hc hn)⟩

theorem Whole.of_mem (h : Whole t) (hc : c ∈ t.children) : Whole c :=
  h.of_mem_nodes (nodes_subset hc)

theorem Whole.present (h : Whole t) : Tree.hole ∉ t.nodes := by
  intro hhole
  obtain ⟨l, ls, hl, -⟩ := h.node _ hhole
  cases hl

theorem Whole.root (h : Whole t) :
    ∃ l ls, t.label = .ok l ∧ t.labels = .ok ls ∧ Provides l ls :=
  h.node t t.mem_nodes_self

theorem Whole.find (h : Whole t) (hls : t.labels = .ok ls) (l : Text) : ∃ c, t.find l = .ok c ∧
    (l ∈ ls ∧ Whole c ∧ c.label = .ok l ∨ l ∉ ls ∧ c = .hole) := by
  obtain ⟨c, hc, hcase⟩ := find_of_labels hls l
  refine ⟨c, hc, ?_⟩
  rcases hcase with ⟨hl, hmem, hlabel⟩ | hhole
  · exact .inl ⟨hl, h.of_mem hmem, hlabel⟩
  · exact .inr hhole

theorem Whole.child (h : Whole t) (hls : t.labels = .ok ls) {i : Nat} (hi : i < ls.length) :
    Whole (t.child i) :=
  h.of_mem (child_of_labels hls (getElem?_eq_getElem hi)).1

theorem Whole.head (h : Whole t) (hl : t.label = .ok l) (hp : l ∈ parents) : Whole (t.child 0) := by
  obtain ⟨l', ls, hl', hls, hprovides⟩ := h.root
  obtain rfl : l = l' := by simpa [hl] using hl'
  exact h.child hls (length_pos_iff.2 (hprovides.child hp))

theorem Whole.items (h : Whole t) (l item : Text) : ∃ list items, t.find l = .ok list ∧
    list.flatten item = .ok items ∧ ∀ c ∈ items, Whole c ∧ c.label = .ok item := by
  obtain ⟨-, ls, -, hls, -⟩ := h.root
  obtain ⟨list, hlist, ⟨-, hwhole, -⟩ | ⟨-, rfl⟩⟩ := h.find hls l
  · obtain ⟨items, hitems, hcase⟩ := flatten_of_present item hwhole.present
    refine ⟨list, items, hlist, hitems, fun c hc => ⟨?_, (hcase c hc).2⟩⟩
    exact hwhole.of_mem_nodes (nodes_subset_of_mem (hcase c hc).1)
  · exact ⟨.hole, [], hlist, by rw [Tree.flatten], by simp⟩

/-! ## Complete programs -/

inductive Expr.Complete : Expr → Prop
  | untyped : Complete .untyped
  | literal {τ : ValueType} : Complete (.literal τ)
  | var {name : Text} {line : Int} : Complete (.var name line)
  | call {callee : Callee} {name : Text} {line : Int} {args : List Expr} :
      (∀ a ∈ args, Complete a) → Complete (.call callee name line args)
  | negation {a : Expr} {line : Int} : Complete a → Complete (.negation a line)
  | logic {a b : Expr} {la lb : Int} : Complete a → Complete b → Complete (.logic a la b lb)
  | compare {eq : Bool} {a b : Expr} {sa sb : Site} :
      Complete a → Complete b → Complete (.compare eq a sa b sb)
  | math {a b : Expr} {sa sb : Site} : Complete a → Complete b → Complete (.math a sa b sb)

inductive Update.Complete : Update → Prop
  | nothing : Complete .nothing
  | set {value : Expr} {line : Int} : value.Complete → Complete (.set value line)
  | combine {value : Expr} {line : Int} : value.Complete → Complete (.combine value line)
  | increment : Complete .increment

inductive Assignment.Complete : Assignment → Prop
  | to {name : Text} {line : Int} {u : Update} : u.Complete → Complete (.to name line u)

mutual

inductive Statement.Complete : Statement → Prop
  | other : Statement.Complete .other
  | varDecl {name : Text} {line : Int} {τ : ValueType} {init : Option (Expr × Int)} :
      (∀ p ∈ init, p.1.Complete) → Statement.Complete (.varDecl name line τ init)
  | assign {a : Assignment} : a.Complete → Statement.Complete (.assign a)
  | call {callee : Callee} {name : Text} {line : Int} {args : List Expr} :
      (∀ a ∈ args, a.Complete) → Statement.Complete (.call (.call callee name line args))
  | ret {line : Int} {value : Option (Expr × Int)} :
      (∀ p ∈ value, p.1.Complete) → Statement.Complete (.ret line value)
  | cond {c : Conditional} : c.Complete → Statement.Complete (.cond c)
  | forLoop {init : Statement} {test : Expr} {line : Int} {step : Assignment} {body : Block} :
      init.Complete → test.Complete → step.Complete → body.Complete →
      Statement.Complete (.forLoop init test line step body)
  | whileLoop {test : Expr} {line : Int} {body : Block} :
      test.Complete → body.Complete → Statement.Complete (.whileLoop test line body)
  | doWhile {body : Block} {test : Expr} {line : Int} :
      body.Complete → test.Complete → Statement.Complete (.doWhile body test line)
  | block {b : Block} : b.Complete → Statement.Complete (.block b)

inductive Block.Complete : Block → Prop
  | nil : Block.Complete .nil
  | cons {line : Int} {s : Statement} {rest : Block} :
      s.Complete → rest.Complete → Block.Complete (.cons line s rest)

inductive Conditional.Complete : Conditional → Prop
  | branch {test : Expr} {line : Int} {yes : Block} {no : Alternative} :
      test.Complete → yes.Complete → no.Complete → Conditional.Complete (.branch test line yes no)

inductive Alternative.Complete : Alternative → Prop
  | none : Alternative.Complete .none
  | block {b : Block} : b.Complete → Alternative.Complete (.block b)
  | chain {c : Conditional} : c.Complete → Alternative.Complete (.chain c)

end

/-! ## Reading expressions -/

theorem complete_callOf (h : Whole t) (hl : t.label = .ok funcCall)
    (ih : ∀ c, sizeOf c < sizeOf t → Whole c → (exprOf c).Complete) :
    ∃ callee name line args, callOf t = .call callee name line args ∧ ∀ a ∈ args, a.Complete := by
  obtain ⟨first, -, hfirst, -⟩ := (h.head hl (by simp [parents])).root
  obtain ⟨list, args, hlist, hargs, hitems⟩ := h.items callArgs expr
  refine ⟨_, _, _, _, callOf_of_list hfirst hlist hargs, fun a ha => ?_⟩
  obtain ⟨c, hc, rfl⟩ := mem_map.1 ha
  exact ih c (sizeOf_of_mem_find_flatten hlist hargs hc) (hitems c hc).1

theorem complete_operandOf (h : Whole t)
    (ih : ∀ c, sizeOf c < sizeOf t → Whole c → (exprOf c).Complete) : (operandOf t).Complete := by
  obtain ⟨l, -, hl, -, -⟩ := h.root
  rw [operandOf_of_label hl]
  split_ifs with hid hcall
  · exact .var
  · obtain ⟨callee, name, line, args, hcall, hargs⟩ := complete_callOf h (by simp_all) ih
    rw [hcall]
    exact .call hargs
  · exact .literal

theorem complete_exprOf (h : Whole t) : (exprOf t).Complete := by
  induction t using sizeInduction with
  | step t ih =>
    obtain ⟨l, ls, hl, hls, hp⟩ := h.root
    have hsize (i : Nat) : sizeOf (t.child i) < sizeOf t :=
      sizeOf_child (isHole_eq_false hl) i
    have hchild {i : Nat} (hi : i < ls.length) : (exprOf (t.child i)).Complete :=
      ih _ (hsize i) (h.child hls hi)
    have hlength : t.children.length = ls.length := (children_labels hls).length_eq
    have hfind (he : expr ∈ ls) : (testOf t expr).1.Complete := by
      obtain ⟨e, hfind, ⟨-, hwhole, -⟩ | ⟨hnot, -⟩⟩ := h.find hls expr
      · rw [testOf, hfind]
        exact ih e (sizeOf_find (isHole_eq_false hl) hfind) hwhole
      · exact absurd he hnot
    rw [exprOf_of_label hl, hlength]
    simp only [beq_iff_eq]
    split_ifs with hexpr hdis hone hrel hone hmath hone hterm hoperand
    · exact ih _ (hsize 0) (h.head hl (by simp [hexpr, parents]))
    · exact hchild (by omega)
    · have := hp.operands (by simp [hdis, operations])
      exact .logic (hchild (by omega)) (hchild (by omega))
    · exact hchild (by omega)
    · have := hp.operands (by simp [hrel, operations])
      exact .compare (hchild (by omega)) (hchild (by omega))
    · exact hchild (by omega)
    · have := hp.operands (by simp [hmath, operations])
      exact .math (hchild (by omega)) (hchild (by omega))
    · have hneeds := hp.term hterm
      cases ls with
      | nil => simp at hneeds
      | cons first rest =>
        rw [(child_of_labels hls (i := 0) rfl).2]
        simp only [head?_cons, Option.some.injEq] at hneeds ⊢
        split_ifs at hneeds ⊢ with hnot hop
        · exact .negation (hchild hneeds)
        · exact hchild (by simp)
        · exact hfind (by simpa [hop] using hneeds)
    · refine complete_operandOf (h.head hl (by simp [hoperand, parents])) fun c hc => ih c ?_
      exact Nat.lt_trans hc (hsize 0)
    · exact .untyped

/-! ## Reading statements -/

theorem complete_testOf (h : Whole t) (hls : t.labels = .ok ls) (he : expr ∈ ls) :
    (testOf t expr).1.Complete := by
  obtain ⟨e, hfind, ⟨-, hwhole, -⟩ | ⟨hnot, -⟩⟩ := h.find hls expr
  · rw [testOf, hfind]
    exact complete_exprOf hwhole
  · exact absurd he hnot

theorem complete_valueOf (h : Whole t) : ∀ p ∈ valueOf t, p.1.Complete := by
  obtain ⟨-, ls, -, hls, -⟩ := h.root
  obtain ⟨e, hfind, ⟨-, hwhole, hl⟩ | ⟨-, rfl⟩⟩ := h.find hls expr
  · simpa [valueOf, hfind, isHole_eq_false hl] using complete_exprOf hwhole
  · simp [valueOf, hfind]

theorem complete_assignmentOf (h : Whole t) (hls : t.labels = .ok ls) (ha : Assigns ls) :
    (assignmentOf t).Complete := by
  obtain ⟨id, hid, -⟩ := h.find hls id
  rw [assignmentOf, hid]
  refine .to ?_
  obtain ⟨a, hset, ⟨hmem, -, hl⟩ | ⟨-, rfl⟩⟩ := h.find hls assign
  · simpa [updateOf, hset, isHole_eq_false hl] using
      Update.Complete.set (complete_testOf h hls (ha (.inl hmem)))
  · obtain ⟨a, hop, ⟨hmem, -, hl⟩ | ⟨-, rfl⟩⟩ := h.find hls opAssign
    · simpa [updateOf, hset, hop, isHole_eq_false hl] using
        Update.Complete.combine (complete_testOf h hls (ha (.inr hmem)))
    · obtain ⟨a, hinc, -⟩ := h.find hls increment
      simp only [updateOf, hset, hop, hinc, isHole_hole, Bool.not_true, Bool.false_eq_true,
        if_false]
      split_ifs
      · exact .nothing
      · exact .increment

theorem complete_assignmentOf_hole : (assignmentOf .hole).Complete := .to .nothing

theorem complete_stepOf (h : Whole t) : (stepOf t).Complete := by
  obtain ⟨-, ls, -, hls, -⟩ := h.root
  obtain ⟨step, hstep, ⟨-, hwhole, hl⟩ | ⟨-, rfl⟩⟩ := h.find hls forStep
  · rw [stepOf, hstep]
    rcases step.child_mem_or_hole 0 with hmem | hhole
    · obtain ⟨-, ls', -, hls', -⟩ := (hwhole.of_mem hmem).root
      exact complete_assignmentOf (hwhole.of_mem hmem) hls'
        (hwhole.step step step.mem_nodes_self hl ls' hls')
    · simpa only [hhole] using complete_assignmentOf_hole
  · rw [stepOf, hstep]
    exact complete_assignmentOf_hole

section Blocks

variable (h : Whole t) (ih : ∀ c, sizeOf c < sizeOf t → Whole c → (statementOf c).Complete)
include h ih

theorem complete_blockOf_of : (blockOf t).Complete := by
  obtain ⟨list, items, hlist, hitems, hcase⟩ := h.items instructions instruction
  have hstatement (c : Tree) (hc : c ∈ items) : (statementOf (c.child 0)).Complete := by
    obtain ⟨hwhole, hlabel⟩ := hcase c hc
    refine ih _ ?_ (hwhole.head hlabel (by simp [parents]))
    exact Nat.lt_of_le_of_lt (c.sizeOf_child_le 0) (sizeOf_of_mem_find_flatten hlist hitems hc)
  rw [blockOf_of_list hlist hitems]
  clear hitems hcase
  induction items with
  | nil => exact .nil
  | cons c cs ihcs =>
    exact .cons (hstatement c (by simp)) (ihcs fun d hd => hstatement d (mem_cons_of_mem _ hd))

theorem complete_innerBlockOf : (innerBlockOf t).Complete := by
  obtain ⟨l, ls, hl, hls, -⟩ := h.root
  obtain ⟨b, hb, ⟨-, hwhole, -⟩ | ⟨-, rfl⟩⟩ := h.find hls codeBlock
  · have hsize := sizeOf_find (isHole_eq_false hl) hb
    rw [innerBlockOf_of_find hb]
    exact complete_blockOf_of hwhole fun c hc => ih c (Nat.lt_trans hc hsize)
  · rw [innerBlockOf_of_find hb, blockOf_hole]
    exact .nil

end Blocks

theorem complete_conditionalOf (h : Whole t) (hl : t.label = .ok ifStatement)
    (ih : ∀ c, sizeOf c < sizeOf t → Whole c → (statementOf c).Complete) :
    (conditionalOf t).Complete := by
  -- along the chain of ifs that begins here
  induction t using sizeInduction with
  | step t ihn =>
    obtain ⟨l, ls, hl', hls, hp⟩ := h.root
    obtain rfl : ifStatement = l := by simpa [hl] using hl'
    rw [conditionalOf_def]
    refine .branch (complete_testOf h hls (hp.test (by simp [conditioned])))
      (complete_innerBlockOf h ih) ?_
    obtain ⟨e, he, ⟨hmem, -, hel⟩ | ⟨-, rfl⟩⟩ := h.find hls else_
    · have hhole := isHole_eq_false hl
      have hsize := sizeOf_lastChild hhole
      have ih' (c : Tree) (hc : sizeOf c < sizeOf t.lastChild) : Whole c → (statementOf c).Complete :=
        ih c (Nat.lt_trans hc hsize)
      have hwhole : Whole t.lastChild := by
        rcases findIn_mem_or_hole he with hmem | rfl
        · obtain ⟨d, hd⟩ : ∃ d, t.children.getLast? = some d :=
            Option.isSome_iff_exists.1 (by simpa using ne_nil_of_mem hmem)
          have hlast : t.lastChild = d := by simp [lastChild, hd]
          exact h.of_mem (hlast ▸ mem_of_getLast? hd)
        · cases hel
      obtain ⟨l, -, hlast, -⟩ := hwhole.root
      simp only [alternativeOf, he, isHole_eq_false hel, hhole, hlast, Bool.false_eq_true,
        if_false, beq_iff_eq]
      split_ifs with hif
      · exact .chain (ihn _ hsize hwhole (hif ▸ hlast) ih')
      · exact .block (complete_blockOf_of hwhole ih')
    · simp only [alternativeOf, he, isHole_hole, if_true]
      exact .none

theorem complete_statementOf (h : Whole t) : (statementOf t).Complete := by
  induction t using sizeInduction with
  | step t ih =>
    obtain ⟨l, ls, hl, hls, hp⟩ := h.root
    have htest (hc : l ∈ conditioned) : (testOf t expr).1.Complete :=
      complete_testOf h hls (hp.test hc)
    rw [statementOf_of_label hl]
    simp only [beq_iff_eq]
    split_ifs with hdecl hassign hcall hret hif hfor hwhile hdo hblock
    · obtain ⟨id, hid, -⟩ := h.find hls id
      obtain ⟨type, htype, -⟩ := h.find hls type
      simpa only [varDeclOf, hid, htype] using .varDecl (complete_valueOf h)
    · exact .assign (complete_assignmentOf h hls (hp.value hassign))
    · obtain ⟨callee, name, line, args, hcall, hargs⟩ :=
        complete_callOf h (hcall ▸ hl) fun c _ => complete_exprOf
      rw [hcall]
      exact .call hargs
    · obtain ⟨e, he, -⟩ := h.find hls expr
      simpa only [returnOf, he] using .ret (complete_valueOf h)
    · exact .cond (complete_conditionalOf h (hif ▸ hl) ih)
    · obtain ⟨init, hinit, ⟨-, hwhole, hil⟩ | ⟨hnot, -⟩⟩ := h.find hls forInit
      · have hsize : sizeOf (init.child 0) < sizeOf t :=
          Nat.lt_of_le_of_lt (init.sizeOf_child_le 0)
            (sizeOf_find (isHole_eq_false hl) hinit)
        rw [forLoopOf, hinit]
        exact .forLoop (ih _ hsize (hwhole.head hil (by simp [parents])))
          (htest (by simp [hfor, conditioned])) (complete_stepOf h) (complete_innerBlockOf h ih)
      · exact absurd (hp.init hfor) hnot
    · exact .whileLoop (htest (by simp [hwhile, conditioned])) (complete_innerBlockOf h ih)
    · exact .doWhile (complete_innerBlockOf h ih) (htest (by simp [hdo, conditioned]))
    · exact .block (complete_blockOf_of h ih)
    · exact .other

theorem complete_blockOf (h : Whole t) : (blockOf t).Complete :=
  complete_blockOf_of h fun _ _ => complete_statementOf

/-! ## Reading functions -/

theorem exists_paramOf (h : Whole t) : ∃ p, paramOf t = .ok p := by
  obtain ⟨-, ls, -, hls, -⟩ := h.root
  obtain ⟨id, hid, -⟩ := h.find hls id
  obtain ⟨type, htype, -⟩ := h.find hls type
  rw [paramOf, hid, htype]
  exact ⟨_, rfl⟩

theorem exists_functionOf (h : Whole t) :
    ∃ f, functionOf t = .ok f ∧ (blockOf f.body).Complete := by
  obtain ⟨l, ls, hl, hls, -⟩ := h.root
  obtain ⟨body, hbody, hcase⟩ := h.find hls codeBlock
  have hblock : (blockOf body).Complete := by
    rcases hcase with ⟨-, hwhole, -⟩ | ⟨-, rfl⟩
    · exact complete_blockOf hwhole
    · rw [blockOf_hole]
      exact .nil
  obtain ⟨name, hname, -⟩ := h.find hls name
  obtain ⟨returns, hreturns, -⟩ := h.find hls funcReturnType
  obtain ⟨list, items, hlist, hitems, hwhole⟩ := h.items funcParams param
  obtain ⟨params, hparams⟩ := exists_mapM_ok fun p hp => exists_paramOf (hwhole p hp).1
  rw [functionOf, hbody, hl, hname, hreturns, hlist]
  by_cases hmain : l == mainFunc
  · exact ⟨_, by simp only [bind, Except.bind, hmain, if_true]; rfl, hblock⟩
  · exact ⟨_, by simp only [bind, Except.bind, hmain, hitems, hparams]; rfl, hblock⟩

/-- **The functions of a whole tree can be read**, and their bodies are complete. -/
theorem exists_functionsOf (h : Whole t) :
    ∃ fs, functionsOf t = .ok fs ∧ ∀ f ∈ fs, (blockOf f.body).Complete := by
  obtain ⟨list, members, hlist, hmembers, hwhole⟩ := h.items classBody member
  have hmember (m : Tree) (hm : m ∈ members) :
      ∃ f, functionOf (m.child 0) = .ok f ∧ (blockOf f.body).Complete :=
    exists_functionOf ((hwhole m hm).1.head (hwhole m hm).2 (by simp [parents]))
  obtain ⟨fs, hfs, hcomplete⟩ := exists_mapM hmember
  refine ⟨fs, ?_, hcomplete⟩
  rw [functionsOf, hlist]
  simpa only [bind, Except.bind, hmembers] using hfs

end JavaToCpp.Program
