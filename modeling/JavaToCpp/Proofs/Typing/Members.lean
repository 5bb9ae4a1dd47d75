/-
  The order of members.

  Headers are collected one after the other and calls are resolved by the list that this leaves, but
  whether a program passes does not depend on the order of its functions.
-/
import Mathlib.Data.List.Perm.Basic
import Mathlib.Data.Set.List
import JavaToCpp.Proofs.Typing.Plain
import JavaToCpp.Proofs.Typing.Programs

namespace JavaToCpp.Typing

open Program Java List Label Decl
open JavaToCpp.Tree hiding line

variable {α β : Type}

/-- What the first computation gives, the second one gives too. -/
def Carries (x y : Except Failure α) : Prop := ∀ a, x = .ok a → y = .ok a

theorem Carries.refl (x : Except Failure α) : Carries x x := fun _ h => h

variable {y : Except Failure α}

theorem Carries.bind {x : Except Failure α} {k k' : α → Except Failure β} (hx : Carries x y)
    (hk : ∀ a, Carries (k a) (k' a)) : Carries (x >>= k) (y >>= k') := by
  intro b hb
  obtain ⟨a, ha, hb⟩ := bind_eq_ok.1 hb
  exact bind_eq_ok.2 ⟨a, hx a ha, hk a b hb⟩

theorem bind_unit_eq_ok {x : Except Failure Unit} {a : α} :
    (x >>= fun _ => y) = .ok a ↔ x = .ok () ∧ y = .ok a := by
  rw [bind_eq_ok]
  constructor
  · rintro ⟨⟨⟩, hx, hy⟩
    exact ⟨hx, hy⟩
  · rintro ⟨hx, hy⟩
    exact ⟨(), hx, hy⟩

theorem carries_ite {p : Prop} [Decidable p] {x x' y' : Except Failure α} (hx : Carries x x')
    (hy : Carries y y') : Carries (if p then x else y) (if p then x' else y') := by
  split
  · exact hx
  · exact hy

variable {fs fs' : List Function} {sc : Scopes} {f : Function}

/-! ## Expressions -/

theorem carries_resolve (hfs : fs.Perm fs') (callee : Callee) (name : Text) (line : Int)
    (args : List ValueType) :
    Carries (resolve fs callee name line args) (resolve fs' callee name line args) := by
  cases callee with
  | print | max | min => exact .refl _
  | user =>
    intro τ h
    obtain ⟨g, hg, rfl⟩ := resolve_user.1 h
    refine resolve_user.2 ⟨g, ?_, rfl⟩
    have hperm := hfs.filter (callable name args)
    rw [hg] at hperm
    exact perm_singleton.1 hperm.symm

mutual

/-- **The type of an expression** does not depend on the order of the functions. -/
theorem carries_exprType (hfs : fs.Perm fs') : ∀ e : Expr, Carries (exprType fs sc e) (exprType fs' sc e)
  | .missing | .untyped | .literal _ => .refl _
  | .var name line => by
    rw [exprType, exprType]
    exact .refl _
  | .call callee name line args => by
    rw [exprType, exprType]
    refine (carries_exprTypes hfs args).bind fun types => ?_
    exact (carries_resolve hfs callee name line types).bind fun t => .refl _
  | .negation arg line => by
    rw [exprType, exprType]
    exact (carries_exprType hfs arg).bind fun t => .refl _
  | .logic left leftLine right rightLine => by
    rw [exprType, exprType]
    refine (carries_exprType hfs left).bind fun l => carries_ite (.refl _) ?_
    exact (carries_exprType hfs right).bind fun r => .refl _
  | .compare equality left leftSite right rightSite => by
    rw [exprType, exprType]
    exact (carries_exprType hfs left).bind fun l => (carries_exprType hfs right).bind fun r => .refl _
  | .math left leftSite right rightSite => by
    rw [exprType, exprType]
    refine (carries_exprType hfs left).bind fun l => (Carries.refl _).bind fun _ => ?_
    exact (carries_exprType hfs right).bind fun r => .refl _

theorem carries_exprTypes (hfs : fs.Perm fs') :
    ∀ es : List Expr, Carries (exprTypes fs sc es) (exprTypes fs' sc es)
  | [] => .refl _
  | e :: es => by
    rw [exprTypes, exprTypes]
    exact (carries_exprType hfs e).bind fun t => (carries_exprTypes hfs es).bind fun ts => .refl _

end

/-! ## Statements -/

theorem carries_checkTest (hfs : fs.Perm fs') (test : Expr) (line : Int) :
    Carries (checkTest ⟨fs, f⟩ sc test line) (checkTest ⟨fs', f⟩ sc test line) := by
  rw [checkTest, checkTest]
  exact (carries_exprType hfs test).bind fun t => .refl _

theorem carries_checkValue (hfs : fs.Perm fs') (value : Expr) (line : Int) (target : ValueType) :
    Carries (checkValue ⟨fs, f⟩ sc value line target) (checkValue ⟨fs', f⟩ sc value line target) := by
  rw [checkValue, checkValue]
  exact (carries_exprType hfs value).bind fun t => .refl _

theorem carries_checkCall (hfs : fs.Perm fs') (call : Expr) :
    Carries (checkCall ⟨fs, f⟩ sc call) (checkCall ⟨fs', f⟩ sc call) := by
  cases call with
  | call callee name line args =>
    rw [checkCall, checkCall]
    refine (carries_exprTypes hfs args).bind fun types => ?_
    exact (carries_resolve hfs callee name line types).bind fun _ => .refl _
  | _ => exact .refl _

theorem carries_checkVarDecl (hfs : fs.Perm fs') (name : Text) (line : Int) (type : ValueType)
    (init : Option (Expr × Int)) :
    Carries (checkVarDecl ⟨fs, f⟩ sc name line type init)
      (checkVarDecl ⟨fs', f⟩ sc name line type init) := by
  rw [checkVarDecl, checkVarDecl]
  refine carries_ite (.refl _) (carries_ite (.refl _) ?_)
  cases init with
  | none => exact .refl _
  | some value => exact (carries_checkValue hfs value.1 value.2 type).bind fun _ => .refl _

theorem carries_checkAssignment (hfs : fs.Perm fs') (a : Assignment) :
    Carries (checkAssignment ⟨fs, f⟩ sc a) (checkAssignment ⟨fs', f⟩ sc a) := by
  rcases a with - | ⟨name, line, update⟩
  · exact .refl _
  · rw [checkAssignment, checkAssignment]
    cases sc.lookup? name with
    | none => exact .refl _
    | some v =>
      cases update with
      | missing | nothing | increment => exact .refl _
      | set value valueLine =>
        exact (carries_checkValue hfs value valueLine v.type).bind fun _ => .refl _
      | combine value valueLine =>
        refine carries_ite (.refl _) (carries_ite (.refl _) ?_)
        exact (carries_exprType hfs value).bind fun t => .refl _

theorem carries_checkReturn (hfs : fs.Perm fs') (line : Int) (value : Option (Expr × Int)) :
    Carries (checkReturn ⟨fs, f⟩ sc line value) (checkReturn ⟨fs', f⟩ sc line value) := by
  cases value with
  | none => exact .refl _
  | some value =>
    refine carries_ite (.refl _) ?_
    exact (carries_checkValue hfs value.1 value.2 f.returns).bind fun _ => .refl _

mutual

/-- **Statements that pass** pass with the functions in another order. -/
theorem carries_checkStatement (hfs : fs.Perm fs') : ∀ (s : Statement) (sc : Scopes),
    Carries (checkStatement ⟨fs, f⟩ s sc) (checkStatement ⟨fs', f⟩ s sc)
  | .missing, _ | .other, _ => .refl _
  | .varDecl name line type init, sc => by
    rw [checkStatement, checkStatement]
    exact carries_checkVarDecl hfs name line type init
  | .assign a, sc => by
    rw [checkStatement, checkStatement]
    exact carries_checkAssignment hfs a
  | .call call, sc => by
    rw [checkStatement, checkStatement]
    exact (carries_checkCall hfs call).bind fun _ => .refl _
  | .ret line value, sc => by
    rw [checkStatement, checkStatement]
    exact carries_checkReturn hfs line value
  | .cond i, sc => by
    rw [checkStatement, checkStatement]
    exact (carries_checkConditional hfs i sc).bind fun _ => .refl _
  | .forLoop init test testLine step body, sc => by
    rw [checkStatement, checkStatement]
    refine (carries_checkStatement hfs init sc.push).bind fun sc => ?_
    refine (carries_checkTest hfs test testLine).bind fun _ => ?_
    refine (carries_checkAssignment hfs step).bind fun sc => ?_
    exact (carries_checkBlock hfs body sc.push).bind fun sc => .refl _
  | .whileLoop test testLine body, sc => by
    rw [checkStatement, checkStatement]
    refine (carries_checkTest hfs test testLine).bind fun _ => ?_
    exact (carries_checkBlock hfs body sc.push).bind fun sc => .refl _
  | .doWhile body test testLine, sc => by
    rw [checkStatement, checkStatement]
    refine (carries_checkBlock hfs body sc.push).bind fun sc => ?_
    exact (carries_checkTest hfs test testLine).bind fun _ => .refl _
  | .block b, sc => by
    rw [checkStatement, checkStatement]
    exact (carries_checkBlock hfs b sc.push).bind fun sc => .refl _

theorem carries_checkBlock (hfs : fs.Perm fs') : ∀ (b : Block) (sc : Scopes),
    Carries (checkBlock ⟨fs, f⟩ b sc) (checkBlock ⟨fs', f⟩ b sc)
  | .missing, _ | .nil, _ => .refl _
  | .cons line s rest, sc => by
    rw [checkBlock, checkBlock]
    refine carries_ite (.refl _) ?_
    exact (carries_checkStatement hfs s sc).bind fun sc => carries_checkBlock hfs rest sc

theorem carries_checkConditional (hfs : fs.Perm fs') : ∀ (i : Conditional) (sc : Scopes),
    Carries (checkConditional ⟨fs, f⟩ i sc) (checkConditional ⟨fs', f⟩ i sc)
  | .branch test testLine yes no, sc => by
    rw [checkConditional, checkConditional]
    refine (carries_checkTest hfs test testLine).bind fun _ => ?_
    refine (carries_checkBlock hfs yes sc.push).bind fun sc => ?_
    exact (carries_checkAlternative hfs no _).bind fun _ => .refl _

theorem carries_checkAlternative (hfs : fs.Perm fs') : ∀ (a : Alternative) (sc : Scopes),
    Carries (checkAlternative ⟨fs, f⟩ a sc) (checkAlternative ⟨fs', f⟩ a sc)
  | .none, _ | .missing, _ => .refl _
  | .block b, sc => by
    rw [checkAlternative, checkAlternative]
    exact (carries_checkBlock hfs b sc.push).bind fun sc => .refl _
  | .chain i, sc => by
    rw [checkAlternative, checkAlternative]
    exact carries_checkConditional hfs i sc

end

theorem carries_checkFunction (hfs : fs.Perm fs') (f : Function) :
    Carries (checkFunction fs f) (checkFunction fs' f) := by
  rw [checkFunction, checkFunction]
  refine (Carries.refl _).bind fun sc => ?_
  exact (carries_checkBlock hfs (blockOf f.body) sc).bind fun sc => .refl _

/-! ## Headers -/

/-- The header of a function can be declared in a class of its own. -/
def Declarable (f : Function) : Prop :=
  f.entry = false → Unreserved f ∧ f.name ≠ Text.ofString "main"

/-- Two functions that cannot be declared in one class: two entry points, or two other functions
    with one name and parameters of the same types. -/
def Clash (f g : Function) : Prop :=
  f.entry ∧ g.entry ∨ f.entry = false ∧ g.entry = false ∧ f.name = g.name ∧ f.sameParams g

theorem Clash.symm {f g : Function} (h : Clash f g) : Clash g f := by
  rcases h with ⟨hf, hg⟩ | ⟨hf, hg, hname, hparams⟩
  · exact .inl ⟨hg, hf⟩
  · refine .inr ⟨hg, hf, hname.symm, ?_⟩
    rw [Function.sameParams, beq_iff_eq] at hparams ⊢
    exact hparams.symm

theorem checkHeader_eq_ok {before : List Function} {f : Function} :
    checkHeader before f = .ok () ↔ Declarable f ∧ ∀ g ∈ before, ¬ Clash g f := by
  cases hentry : f.entry with
  | true =>
    simp [checkHeader, Declarable, Clash, hentry, fail, pure, Except.pure]
  | false =>
    have hparams : (f.params.find? fun p => isReserved p.name) = none ↔
        ∀ p ∈ f.params, isReserved p.name = false := by
      simp
    simp only [checkHeader, Declarable, Clash, Unreserved, hentry, Bool.false_eq_true, if_false,
      ← hparams, fail]
    cases hname : isReserved f.name with
    | true => simp
    | false =>
      by_cases hmain : f.name = Text.ofString "main"
      · simp [hmain]
      · cases hfind : f.params.find? fun p => isReserved p.name with
        | some p =>
          simp only [hmain, if_false, Bool.false_eq_true]
          split <;> simp
        | none => simp [hmain, pure, Except.pure]

/-- **Headers pass** if each can be declared and no two of them clash. -/
theorem checkHeaders_eq_ok {before fs : List Function} : checkHeaders before fs = .ok () ↔
    (∀ f ∈ fs, Declarable f) ∧ (∀ g ∈ before, ∀ f ∈ fs, ¬ Clash g f) ∧
      fs.Pairwise fun f g => ¬ Clash f g := by
  -- by induction on the headers to come; those before them grow by one header at each step
  induction fs generalizing before with
  | nil => simp [checkHeaders]
  | cons f fs ih =>
    have hsplit : checkHeaders before (f :: fs) = .ok () ↔
        checkHeader before f = .ok () ∧ checkHeaders (before ++ [f]) fs = .ok () :=
      bind_unit_eq_ok
    rw [hsplit, checkHeader_eq_ok, ih]
    simp only [forall_mem_cons, pairwise_cons, mem_append, mem_singleton]
    grind

/-! ## Programs -/

structure PassTogether (all : List Function) : Prop where
  declarable : ∀ f ∈ all, Declarable f
  apart : all.Pairwise fun f g => ¬ Clash f g
  entry : ∃ f ∈ all, f.entry
  bodies : ∀ f ∈ all, checkFunction (callables all) f = .ok ()

variable {all : List Function} {root : Tree}

theorem PassTogether.perm {all' : List Function} (h : PassTogether all) (hperm : all.Perm all') :
    PassTogether all' where
  declarable := fun f hf => h.declarable f (hperm.mem_iff.2 hf)
  apart := (hperm.pairwise_iff fun hclash h => hclash h.symm).1 h.apart
  entry := by
    obtain ⟨f, hf, hentry⟩ := h.entry
    exact ⟨f, hperm.mem_iff.1 hf, hentry⟩
  bodies := fun f hf =>
    carries_checkFunction (hperm.filter _) f _ (h.bodies f (hperm.mem_iff.2 hf))

theorem forM_eq_ok_iff {k : Function → Except Failure Unit} {fs : List Function} :
    fs.forM k = .ok () ↔ ∀ f ∈ fs, k f = .ok () := by
  induction fs with
  | nil => simp [pure, Except.pure]
  | cons f fs ih =>
    have hsplit : (f :: fs).forM k = .ok () ↔ k f = .ok () ∧ fs.forM k = .ok () :=
      bind_unit_eq_ok
    rw [hsplit, ih, forall_mem_cons]

theorem collect_eq_ok : collect root = .ok all ↔
    functionsOf root = .ok all ∧ checkHeaders [] all = .ok () ∧ ∃ f ∈ all, f.entry := by
  rw [collect]
  cases functionsOf root with
  | error e => simp
  | ok fs =>
    simp only [bind_unit_eq_ok, ← any_eq_true, Except.ok.injEq]
    by_cases hentry : fs.any Function.entry = true
    · simp only [hentry, if_true, pure, Except.pure, Except.ok.injEq]
      constructor
      · rintro ⟨hheaders, rfl⟩
        exact ⟨rfl, hheaders, hentry⟩
      · rintro ⟨rfl, hheaders, -⟩
        exact ⟨hheaders, rfl⟩
    · simp only [hentry, Bool.false_eq_true, if_false, fail, reduceCtorEq, and_false, false_iff]
      rintro ⟨rfl, -, h⟩
      exact hentry h

theorem check_eq_ok_iff : check root = .ok () ↔
    root.hasLabel program ∧ ∃ all, functionsOf root = .ok all ∧ PassTogether all := by
  rw [check]
  cases root.hasLabel program with
  | false => simp
  | true =>
    simp only [Bool.not_true, Bool.false_eq_true, if_false, true_and, bind_eq_ok, collect_eq_ok,
      checkHeaders_eq_ok, forM_eq_ok_iff]
    constructor
    · rintro ⟨all, ⟨hall, ⟨hdeclarable, -, hapart⟩, hentry⟩, hbodies⟩
      exact ⟨all, hall, hdeclarable, hapart, hentry, hbodies⟩
    · rintro ⟨all, hall, hpass⟩
      exact ⟨all, ⟨hall, ⟨hpass.declarable, by simp, hpass.apart⟩, hpass.entry⟩, hpass.bodies⟩

theorem check_plain_eq_ok : check root.plain = .ok () ↔ check root = .ok () := by
  rw [check_plain]
  cases check root <;> simp [blind]

/-! ## Members -/

/-- The members of the class of a program, as the tree has them. -/
def membersOf (root : Tree) : Except Missing (List Tree) :=
  root.find classBody >>= flatten member

theorem functionsOf_eq_ok {ms : List Tree} (hms : membersOf root = .ok ms) : functionsOf root = .ok all ↔
      Forall₂ (fun m f => functionOf (m.child 0) = .ok f) ms all := by
  have hbind : functionsOf root = membersOf root >>= mapM fun m => functionOf (m.child 0) := by
    rw [functionsOf, membersOf, bind_assoc]
  rw [hbind, hms]
  exact mapM_eq_ok

theorem check_of_perm {root' : Tree} {ms ms' : List Tree} (hms : membersOf root = .ok ms)
    (hms' : membersOf root' = .ok ms') (hperm : (ms'.map plain).Perm (ms.map plain))
    (hroot' : root'.hasLabel program) (h : check root = .ok ()) : check root' = .ok () := by
  have hplain {t : Tree} {ts : List Tree} (h : membersOf t = .ok ts) :
      membersOf t.plain = .ok (ts.map plain) := by
    rw [membersOf, find_flatten_plain, ← membersOf, h]
    rfl
  rw [← check_plain_eq_ok, check_eq_ok_iff] at h ⊢
  obtain ⟨-, all, hall, hpass⟩ := h
  rw [functionsOf_eq_ok (hplain hms)] at hall
  obtain ⟨all', hall', hperm'⟩ := perm_comp_forall₂ hperm hall
  refine ⟨(hasLabel_plain ..).trans hroot', all', ?_, hpass.perm hperm'.symm⟩
  exact (functionsOf_eq_ok (hplain hms')).2 hall'

theorem membersOf_program (pub : Word .public_) (cl : Word .class_) (name : Word .name)
    (lb : Word .lbracketCurly) (body : Decl .classBody) (rb : Word .rbracketCurly) :
    membersOf (program pub cl name lb body rb).tree = .ok (body.members.map tree) := by
  have hbody : (program pub cl name lb body rb).tree.find classBody = .ok body.tree := by
    simp [tree, find, Nonterminal.labels, Nonterminal.findIn_cons]
  rw [membersOf, hbody]
  exact flatten_members body

theorem exists_members (ms : List (Decl .member)) (hms : ms ≠ []) :
    ∃ body : Decl .classBody, body.members = ms := by
  induction ms with
  | nil => exact absurd rfl hms
  | cons m ms ih =>
    by_cases hnil : ms = []
    · exact ⟨.lastMember m, by rw [hnil, members]⟩
    · obtain ⟨body, hbody⟩ := ih hnil
      exact ⟨.moreMembers m body, by rw [members, hbody]⟩

theorem members_ne_nil (body : Decl .classBody) : body.members ≠ [] := by
  cases body <;> simp [members]

/-- **The order of members** does not matter to the check.  The members of a program can be put in
    any order, with all else as it is, and a program with the same members in whatever order, also
    if its tokens stand elsewhere, passes if and only if the program does. -/
theorem check_iff_of_members_perm {root : Tree} (hparse : grammar.Parses program root) :
    ∃ ms, membersOf root = .ok ms ∧
      (∀ ms', ms'.Perm ms → ∃ root', grammar.Parses program root' ∧
        membersOf root' = .ok ms' ∧ root'.children.eraseIdx 4 = root.children.eraseIdx 4) ∧
      ∀ root' ms', grammar.Parses program root' → membersOf root' = .ok ms' →
        (ms'.map plain).Perm (ms.map plain) →
          (check root' = .ok () ↔ check root = .ok ()) := by
  have hlabel {t : Tree} (h : grammar.Parses program t) : t.hasLabel program := by
    obtain ⟨p, rfl⟩ := exists_decl (s := .program) h rfl
    cases p
    rfl
  obtain ⟨p, rfl⟩ := exists_decl (s := .program) hparse rfl
  cases p with
  | program pub cl name lb body rb =>
    have hms := membersOf_program pub cl name lb body rb
    refine ⟨_, hms, fun ms' hperm => ?_, fun root' ms' hparse' hms' hperm => ⟨?_, ?_⟩⟩
    · have hrange : ms' ∈ Set.range (map (tree (s := .member))) := by
        rw [Set.range_list_map]
        intro m hm
        obtain ⟨d, -, rfl⟩ := mem_map.1 (hperm.mem_iff.1 hm)
        exact ⟨d, rfl⟩
      obtain ⟨ds, rfl⟩ := hrange
      have hds : ds ≠ [] := by
        rintro rfl
        exact members_ne_nil body (map_eq_nil_iff.1 hperm.symm.eq_nil)
      obtain ⟨body', rfl⟩ := exists_members ds hds
      exact ⟨(program pub cl name lb body' rb).tree, parses (s := .program) _,
        membersOf_program .., rfl⟩
    -- either program has the members of the other, so one direction serves both
    · exact check_of_perm hms' hms hperm.symm (hlabel hparse)
    · exact check_of_perm hms hms' hperm (hlabel hparse')

theorem check_printTwice_reversed : grammar.Parses program printTwice.tree ∧
    check printTwice.tree = .ok () ∧ ∃ ms root', membersOf printTwice.tree = .ok ms ∧
      membersOf root' = .ok ms.reverse ∧ grammar.Parses program root' ∧
      check root' = .ok () := by
  have hcheck : check printTwice.tree = .ok () := by decide +kernel
  obtain ⟨ms, hms, hexists, hiff⟩ := check_iff_of_members_perm printTwice.parses
  obtain ⟨root', hparse, hms', -⟩ := hexists ms.reverse ms.reverse_perm
  have hpass := (hiff root' ms.reverse hparse hms' (ms.reverse_perm.map plain)).2 hcheck
  exact ⟨printTwice.parses, hcheck, ms, root', hms, hms', hparse, hpass⟩

end JavaToCpp.Typing
