/-
  Numbers in programs that pass.

  C++ has `%` for whole numbers only, and `std::max` and `std::min` for two values of one type.  The
  check has one rule for all arithmetic operators, and it lets the wider argument of a maximum decide.
-/
import JavaToCpp.Proofs.Cpp.Printing
import JavaToCpp.Proofs.Typing.Types

open List

namespace JavaToCpp

/-! ## Widths of numbers -/

namespace ValueType

variable {ρ σ τ : ValueType}

def Integral (τ : ValueType) : Prop := τ = .char ∨ τ = .int

instance (τ : ValueType) : Decidable τ.Integral := inferInstanceAs (Decidable (_ ∨ _))

theorem isNumeric_of_ne (hvoid : τ ≠ .void) (hboolean : τ ≠ .boolean) : τ.isNumeric := by
  revert hvoid hboolean
  cases τ <;> decide

theorem fits_refl (h : τ.isNumeric) : τ.fits τ := by
  revert h
  cases τ <;> decide

theorem fits_trans (h : ρ.fits σ) (h' : σ.fits τ) : ρ.fits τ := by
  simp only [fits, fitsRank] at *
  grind

theorem fits_widest (hσ : σ.isNumeric) (hτ : τ.isNumeric) : σ.fits (σ.widest τ) ∧ τ.fits (σ.widest τ) := by
  revert hσ hτ
  cases σ <;> cases τ <;> decide

theorem isNumeric_widest (hσ : σ.isNumeric) (hτ : τ.isNumeric) : (σ.widest τ).isNumeric := by
  rcases Typing.widest_eq σ τ with h | h <;> rwa [h]

theorem Integral.of_fits (hτ : τ.Integral) (hσ : σ.isNumeric) (h : σ.fits τ) : σ.Integral := by
  revert hτ hσ h
  cases σ <;> cases τ <;> decide

theorem integral_widest (hσ : σ.isNumeric) (hτ : τ.isNumeric) :
    σ.Integral ∧ τ.Integral ↔ (σ.widest τ).Integral := by
  constructor
  · rintro ⟨hσ, hτ⟩
    rcases Typing.widest_eq σ τ with h | h <;> rwa [h]
  · intro h
    obtain ⟨hl, hr⟩ := fits_widest hσ hτ
    exact ⟨h.of_fits hσ hl, h.of_fits hτ hr⟩

end ValueType

end JavaToCpp

namespace JavaToCpp.Cpp

open Java Typing Program

/-! ## Operands -/

def Chain.operands (c : Chain) : List Text := c.first :: c.rest.map Prod.snd

theorem Chain.operands_join (c : Chain) (op : Text) (d : Chain) :
    (c.join op d).operands = c.operands ++ d.operands := by
  simp [join, operands]

/-- Whatever an operator is applied to is made of operands in `N`. -/
def Grouping.Over (N : Text → Prop) : Grouping → Prop
  | operand t => N t
  | binary l _ r => l.Over N ∧ r.Over N

theorem Grouping.over_iff {N : Text → Prop} {g : Grouping} : g.Over N ↔ ∀ x ∈ g.chain.operands, N x := by
  induction g with
  | operand t => simp [Over, chain, Chain.operands]
  | binary l op r ihl ihr => rw [Over, ihl, ihr, chain, Chain.operands_join, forall_mem_append]

theorem chain_term (t : Phrase .term) : t.chain = ⟨t.text, []⟩ := by
  cases t <;> rfl

section

variable {fs : List Function} {Γ : Text → ValueType → Prop}

/-- The text is that of a number, whose type is not wider than `τ`. -/
def IsNumber (fs : List Function) (Γ : Text → ValueType → Prop) (τ : ValueType) (x : Text) : Prop :=
  ∃ (t : Phrase .term) (σ : ValueType), t.text = x ∧ HasType fs Γ t σ ∧ σ.isNumeric ∧ σ.fits τ

variable {τ : ValueType}

theorem IsNumber.widen {σ : ValueType} {x : Text} (h : IsNumber fs Γ σ x) (hτ : σ.fits τ) :
    IsNumber fs Γ τ x := by
  obtain ⟨t, ρ, hx, ht, hρ, hfits⟩ := h
  exact ⟨t, ρ, hx, ht, hρ, ValueType.fits_trans hfits hτ⟩

variable (hΓ : ∀ x τ, Γ x τ → τ ≠ .void)
include hΓ

theorem isNumeric_of_hasType {s : Nonterminal} (hs : s ∈ expressions) {p : Phrase s}
    (h : HasType fs Γ p τ) (hτ : τ ≠ .boolean) : τ.isNumeric :=
  ValueType.isNumeric_of_ne (h.ne_void hΓ hs) hτ

theorem isNumber_of_mem {s : Nonterminal} (hs : s = .mathExpr) (m : Phrase s)
    (h : HasType fs Γ m τ) (hτ : τ.isNumeric) : ∀ x ∈ m.chain.operands, IsNumber fs Γ τ x := by
  -- by induction on the expression, whose first operand is a term and whose others are those of
  -- the shorter expression behind the operator
  induction m generalizing τ with
  | mathExpr t =>
    rintro x hx
    rw [Phrase.chain, chain_term] at hx
    exact ⟨t, τ, (mem_singleton.1 hx).symm, hasType_mathExpr.1 h, hτ, ValueType.fits_refl hτ⟩
  | math t op m _ ih =>
    obtain ⟨σ, σ', ht, hm, hσ, hσ', rfl⟩ := hasType_math.1 h
    have hσ := isNumeric_of_hasType hΓ (by decide) ht hσ
    have hσ' := isNumeric_of_hasType hΓ (by decide) hm hσ'
    obtain ⟨hl, hr⟩ := ValueType.fits_widest hσ hσ'
    rw [Phrase.chain, Chain.operands_join, forall_mem_append, chain_term]
    refine ⟨fun x hx => ?_, fun x hx => (ih rfl hm hσ' x hx).widen hr⟩
    exact ⟨t, σ, (mem_singleton.1 hx).symm, ht, hσ, hl⟩
  | _ => cases hs

end

/-! ## The nodes that operators stand in -/

section

variable {fs : List Function} {ρ : ValueType} {Γ : List Nat → Env} {cs : List Tree} {i : Nat} {s : Nonterminal}

theorem word_inj {v w : Word s} (h : some v.tree = some w.tree) : v = w := by
  cases v
  cases w
  cases h
  rfl

theorem ne_child {w : Word s} (h : ∀ t ∈ cs, t.label ≠ .ok s.label) : cs[i]? ≠ some w.tree :=
  fun hw => h _ (mem_of_getElem? hw) w.label_tree

theorem eq_zero_of_child {w : Word s} {t : Tree}
    (h : ∀ t ∈ cs, t.label ≠ .ok s.label) (hw : (t :: cs)[i]? = some w.tree) : i = 0 := by
  cases i with
  | zero => rfl
  | succ i =>
    rw [getElem?_cons_succ] at hw
    exact absurd hw (ne_child h)

theorem exists_math {w : Word .mathOperator} (hw : cs[i]? = some w.tree)
    (h : Lawful fs ρ Γ (Nonterminal.mathExpr.node cs)) :
    i = 1 ∧ ∃ t m, (Phrase.math t w m).tree = Nonterminal.mathExpr.node cs ∧
      ∃ τ, HasType fs (In (Γ [])) (Phrase.math t w m) τ := by
  obtain ⟨p, hp, τ, hτ⟩ := h.hasType (by decide)
  have hcs : p.tree.children = cs := by rw [hp]; rfl
  subst hcs
  cases p with
  | mathExpr t => exact absurd hw (ne_child (by simp [Phrase.tree, Nonterminal.label_inj]))
  | math t op m =>
    rcases i with _ | _ | _ | i
    · exact absurd hw (ne_word t.label_tree (by decide) w)
    · cases word_inj hw
      exact ⟨rfl, t, m, rfl, τ, hτ⟩
    · exact absurd hw (ne_word m.label_tree (by decide) w)
    · cases hw

theorem exists_combine {w : Word .opAssign} (hw : cs[i]? = some w.tree)
    (h : Lawful fs ρ Γ (Nonterminal.assignment.node cs)) :
    i = 1 ∧ ∃ id e, (Phrase.combine id w e).tree = Nonterminal.assignment.node cs ∧
      ∃ σ τ, In (Γ [0]) id.text σ ∧ HasType fs (In (Γ [2])) e τ ∧ σ ≠ .boolean ∧ τ ≠ .boolean ∧
        τ.fits σ := by
  obtain ⟨p, hp, hlawful⟩ := h.lawfulPhrase rfl
  have hcs : p.tree.children = cs := by rw [hp]; rfl
  subst hcs
  cases hlawful with
  | @combine id op e σ τ hid hσ he hτ hfits =>
    rcases i with _ | _ | _ | i
    · exact absurd hw (ne_word id.label_tree (by decide) w)
    · cases word_inj hw
      exact ⟨rfl, id, e, rfl, σ, τ, hid, he, hσ, hτ, hfits⟩
    · exact absurd hw (ne_word e.label_tree (by decide) w)
    · cases hw
  | set | stepAfter | stepBefore =>
    exact absurd hw (ne_child (by simp [Phrase.tree, Nonterminal.label_inj]))
  | expression hk | header hk => exact absurd hk (by decide)

theorem haveTypes_pair {Γ : Text → ValueType → Prop} {args : Phrase .callArgs} {σ τ : ValueType}
    (h : HaveTypes fs Γ args [σ, τ]) :
    ∃ e e', args.args = [e, e'] ∧ Text.join ", " args.argTexts = e.text ++ ", " ++ e'.text ∧
      HasType fs Γ e σ ∧ HasType fs Γ e' τ := by
  cases h with
  | @arg e c rest _ _ he hrest =>
    cases hrest with
    | @lastArg e' _ he' =>
      exact ⟨e, e', rfl, by simp [Phrase.argTexts, Text.join], he, he'⟩
    | arg _ hnone => cases hnone

/-- The name that a maximum or a minimum is called by. -/
def extremum (s : Nonterminal) : Text := if s = .max then "std::max" else "std::min"

theorem exists_extremum (hs : s = .max ∨ s = .min) {w : Word s}
    (hw : cs[i]? = some w.tree) (h : Lawful fs ρ Γ (Nonterminal.funcCall.node cs)) :
    i = 0 ∧ ∃ (c : Phrase .funcCall) (e e' : Phrase .expr), c.tree = Nonterminal.funcCall.node cs ∧
      arguments c = [e, e'] ∧ c.text = extremum s ++ enclosed (e.text ++ ", " ++ e'.text) ∧
      ∃ σ τ, HasType fs (In (Γ [])) e σ ∧ HasType fs (In (Γ [])) e' τ ∧ σ.isNumeric ∧ τ.isNumeric ∧
        HasType fs (In (Γ [])) c (σ.widest τ) := by
  obtain ⟨p, hp, τ, hτ⟩ := h.hasType (by decide)
  have hcs : p.tree.children = cs := by rw [hp]; rfl
  subst hcs
  cases p with
  | call | callEmpty | print =>
    refine absurd hw (ne_child ?_)
    rcases hs with rfl | rfl <;> simp [Phrase.tree, Nonterminal.label_inj]
  | max f lp args rp =>
    rcases hs with rfl | rfl
    · cases eq_zero_of_child (by simp [Nonterminal.label_inj]) hw
      obtain ⟨σ, σ', hargs, hσ, hσ', rfl⟩ := hasType_max.1 hτ
      obtain ⟨e, e', hpair, htext, he, he'⟩ := haveTypes_pair hargs
      refine ⟨rfl, .max f lp args rp, e, e', rfl, hpair, ?_, σ, σ', he, he', hσ, hσ', hτ⟩
      rw [Phrase.text, htext, extremum, if_pos rfl]
    · exact absurd hw (ne_child (by simp [Phrase.tree, Nonterminal.label_inj]))
  | min f lp args rp =>
    rcases hs with rfl | rfl
    · exact absurd hw (ne_child (by simp [Phrase.tree, Nonterminal.label_inj]))
    · cases eq_zero_of_child (by simp [Nonterminal.label_inj]) hw
      obtain ⟨σ, σ', hargs, hσ, hσ', rfl⟩ := hasType_min.1 hτ
      obtain ⟨e, e', hpair, htext, he, he'⟩ := haveTypes_pair hargs
      refine ⟨rfl, .min f lp args rp, e, e', rfl, hpair, ?_, σ, σ', he, he', hσ, hσ', hτ⟩
      rw [Phrase.text, htext, extremum, if_neg (by decide)]

end

/-! ## Programs that pass -/

/-- The operands of arithmetic operators are numbers, and both are whole if and only if the operation
    is.  What C++ applies the operators of the expression to is made of numbers that are not wider. -/
def NumericOperators (root : Tree) (fs : List Function) : Prop :=
  ∀ v (w : Word .mathOperator), root.get? v = some w.tree → ∃ u t m, v = u ++ [1] ∧
    root.get? u = some (Phrase.math t w m).tree ∧
    ∃ σ τ, HasType fs (In (envAt root u)) t σ ∧ HasType fs (In (envAt root u)) m τ ∧
      σ.isNumeric ∧ τ.isNumeric ∧ (σ.Integral ∧ τ.Integral ↔ (σ.widest τ).Integral) ∧
      ∀ g, Groups (Phrase.math t w m).chain g →
        g.Over (IsNumber fs (In (envAt root u)) (σ.widest τ))

/-- The operands of operators that assign are numbers, and both are whole if and only if the variable
    is. -/
def NumericAssignments (root : Tree) (fs : List Function) : Prop :=
  ∀ v (w : Word .opAssign), root.get? v = some w.tree → ∃ u id e, v = u ++ [1] ∧
    root.get? u = some (Phrase.combine id w e).tree ∧
    ∃ σ τ, In (envAt root (u ++ [0])) id.text σ ∧ HasType fs (In (envAt root (u ++ [2]))) e τ ∧
      σ.isNumeric ∧ τ.isNumeric ∧ τ.fits σ ∧ (σ.Integral ∧ τ.Integral ↔ σ.Integral)

/-- Maxima and minima are of two numbers, and as wide as the wider one. -/
def NumericExtrema (root : Tree) (fs : List Function) : Prop :=
  ∀ s, s = .max ∨ s = .min → ∀ v (w : Word s), root.get? v = some w.tree →
    ∃ (u : List Nat) (c : Phrase .funcCall) (e e' : Phrase .expr), v = u ++ [0] ∧
      root.get? u = some c.tree ∧
      arguments c = [e, e'] ∧ c.text = extremum s ++ enclosed (e.text ++ ", " ++ e'.text) ∧
      ∃ σ τ, HasType fs (In (envAt root u)) e σ ∧ HasType fs (In (envAt root u)) e' τ ∧
        σ.isNumeric ∧ τ.isNumeric ∧ HasType fs (In (envAt root u)) c (σ.widest τ)

section

variable {root : Tree} {fs : List Function} (hparse : grammar.Parses Label.program root)
  (hspelled : Spelled root.tokens) (hroot : Everywhere (Settled fs) [] root)

include hparse hspelled in
theorem ne_void_of_mem_envAt {u : List Nat} (x : Text) (τ : ValueType) (h : In (envAt root u) x τ) :
    τ ≠ .void := by
  obtain ⟨d, -, hd⟩ := mem_envAt.1 h
  exact Declares.ne_void hparse hspelled hd

include hparse hroot in
theorem exists_lawful {s k : Nonterminal} (hs : s ≠ .program) (hk : k ≠ .name)
    (hsides : ∀ x : Nonterminal, ∀ side ∈ x.sides, s ∈ side → x = k)
    {v : List Nat} {w : Word s} (hv : root.get? v = some w.tree) :
    ∃ u i cs, v = u ++ [i] ∧ root.get? u = some (k.node cs) ∧ cs[i]? = some w.tree ∧
      ∃ ρ, Lawful fs ρ (fun x => envAt root (u ++ x)) (k.node cs) := by
  obtain ⟨u, i, rfl, x, cs, hu, hi, side, hside, hx⟩ := exists_parent hparse hs hv
  cases hsides x side hside hx
  exact ⟨u, i, cs, rfl, hu, hi, (hroot u _ hu).lawful hk⟩

include hparse hspelled hroot in
theorem numericOperators : NumericOperators root fs := by
  intro v w hv
  obtain ⟨u, i, cs, rfl, hu, hi, ρ, hlawful⟩ :=
    exists_lawful hparse hroot (k := .mathExpr) (by decide) (by decide) (by decide) hv
  obtain ⟨rfl, t, m, hp, τ, hτ⟩ := exists_math hi hlawful
  rw [append_nil] at hτ
  obtain ⟨σ, σ', ht, hm, hσ, hσ', rfl⟩ := hasType_math.1 hτ
  have hΓ := ne_void_of_mem_envAt hparse hspelled (u := u)
  have hσ := isNumeric_of_hasType hΓ (by decide) ht hσ
  have hσ' := isNumeric_of_hasType hΓ (by decide) hm hσ'
  refine ⟨u, t, m, rfl, by rw [hu, hp], σ, σ', ht, hm, hσ, hσ',
    ValueType.integral_widest hσ hσ', fun g hg => ?_⟩
  rw [Grouping.over_iff, hg.chain_eq]
  exact isNumber_of_mem hΓ rfl _ hτ (ValueType.isNumeric_widest hσ hσ')

include hparse hspelled hroot in
theorem numericAssignments : NumericAssignments root fs := by
  intro v w hv
  obtain ⟨u, i, cs, rfl, hu, hi, ρ, hlawful⟩ :=
    exists_lawful hparse hroot (k := .assignment) (by decide) (by decide) (by decide) hv
  obtain ⟨rfl, id, e, hp, σ, τ, hid, he, hσ, hτ, hfits⟩ := exists_combine hi hlawful
  have hσ := ValueType.isNumeric_of_ne (ne_void_of_mem_envAt hparse hspelled _ _ hid) hσ
  have hτ := isNumeric_of_hasType (ne_void_of_mem_envAt hparse hspelled) (by decide) he hτ
  exact ⟨u, id, e, rfl, by rw [hu, hp], σ, τ, hid, he, hσ, hτ, hfits,
    and_iff_left_of_imp fun h => h.of_fits hτ hfits⟩

include hparse hroot in
theorem numericExtrema : NumericExtrema root fs := by
  intro s hs v w hv
  obtain ⟨u, i, cs, rfl, hu, hi, ρ, hlawful⟩ :=
    exists_lawful hparse hroot (k := .funcCall) (by rcases hs with rfl | rfl <;> decide) (by decide)
      (by rcases hs with rfl | rfl <;> decide) hv
  obtain ⟨rfl, c, e, e', hc, hpair, htext, htypes⟩ := exists_extremum hs hi hlawful
  rw [append_nil] at htypes
  exact ⟨u, c, e, e', rfl, by rw [hu, hc], hpair, htext, htypes⟩

end

/-- **Numbers in programs that pass**: arithmetic operators, `%` among them, are applied to numbers,
    and so are the operators that assign, maxima and minima.  Both operands of `%` are whole if and
    only if their remainder is, those of `%=` if and only if the variable is; and the two arguments of
    a maximum or minimum may have different types. -/
theorem operands_of_check {root : Tree} (hparse : grammar.Parses Label.program root)
    (hcheck : check root = .ok ()) :
    ∃ (p : Decl .program) (all : List Function), p.tree = root ∧ functionsOf root = .ok all ∧
      generate root = .ok p.rendering ∧
      (Spelled root.tokens → NumericOperators root (callables all) ∧
        NumericAssignments root (callables all)) ∧
      NumericExtrema root (callables all) ∧
      ∀ source ts, tokenize source = .ok ts → Spelled ts := by
  obtain ⟨all, hall, hwf⟩ := wellFormed_of_check hparse hcheck
  obtain ⟨p, rfl⟩ := exists_decl (s := .program) hparse rfl
  exact ⟨p, all, rfl, hall, generate_tree p (length_entries_le p hcheck),
    fun hspelled => ⟨numericOperators hparse hspelled hwf.settled,
      numericAssignments hparse hspelled hwf.settled⟩,
    numericExtrema hparse hwf.settled, fun _ _ => spelled_of_tokenize⟩

theorem float_mem_number : Text.ofString "number_float" ∈ Nonterminal.number.categories := by
  decide

def pointNumber (t : Text) : Phrase .term :=
  .term (.number ⟨⟨Text.ofString "number_float", t, 0, 0⟩, float_mem_number⟩)

def wholeNumber (t : Text) : Phrase .term := .term (.number (.ofText t))

/-- A class with an entry point that runs
    `double d = 5.5 % 2; d %= 2; d = Math.max(1, 2.5);`. -/
def remainders : Decl .program :=
  .ofMembers (.entry (.braced
    (.more (.simple Nonterminal.varDecl_mem_simple
      (.initialise (.ofText "double") (.ofText "d") (.ofText "=")
        (.expr (.disjunction (.relation
          (.math (pointNumber "5.5") (.ofText "%") (.mathExpr (wholeNumber "2")))))))
      (.ofText ";"))
    (.more (.simple Nonterminal.assignment_mem_simple
      (.combine (.ofText "d") (.ofText "%=") (.ofTerm (wholeNumber "2")))
      (.ofText ";"))
    (.last (.simple Nonterminal.assignment_mem_simple
      (.set (.ofText "d") (.ofText "=")
        (.ofTerm (.term (.value
          (.max (.ofText "Math.max") (.ofText "(")
            (.arg (.ofTerm (wholeNumber "1")) (.ofText ",")
              (.lastArg (.ofTerm (pointNumber "2.5"))))
            (.ofText ")"))))))
      (.ofText ";")))))))

theorem operands_of_check_remainders :
    grammar.Parses Label.program remainders.tree ∧ check remainders.tree = .ok () ∧
    Spelled remainders.tree.tokens ∧
    remainders.tree.get? [4, 0, 0, 7, 1, 0, 0, 3, 0, 0, 0, 1] =
      some (Word.ofText (s := .mathOperator) "%").tree ∧
    ∃ all, functionsOf remainders.tree = .ok all ∧
      NumericOperators remainders.tree (callables all) ∧
      NumericAssignments remainders.tree (callables all) ∧
      NumericExtrema remainders.tree (callables all) := by
  have hcheck : check remainders.tree = .ok () := by decide +kernel
  have hspelled : Spelled remainders.tree.tokens := by decide +kernel
  obtain ⟨p, all, -, hall, -, hnumeric, hextrema, -⟩ := operands_of_check remainders.parses hcheck
  exact ⟨remainders.parses, hcheck, hspelled, rfl, all, hall, (hnumeric hspelled).1,
    (hnumeric hspelled).2, hextrema⟩

/-- Remainders are those of whole numbers. -/
def IntegralRemainders (root : Tree) (fs : List Function) : Prop :=
  ∀ u t (w : Word .mathOperator) m, w.text = Text.ofString "%" →
    root.get? u = some (Phrase.math t w m).tree →
    ∀ σ τ, HasType fs (In (envAt root u)) t σ → HasType fs (In (envAt root u)) m τ →
      σ.Integral ∧ τ.Integral

/-- Remainders that are assigned are those of whole numbers. -/
def IntegralAssignments (root : Tree) (fs : List Function) : Prop :=
  ∀ u id (w : Word .opAssign) e, w.text = Text.ofString "%=" →
    root.get? u = some (Phrase.combine id w e).tree →
    ∀ σ τ, In (envAt root (u ++ [0])) id.text σ → HasType fs (In (envAt root (u ++ [2]))) e τ →
      σ.Integral ∧ τ.Integral

/-- Maxima and minima are those of two values of one type. -/
def LikeExtrema (root : Tree) (fs : List Function) : Prop :=
  ∀ u (c : Phrase .funcCall) e e', callee c = .max ∨ callee c = .min → root.get? u = some c.tree →
    arguments c = [e, e'] →
    ∀ σ τ, HasType fs (In (envAt root u)) e σ → HasType fs (In (envAt root u)) e' τ → σ = τ

/-- A program that passes has a remainder of a number with a point, assigns one, and has the maximum
    of a whole number and one with a point. -/
theorem remainders_fractional :
    grammar.Parses Label.program remainders.tree ∧ check remainders.tree = .ok () ∧
    generate remainders.tree = .ok (Text.ofString
      "#include <iostream>\n#include <algorithm>\n\nvoid main(int argc, char *argv[])\n\x7b\n    double d = 5.5 % 2;\n    d %= 2;\n    d = std::max(1, 2.5);\n\x7d\n") ∧
    ∃ all, functionsOf remainders.tree = .ok all ∧
      ¬ IntegralRemainders remainders.tree (callables all) ∧
      ¬ IntegralAssignments remainders.tree (callables all) ∧
      ¬ LikeExtrema remainders.tree (callables all) := by
  refine ⟨remainders.parses, by decide +kernel, by decide +kernel, _, functionsOf_program ..,
    ?_, ?_, ?_⟩
  · intro h
    have hint := h [4, 0, 0, 7, 1, 0, 0, 3, 0, 0, 0] (pointNumber "5.5") (.ofText "%")
      (.mathExpr (wholeNumber "2")) rfl rfl _ _ (.term .number) (.mathExpr (.term .number))
    revert hint
    decide
  · intro h
    have hd : (Text.ofString "d", .double) ∈ envAt remainders.tree [4, 0, 0, 7, 1, 1, 0, 0, 0] := by
      decide +kernel
    have hint := h [4, 0, 0, 7, 1, 1, 0, 0] (.ofText "d") (.ofText "%=") _ rfl rfl .double _ hd
      (.expr (.disjunction (.relation (.mathExpr (.term .number)))))
    revert hint
    decide
  · intro h
    have heq := h [4, 0, 0, 7, 1, 1, 1, 0, 0, 2, 0, 0, 0, 0, 0, 0] (.max _ _ _ _) _ _ (.inl rfl)
      rfl rfl _ _
      (.expr (.disjunction (.relation (.mathExpr (.term .number)))))
      (.expr (.disjunction (.relation (.mathExpr (.term .number)))))
    revert heq
    decide

end JavaToCpp.Cpp
