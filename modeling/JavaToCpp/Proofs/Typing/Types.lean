/-
  Types in programs that pass.
-/
import JavaToCpp.Proofs.Java.Lexicon
import JavaToCpp.Proofs.Typing.Names

namespace JavaToCpp.Typing

open Program Java List

theorem ofKeyword_ne_void {ts : List Token} (h : Spelled ts) {w : Word .type} (hw : w.token ∈ ts) :
    ValueType.ofKeyword w.text ≠ .void := by
  have hwords : ∀ x ∈ ["int", "boolean", "float", "double", "char"].map Text.ofString,
      ValueType.ofKeyword x ≠ .void := by decide +kernel
  exact hwords _ (h _ hw _ mem_cons_self (mem_singleton.1 w.accepted))

variable {root : Tree}

theorem exists_type {k : Nonterminal} {cs : List Tree} (h : grammar.Parses k.label (k.node cs))
    {q : Text × ValueType} (hq : declared? (k.node cs) = some q) :
    ∃ w : Word .type, w.token ∈ (k.node cs).tokens ∧ q.2 = .ofKeyword w.text := by
  have hk : k = .varDecl ∨ k = .param := by
    by_contra hk
    simp [Nonterminal.node, declared?, Nonterminal.labels, hk] at hq
  rcases hk with rfl | rfl
  · obtain ⟨p, hp⟩ := exists_phrase h rfl
    rw [← hp] at hq ⊢
    cases p with
    | declare type id | initialise type id op e =>
      cases hq
      exact ⟨type, by simp [Phrase.tree, mem_tokensOf], rfl⟩
  · obtain ⟨d, hd⟩ := exists_decl h rfl
    rw [← hd] at hq ⊢
    cases d with
    | param type id =>
      cases hq
      exact ⟨type, by simp [Decl.tree, mem_tokensOf], rfl⟩

theorem Declares.ne_void (hparse : grammar.Parses Label.program root)
    (hspelled : Spelled root.tokens) {d : List Nat} {q : Text × ValueType}
    (h : Declares root d q) : q.2 ≠ .void := by
  obtain ⟨n, hn, hq⟩ := Option.bind_eq_some_iff.1 h
  match n with
  | .branch l cs =>
    obtain ⟨k, rfl, hparses, -⟩ := parses_get? (P := fun _ => True) (by simp) (s := .program) hparse
      trivial hn
    obtain ⟨w, hw, hτ⟩ := exists_type hparses hq
    rw [hτ]
    exact ofKeyword_ne_void hspelled (mem_tokens_of_get? hn hw)

/-- **Types in programs that pass**: every expression has one type, which is that of a value; every
    node of a function keeps the rules; and whatever expression has a type over variables that are
    declared and have values is given it, with the variables as they were. -/
theorem wellTyped_of_check (hparse : grammar.Parses Label.program root) (hcheck : check root = .ok ()) :
    (∃ all, functionsOf root = .ok all ∧
      (∀ s ∈ expressions, ∀ u cs, root.get? u = some (s.node cs) →
        ∃ p : Phrase s, p.tree = s.node cs ∧ ∃ τ,
          HasType (callables all) (In (envAt root u)) p τ ∧
          (∀ σ, HasType (callables all) (In (envAt root u)) p σ → σ = τ) ∧
          (Spelled root.tokens → τ ≠ .void)) ∧
      ∀ k : Nonterminal, k = .funcDeclaration ∨ k = .mainFunc → ∀ v cs,
        root.get? v = some (k.node cs) → ∃ f ∈ all, functionOf (k.node cs) = .ok f ∧
          ∀ u n, (k.node cs).get? u = some n →
            Lawful (callables all) f.returns (fun w => envAt root (v ++ (u ++ w))) n) ∧
    (∀ source ts, tokenize source = .ok ts → Spelled ts) ∧
    (∀ fs sc, ∀ s ∈ expressions, ∀ (p : Phrase s) τ, HasType fs (Holds sc) p τ →
      exprType fs sc (exprOf p.tree) = .ok τ) ∧
    ∀ c sc (p : Phrase .funcCall) τ, HasType c.functions (Holds sc) p τ →
      checkStatement c (statementOf p.tree) sc = .ok sc := by
  obtain ⟨all, hall, hwf⟩ := wellFormed_of_check hparse hcheck
  refine ⟨⟨all, hall, ?_, ?_⟩, fun source ts => spelled_of_tokenize,
    fun fs sc s hs p τ => (exprType_eq_ok hs p).2, ?_⟩
  · intro s hs u cs hu
    have hname : s ≠ .name := by
      rintro rfl
      exact absurd hs (by decide)
    have hsettled := hwf.settled u _ hu
    obtain ⟨ρ, hlawful⟩ := hsettled.lawful hname
    obtain ⟨p, hp, τ, hτ⟩ := hlawful.hasType (mem_cons_of_mem _ hs)
    have hnodup : ((envAt root u).map Prod.fst).Nodup := by simpa using hsettled.1
    simp only [nil_append, append_nil] at hτ
    refine ⟨p, hp, τ, hτ, fun σ hσ => hσ.unique hnodup hs hτ, fun hspelled => ?_⟩
    refine hτ.ne_void (fun x σ hx => ?_) hs
    obtain ⟨d, -, hd⟩ := mem_envAt.1 hx
    exact Declares.ne_void hparse hspelled hd
  · intro k hk v cs hv
    obtain ⟨hnone, f, hf, hfunction, hkept⟩ := hwf.functions k v cs hk hv
    refine ⟨f, hf, hfunction, fun u n hn => ?_⟩
    have hlawful := (hkept u n hn).2
    simpa only [envAt_append _ hv, hnone, nil_append] using hlawful
  · intro c sc p τ h
    rw [statementOf_funcCall]
    exact checkStatement_call.2 ⟨rfl, τ, (callType_eq_ok p).2 h⟩

theorem wellTyped_printTwice :
    grammar.Parses Label.program printTwice.tree ∧ check printTwice.tree = .ok () ∧
    Spelled printTwice.tree.tokens ∧ ∃ all, functionsOf printTwice.tree = .ok all ∧
      ∃ p : Phrase .expr, printTwice.tree.get? [4, 1, 0, 0, 7, 1, 0, 0, 4] = some p.tree ∧ ∃ τ,
        HasType (callables all) (In (envAt printTwice.tree [4, 1, 0, 0, 7, 1, 0, 0, 4])) p τ ∧
        τ ≠ .void := by
  have hcheck : check printTwice.tree = .ok () := by decide +kernel
  have hspelled : Spelled printTwice.tree.tokens := by decide +kernel
  obtain ⟨all, hall, hexprs, -⟩ := (wellTyped_of_check printTwice.parses hcheck).1
  obtain ⟨p, hp, τ, hτ, -, hvoid⟩ := hexprs .expr (by decide) [4, 1, 0, 0, 7, 1, 0, 0, 4] _ rfl
  exact ⟨printTwice.parses, hcheck, hspelled, all, hall, p, by rw [hp]; rfl, τ, hτ,
    hvoid hspelled⟩

end JavaToCpp.Typing
