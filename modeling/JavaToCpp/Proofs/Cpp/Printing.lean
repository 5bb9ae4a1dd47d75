/-
  Printing.

  A call of println is written as a row of operands with `<<` between them, and its argument stands
  there without parentheses of its own.
-/
import JavaToCpp.Proofs.Cpp.Generation
import JavaToCpp.Proofs.Cpp.Lines
import JavaToCpp.Proofs.Cpp.Precedence
import JavaToCpp.Proofs.Java.Lexicon
import JavaToCpp.Proofs.Typing.Names

open List

namespace JavaToCpp.Java

open JavaToCpp.Cpp (Chain strength)
open JavaToCpp.Typing (expressions)

/-! ## Operators outside of parentheses -/

namespace Phrase

/-- The operands and operators of an expression outside of parentheses. -/
def chain : {s : Nonterminal} → Phrase s → Chain
  | _, expr d => d.chain
  | _, disjunction r => r.chain
  | _, logic r op d => r.chain.join op.text d.chain
  | _, relation m => m.chain
  | _, comparison l op r => l.chain.join op.text r.chain
  | _, mathExpr t => t.chain
  | _, math t op m => t.chain.join op.text m.chain
  | _, p => ⟨p.text, []⟩

theorem text_chain {s : Nonterminal} (p : Phrase s) : p.chain.text = p.text := by
  induction p with
  | expr _ ih | disjunction _ ih | relation _ ih | mathExpr _ ih => exact ih
  | logic r op d ihl ihr | comparison l op r ihl ihr | math l op m ihl ihr =>
    rw [chain, Chain.text_join, ihl, ihr, text]
  | _ => exact append_nil _

theorem rest_chain {s : Nonterminal} (hs : s ∈ [.term, .operand, .funcCall]) (p : Phrase s) :
    p.chain.rest = [] := by
  cases p <;> first | rfl | exact absurd hs (by decide)

end Phrase

/-- The tokens outside of parentheses, where `d` of them are open. -/
def outer : (d : Nat) → List Token → List Token
  | _, [] => []
  | d, k :: ks =>
    if k.category = Text.ofString "lbracket" then outer (d + 1) ks
    else if k.category = Text.ofString "rbracket" then outer (d - 1) ks
    else if d = 0 then k :: outer 0 ks
    else outer d ks

section

variable {s : Nonterminal} {d : Nat} {ks : List Token}

@[simp] theorem outer_lbracket (w : Word .lbracket) : outer d (w.token :: ks) = outer (d + 1) ks :=
  if_pos (mem_singleton.1 w.accepted)

@[simp] theorem outer_rbracket (w : Word .rbracket) : outer d (w.token :: ks) = outer (d - 1) ks := by
  rw [outer, mem_singleton.1 w.accepted]
  rfl

theorem outer_word (w : Word s) (hs : s ≠ .lbracket ∧ s ≠ .rbracket) :
    outer d (w.token :: ks) = if d = 0 then w.token :: outer 0 ks else outer d ks := by
  have hcategory : ∀ s : Nonterminal, s ≠ .lbracket ∧ s ≠ .rbracket →
      Text.ofString "lbracket" ∉ s.categories ∧
        Text.ofString "rbracket" ∉ s.categories := by
    decide +kernel
  obtain ⟨hl, hr⟩ := hcategory s hs
  have hne {c : Text} (hc : c ∉ s.categories) : w.token.category ≠ c :=
    fun h => hc (h ▸ w.accepted)
  rw [outer, if_neg (hne hl), if_neg (hne hr)]

@[simp] theorem outer_word_zero (w : Word s) (hs : s ≠ .lbracket ∧ s ≠ .rbracket) :
    outer 0 (w.token :: ks) = w.token :: outer 0 ks :=
  outer_word w hs

@[simp] theorem outer_word_succ (w : Word s) (hs : s ≠ .lbracket ∧ s ≠ .rbracket) :
    outer (d + 1) (w.token :: ks) = outer (d + 1) ks :=
  outer_word w hs

@[simp] theorem outer_phrase (p : Phrase s) (d : Nat) (ks : List Token) :
    outer (d + 1) (p.tree.tokens ++ ks) = outer (d + 1) ks := by
  induction p generalizing d ks <;> simp [Phrase.tree, Tree.tokensOf, *]

end

/-- Comparisons, `&&` and `||`. -/
def Loose (k : Token) : Prop :=
  k.category = Text.ofString "compare" ∨ k.category = Text.ofString "boolean_operator"

instance (k : Token) : Decidable (Loose k) := by
  unfold Loose; infer_instance

theorem not_loose_word {s : Nonterminal} (w : Word s) (hs : s ≠ .compare ∧ s ≠ .booleanOperator) :
    ¬ Loose w.token := by
  have hcategory : ∀ s : Nonterminal, s ≠ .compare ∧ s ≠ .booleanOperator →
      Text.ofString "compare" ∉ s.categories ∧
        Text.ofString "boolean_operator" ∉ s.categories := by
    decide +kernel
  obtain ⟨hc, hb⟩ := hcategory s hs
  rintro (h | h)
  · exact hc (h ▸ w.accepted)
  · exact hb (h ▸ w.accepted)

section

variable {ts : List Token} (hts : Spelled ts)
include hts

theorem not_loose_iff {s : Nonterminal}
    (hs : s = .compare ∨ s = .booleanOperator ∨ s = .mathOperator) {w : Word s} (hw : w.token ∈ ts) :
    ¬ Loose w.token ↔ strength (Text.ofString "<<") < strength w.text := by
  have hall : ∀ q ∈ spellings, q.1 ≠ "type_hint" → ∀ x ∈ q.2.map Text.ofString,
      (¬ (Text.ofString q.1 = Text.ofString "compare" ∨
          Text.ofString q.1 = Text.ofString "boolean_operator") ↔
        strength (Text.ofString "<<") < strength x) := by
    decide +kernel
  obtain ⟨q, hq, hne, hc⟩ : ∃ q ∈ spellings, q.1 ≠ "type_hint" ∧
      w.token.category = Text.ofString q.1 := by
    rcases hs with rfl | rfl | rfl
    · exact ⟨_, .tail _ (.head _), by decide, mem_singleton.1 w.accepted⟩
    · exact ⟨_, .tail _ (.tail _ (.head _)), by decide, mem_singleton.1 w.accepted⟩
    · exact ⟨_, .tail _ (.tail _ (.tail _ (.head _))), by decide, mem_singleton.1 w.accepted⟩
  rw [Loose, hc]
  exact hall q hq hne _ (hts _ hw q hq hc)

theorem forall_outer {s : Nonterminal} (hs : s ∈ Nonterminal.funcCall :: expressions) (p : Phrase s)
    (hp : ∀ k ∈ p.tree.tokens, k ∈ ts) (ks : List Token) :
    (∀ k ∈ outer 0 (p.tree.tokens ++ ks), ¬ Loose k) ↔
      (∀ q ∈ p.chain.rest, strength (Text.ofString "<<") < strength q.1) ∧
      ∀ k ∈ outer 0 ks, ¬ Loose k := by
  induction p generalizing ks with
  | expr _ ih | disjunction _ ih | relation _ ih | mathExpr _ ih =>
    simpa [Phrase.tree, Phrase.chain, Tree.tokensOf] using
      ih (by decide) (by simpa [Phrase.tree, Tree.tokensOf] using hp) ks
  | logic l op r ihl ihr | comparison l op r ihl ihr | math l op r ihl ihr =>
    simp only [Phrase.tree, Nonterminal.tokens_node, Tree.tokensOf, Word.tokens_tree,
      append_nil, mem_append, mem_singleton, or_imp, forall_and,
      forall_eq] at hp
    obtain ⟨hl, hop, hr⟩ := hp
    have hloose := not_loose_iff hts (by simp) hop
    rw [Phrase.chain, Chain.forall_mem_join (P := (strength (Text.ofString "<<") < strength ·))]
    simp [Phrase.tree, Tree.tokensOf, ihl (by decide) hl, ihr (by decide) hr, hloose, and_assoc]
  | term o ih | value o ih =>
    have ih := ih (by decide) (by simpa [Phrase.tree, Tree.tokensOf] using hp) ks
    rw [Phrase.rest_chain (by decide)] at ih ⊢
    simpa [Phrase.tree, Tree.tokensOf] using ih
  | negation op t ih =>
    have ht : ∀ k ∈ t.tree.tokens, k ∈ ts := fun k hk => hp k (by simp [Phrase.tree, Tree.tokensOf, hk])
    have ih := ih (by decide) ht ks
    rw [Phrase.rest_chain (by decide)] at ih ⊢
    simpa [Phrase.tree, Tree.tokensOf, not_loose_word op] using ih
  | group lp e rp | number w | charLiteral w | booleanValue w | var w | call f lp args rp
    | callEmpty f lp rp | print f lp args rp | max f lp args rp | min f lp args rp =>
    simp [Phrase.tree, Tree.tokensOf, Phrase.chain, not_loose_word]
  | _ => exact absurd hs (by decide)

end

end JavaToCpp.Java

namespace JavaToCpp.Cpp

open Java Typing Program

variable {root : Tree} {fs : List Function} {w : Word .print} {ts : List Tree}

/-! ## Calls of println -/

theorem eq_print {c : Phrase .funcCall} (h : c.tree = Nonterminal.funcCall.node (w.tree :: ts)) :
    ∃ f lp args rp, c = .print f lp args rp := by
  have hchildren := congrArg Tree.children h
  have hne {s : Nonterminal} (hs : s ≠ .print) (f : Word s) : f.tree ≠ w.tree := by
    intro hf
    have hlabel : f.tree.label = .ok Nonterminal.print.label := by rw [hf]; rfl
    exact hs (Nonterminal.label_inj.1 (Except.ok.inj hlabel))
  match c with
  | .print f lp args rp => exact ⟨f, lp, args, rp, rfl⟩
  | .call f _ _ _ | .callEmpty f _ _ | .max f _ _ _ | .min f _ _ _ =>
    exact absurd (List.cons.inj hchildren).1 (hne (by decide) f)

theorem ne_nil_of_haveTypes {Γ : Text → ValueType → Prop} {args : Phrase .callArgs}
    {τs : List ValueType} (h : HaveTypes fs Γ args τs) : τs ≠ [] := by
  cases h <;> exact cons_ne_nil _ _

theorem exists_arg {Γ : List Nat → Env} {f : Word .print} {lp : Word .lbracket}
    {args : Phrase .callArgs} {rp : Word .rbracket}
    (h : Settled fs Γ (Phrase.print f lp args rp).tree) : ∃ e, args = .lastArg e := by
  obtain ⟨ρ, hlawful⟩ := Settled.lawful h (by decide)
  obtain ⟨c, hc, τ, hτ⟩ := hlawful.hasType (by decide)
  obtain ⟨f', lp', args', rp', rfl⟩ := eq_print hc
  have hargs : args'.tree = args.tree :=
    (List.cons.inj (List.cons.inj (List.cons.inj (congrArg Tree.children hc)).2).2).1
  obtain ⟨⟨σ, hσ⟩, -⟩ := hasType_print.1 hτ
  match args', args with
  | .lastArg e', .lastArg e => exact ⟨e, rfl⟩
  | .lastArg e', .arg e c rest => cases congrArg length (congrArg Tree.children hargs)
  | .arg e' c rest, _ =>
    obtain ⟨_, σs, _, hrest, hσs⟩ := haveTypes_arg.1 hσ
    exact absurd (List.cons.inj hσs).2.symm (ne_nil_of_haveTypes hrest)

theorem not_operand {Γ : List Nat → Env} {cs : List Tree} {i : Nat}
    (hi : cs[i]? = some (Nonterminal.funcCall.node (w.tree :: ts))) :
    ¬ Settled fs Γ (Nonterminal.operand.node cs) := by
  intro h
  obtain ⟨ρ, hlawful⟩ := h.lawful (by decide)
  obtain ⟨o, ho, τ, hτ⟩ := hlawful.hasType (by decide)
  have hcs : o.tree.children = cs := by rw [ho]; rfl
  subst hcs
  match i, o with
  | 0, .value c =>
    obtain ⟨f, lp, args, rp, rfl⟩ := eq_print (Option.some.inj hi)
    obtain ⟨hprint, hvoid⟩ := hasType_value.1 hτ
    exact hvoid (hasType_print.1 hprint).2
  | 0, .number v | 0, .charLiteral v | 0, .booleanValue v | 0, .var v =>
    exact absurd hi.symm (ne_word (Nonterminal.label_node .funcCall _) (by decide) v)
  | _ + 1, .var _ | _ + 1, .number _ | _ + 1, .charLiteral _ | _ + 1, .booleanValue _
  | _ + 1, .value _ => cases hi

theorem exists_instructs (hparse : grammar.Parses Label.program root)
    (hroot : Everywhere (Settled fs) [] root)
    (h : Nonterminal.funcCall.node (w.tree :: ts) ∈ root.nodes) :
    ∃ (cs : List Tree) (i : Nat), Instructs root cs ∧
      cs[i]? = some (Nonterminal.funcCall.node (w.tree :: ts)) := by
  have hsides : ∀ s : Nonterminal, ∀ side ∈ s.sides,
      .funcCall ∈ side → s = .operand ∨ s = .instruction := by
    decide
  obtain ⟨u, hu⟩ := Tree.exists_get? h
  obtain ⟨v, i, rfl, k, cs, hv, hi, side, hside, hx⟩ := exists_parent hparse (by decide) hu
  refine ⟨cs, i, ?_, hi⟩
  rcases hsides k side hside hx with rfl | rfl
  · exact absurd (hroot v _ hv) (not_operand hi)
  · exact Tree.mem_nodes_of_get? hv

theorem exists_line {cs : List Tree} {ls : List Text} (h : Shown cs ls) {i : Nat}
    (hi : cs[i]? = some (Nonterminal.funcCall.node (w.tree :: ts))) :
    ∃ f lp args rp, (Phrase.print f lp args rp).tree = Nonterminal.funcCall.node (w.tree :: ts) ∧
      ∃ depth, Page.indented depth ((Phrase.print f lp args rp).text ++ ";") ∈ ls := by
  obtain ⟨x, hx, depth, hl⟩ := h
  have hcs : x.tree.children = cs := by rw [hx]; rfl
  subst hcs
  have heq {k : Nonterminal} {t : Tree} (ht : t.label = .ok k.label)
      (h : some t = some (Nonterminal.funcCall.node (w.tree :: ts))) : k = .funcCall := by
    cases h
    exact (Nonterminal.label_inj.1 (Except.ok.inj ht)).symm
  match i, x with
  | 0, .simple hk p e =>
    cases heq p.label_tree hi
    obtain ⟨f, lp, args, rp, rfl⟩ := eq_print (Option.some.inj hi)
    have hsolid : EndsSolid (Phrase.print f lp args rp).text :=
      EndsSolid.append (a := Text.ofString " << \"\\n\"") ⟨34, rfl, by decide⟩ _
    refine ⟨f, lp, args, rp, Option.some.inj hi, depth, hl _ ?_⟩
    rw [Stmt.lines, nil_append, hsolid.trimmed]
    exact mem_singleton_self _
  | 1, .simple hk p e => cases heq e.label_tree hi
  | 0, .compound hk x =>
    cases heq x.label_tree hi
    exact absurd hk (by decide)
  | _ + 2, .simple _ _ _ | _ + 1, .compound _ _ => cases hi

theorem length_entries_member (m : Decl .member) :
    m.entries.length = [functionIn m].countP Function.entry := by
  match m with
  | .ofFunction (.function ..) | .ofFunction (.functionEmpty ..) | .ofMain (.main ..) => rfl

theorem length_entries : ∀ body : Decl .classBody,
    body.entries.length = (body.members.map functionIn).countP Function.entry
  | .lastMember m => length_entries_member m
  | .moreMembers m rest => by
    rw [Decl.entries, Decl.members, map_cons, length_append, length_entries_member,
      length_entries rest, ← countP_append, singleton_append]

theorem length_entries_le (p : Decl .program) (h : check p.tree = .ok ()) : p.entries.length ≤ 1 := by
  match p with
  | .program pub cl name lb body rb =>
    obtain ⟨all, hall, hheaders, -⟩ := check_ok h
    rw [functionsOf_program] at hall
    cases hall
    have hcount := countP_entry_le hheaders (Nat.zero_le _)
    rwa [nil_append, ← length_entries] at hcount

/-! ## How C++ reads them -/

/-- The row of operands that a call of println is written as. -/
def Chain.printed (c : Chain) : Chain :=
  ((⟨"std::cout", []⟩ : Chain).join "<<" c).join "<<" ⟨"\"\\n\"", []⟩

/-- `((std::cout << a) << "\n")`. -/
def Grouping.printed (a : Grouping) : Grouping :=
  binary (binary (operand "std::cout") "<<" a) "<<" (operand "\"\\n\"")

/-- **Printing in programs that pass**: a call of println has one argument and a line of its own in
    the text.  The argument stands between two `<<`; C++ reads it as one operand of them if and only
    if no comparison, `&&` or `||` is in it outside of parentheses. -/
theorem print_groups_iff (hparse : grammar.Parses Label.program root) (hcheck : check root = .ok ()) :
    ∃ out, generate root = .ok out ∧
      ∀ (w : Word .print) ts, Nonterminal.funcCall.node (w.tree :: ts) ∈ root.nodes →
        ∃ (lp : Word .lbracket) (e : Phrase .expr) (rp : Word .rbracket),
          ts = [lp.tree, (Phrase.lastArg e).tree, rp.tree] ∧
          (∃ depth, HasLine out (Page.indented depth
            ("std::cout" ++ Page.trimmed (" << " ++ e.chain.text) ++ " << \"\\n\"" ++ ";"))) ∧
          (∃! g, Groups e.chain.printed g) ∧
          (Spelled root.tokens →
            ((∃ a, Groups e.chain a ∧ Groups e.chain.printed a.printed) ↔
              ∀ k ∈ outer 0 e.tree.tokens, ¬ Loose k)) := by
  obtain ⟨all, -, hwf⟩ := wellFormed_of_check hparse hcheck
  obtain ⟨p, rfl⟩ := exists_decl (s := .program) hparse rfl
  refine ⟨p.rendering, generate_tree p (length_entries_le p hcheck), fun w ts h => ?_⟩
  obtain ⟨cs, i, hcs, hi⟩ := exists_instructs hparse hwf.settled h
  obtain ⟨r, hr, hshown⟩ := shown_decl p hcs
  obtain ⟨f, lp, args, rp, htree, depth, hline⟩ := exists_line hshown hi
  obtain ⟨u, hu⟩ := Tree.exists_get? h
  rw [← htree] at hu
  obtain ⟨e, rfl⟩ := exists_arg (hwf.settled u _ hu)
  refine ⟨lp, e, rp, (List.cons.inj (congrArg Tree.children htree)).2.symm, ⟨depth, ?_⟩,
    existsUnique_groups _, fun hspelled => ?_⟩
  · rw [Phrase.text_chain]
    simpa [Phrase.text, Phrase.argTexts] using hasLine_rendering p hr hline
  · have htokens : ∀ k ∈ e.tree.tokens, k ∈ p.tree.tokens := fun k hk =>
      mem_tokens_of_get? hu (by simp [Phrase.tree, Tree.tokensOf, hk])
    have houter := forall_outer hspelled (by decide) e htokens []
    rw [append_nil, and_iff_left (by simp [outer])] at houter
    exact groups_between.trans houter.symm

theorem print_groups_printTwice :
    grammar.Parses Label.program printTwice.tree ∧ check printTwice.tree = .ok () ∧
    Spelled printTwice.tree.tokens ∧ ∃ e : Phrase .expr,
      outer 0 e.tree.tokens = [⟨"id", "twice", 0, 0⟩] ∧
      ∃ a, Groups e.chain a ∧ Groups e.chain.printed a.printed := by
  have hcheck : check printTwice.tree = .ok () := by decide +kernel
  have hspelled : Spelled printTwice.tree.tokens := by decide +kernel
  have hcall : printTwice.tree.get? [4, 1, 0, 0, 7, 1, 0, 0, 8, 1, 0, 0] = some _ := rfl
  obtain ⟨out, -, hprint⟩ := print_groups_iff printTwice.parses hcheck
  obtain ⟨lp, e, rp, harg, -, -, hgroups⟩ := hprint (.ofText "System.out.println") _
    (Tree.mem_nodes_of_get? hcall)
  have htree : (Phrase.lastArg e).tree = _ := (List.cons.inj (List.cons.inj harg).2).1.symm
  have htokens : outer 0 e.tree.tokens = [⟨"id", "twice", 0, 0⟩] := by
    have heq : e.tree = _ := (List.cons.inj (congrArg Tree.children htree)).1
    rw [heq]
    decide +kernel
  refine ⟨printTwice.parses, hcheck, hspelled, e, htokens, (hgroups hspelled).2 ?_⟩
  rw [htokens]
  decide

/-- A class with an entry point that runs `System.out.println(1 < 2);`. -/
def printLess : Decl .program :=
  .ofMembers (.entry (.braced (.last (.ofPrint (.expr (.disjunction (.comparison
    (.mathExpr (.term (.number (.ofText "1")))) (.ofText "<")
    (.mathExpr (.term (.number (.ofText "2")))))))))))

/-- A program that passes prints a comparison: C++ reads the line as
    `((std::cout << 1) < (2 << "\n"))`. -/
theorem printLess_misread :
    grammar.Parses Label.program printLess.tree ∧ check printLess.tree = .ok () ∧
    generate printLess.tree = .ok (Text.ofString
      "#include <iostream>\n\nvoid main(int argc, char *argv[])\n\x7b\n    std::cout << 1 < 2 << \"\\n\";\n\x7d\n") ∧
    (Chain.printed ⟨"1", [("<", "2")]⟩).text = Text.ofString "std::cout << 1 < 2 << \"\\n\"" ∧
    Groups (Chain.printed ⟨"1", [("<", "2")]⟩)
      (.binary (.binary (.operand "std::cout") "<<" (.operand "1")) "<"
        (.binary (.operand "2") "<<" (.operand "\"\\n\""))) ∧
    ¬ ∃ a, Groups ⟨"1", [("<", "2")]⟩ a ∧
      Groups (Chain.printed ⟨"1", [("<", "2")]⟩) a.printed := by
  have hgrouped : (Chain.printed ⟨"1", [("<", "2")]⟩).grouped =
      .binary (.binary (.operand "std::cout") "<<" (.operand "1")) "<"
        (.binary (.operand "2") "<<" (.operand "\"\\n\"")) := by
    decide +kernel
  refine ⟨printLess.parses, by decide +kernel, by decide +kernel, by decide +kernel, ?_, ?_⟩
  · rw [← hgrouped]
    exact groups_grouped _
  · intro h
    have htighter := groups_between.1 h
    revert htighter
    decide +kernel

end JavaToCpp.Cpp
