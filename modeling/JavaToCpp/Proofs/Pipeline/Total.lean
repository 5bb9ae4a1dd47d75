/-
  Every run comes to an answer.

  The parser builds trees from the rules of the grammar in use, and the stages behind it look for
  nodes by place and by label.  What they look for is there if the rules provide it.
-/
import JavaToCpp.Proofs.Chart.Follows
import JavaToCpp.Proofs.Java.Lexicon
import JavaToCpp.Proofs.Service.Update
import JavaToCpp.Proofs.Typing.Answers

namespace JavaToCpp.Pipeline

open Java Program Label JavaToCpp.Tree
open Chart (ofTokens topRule Follows)

variable {g : Grammar} {ts : List Token} {t : Tree}

/-! ## Grammars that suffice -/

/-- The rules provide what the stages behind the parser look for. -/
def Suffices (g : Grammar) : Prop :=
  ∀ r ∈ topRule g :: g.rules, Provides r.lhs r.rhs ∧
    (r.lhs = forStep →
      ∀ s ∈ topRule g :: g.rules, r.rhs.head? = some s.lhs → Assigns s.rhs)

instance (g : Grammar) : Decidable (Suffices g) :=
  inferInstanceAs (Decidable (∀ r ∈ _, _ ∧ (_ → ∀ s ∈ _, _ → _)))

/-- **The trees of a grammar that suffices are whole**, if the leaves provide what their categories
    ask for. -/
theorem whole_of_follows (hg : Suffices g) (h : Follows g ts t)
    (hleaf : ∀ k, .leaf k ∈ t.nodes → Provides k.category []) : Whole t := by
  refine ⟨fun n hn => ?_, fun n hn hl ls hls => ?_⟩
  · cases n with
    | leaf k => exact ⟨k.category, [], rfl, rfl, hleaf k hn⟩
    | branch l cs =>
      obtain ⟨r, hr, rfl, hlabels⟩ := h.rule l cs hn
      exact ⟨r.lhs, r.rhs, rfl, labels_of_map hlabels, (hg r hr).1⟩
    | hole => exact absurd hn h.present
  · cases n with
    | leaf k => cases hls
    | branch l cs =>
      obtain ⟨r, hr, rfl, hlabels⟩ := h.rule l cs hn
      have hstep : r.lhs = forStep := by simpa [label] using hl
      cases cs with
      | nil => cases hls
      | cons c cs =>
        have hc : c ∈ t.nodes :=
          nodes_subset_of_mem hn (nodes_subset List.mem_cons_self c.mem_nodes_self)
        have hhead : r.rhs.head?.map .ok = some c.label := by
          rw [← List.head?_map, ← hlabels]
          rfl
        cases c with
        | leaf k =>
          obtain rfl : [] = ls := Except.ok.inj hls
          simp [Assigns]
        | branch l ds =>
          obtain ⟨s, hs, rfl, hslabels⟩ := h.rule l ds hc
          obtain rfl : s.rhs = ls := Except.ok.inj ((labels_of_map hslabels).symm.trans hls)
          refine (hg r hr).2 hstep s hs ?_
          simpa [label] using hhead
        | hole => exact absurd hc h.present
    | hole => cases hl

theorem syntaxRules_provide : Suffices syntaxRules ∧
    ∀ r ∈ syntaxRules.rules, syntaxRules.isTag r.lhs → ∀ c ∈ r.rhs, Provides c [] := by
  decide +kernel

theorem grammar_suffices : Suffices grammar :=
  grammar_eq ▸ syntaxRules_provide.1

theorem provides_leaf (h : Follows grammar ts t) :
    ∀ k, .leaf k ∈ t.nodes → Provides k.category [] := by
  obtain ⟨-, htags⟩ := syntaxRules_provide
  rw [← grammar_eq] at htags
  intro k hk
  obtain ⟨-, r, hr, htag, hrhs⟩ := h.token k hk
  exact htags r hr htag _ (by simp [hrhs])

/-! ## The text of a whole tree -/

theorem exists_paramText (h : Whole t) : ∃ text, Cpp.paramText t = .ok text := by
  obtain ⟨-, ls, -, hls, -⟩ := h.root
  obtain ⟨type, htype, -⟩ := h.find hls type
  obtain ⟨id, hid, -⟩ := h.find hls id
  rw [Cpp.paramText, htype, hid]
  exact ⟨_, rfl⟩

theorem exists_headerOf (h : Whole t) : ∃ text, Cpp.headerOf t = .ok text := by
  obtain ⟨-, ls, -, hls, -⟩ := h.root
  obtain ⟨returns, hreturns, -⟩ := h.find hls funcReturnType
  obtain ⟨name, hname, -⟩ := h.find hls name
  obtain ⟨list, items, hlist, hitems, hwhole⟩ := h.items funcParams param
  obtain ⟨params, hparams⟩ := exists_mapM_ok fun p hp => exists_paramText (hwhole p hp).1
  rw [Cpp.headerOf, hreturns, hname, hlist]
  simp only [bind, Except.bind, hitems, hparams]
  exact ⟨_, rfl⟩

theorem exists_partOf (h : Whole t) (hl : t.label = .ok member) :
    ∃ p, Cpp.partOf t = .ok p := by
  have hwhole := h.head hl (by simp [parents])
  obtain ⟨l, ls, hl, hls, -⟩ := hwhole.root
  obtain ⟨body, hbody, -⟩ := hwhole.find hls codeBlock
  obtain ⟨header, hheader⟩ := exists_headerOf hwhole
  unfold Cpp.partOf
  simp only [hl, hbody, hheader, bind, Except.bind]
  split_ifs
  · exact ⟨_, rfl⟩
  · exact ⟨_, rfl⟩
  · exact ⟨_, rfl⟩

/-- **A whole tree of a program has a text.** -/
theorem exists_generate (h : Whole t) (hl : t.label = .ok program) :
    ∃ text, Cpp.generate t = .ok text := by
  obtain ⟨list, members, hlist, hmembers, hwhole⟩ := h.items classBody member
  obtain ⟨parts, hparts⟩ := exists_mapM_ok fun m hm => exists_partOf (hwhole m hm).1 (hwhole m hm).2
  rw [Cpp.generate, hasLabel_of_label hl, hlist]
  simp only [bind, Except.bind, hmembers, hparts, beq_self_eq_true, Bool.not_true, Bool.false_eq_true,
    if_false]
  exact ⟨_, rfl⟩

/-- **The check of a tree of a program comes to an answer**, if the tree is whole. -/
theorem answers_check (hl : t.label = .ok program) :
    Typing.Answers (¬ Whole t) (Typing.check t) := by
  refine Typing.answers_check ?_ fun h => exists_functionsOf (not_not.1 h)
  rw [hasLabel_of_label hl]
  exact beq_self_eq_true _

theorem generate_or_missing (hl : t.label = .ok program) :
    (∃ text, Cpp.generate t = .ok text) ∨ ¬ Whole t ∧ Cpp.generate t = .error .missing := by
  cases hgenerate : Cpp.generate t with
  | ok text => exact .inl ⟨text, rfl⟩
  | error e =>
    refine .inr ⟨fun hwhole => ?_, ?_⟩
    · obtain ⟨text, htext⟩ := exists_generate hwhole hl
      cases hgenerate.symm.trans htext
    · rw [Cpp.generate, hasLabel_of_label hl] at hgenerate
      simp only [beq_self_eq_true, Bool.not_true, Bool.false_eq_true, if_false] at hgenerate
      split at hgenerate
      · cases hgenerate
        rfl
      · cases hgenerate

/-- **No stage behind the parser meets a missing node.**  The check of a program of the Java subset
    passes or finds a violation, its functions can be read without missing parts, a call that no
    function takes is reported with an argument and its parameter, and there is a C++ text. -/
theorem stages_answer (ts : List Token) (t : Tree) (h : (ofTokens grammar ts).tree? = some t) :
    (Typing.check t = .ok () ∨ ∃ v, Typing.check t = .error (.violation v)) ∧
    (∃ fs, functionsOf t = .ok fs ∧ (∀ f ∈ fs, (blockOf f.body).Complete) ∧
      ∀ (name : Text) (line : Int) (args : List ValueType) (first : Function)
        (others : List Function),
        Typing.sameArity (fs.filter fun f => !f.entry) name args = first :: others →
        (∀ f ∈ first :: others, (Typing.mismatch? f args).isSome) →
        ∃ (i : Nat) (ha : i < args.length) (hp : i < first.params.length),
          args[i].fits first.params[i].type = false ∧
          Typing.resolve (fs.filter fun f => !f.entry) .user name line args =
            Typing.fail line (.typesNotFit args[i] first.params[i].type)) ∧
    ∃ text, Cpp.generate t = .ok text := by
  obtain ⟨hlabel, hfollows⟩ := Chart.follows_of_tree? grammar_wellFormed h
  rw [grammar_start] at hlabel
  have hwhole := whole_of_follows grammar_suffices hfollows (provides_leaf hfollows)
  obtain ⟨fs, hfs, hcomplete⟩ := exists_functionsOf hwhole
  refine ⟨?_, ⟨fs, hfs, hcomplete, ?_⟩, exists_generate hwhole hlabel⟩
  · rcases answers_check hlabel with ⟨_, hok⟩ | hv | ⟨hnot, -⟩
    · exact .inl hok
    · exact .inr hv
    · exact absurd hwhole hnot
  · intro name line args first others hsame hnone
    exact Typing.exists_unfit hsame hnone line

theorem stages_answer_printTwice :
    (ofTokens grammar printTwice.tree.tokens).tree? = some printTwice.tree ∧
    ∃ fs, functionsOf printTwice.tree = .ok fs ∧ (∀ f ∈ fs, (blockOf f.body).Complete) ∧
      Typing.resolve (fs.filter fun f => !f.entry) .user "twice" 1 [.boolean] =
        Typing.fail 1 (.typesNotFit .boolean .int) := by
  have htree : (ofTokens grammar printTwice.tree.tokens).tree? = some printTwice.tree :=
    (Chart.tree?_eq_some grammar_wellFormed grammar_free grammar_unambiguous).2
      ⟨grammar_start ▸ printTwice.parses, rfl⟩
  obtain ⟨-, ⟨fs, hfs, hcomplete, hunfit⟩, -⟩ := stages_answer _ _ htree
  refine ⟨htree, fs, hfs, hcomplete, ?_⟩
  rw [printTwice, functionsOf_program] at hfs
  cases hfs
  obtain ⟨i, ha, hp, -, hresolve⟩ := hunfit "twice" 1 [.boolean] _ [] rfl (by decide)
  obtain rfl : i = 0 := by simpa using ha
  exact hresolve

/-! ## Runs -/

theorem provides_token {source : Text} (h : tokenize source = .ok ts) :
    ∀ k ∈ ts, Provides k.category [] := by
  have hrules : ∀ r ∈ rules, Provides r.category [] := by decide
  intro k hk
  obtain ⟨r, hr, hcategory⟩ := exists_rule_of_tokenize h k hk
  rw [hcategory]
  exact hrules r hr

theorem start_of_readGrammar {text : Text} (h : Service.readGrammar text = .ok g) :
    g.start = program := by
  unfold Service.readGrammar at h
  split at h
  · cases h
  · split at h
    · cases h
    · split at h
      · cases h
        assumption
      · cases h

section Stages

variable {checked : Bool} {source : Text}

theorem run_of_lexical {e : Token.Error} (h : tokenize source = .error e) :
    run g checked source = .error (.lexical e) := by
  rw [run, chart, tokens, h]
  rfl

theorem run_of_rejection {r : Chart.Rejection} (h : tokenize source = .ok ts)
    (hr : (ofTokens g ts).rejection? = some r) : run g checked source = .error (.rejected r) := by
  have htree : treeOf (ofTokens g ts) = .error (.rejected r) := by rw [treeOf, hr]
  rw [run, chart, tokens, h]
  simp only [Except.mapError, Except.map, bind, Except.bind, htree]

theorem run_of_tree (h : tokenize source = .ok ts) (hr : (ofTokens g ts).rejection? = none)
    (ht : (ofTokens g ts).tree? = some t) : run g checked source =
      ((if checked then checkTree t else .ok ()) >>= fun _ => (generate t).map fun output =>
        ⟨output, (ofTokens g ts).tokens.length, (ofTokens g ts).sets.length, (ofTokens g ts).size,
          checked⟩) := by
  have htree : treeOf (ofTokens g ts) = .ok t := by
    rw [treeOf, hr, ht]
    rfl
  rw [run, chart, tokens, h]
  simp only [Except.mapError, Except.map, bind, Except.bind, htree]
  cases checked <;> rfl

/-- What the rules of a grammar that suffices derive has a C++ text, unless it is to be checked. -/
theorem exists_product {text : Text} (h : Service.readGrammar text = .ok g) (hg : Suffices g)
    (htokens : tokenize source = .ok ts) (hts : g.Derives g.start (ts.map Token.category)) :
    ∃ p, run g false source = .ok p := by
  have hwf := Grammar.load_wellFormed (Service.load_of_readGrammar h)
  have hrejection := Chart.accepted_of_derives hwf hts
  obtain ⟨t, ht⟩ := Chart.exists_tree? hwf hrejection
  obtain ⟨hlabel, hfollows⟩ := Chart.follows_of_tree? hwf ht
  rw [start_of_readGrammar h] at hlabel
  have hwhole := whole_of_follows hg hfollows fun k hk =>
    provides_token htokens k (hfollows.token k hk).1
  obtain ⟨output, hgenerate⟩ := exists_generate hwhole hlabel
  rw [run_of_tree htokens hrejection ht, generate, hgenerate]
  exact ⟨_, rfl⟩

end Stages

/-- **A run gives a program or a report** with every grammar that can be put into use, or it meets a
    missing node, and then the rules of the grammar do not suffice. -/
theorem run_answers {text : Text} (h : Service.readGrammar text = .ok g) (checked : Bool)
    (source : Text) :
    (∃ p, run g checked source = .ok p) ∨
    (∃ f r, run g checked source = .error f ∧ f.report? = some r) ∨
    run g checked source = .error .missing ∧ ¬ Suffices g := by
  have hwf := Grammar.load_wellFormed (Service.load_of_readGrammar h)
  cases htokens : tokenize source with
  | error e => exact .inr (.inl ⟨.lexical e, _, run_of_lexical htokens, rfl⟩)
  | ok ts =>
    cases hrejection : (ofTokens g ts).rejection? with
    | some r => exact .inr (.inl ⟨.rejected r, _, run_of_rejection htokens hrejection, rfl⟩)
    | none =>
      obtain ⟨t, ht⟩ := Chart.exists_tree? hwf hrejection
      obtain ⟨hlabel, hfollows⟩ := Chart.follows_of_tree? hwf ht
      rw [start_of_readGrammar h] at hlabel
      have hwhole (hg : Suffices g) : Whole t :=
        whole_of_follows hg hfollows fun k hk => provides_token htokens k (hfollows.token k hk).1
      rw [run_of_tree htokens hrejection ht]
      have hchecked : Typing.Answers (¬ Whole t) (if checked then Typing.check t else .ok ()) :=
        Typing.answers_ite (answers_check hlabel) (Typing.answers_ok _)
      have hstage : (if checked then checkTree t else .ok ()) =
          (if checked then Typing.check t else .ok ()).mapError Fault.ofCheck := by
        cases checked <;> rfl
      rw [hstage]
      rcases hchecked with ⟨_, hcheck⟩ | ⟨v, hcheck⟩ | ⟨hnot, hcheck⟩
      · rw [hcheck, generate]
        rcases generate_or_missing hlabel with ⟨output, hgenerate⟩ | ⟨hnot, hgenerate⟩
        · rw [hgenerate]
          exact .inl ⟨_, rfl⟩
        · rw [hgenerate]
          exact .inr (.inr ⟨rfl, mt hwhole hnot⟩)
      · rw [hcheck]
        exact .inr (.inl ⟨.violation v, _, rfl, rfl⟩)
      · rw [hcheck]
        exact .inr (.inr ⟨rfl, mt hwhole hnot⟩)

theorem run_answers_while :
    Service.readGrammar "<program> -> while" = .ok (.ofAlternatives [("<program>", ["while"])]) ∧
    Suffices (.ofAlternatives [("<program>", ["while"])]) ∧
    ((∃ p, run (.ofAlternatives [("<program>", ["while"])]) true "while" = .ok p) ∨
      ∃ f r, run (.ofAlternatives [("<program>", ["while"])]) true "while" = .error f ∧
        f.report? = some r) := by
  have hread : Service.readGrammar "<program> -> while" =
      .ok (.ofAlternatives [("<program>", ["while"])]) := by decide +kernel
  have hsuffices : Suffices (.ofAlternatives [("<program>", ["while"])]) := by decide
  refine ⟨hread, hsuffices, ?_⟩
  rcases run_answers hread true "while" with hok | hreport | ⟨-, hnot⟩
  · exact .inl hok
  · exact .inr hreport
  · exact absurd hsuffices hnot

/-- A grammar of programs whose only loops have no condition. -/
def bareLoops : Grammar := .ofAlternatives
  [(program, [classBody]), (classBody, [member]),
    (member, [mainFunc]), (mainFunc, [codeBlock]),
    (codeBlock, [instructions]), (instructions, [instruction]),
    (instruction, [whileLoop]), (whileLoop, ["while"])]

def bareLoop : Tree :=
  .branch program [.branch classBody [.branch member [.branch mainFunc
    [.branch codeBlock [.branch instructions [.branch instruction
      [.branch whileLoop [.leaf ⟨"while", "while", 1, 1⟩]]]]]]]]

theorem bareLoop_parses : bareLoops.Parses program bareLoop := by
  have hstep (n : Nat) (l l' : Symbol) {c : Tree} (hr : ⟨n, l, [l']⟩ ∈ bareLoops.rules)
      (htag : bareLoops.isTag l = false) (hc : bareLoops.Parses l' c) :
      bareLoops.Parses l (.branch l [c]) :=
    @Grammar.Parses.rule bareLoops ⟨n, l, [l']⟩ [c] hr htag (.cons hc .nil)
  refine hstep 1 program classBody (by decide) (by decide) ?_
  refine hstep 2 classBody member (by decide) (by decide) ?_
  refine hstep 3 member mainFunc (by decide) (by decide) ?_
  refine hstep 4 mainFunc codeBlock (by decide) (by decide) ?_
  refine hstep 5 codeBlock instructions (by decide) (by decide) ?_
  refine hstep 6 instructions instruction (by decide) (by decide) ?_
  refine hstep 7 instruction whileLoop (by decide) (by decide) ?_
  exact .tag (by decide)

/-- **A loop without a condition is not reported.**  The grammar of such loops can be put into use,
    and the check of a program in it needs a node that is missing. -/
theorem bareLoop_unanswered : ¬ ∀ (text : Text) (g : Grammar) (source : Text),
    Service.readGrammar text = .ok g → (∃ p, run g true source = .ok p) ∨
      ∃ f r, run g true source = .error f ∧ f.report? = some r := by
  intro hall
  have hread : Service.readGrammar bareLoops.render = .ok bareLoops := by decide +kernel
  have hwf := Grammar.load_wellFormed (Service.load_of_readGrammar hread)
  have hfree : ∀ r ∈ bareLoops.rules, ¬ r.Mentions Chart.top := by
    unfold Grammar.Rule.Mentions
    decide
  have hdet : bareLoops.determinate (fun _ => []) 10 = true := by decide
  have htree : (ofTokens bareLoops [⟨"while", "while", 1, 1⟩]).tree? = some bareLoop := by
    refine (Chart.tree?_eq_some hwf hfree (Grammar.unambiguous_of_determinate hwf hdet)).2 ⟨?_, ?_⟩
    · exact start_of_readGrammar hread ▸ bareLoop_parses
    · decide
  have hrejection : (ofTokens bareLoops [⟨"while", "while", 1, 1⟩]).rejection? = none := by
    refine (Chart.rejection?_eq_none hwf).2 ?_
    obtain ⟨s, hs, -⟩ := Option.bind_eq_some_iff.1 htree
    rw [hs]
    rfl
  have hcheck : Typing.check bareLoop = .error .missing := by decide +kernel
  have hrun : run bareLoops true "while" = .error .missing := by
    rw [run_of_tree tokenize_while hrejection htree, checkTree, hcheck]
    rfl
  rcases hall _ _ "while" hread with ⟨p, hp⟩ | ⟨f, r, hf, hr⟩
  · rw [hrun] at hp
    cases hp
  · rw [hrun] at hf
    cases hf
    cases hr

end JavaToCpp.Pipeline
