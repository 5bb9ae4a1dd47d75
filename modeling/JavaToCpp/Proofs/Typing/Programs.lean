/-
  Programs that pass keep the rules everywhere.
-/
import JavaToCpp.Proofs.Typing.Sound

namespace JavaToCpp.Typing

open Program Java Scopes List Decl

variable {fs : List Function} {ρ : ValueType} {sc sc' : Scopes} {E : Env}

/-! ## Headers -/

/-- The names of a function and of its parameters are no reserved words. -/
def Unreserved (f : Function) : Prop :=
  isReserved f.name = false ∧ ∀ p ∈ f.params, isReserved p.name = false

theorem checkHeader_ok {before : List Function} {f : Function} (h : checkHeader before f = .ok ())
    (hf : f.entry = false) : Unreserved f := by
  simp only [checkHeader, hf, Bool.false_eq_true, if_false] at h
  split at h
  · cases h
  · rename_i hname
    split at h
    · cases h
    · split at h
      · cases h
      · split at h
        · cases h
        · rename_i hparams
          refine ⟨Bool.eq_false_iff.2 hname, fun p hp => Bool.eq_false_iff.2 ?_⟩
          exact find?_eq_none.1 hparams p hp

theorem checkHeaders_ok : ∀ {before fs : List Function}, checkHeaders before fs = .ok () →
    ∀ f ∈ fs, f.entry = false → Unreserved f
  | before, f :: fs, h, g, hg, hentry => by
    obtain ⟨_, hf, h⟩ := bind_eq_ok.1 h
    rcases mem_cons.1 hg with rfl | hg
    · exact checkHeader_ok hf hentry
    · exact checkHeaders_ok h g hg hentry

theorem countP_entry_le : ∀ {fs before : List Function}, checkHeaders before fs = .ok () →
    before.countP Function.entry ≤ 1 → (before ++ fs).countP Function.entry ≤ 1
  | [], before, _, hbefore => by rwa [append_nil]
  | f :: fs, before, h, hbefore => by
    obtain ⟨_, hf, h⟩ := bind_eq_ok.1 h
    rw [append_cons]
    refine countP_entry_le h ?_
    rw [countP_append, countP_singleton]
    split
    · rename_i hentry
      rw [checkHeader, if_pos hentry] at hf
      split at hf
      · cases hf
      · rename_i hnone
        have hzero : before.countP Function.entry = 0 := by
          simpa [countP_eq_zero] using hnone
        omega
    · omega

theorem forM_ok {f : Function → Except Failure Unit} : ∀ {as : List Function},
    as.forM f = .ok () → ∀ a ∈ as, f a = .ok ()
  | a :: as, h, b, hb => by
    obtain ⟨_, ha, h⟩ := bind_eq_ok.1 h
    rcases mem_cons.1 hb with rfl | hb
    · exact ha
    · exact forM_ok h b hb

def callables (all : List Function) : List Function := all.filter fun f => !f.entry

theorem check_ok {root : Tree} (h : check root = .ok ()) : ∃ all, functionsOf root = .ok all ∧
    checkHeaders [] all = .ok () ∧ ∀ f ∈ all, checkFunction (callables all) f = .ok () := by
  rw [check] at h
  split at h
  · cases h
  · obtain ⟨all, hcollect, h⟩ := bind_eq_ok.1 h
    rw [collect] at hcollect
    split at hcollect
    · cases hcollect
    · rename_i all' hall
      obtain ⟨_, hheaders, hcollect⟩ := bind_eq_ok.1 hcollect
      split at hcollect
      · cases hcollect
        exact ⟨all, hall, hheaders, forM_ok h⟩
      · cases hcollect

/-! ## Functions -/

theorem WellNamed.left {D : Env} (h : WellNamed (E ++ D)) : WellNamed E where
  distinct := by
    have hnodup := h.distinct
    rw [map_append] at hnodup
    exact hnodup.of_append_left
  free := fun q hq => h.free q (mem_append_left D hq)

theorem Tracks.params : ∀ {ps : List Variable} {sc sc' : Scopes} {E : Env}, Tracks sc E →
    (∀ p ∈ ps, isReserved p.name = false) → declareParams ps sc = .ok sc' →
    Tracks sc' (E ++ ps.map fun p => (p.name, p.type))
  | [], sc, sc', E, ht, _, h => by
    cases h
    simpa using ht
  | p :: ps, sc, sc', E, ht, hp, h => by
    rw [declareParams] at h
    split at h
    · cases h
    · rename_i hnew
      rw [Option.not_isSome_iff_eq_none] at hnew
      have hp' := forall_mem_cons.1 hp
      have ht' := ht.declare (shape_declare sc { p with initialized := true }) hp'.1 hnew
      simpa using ht'.params hp'.2 h

theorem declares_params : ∀ ps : Decl .funcParams,
    ps.declares = (ps.params.map paramIn).map fun p => (p.name, p.type)
  | .lastParam (.param type id) => rfl
  | .moreParams (.param type id) c rest => by
    rw [declares, declares_params rest]
    rfl

theorem everywhere_param : ∀ (p : Decl .param), WellNamed (E ++ p.declares) →
    Everywhere (Kept fs ρ) E p.tree
  | .param type id, h => by
    have hid : isReserved id.text = false :=
      h.free (id.text, .ofKeyword type.text) (mem_append_right E (mem_singleton_self _))
    refine everywhere_node h.left rfl .declaration ?_
    simp [EverywhereIn, everywhere_keyword h.left, everywhere_word h.left id fun _ => hid]

theorem everywhere_params : ∀ (ps : Decl .funcParams) {E : Env}, WellNamed (E ++ ps.declares) →
    Everywhere (Kept fs ρ) E ps.tree
  | .lastParam p, E, h => everywhere_node h.left rfl .declaration ⟨everywhere_param p h, trivial⟩
  | .moreParams p c rest, E, h => by
    rw [declares, ← append_assoc] at h
    refine everywhere_node h.left.left rfl .declaration ⟨everywhere_param p h.left, ?_⟩
    simp [EverywhereIn, everywhere_keyword h.left, everywhere_params rest h]

theorem checkFunction_ok {f : Function} (h : checkFunction fs f = .ok ()) :
    ∃ sc, declareParams f.params (Scopes.push []) = .ok sc ∧
      ∃ sc', checkBlock ⟨fs, f⟩ (blockOf f.body) sc = .ok sc' := by
  obtain ⟨sc, hsc, h⟩ := bind_eq_ok.1 h
  obtain ⟨sc', hsc', -⟩ := bind_eq_ok.1 h
  exact ⟨sc, hsc, sc', hsc'⟩

theorem tracks_nil : Tracks (Scopes.push []) [] where
  nonempty := cons_ne_nil _ _
  env_eq := rfl
  named := ⟨nodup_nil, nofun⟩

theorem everywhere_body (hfs : ∀ f ∈ fs, isReserved f.name = false) (f : Function)
    (body : Stmt .codeBlock) (hbody : f.body = body.tree)
    (hparams : ∀ p ∈ f.params, isReserved p.name = false) (h : checkFunction fs f = .ok ()) :
    WellNamed (f.params.map fun p => (p.name, p.type)) ∧
      Everywhere (Kept fs f.returns) (f.params.map fun p => (p.name, p.type)) body.tree := by
  obtain ⟨sc, hsc, sc', h⟩ := checkFunction_ok h
  rw [hbody] at h
  have ht := tracks_nil.params hparams hsc
  exact ⟨ht.named, (everywhere_stmt (c := ⟨fs, f⟩) hfs body ht ⟨sc', h⟩).1⟩

theorem everywhere_member (hfs : ∀ f ∈ fs, isReserved f.name = false) (m : Decl .member)
    (hm : (functionIn m).entry = false → Unreserved (functionIn m))
    (h : checkFunction fs (functionIn m) = .ok ()) :
    Everywhere (Kept fs (functionIn m).returns) [] (m.tree.child 0) := by
  have hnil := tracks_nil.named
  match m with
  | .ofFunction (.function pub st returns name lp params rp body) =>
    obtain ⟨hname, hfree⟩ := hm rfl
    obtain ⟨hnamed, hbody⟩ := everywhere_body hfs _ body rfl hfree h
    simp only [functionIn, ← declares_params] at hnamed hbody ⊢
    have hparams : Everywhere (Kept fs (.ofKeyword returns.text)) [] params.tree :=
      everywhere_params params hnamed
    refine everywhere_node hnil rfl
      (.declaration (d := .function pub st returns name lp params rp body)) ?_
    simp [EverywhereIn, everywhere_keyword hnil, everywhere_word hnil name fun _ => hname,
      hparams, everywhere_keyword hnamed, hbody]
  | .ofFunction (.functionEmpty pub st returns name lp rp body) =>
    obtain ⟨hname, hfree⟩ := hm rfl
    obtain ⟨-, hbody⟩ := everywhere_body hfs _ body rfl hfree h
    simp only [functionIn, map_nil] at hbody ⊢
    refine everywhere_node hnil rfl
      (.declaration (d := .functionEmpty pub st returns name lp rp body)) ?_
    simp [EverywhereIn, everywhere_keyword hnil, everywhere_word hnil name fun _ => hname, hbody]
  | .ofMain (.main pub st v name lp args rp body) =>
    obtain ⟨-, hbody⟩ := everywhere_body hfs _ body rfl (forall_mem_nil _) h
    simp only [functionIn, map_nil] at hbody ⊢
    refine everywhere_node hnil rfl (.declaration (d := .main pub st v name lp args rp body)) ?_
    simp [EverywhereIn, everywhere_keyword hnil, hbody]

/-! ## Programs -/

/-- A node keeps the rules of a function. -/
def KeptBySome (fs : List Function) (Γ : List Nat → Env) (n : Tree) : Prop := ∃ ρ, Kept fs ρ Γ n

theorem everywhere_declaration {s : Nonterminal} {d : Decl s} {ts : List Tree}
    (hd : d.tree = s.node ts) (hts : EverywhereIn (KeptBySome fs) [] ts) :
    Everywhere (KeptBySome fs) [] d.tree := by
  have hn : KeptBySome fs (fun w => [] ++ envAt d.tree w) d.tree :=
    ⟨.void, nodup_nil, .declaration⟩
  rw [hd] at hn ⊢
  exact everywhere_branch hn hts

theorem declares_member (m : Decl .member) : m.declares = [] := by
  cases m <;> rfl

theorem everywhere_ofMember : ∀ {m : Decl .member},
    Everywhere (Kept fs (functionIn m).returns) [] (m.tree.child 0) →
    Everywhere (KeptBySome fs) [] m.tree
  | .ofFunction _, h | .ofMain _, h =>
    everywhere_declaration rfl ⟨h.imp fun _ _ hn => ⟨_, hn⟩, trivial⟩

theorem everywhere_classBody : ∀ {body : Decl .classBody},
    (∀ m ∈ body.members, Everywhere (Kept fs (functionIn m).returns) [] (m.tree.child 0)) →
    Everywhere (KeptBySome fs) [] body.tree
  | .lastMember m, h =>
    everywhere_declaration rfl ⟨everywhere_ofMember (h m (mem_singleton_self m)), trivial⟩
  | .moreMembers m rest, h => by
    obtain ⟨hm, hrest⟩ := forall_mem_cons.1 h
    refine everywhere_declaration rfl ⟨everywhere_ofMember hm, ?_, trivial⟩
    rw [leafEnv_decl, declares_member]
    exact everywhere_classBody hrest

section Places

variable {k : Nonterminal} {cs : List Tree} (hk : k = .funcDeclaration ∨ k = .mainFunc)
include hk

theorem get?_inner {s : Nonterminal} {t : Tree} (h : grammar.Parses s.label t) {v : List Nat}
    (hs : s.inner ∨ (s = .funcDeclaration ∨ s = .mainFunc) ∧ v ≠ []) :
    t.get? v ≠ some (k.node cs) := by
  have hinner {s : Nonterminal} {t : Tree} {v : List Nat} (h : grammar.Parses s.label t)
      (hs : s.inner) : t.get? v ≠ some (k.node cs) := by
    intro hv
    obtain ⟨x, hx, -, hinner⟩ := parses_get? (P := fun s => s.inner)
      (fun s hs side hside x hx => Nonterminal.inner_of_mem hside hx (.inl hs)) h hs hv
    cases Nonterminal.label_inj.1 hx
    rcases hk with rfl | rfl <;> exact absurd hinner (by decide)
  rcases hs with hs | ⟨hs, hv⟩
  · exact hinner h hs
  · obtain ⟨i, v, rfl⟩ := exists_cons_of_ne_nil hv
    intro hn
    obtain ⟨c, hc, hn⟩ := Option.bind_eq_some_iff.1 hn
    obtain ⟨k, rfl⟩ | ⟨side, hside, x, hx, hparses⟩ := parses_child h hc
    · cases v <;> cases hn
    · exact hinner hparses (Nonterminal.inner_of_mem hside hx (.inr hs)) hn

theorem get?_member (m : Decl .member) {v : List Nat} (h : m.tree.get? v = some (k.node cs)) :
    v = [0] ∧ m.tree.child 0 = k.node cs := by
  have hfunction {x : Nonterminal} (hx : x = .funcDeclaration ∨ x = .mainFunc) (f : Decl x)
      {v : List Nat} (h : f.tree.get? v = some (k.node cs)) : v = [] :=
    by_contra fun hv => get?_inner hk f.parses (.inr ⟨hx, hv⟩) h
  match m, v with
  | .ofFunction f, 0 :: v | .ofMain f, 0 :: v =>
    cases hfunction (by simp) f h
    exact ⟨rfl, Option.some.inj h⟩
  | .ofFunction f, (_ + 1) :: v | .ofMain f, (_ + 1) :: v => cases h
  | m, [] =>
    have hlabel : m.tree.label = .ok k.label := by rw [Option.some.inj h]; rfl
    rcases hk with rfl | rfl <;> simp at hlabel

theorem exists_member : ∀ {body : Decl .classBody} {v : List Nat},
    body.tree.get? v = some (k.node cs) →
    envAt body.tree v = [] ∧ ∃ m ∈ body.members, m.tree.child 0 = k.node cs
  | body, [], h => by
    have hlabel : body.tree.label = .ok k.label := by rw [Option.some.inj h]; rfl
    rcases hk with rfl | rfl <;> simp at hlabel
  | .lastMember m, 0 :: v, h => by
    obtain ⟨rfl, hm⟩ := get?_member hk m h
    exact ⟨by cases m <;> rfl, m, mem_singleton_self m, hm⟩
  | .lastMember m, (_ + 1) :: v, h => by cases h
  | .moreMembers m rest, 0 :: v, h => by
    obtain ⟨rfl, hm⟩ := get?_member hk m h
    exact ⟨by cases m <;> rfl, m, mem_cons_self, hm⟩
  | .moreMembers m rest, 1 :: v, h => by
    have hrest : rest.tree.get? v = some (k.node cs) := h
    obtain ⟨hnone, m', hm', hfunction⟩ := exists_member hrest
    refine ⟨?_, m', mem_cons_of_mem m hm', hfunction⟩
    simpa [tree, envAt_cons, declares_member] using hnone
  | .moreMembers m rest, (_ + 2) :: v, h => by cases h

theorem get?_program {pub : Word .public_} {cl : Word .class_} {name : Word .name}
    {lb : Word .lbracketCurly} {body : Decl .classBody} {rb : Word .rbracketCurly} {v : List Nat}
    (h : (program pub cl name lb body rb).tree.get? v = some (k.node cs)) :
    ∃ u, v = 4 :: u ∧ body.tree.get? u = some (k.node cs) := by
  match v with
  | [] =>
    have hlabel : Except.ok Nonterminal.program.label = Tree.label (k.node cs) := by
      rw [← Option.some.inj h]
      rfl
    rcases hk with rfl | rfl <;> simp at hlabel
  | 0 :: u => exact absurd h (get?_inner hk pub.parses (.inl rfl))
  | 1 :: u => exact absurd h (get?_inner hk cl.parses (.inl rfl))
  | 2 :: u => exact absurd h (get?_inner hk name.parses (.inl rfl))
  | 3 :: u => exact absurd h (get?_inner hk lb.parses (.inl rfl))
  | 4 :: u => exact ⟨u, rfl, h⟩
  | 5 :: u => exact absurd h (get?_inner hk rb.parses (.inl rfl))
  | (_ + 6) :: u => cases h

end Places

/-- A node keeps the rules of a function or is a name, and no name is in scope twice where it is. -/
def Settled (fs : List Function) (Γ : List Nat → Env) (n : Tree) : Prop :=
  ((Γ []).map Prod.fst).Nodup ∧ ((∃ w : Word .name, n = w.tree) ∨ ∃ ρ, Lawful fs ρ Γ n)

theorem settled_of_kept {Γ : List Nat → Env} {n : Tree} (h : Kept fs ρ Γ n) : Settled fs Γ n :=
  ⟨h.1, .inr ⟨ρ, h.2⟩⟩

theorem KeptBySome.settled {Γ : List Nat → Env} {n : Tree} (h : KeptBySome fs Γ n) :
    Settled fs Γ n := by
  obtain ⟨ρ, h⟩ := h
  exact settled_of_kept h

theorem settled_keyword {s : Nonterminal} (w : Word s) (hs : s ≠ .id ∧ s ≠ .name) :
    Everywhere (Settled fs) [] w.tree :=
  (everywhere_keyword (ρ := .void) tracks_nil.named w hs).imp fun _ _ => settled_of_kept

theorem settled_name (w : Word .name) : Everywhere (Settled fs) [] w.tree := by
  refine everywhere_branch ⟨nodup_nil, .inl ⟨w, rfl⟩⟩ ⟨?_, trivial⟩
  exact (everywhere_leaf (ρ := .void) tracks_nil.named w.token).imp fun _ _ => settled_of_kept

theorem declares_classBody (body : Decl .classBody) : body.declares = [] := by
  cases body <;> rfl

/-- What it says of the nodes of a program that the program passes. -/
structure WellFormed (root : Tree) (all : List Function) : Prop where
  /-- names may be reserved words outside the class -/
  settled : Everywhere (Settled (callables all)) [] root
  kept : ∃ body, root.find Label.classBody = .ok body ∧
    Everywhere (KeptBySome (callables all)) [] body
  functions : ∀ (k : Nonterminal) v cs, k = .funcDeclaration ∨ k = .mainFunc →
    root.get? v = some (k.node cs) → envAt root v = [] ∧ ∃ f ∈ all, functionOf (k.node cs) = .ok f ∧
      Everywhere (Kept (callables all) f.returns) [] (k.node cs)

/-- **Programs that pass keep the rules everywhere.** -/
theorem wellFormed_of_check {root : Tree} (hparse : grammar.Parses Label.program root)
    (hcheck : check root = .ok ()) : ∃ all, functionsOf root = .ok all ∧ WellFormed root all := by
  obtain ⟨all, hall, hheaders, hfunctions⟩ := check_ok hcheck
  have hfree : ∀ f ∈ callables all, Unreserved f := by
    intro f hf
    obtain ⟨hf, hentry⟩ := mem_filter.1 hf
    exact checkHeaders_ok hheaders f hf (by simpa using hentry)
  refine ⟨all, hall, ?_⟩
  obtain ⟨d, rfl⟩ := exists_decl (s := .program) hparse rfl
  match d with
  | .program pub cl name lb body rb =>
    rw [functionsOf_program] at hall
    cases hall
    have hmembers : ∀ m ∈ body.members, Everywhere
        (Kept (callables (body.members.map functionIn)) (functionIn m).returns) []
        (m.tree.child 0) := by
      intro m hm
      have hmem := mem_map_of_mem (f := functionIn) hm
      refine everywhere_member (fun f hf => (hfree f hf).1) m (fun hentry => ?_)
        (hfunctions _ hmem)
      exact hfree _ (mem_filter.2 ⟨hmem, by simp [hentry]⟩)
    have hbody := everywhere_classBody hmembers
    refine ⟨everywhere_branch ⟨nodup_nil, .inr ⟨.void, ?_⟩⟩ ?_, ⟨body.tree, ?_, hbody⟩, ?_⟩
    · exact .declaration (d := .program pub cl name lb body rb)
    · simp [EverywhereIn, settled_keyword, settled_name, declares_classBody,
        hbody.imp fun _ _ => KeptBySome.settled]
    · simp [tree, Nonterminal.labels, Tree.find, Nonterminal.findIn_cons]
    · intro k v cs hk h
      obtain ⟨v, rfl, h⟩ := get?_program hk h
      obtain ⟨hnone, m, hm, hfunction⟩ := exists_member hk h
      refine ⟨?_, functionIn m, mem_map_of_mem hm, ?_, ?_⟩
      · simpa [tree, envAt_cons] using hnone
      · rw [← hfunction, functionOf_member]
      · rw [← hfunction]
        exact hmembers m hm

end JavaToCpp.Typing
