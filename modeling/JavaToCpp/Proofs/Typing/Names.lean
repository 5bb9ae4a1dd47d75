/-
  Names in programs that pass.
-/
import JavaToCpp.Proofs.Typing.Programs

namespace JavaToCpp.Typing

open Program Java Text JavaToCpp.Tree

variable {fs : List Function} {ρ : ValueType} {Γ : List Nat → Env} {s : Nonterminal}
  {cs : List Tree} {n : Tree}

/-! ## What lawful nodes say -/

theorem eq_of_label {k : Nonterminal} (hn : s.node cs = n) (hk : n.label = .ok k.label) : k = s := by
  subst hn
  exact (Nonterminal.label_inj.1 (Except.ok.inj hk)).symm

theorem Lawful.inversion (h : Lawful fs ρ Γ (s.node cs)) :
    (∃ w : Word s, w.tree = s.node cs ∧ (s = .id ∨ s = .name → isReserved w.text = false)) ∨
    (∃ p : Phrase s, p.tree = s.node cs ∧ LawfulPhrase fs ρ Γ p) ∨
    (∃ x : Stmt s, x.tree = s.node cs ∧ LawfulStmt fs Γ x) ∨ ∃ d : Decl s, d.tree = s.node cs := by
  generalize hn : s.node cs = n at h
  cases h with
  | leaf k => cases hn
  | @word k w hw =>
    cases eq_of_label hn w.label_tree
    exact .inl ⟨w, rfl, hw⟩
  | @phrase k p hp =>
    cases eq_of_label hn p.label_tree
    exact .inr (.inl ⟨p, rfl, hp⟩)
  | @stmt k x hx =>
    cases eq_of_label hn x.label_tree
    exact .inr (.inr (.inl ⟨x, rfl, hx⟩))
  | @declaration k d =>
    cases eq_of_label hn d.label_tree
    exact .inr (.inr (.inr ⟨d, rfl⟩))

theorem Lawful.lawfulPhrase (hs : s.level = .phrase) (h : Lawful fs ρ Γ (s.node cs)) :
    ∃ p : Phrase s, p.tree = s.node cs ∧ LawfulPhrase fs ρ Γ p := by
  rcases h.inversion with ⟨w, -⟩ | hp | ⟨x, -⟩ | ⟨d, -⟩
  · simp [level_word w] at hs
  · exact hp
  · simp [level_stmt x] at hs
  · simp [level_decl d] at hs

theorem Lawful.hasType (hs : s ∈ .funcCall :: expressions) (h : Lawful fs ρ Γ (s.node cs)) :
    ∃ p : Phrase s, p.tree = s.node cs ∧ ∃ τ, HasType fs (In (Γ [])) p τ := by
  have hlevel : ∀ s ∈ .funcCall :: expressions, s.level = .phrase := by decide
  obtain ⟨p, hp, hlawful⟩ := h.lawfulPhrase (hlevel s hs)
  refine ⟨p, hp, ?_⟩
  cases hlawful with
  | expression _ hτ | call hτ => exact ⟨_, hτ⟩
  | header hk => rcases hk with rfl | rfl <;> exact absurd hs (by decide)
  | _ => exact absurd hs (by decide)

theorem ne_word {t : Tree} {k : Nonterminal} (ht : t.label = .ok k.label) (hk : k ≠ s) (w : Word s) :
    some t ≠ some w.tree := by
  rintro ⟨⟩
  exact hk (Nonterminal.label_inj.1 (Except.ok.inj ht)).symm

theorem Lawful.assigned {i : Nat} {w : Word .id} (hw : cs[i]? = some w.tree)
    (h : Lawful fs ρ Γ (Nonterminal.assignment.node cs)) : ∃ τ, In (Γ [i]) w.text τ := by
  have htext {id : Word .id} (h : some id.tree = some w.tree) : id.text = w.text :=
    congrArg text (Option.some.inj h)
  obtain ⟨p, hp, hlawful⟩ := h.lawfulPhrase rfl
  have hcs : p.tree.children = cs := by rw [hp]; rfl
  subst hcs
  cases hlawful with
  | @set id op e σ τ hid _ _ | @combine id op e σ τ hid _ _ _ _ =>
    rcases i with _ | _ | _ | i
    · exact ⟨σ, htext hw ▸ hid⟩
    · exact absurd hw (ne_word op.label_tree (by decide) w)
    · exact absurd hw (ne_word e.label_tree (by decide) w)
    · cases hw
  | @stepAfter id op σ hid _ =>
    rcases i with _ | _ | i
    · exact ⟨σ, htext hw ▸ hid⟩
    · exact absurd hw (ne_word op.label_tree (by decide) w)
    · cases hw
  | @stepBefore op id σ hid _ =>
    rcases i with _ | _ | i
    · exact absurd hw (ne_word op.label_tree (by decide) w)
    · exact ⟨σ, htext hw ▸ hid⟩
    · cases hw
  | expression hk | header hk => exact absurd hk (by decide)

theorem Lawful.read {i : Nat} {w : Word .id} (hw : cs[i]? = some w.tree)
    (h : Lawful fs ρ Γ (Nonterminal.operand.node cs)) : i = 0 ∧ ∃ τ, In (Γ []) w.text τ := by
  obtain ⟨p, hp, τ, hτ⟩ := h.hasType (by decide)
  have hcs : p.tree.children = cs := by rw [hp]; rfl
  subst hcs
  match i, p with
  | 0, .var id =>
    have htext : id.text = w.text := congrArg text (Option.some.inj hw)
    exact ⟨rfl, τ, htext ▸ hasType_var.1 hτ⟩
  | 0, .number v => exact absurd hw (ne_word v.label_tree (by decide) w)
  | 0, .charLiteral v => exact absurd hw (ne_word v.label_tree (by decide) w)
  | 0, .booleanValue v => exact absurd hw (ne_word v.label_tree (by decide) w)
  | 0, .value c => exact absurd hw (ne_word c.label_tree (by decide) w)
  | _ + 1, .var _ | _ + 1, .number _ | _ + 1, .charLiteral _ | _ + 1, .booleanValue _
  | _ + 1, .value _ => cases hw

theorem Lawful.unreserved {w : Word s} (hs : s = .id ∨ s = .name) (h : Lawful fs ρ Γ w.tree) :
    isReserved w.text = false := by
  have hlevel := level_word w
  rcases h.inversion with ⟨v, hv, hfree⟩ | ⟨p, -⟩ | ⟨x, -⟩ | ⟨d, -⟩
  · have htext : v.text = w.text := congrArg text hv
    exact htext ▸ hfree hs
  · simp [level_phrase p] at hlevel
  · simp [level_stmt x] at hlevel
  · simp [level_decl d] at hlevel

/-! ## Uses and declarations -/

/-- A variable is read or assigned at the place. -/
def Uses (root : Tree) (u : List Nat) (x : Text) : Prop :=
  ∃ (s : Nonterminal) (v : List Nat) (i : Nat) (cs : List Tree) (w : Word .id),
    (s = .operand ∨ s = .assignment) ∧ root.get? v = some (s.node cs) ∧ cs[i]? = some w.tree ∧
    u = v ++ [i] ∧ w.text = x

/-- The node at `d` declares the name for the place: it ends before, and it stands in a block, for
    statement or function that the place stands in, and in no other one. -/
structure Resolves (root : Tree) (u : List Nat) (x : Text) (d : List Nat) : Prop where
  declares : ∃ τ, Declares root d (x, τ)
  inScope : InScope root d u
  enclosed : ∃ b n, b <+: d ∧ b ≠ d ∧ b <+: u ∧ root.get? b = some n ∧ opensScope n

variable {root : Tree}

theorem exists_opensScope (h : leafEnv root = []) {d : List Nat} {q : Text × ValueType}
    (hd : Declares root d q) : ∃ b n, b <+: d ∧ b ≠ d ∧ root.get? b = some n ∧ opensScope n := by
  by_contra hnone
  push Not at hnone
  have hmem : (d, q) ∈ leaves root :=
    mem_leaves.2 ⟨hd, fun b n hb hne hn => Bool.eq_false_iff.2 (hnone b n hb hne hn)⟩
  rw [List.map_eq_nil_iff.1 h] at hmem
  cases hmem

theorem eq_of_inScope {u : List Nat} (hu : ((envAt root u).map Prod.fst).Nodup) {d d' : List Nat}
    {x : Text} {τ τ' : ValueType} (hd : Declares root d (x, τ)) (hd' : Declares root d' (x, τ'))
    (hs : InScope root d u) (hs' : InScope root d' u) : d = d' := by
  rw [envAt, List.map_map] at hu
  have heq := List.inj_on_of_nodup_map hu (mem_visible.2 ⟨hs, hd⟩) (mem_visible.2 ⟨hs', hd'⟩) rfl
  exact congrArg Prod.fst heq

theorem Settled.lawful (h : Settled fs Γ (s.node cs)) (hs : s ≠ .name) :
    ∃ ρ, Lawful fs ρ Γ (s.node cs) := by
  rcases h.2 with ⟨w, hw⟩ | hlawful
  · exact absurd (eq_of_label hw w.label_tree).symm hs
  · exact hlawful

theorem Uses.mem_envAt (hroot : Everywhere (Settled fs) [] root) {u : List Nat} {x : Text}
    (h : Uses root u x) : (∃ τ, (x, τ) ∈ envAt root u) ∧ ((envAt root u).map Prod.fst).Nodup := by
  obtain ⟨s, v, i, cs, w, hs, hv, hw, rfl, rfl⟩ := h
  have hu : root.get? (v ++ [i]) = some w.tree := by
    rw [get?_append, hv]
    simp [get?, hw]
  refine ⟨?_, by simpa using (hroot _ _ hu).1⟩
  rcases hs with rfl | rfl
  · obtain ⟨ρ, hlawful⟩ := (hroot v _ hv).lawful (by decide)
    obtain ⟨rfl, τ, hτ⟩ := hlawful.read hw
    refine ⟨τ, ?_⟩
    rw [envAt_append _ hv]
    simpa [envAt_cons, hw, In] using hτ
  · obtain ⟨ρ, hlawful⟩ := (hroot v _ hv).lawful (by decide)
    exact hlawful.assigned hw

/-- All words that C++ reserves, those that Java reserves too among them. -/
def cppKeywords : List String := [
  "alignas", "alignof", "and", "and_eq", "asm", "auto", "bitand", "bitor", "bool", "break", "case",
  "catch", "char", "char8_t", "char16_t", "char32_t", "class", "compl", "concept", "const",
  "consteval", "constexpr", "constinit", "const_cast", "continue", "co_await", "co_return",
  "co_yield", "decltype", "default", "delete", "do", "double", "dynamic_cast", "else", "enum",
  "explicit", "export", "extern", "false", "float", "for", "friend", "goto", "if", "inline", "int",
  "long", "mutable", "namespace", "new", "noexcept", "not", "not_eq", "nullptr", "operator", "or",
  "or_eq", "private", "protected", "public", "register", "reinterpret_cast", "requires", "return",
  "short", "signed", "sizeof", "static", "static_assert", "static_cast", "struct", "switch",
  "template", "this", "thread_local", "throw", "true", "try", "typedef", "typeid", "typename",
  "union", "unsigned", "using", "virtual", "void", "volatile", "wchar_t", "while", "xor", "xor_eq"]

theorem isReserved_of_mem {x : Text} (h : x ∈ cppKeywords.map ofString) : isReserved x := by
  have hall : ∀ x ∈ cppKeywords.map ofString, isReserved x := by decide +kernel
  exact hall x h

theorem leafEnv_program (h : grammar.Parses Label.program root) : leafEnv root = [] := by
  obtain ⟨d, rfl⟩ := exists_decl (s := .program) h rfl
  rw [leafEnv_decl]
  cases d
  rfl

theorem parses_classBody (h : grammar.Parses Label.program root) {body : Tree}
    (hbody : root.find Label.classBody = .ok body) :
    grammar.Parses Nonterminal.classBody.label body := by
  obtain ⟨d, rfl⟩ := exists_decl (s := .program) h rfl
  match d with
  | .program pub cl name lb b rb =>
    have hb : (Decl.program pub cl name lb b rb).tree.find Label.classBody = .ok b.tree := by
      simp [Decl.tree, Nonterminal.labels, find, Nonterminal.findIn_cons]
    rw [hb] at hbody
    cases hbody
    exact b.parses

/-- **Names in programs that pass**: every variable that is read or assigned has one declaration,
    which reaches the place; declarations of one name reach no common place; and the names of
    variables, parameters and functions are no reserved words. -/
theorem names_resolve (hparse : grammar.Parses Label.program root) (hcheck : check root = .ok ()) :
    (∀ u x, Uses root u x → ∃! d, Resolves root u x d) ∧
    (∀ d d' x τ τ', Declares root d (x, τ) → Declares root d' (x, τ') → d ≠ d' →
      ∀ u n, root.get? u = some n → ¬ (InScope root d u ∧ InScope root d' u)) ∧
    ∃ body, root.find Label.classBody = .ok body ∧
      (∀ s, s = .id ∨ s = .name → ∀ (w : Word s) u, body.get? u = some w.tree →
        isReserved w.text = false) ∧
      ∀ k ∈ body.tokens, k.category = "id" → k.text ∉ cppKeywords.map ofString := by
  obtain ⟨all, -, hwf⟩ := wellFormed_of_check hparse hcheck
  obtain ⟨body, hbody, hkept⟩ := hwf.kept
  have hfree : ∀ s, s = .id ∨ s = .name → ∀ (w : Word s) u, body.get? u = some w.tree →
      isReserved w.text = false := by
    intro s hs w u hu
    obtain ⟨ρ, -, hlawful⟩ := hkept u _ hu
    exact hlawful.unreserved hs
  refine ⟨fun u x h => ?_, ?_, body, hbody, hfree, ?_⟩
  · obtain ⟨⟨τ, hτ⟩, hnodup⟩ := h.mem_envAt hwf.settled
    obtain ⟨d, hs, hd⟩ := mem_envAt.1 hτ
    obtain ⟨b, n, hb, hne, hn, hopen⟩ := exists_opensScope (leafEnv_program hparse) hd
    refine ⟨d, ⟨⟨τ, hd⟩, hs, b, n, hb, hne, hs.encloses b n hb hne hn hopen, hn, hopen⟩, ?_⟩
    rintro d' ⟨⟨τ', hd'⟩, hs', -⟩
    exact eq_of_inScope hnodup hd' hd hs' hs
  · rintro d d' x τ τ' hd hd' hne u n hn ⟨hs, hs'⟩
    have hnodup := (hwf.settled u n hn).1
    exact hne (eq_of_inScope (by simpa using hnodup) hd hd' hs hs')
  · intro k hk hid hreserved
    obtain ⟨s, w, u, hu, rfl⟩ := exists_word_of_mem_tokens (parses_classBody hparse hbody) hk
    have hs : s = .id ∨ s = .name := by
      have hw := w.accepted
      rw [hid] at hw
      revert hw
      cases s <;> decide
    exact Bool.eq_false_iff.1 (hfree s hs w u hu) (isReserved_of_mem hreserved)

theorem names_resolve_printTwice :
    grammar.Parses Label.program printTwice.tree ∧ check printTwice.tree = .ok () ∧
    Uses printTwice.tree [4, 1, 0, 0, 7, 1, 0, 0, 6, 0, 0] (ofString "i") ∧
    ∃! d, Resolves printTwice.tree [4, 1, 0, 0, 7, 1, 0, 0, 6, 0, 0] (ofString "i") d := by
  have hcheck : check printTwice.tree = .ok () := by decide +kernel
  have huse : Uses printTwice.tree [4, 1, 0, 0, 7, 1, 0, 0, 6, 0, 0] (ofString "i") :=
    ⟨.assignment, [4, 1, 0, 0, 7, 1, 0, 0, 6, 0], 0, _, .ofText "i", .inr rfl, rfl, rfl, rfl, rfl⟩
  exact ⟨printTwice.parses, hcheck, huse, (names_resolve printTwice.parses hcheck).1 _ _ huse⟩

end JavaToCpp.Typing
