/-
  Places in a tree and the declarations that reach them.

  A place is the list of the numbers of the children on the way to a node.  A declaration reaches
  the places behind it in the block, for statement or function that it stands in.
-/
import JavaToCpp.Proofs.Java.Concrete
import JavaToCpp.Typing.ValueType

namespace JavaToCpp

open List JavaToCpp.Tree

namespace Tree

def get? : Tree → List Nat → Option Tree
  | t, [] => some t
  | t, i :: u => (t.children[i]?).bind fun c => get? c u

theorem get?_cons (t : Tree) (i : Nat) (u : List Nat) :
    t.get? (i :: u) = (t.children[i]?).bind fun c => get? c u := rfl

theorem get?_append (t : Tree) (u v : List Nat) : t.get? (u ++ v) = (t.get? u).bind fun n => n.get? v := by
  induction u generalizing t with
  | nil => rfl
  | cons i u ih =>
    rw [cons_append, get?_cons, get?_cons]
    cases t.children[i]? with
    | none => rfl
    | some c => exact ih c

end Tree

namespace Java

/-- The variables that are declared, with their types. -/
abbrev Env := List (Text × ValueType)

/-- Whether the declarations below a node do not reach the places behind it. -/
def opensScope : Tree → Bool
  | .branch l _ => l == Label.codeBlock || l == Label.forLoop || l == Label.funcDeclaration
  | _ => false

/-- What a node declares, if it is the declaration of a variable or a parameter. -/
def declared? : Tree → Option (Text × ValueType)
  | .branch l cs =>
    if l == Label.varDecl || l == Label.param then
      some (((branch l cs).child 1).text, ValueType.ofKeyword ((branch l cs).child 0).text)
    else none
  | _ => none

/-- The node at a place declares the variable. -/
def Declares (root : Tree) (d : List Nat) (q : Text × ValueType) : Prop :=
  (root.get? d).bind declared? = some q

/-- The node at `d` ends before the node at `u` begins. -/
def Before (d u : List Nat) : Prop :=
  ∃ stem i j d' u', d = stem ++ i :: d' ∧ u = stem ++ j :: u' ∧ i < j

/-- A declaration at `d` is in scope at `u`: it ends before, and whatever block, for statement or
    function it stands in, `u` stands in too. -/
structure InScope (root : Tree) (d u : List Nat) : Prop where
  before : Before d u
  encloses : ∀ b n, b <+: d → b ≠ d → root.get? b = some n → opensScope n → b <+: u

/-! ## The declarations that leave a tree -/

/-- The declaration of the node itself, at the place where it is. -/
def own (t : Tree) : List (List Nat × Text × ValueType) := (declared? t).toList.map fun q => ([], q)

mutual

/-- The declarations in a tree that reach the places behind it, with their places. -/
def leaves : Tree → List (List Nat × Text × ValueType)
  | .branch l cs =>
    own (.branch l cs) ++ if opensScope (.branch l cs) then [] else leavesFrom 0 cs
  | _ => []

/-- The declarations that leave trees, which are the children from number `k` on. -/
def leavesFrom (k : Nat) : List Tree → List (List Nat × Text × ValueType)
  | [] => []
  | c :: cs => (leaves c).map (fun e => (k :: e.1, e.2)) ++ leavesFrom (k + 1) cs

end

variable {d u : List Nat} {q : Text × ValueType} {t c : Tree} {i j : Nat} {s : Nonterminal} {k : Token}

theorem mem_leavesFrom : ∀ {cs : List Tree} {k : Nat}, (d, q) ∈ leavesFrom k cs ↔
      ∃ i c d', d = (k + i) :: d' ∧ cs[i]? = some c ∧ (d', q) ∈ leaves c
  | [], k => by simp [leavesFrom]
  | c :: cs, k => by
    rw [leavesFrom, mem_append, mem_leavesFrom]
    constructor
    · rintro (h | ⟨i, c', d', rfl, hc, hd⟩)
      · obtain ⟨⟨d', q⟩, hd, h⟩ := mem_map.1 h
        cases h
        exact ⟨0, c, d', rfl, rfl, hd⟩
      · exact ⟨i + 1, c', d', by rw [Nat.add_assoc, Nat.add_comm 1], hc, hd⟩
    · rintro ⟨i, c', d', rfl, hc, hd⟩
      cases i with
      | zero =>
        cases hc
        exact .inl (mem_map.2 ⟨(d', q), hd, rfl⟩)
      | succ i => exact .inr ⟨i, c', d', by rw [Nat.add_assoc, Nat.add_comm 1], hc, hd⟩

theorem nil_mem_leaves : ([], q) ∈ leaves t ↔ declared? t = some q := by
  have hchildren : ∀ cs, ([], q) ∉ leavesFrom 0 cs := by
    intro cs h
    obtain ⟨i, c, d', h, -⟩ := mem_leavesFrom.1 h
    cases h
  cases t with
  | leaf | hole => simp [leaves, declared?]
  | branch l cs =>
    rw [leaves, mem_append]
    constructor
    · rintro (h | h)
      · simpa [own] using h
      · split at h
        · cases h
        · exact absurd h (hchildren cs)
    · exact fun h => .inl (by simp [own, h])

theorem cons_mem_leaves : (i :: d, q) ∈ leaves t ↔
      opensScope t = false ∧ ∃ c, t.children[i]? = some c ∧ (d, q) ∈ leaves c := by
  cases t with
  | leaf | hole => simp [leaves, children]
  | branch l cs =>
    have hown : (i :: d, q) ∉ own (.branch l cs) := by simp [own]
    rw [leaves, mem_append, or_iff_right hown]
    split
    · simp [*]
    · simp [*, mem_leavesFrom, children]

theorem mem_leaves : (d, q) ∈ leaves t ↔
      Declares t d q ∧ ∀ b n, b <+: d → b ≠ d → t.get? b = some n → opensScope n = false := by
  induction d generalizing t with
  | nil =>
    rw [nil_mem_leaves]
    refine ⟨fun h => ⟨h, fun b n hb hne => absurd (prefix_nil.1 hb) hne⟩, fun h => h.1⟩
  | cons i d ih =>
    rw [cons_mem_leaves]
    constructor
    · rintro ⟨ht, c, hc, hd⟩
      obtain ⟨hdecl, hopen⟩ := ih.1 hd
      refine ⟨by simpa [Declares, get?_cons, hc] using hdecl, fun b n hb hne hn => ?_⟩
      cases b with
      | nil => cases hn; exact ht
      | cons i' b =>
        obtain ⟨rfl, hbd⟩ := cons_prefix_cons.1 hb
        exact hopen b n hbd (fun h => hne (h ▸ rfl)) (by simpa [get?_cons, hc] using hn)
    · rintro ⟨hdecl, hopen⟩
      refine ⟨hopen [] t ( nil_prefix ..) (by simp) rfl, ?_⟩
      cases hc : t.children[i]? with
      | none => simp [Declares, get?_cons, hc] at hdecl
      | some c =>
        refine ⟨c, rfl, ih.2 ⟨by simpa [Declares, get?_cons, hc] using hdecl, ?_⟩⟩
        intro b n hb hne hn
        exact hopen (i :: b) n (cons_prefix_cons.2 ⟨rfl, hb⟩) (by simpa using hne)
          (by simpa [get?_cons, hc] using hn)

/-! ## The declarations in scope -/

/-- The declarations in scope at a place, with their places. -/
def visible : Tree → List Nat → List (List Nat × Text × ValueType)
  | _, [] => []
  | t, j :: u => leavesFrom 0 (t.children.take j) ++
      match t.children[j]? with
      | some c => (visible c u).map fun e => (j :: e.1, e.2)
      | none => []

theorem before_cons : Before (i :: d) (j :: u) ↔ i < j ∨ i = j ∧ Before d u := by
  constructor
  · rintro ⟨stem, i', j', d', u', hd, hu, hlt⟩
    cases stem with
    | nil =>
      cases hd
      cases hu
      exact .inl hlt
    | cons k stem =>
      cases hd
      cases hu
      exact .inr ⟨rfl, stem, i', j', d', u', rfl, rfl, hlt⟩
  · rintro (h | ⟨rfl, stem, i', j', d', u', rfl, rfl, hlt⟩)
    · exact ⟨[], i, j, d, u, rfl, rfl, h⟩
    · exact ⟨i :: stem, i', j', d', u', rfl, rfl, hlt⟩

theorem not_before_nil : ¬ Before d [] := by
  rintro ⟨stem, i, j, d', u', -, h, -⟩
  cases stem <;> cases h

theorem not_nil_before : ¬ Before [] u := by
  rintro ⟨stem, i, j, d', u', h, -, -⟩
  cases stem <;> cases h

theorem inScope_of_lt (h : i < j) (hc : t.children[i]? = some c) :
    InScope t (i :: d) (j :: u) ∧ Declares t (i :: d) q ↔ (d, q) ∈ leaves c := by
  have hdecl : Declares t (i :: d) q ↔ Declares c d q := by simp [Declares, get?_cons, hc]
  rw [mem_leaves, hdecl, and_comm]
  refine and_congr_right fun _ => ⟨fun hs b n hb hne hn => ?_, fun hopen => ⟨?_, ?_⟩⟩
  · refine Bool.eq_false_iff.2 fun ho => ?_
    have hpre := hs.encloses (i :: b) n (cons_prefix_cons.2 ⟨rfl, hb⟩) (by simpa using hne)
      (by simpa [get?_cons, hc] using hn) ho
    exact Nat.ne_of_lt h (cons_prefix_cons.1 hpre).1
  · exact before_cons.2 (.inl h)
  · intro b n hb hne hn ho
    cases b with
    | nil => exact nil_prefix ..
    | cons i' b =>
      obtain ⟨rfl, hbd⟩ := cons_prefix_cons.1 hb
      rw [hopen b n hbd (fun h => hne (h ▸ rfl)) (by simpa [get?_cons, hc] using hn)] at ho
      cases ho

theorem inScope_cons (hc : t.children[j]? = some c) :
    InScope t (j :: d) (j :: u) ∧ Declares t (j :: d) q ↔ InScope c d u ∧ Declares c d q := by
  have hdecl : Declares t (j :: d) q ↔ Declares c d q := by simp [Declares, get?_cons, hc]
  rw [hdecl]
  refine and_congr_left fun _ => ⟨fun hs => ⟨?_, ?_⟩, fun hs => ⟨?_, ?_⟩⟩
  · exact (before_cons.1 hs.before).elim (fun h => absurd h (Nat.lt_irrefl j)) And.right
  · intro b n hb hne hn ho
    exact (cons_prefix_cons.1 (hs.encloses (j :: b) n (cons_prefix_cons.2 ⟨rfl, hb⟩)
      (by simpa using hne) (by simpa [get?_cons, hc] using hn) ho)).2
  · exact before_cons.2 (.inr ⟨rfl, hs.before⟩)
  · intro b n hb hne hn ho
    cases b with
    | nil => exact nil_prefix ..
    | cons j' b =>
      obtain ⟨rfl, hbd⟩ := cons_prefix_cons.1 hb
      exact cons_prefix_cons.2 ⟨rfl, hs.encloses b n hbd (fun h => hne (h ▸ rfl))
        (by simpa [get?_cons, hc] using hn) ho⟩

theorem mem_visible : (d, q) ∈ visible t u ↔ InScope t d u ∧ Declares t d q := by
  induction u generalizing t d with
  | nil =>
    simp only [visible, not_mem_nil, false_iff]
    exact fun h => not_before_nil h.1.before
  | cons j u ih =>
    rw [visible, mem_append]
    constructor
    · rintro (h | h)
      · obtain ⟨i, c, d', rfl, hc, hd⟩ := mem_leavesFrom.1 h
        rw [Nat.zero_add, getElem?_take] at *
        split at hc
        · exact (inScope_of_lt ‹i < j› hc).2 hd
        · cases hc
      · cases hc : t.children[j]? with
        | none => simp [hc] at h
        | some c =>
          rw [hc] at h
          obtain ⟨⟨d', q⟩, hd, h⟩ := mem_map.1 h
          cases h
          exact (inScope_cons hc).2 (ih.1 hd)
    · rintro ⟨hs, hd⟩
      cases d with
      | nil => exact absurd hs.before not_nil_before
      | cons i d =>
        have hchild : ∃ c, t.children[i]? = some c := by
          refine Option.ne_none_iff_exists'.1 fun hc => ?_
          simp [Declares, get?_cons, hc] at hd
        obtain ⟨c, hc⟩ := hchild
        rcases before_cons.1 hs.before with h | ⟨rfl, -⟩
        · refine .inl (mem_leavesFrom.2 ⟨i, c, d, by rw [Nat.zero_add], ?_, ?_⟩)
          · rw [getElem?_take, if_pos h, hc]
          · exact (inScope_of_lt h hc).1 ⟨hs, hd⟩
        · refine .inr ?_
          rw [hc]
          exact mem_map.2 ⟨(d, q), ih.2 ((inScope_cons hc).1 ⟨hs, hd⟩), rfl⟩

/-! ## Environments -/

/-- What a tree declares for the places behind it. -/
def leafEnv (t : Tree) : Env := (leaves t).map Prod.snd

/-- What is in scope at a place. -/
def envAt (t : Tree) (u : List Nat) : Env := (visible t u).map Prod.snd

theorem map_leavesFrom (k : Nat) (cs : List Tree) :
    (leavesFrom k cs).map Prod.snd = cs.flatMap leafEnv := by
  induction cs generalizing k with
  | nil => rfl
  | cons c cs ih =>
    rw [leavesFrom, map_append, map_map, ih (k + 1)]
    rfl

theorem leafEnv_branch (l : Text) (cs : List Tree) :
    leafEnv (.branch l cs) = (declared? (.branch l cs)).toList ++
      if opensScope (.branch l cs) then [] else cs.flatMap leafEnv := by
  rw [leafEnv, leaves, map_append]
  congr 1
  · cases h : declared? (.branch l cs) <;> simp [own, h]
  · split
    · rfl
    · exact map_leavesFrom 0 cs

@[simp] theorem leafEnv_leaf (k : Token) : leafEnv (.leaf k) = [] := rfl

@[simp] theorem envAt_nil (t : Tree) : envAt t [] = [] := rfl

theorem envAt_cons (t : Tree) (j : Nat) (u : List Nat) :
    envAt t (j :: u) = (t.children.take j).flatMap leafEnv ++
      ((t.children[j]?).map fun c => envAt c u).getD [] := by
  rw [envAt, visible, map_append, map_leavesFrom]
  congr 1
  cases t.children[j]? <;> simp [envAt]

theorem envAt_append {n : Tree} {v : List Nat} (w : List Nat) (h : t.get? v = some n) :
    envAt t (v ++ w) = envAt t v ++ envAt n w := by
  induction v generalizing t with
  | nil =>
    cases h
    rfl
  | cons i v ih =>
    obtain ⟨c, hc, hn⟩ := Option.bind_eq_some_iff.1 h
    rw [cons_append, envAt_cons, envAt_cons, hc, Option.map_some, Option.getD_some,
      Option.map_some, Option.getD_some, ih hn, append_assoc]

theorem mem_envAt : q ∈ envAt t u ↔ ∃ d, InScope t d u ∧ Declares t d q := by
  simp only [envAt, mem_map, Prod.exists, mem_visible, exists_eq_right]

/-! ## What the syntax declares -/

def Phrase.declares : {s : Nonterminal} → Phrase s → Env
  | _, declare type id => [(id.text, .ofKeyword type.text)]
  | _, initialise type id _ _ => [(id.text, .ofKeyword type.text)]
  | _, initVar v => v.declares
  | _, _ => []

/-- What a statement declares for the statements behind it. -/
def Stmt.declares : {s : Nonterminal} → Stmt s → Env
  | _, last i => i.declares
  | _, more i rest => i.declares ++ rest.declares
  | _, simple _ p _ => p.declares
  | _, compound _ x => x.declares
  | _, _ => []

theorem Phrase.declares_eq_nil (p : Phrase s) (hs : s ≠ .varDecl)
    (hs' : s ≠ .forInit) : p.declares = [] := by
  cases p <;> first | rfl | contradiction

theorem Stmt.declares_eq_nil (x : Stmt s) (hs : s ≠ .instructions)
    (hs' : s ≠ .instruction) : x.declares = [] := by
  cases x <;> first | rfl | contradiction

def Decl.declares : {s : Nonterminal} → Decl s → Env
  | _, param type id => [(id.text, .ofKeyword type.text)]
  | _, lastParam p => p.declares
  | _, moreParams p _ rest => p.declares ++ rest.declares
  | _, _ => []

theorem leafEnv_node (s : Nonterminal) (ts : List Tree) : leafEnv (s.node ts) =
      (if s = .varDecl ∨ s = .param then
        [(((s.node ts).child 1).text, .ofKeyword ((s.node ts).child 0).text)] else []) ++
      if s = .codeBlock ∨ s = .forLoop ∨ s = .funcDeclaration then [] else ts.flatMap leafEnv := by
  rw [Nonterminal.node, leafEnv_branch, declared?, opensScope]
  congr 1
  · by_cases h : s = .varDecl ∨ s = .param <;> simp [Nonterminal.labels, h]
  · simp [Nonterminal.labels, or_assoc]

@[simp] theorem leafEnv_word (w : Word s) : leafEnv w.tree = [] := by
  have hs : s ≠ .varDecl ∧ s ≠ .param := by
    constructor <;> rintro rfl <;> exact absurd w.accepted not_mem_nil
  simp [Word.tree, leafEnv_node, hs.1, hs.2]

@[simp] theorem leafEnv_phrase (p : Phrase s) : leafEnv p.tree = p.declares := by
  induction p <;> simp [Phrase.tree, leafEnv_node, Phrase.declares, child, *]

@[simp] theorem leafEnv_stmt (x : Stmt s) : leafEnv x.tree = x.declares := by
  induction x <;>
    simp [Stmt.tree, leafEnv_node, Stmt.declares, Phrase.declares_eq_nil, Stmt.declares_eq_nil, *]

@[simp] theorem leafEnv_decl (d : Decl s) : leafEnv d.tree = d.declares := by
  induction d <;>
    simp [Decl.tree, leafEnv_node, Decl.declares, child, Stmt.declares_eq_nil, *]

/-! ## All nodes of a tree -/

/-- Every node satisfies `Q`, which is given what is in scope at the places below the node when `E`
    is in scope at the tree. -/
def Everywhere (Q : (List Nat → Env) → Tree → Prop) (E : Env) (t : Tree) : Prop :=
  ∀ u n, t.get? u = some n → Q (fun w => E ++ envAt t (u ++ w)) n

/-- Every node of trees that stand one behind the other satisfies `Q`. -/
def EverywhereIn (Q : (List Nat → Env) → Tree → Prop) : Env → List Tree → Prop
  | _, [] => True
  | E, c :: cs => Everywhere Q E c ∧ EverywhereIn Q (E ++ leafEnv c) cs

variable {Q : (List Nat → Env) → Tree → Prop} {E : Env}

theorem EverywhereIn.getElem? : ∀ {cs : List Tree} {E : Env}, EverywhereIn Q E cs →
    ∀ {j : Nat} {c : Tree}, cs[j]? = some c → Everywhere Q (E ++ (cs.take j).flatMap leafEnv) c
  | c :: _, E, h, 0, _, hc => by
    cases hc
    simpa using h.1
  | c :: cs, E, h, j + 1, c', hc => by
    simpa [append_assoc] using h.2.getElem? (show cs[j]? = some c' from hc)

theorem Everywhere.imp {Q' : (List Nat → Env) → Tree → Prop} (h : ∀ Γ n, Q Γ n → Q' Γ n)
    (ht : Everywhere Q E t) : Everywhere Q' E t :=
  fun u n hn => h _ n (ht u n hn)

theorem everywhere_branch {l : Text} {cs : List Tree}
    (h : Q (fun w => E ++ envAt (.branch l cs) w) (.branch l cs)) (hcs : EverywhereIn Q E cs) :
    Everywhere Q E (.branch l cs) := by
  intro u n hn
  cases u with
  | nil =>
    cases hn
    exact h
  | cons j u =>
    rw [get?_cons] at hn
    obtain ⟨c, hc, hn⟩ := Option.bind_eq_some_iff.1 hn
    have hall := hcs.getElem? hc u n hn
    have henv : (fun w => E ++ envAt (.branch l cs) (j :: u ++ w)) =
        fun w => E ++ (cs.take j).flatMap leafEnv ++ envAt c (u ++ w) := by
      funext w
      have hc' : (branch l cs).children[j]? = some c := hc
      rw [cons_append, envAt_cons, hc', append_assoc]
      rfl
    rw [henv]
    exact hall

/-! ## Nodes of derivation trees -/

/-- Whether the nonterminal has its place inside a function. -/
def Nonterminal.inner : Nonterminal → Bool
  | program | classBody | member | funcDeclaration | mainFunc => false
  | _ => true

theorem Nonterminal.inner_of_mem {x : Nonterminal} {side : List Nonterminal}
    (hside : side ∈ s.sides) (hx : x ∈ side)
    (hs : s.inner ∨ s = .funcDeclaration ∨ s = .mainFunc) : x.inner := by
  have hall : ∀ s : Nonterminal, s.inner ∨ s = .funcDeclaration ∨ s = .mainFunc →
      ∀ side ∈ s.sides, ∀ x ∈ side, x.inner := by
    decide
  exact hall s hs side hside x hx

theorem exists_of_getElem? {α β : Type} {R : α → β → Prop} {as : List α} {bs : List β}
    (h : Forall₂ R as bs) {b : β} (hb : bs[i]? = some b) : ∃ a ∈ as, R a b := by
  induction h generalizing i with
  | nil => cases hb
  | @cons a b' as bs hab _ ih =>
    cases i with
    | zero =>
      cases hb
      exact ⟨a, mem_cons_self, hab⟩
    | succ i =>
      obtain ⟨a', ha', hab'⟩ := ih hb
      exact ⟨a', mem_cons_of_mem a ha', hab'⟩

theorem parses_child (h : grammar.Parses s.label t) (hc : t.children[i]? = some c) :
    (∃ k, c = .leaf k) ∨ ∃ side ∈ s.sides, ∃ x ∈ side, grammar.Parses x.label c := by
  induction h using Nonterminal.parses_induction with
  | @word s k hk => exact .inl ⟨k, mem_singleton.1 (mem_of_getElem? hc)⟩
  | @side s side ts hside h ih =>
    obtain ⟨x, hx, hparses⟩ := exists_of_getElem? h hc
    exact .inr ⟨side, hside, x, hx, hparses⟩

theorem parses_get? {P : Nonterminal → Prop}
    (hP : ∀ s, P s → ∀ side ∈ s.sides, ∀ x ∈ side, P x) {l : Text} {cs : List Tree} :
    ∀ {s : Nonterminal} {t : Tree}, grammar.Parses s.label t → P s →
      t.get? u = some (.branch l cs) →
      ∃ k : Nonterminal, l = k.label ∧ grammar.Parses k.label (.branch l cs) ∧ P k := by
  induction u with
  | nil =>
    rintro s t h hs ⟨⟩
    exact ⟨s, Except.ok.inj h.label, h, hs⟩
  | cons i u ih =>
    intro s t h hs hn
    obtain ⟨c, hc, hn⟩ := Option.bind_eq_some_iff.1 hn
    obtain ⟨k, rfl⟩ | ⟨side, hside, x, hx, hparses⟩ := parses_child h hc
    · cases u <;> cases hn
    · exact ih hparses (hP s hs side hside x hx) hn

theorem exists_parent {root : Tree} {ts : List Tree} {v : List Nat}
    (h : grammar.Parses Label.program root) (hs : s ≠ .program)
    (hv : root.get? v = some (s.node ts)) :
    ∃ u i, v = u ++ [i] ∧ ∃ (k : Nonterminal) (cs : List Tree),
      root.get? u = some (k.node cs) ∧ cs[i]? = some (s.node ts) ∧ ∃ side ∈ k.sides, s ∈ side := by
  rcases v.eq_nil_or_concat with rfl | ⟨u, i, rfl⟩
  · cases hv
    exact absurd (Nonterminal.label_inj (b := .program).1 (Except.ok.inj h.label)) hs
  · rw [concat_eq_append, get?_append] at hv
    obtain ⟨n, hn, hi⟩ := Option.bind_eq_some_iff.1 hv
    have hi : n.children[i]? = some (s.node ts) := by simpa [get?] using hi
    cases n with
    | hole | leaf => cases hi
    | branch l cs =>
      obtain ⟨k, rfl, hparses, -⟩ := parses_get? (P := fun _ => True) (by simp) (s := .program) h
        trivial hn
      refine ⟨u, i, concat_eq_append, k, cs, hn, hi, ?_⟩
      obtain ⟨_, hleaf⟩ | ⟨side, hside, x, hx, hchild⟩ := parses_child hparses hi
      · cases hleaf
      · cases Nonterminal.label_inj.1 (Except.ok.inj hchild.label)
        exact ⟨side, hside, hx⟩

theorem mem_tokensOf {ts : List Tree} : k ∈ tokensOf ts ↔ ∃ t ∈ ts, k ∈ t.tokens := by
  induction ts with
  | nil => simp [tokensOf]
  | cons t ts ih => simp [tokensOf, ih]

theorem exists_word_of_mem_tokens (h : grammar.Parses s.label t) (hk : k ∈ t.tokens) :
    ∃ (x : Nonterminal) (w : Word x) (u : List Nat), t.get? u = some w.tree ∧ w.token = k := by
  induction h using Nonterminal.parses_induction with
  | @word s k' hk' =>
    have hk : k = k' := by simpa [tokensOf, tokens] using hk
    subst hk
    exact ⟨s, ⟨k, hk'⟩, [], rfl, rfl⟩
  | @side s side ts hside _ ih =>
    rw [Nonterminal.tokens_node, mem_tokensOf] at hk
    obtain ⟨c, hc, hk⟩ := hk
    obtain ⟨i, hi⟩ := getElem?_of_mem hc
    obtain ⟨x, -, -, ih⟩ := exists_of_getElem? ih hi
    obtain ⟨y, w, u, hu, hw⟩ := ih hk
    exact ⟨y, w, i :: u, by simp [get?_cons, hi, hu], hw⟩

theorem mem_tokens_of_get? {n : Tree} (h : t.get? u = some n) (hk : k ∈ n.tokens) : k ∈ t.tokens := by
  induction u generalizing t with
  | nil =>
    cases h
    exact hk
  | cons i u ih =>
    obtain ⟨c, hc, hn⟩ := Option.bind_eq_some_iff.1 h
    cases t with
    | leaf | hole => simp [children] at hc
    | branch l cs =>
      rw [tokens, mem_tokensOf]
      exact ⟨c, mem_of_getElem? hc, ih hn⟩

end Java

end JavaToCpp
