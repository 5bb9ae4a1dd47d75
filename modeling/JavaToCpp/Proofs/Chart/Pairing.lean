/-
  Charts of two grammars, side by side.
-/
import JavaToCpp.Proofs.Chart.Fill

namespace JavaToCpp.Chart

open List
open Grammar (Rule)

/-! ## Lists side by side -/

section
variable {α β : Type} {R : α → β → Prop} {l : List α} {m : List β}

theorem exists_mem_iff {p : α → Prop} {q : β → Prop} (h : Forall₂ R l m)
    (hpq : ∀ a b, R a b → (p a ↔ q b)) : (∃ a ∈ l, p a) ↔ ∃ b ∈ m, q b := by
  induction h with
  | nil => simp
  | cons hab _ ih => simp [hpq _ _ hab, ih]

theorem rel_getElem? (h : Forall₂ R l m) (n : Nat) : Option.Rel R l[n]? m[n]? := by
  induction h generalizing n with
  | nil => simp
  | cons hab _ ih =>
    cases n with
    | zero => exact .some hab
    | succ n => exact ih n

theorem rel_find? {p : α → Bool} {q : β → Bool} (h : Forall₂ R l m)
    (hpq : ∀ a b, R a b → p a = q b) : Option.Rel R (l.find? p) (m.find? q) := by
  induction h with
  | nil => exact .none
  | @cons a b _ _ hab _ ih =>
    rw [find?_cons, find?_cons, hpq a b hab]
    cases q b with
    | true => exact .some hab
    | false => exact ih

theorem rel_getLast? (h : Forall₂ R l m) : Option.Rel R l.getLast? m.getLast? := by
  rw [getLast?_eq_getElem?, getLast?_eq_getElem?, h.length_eq]
  exact rel_getElem? h _

theorem map_eq_map {γ : Type} {f : α → γ} {f' : β → γ} (h : Forall₂ R l m)
    (hf : ∀ a b, R a b → f a = f' b) : l.map f = m.map f' := by
  induction h with
  | nil => rfl
  | cons hab _ ih => rw [map_cons, map_cons, hf _ _ hab, ih]

end

/-! ## Pairings -/

/-- Which rules, tokens and trees correspond to each other. -/
structure Pairing where
  rule : Rule → Rule → Prop
  token : Token → Token → Prop
  tree : Tree → Tree → Prop

/-- The rules that a symbol after the dot brings in. -/
def predicted (g : Grammar) (a : Symbol) : List Rule := if g.isTag a then [] else g.rulesOf a

/-- The recogniser treats corresponding rules and tokens of the grammars alike. -/
structure Pairing.Fits (P : Pairing) (g h : Grammar) : Prop where
  top : P.rule (topRule g) (topRule h)
  capacity : ∀ i, capacity g i = capacity h i
  length : ∀ {r r' : Rule}, P.rule r r' → r.rhs.length = r'.rhs.length
  number : ∀ {r r' q q' : Rule}, P.rule r r' → P.rule q q' →
    (r.number = q.number ↔ r'.number = q'.number)
  waits : ∀ {r r' q q' : Rule} {n : Nat}, P.rule r r' → P.rule q q' →
    (r.rhs[n]? = some q.lhs ↔ r'.rhs[n]? = some q'.lhs)
  predicts : ∀ {r r' : Rule} {n : Nat} {a a' : Symbol}, P.rule r r' → r.rhs[n]? = some a →
    r'.rhs[n]? = some a' → Forall₂ P.rule (predicted g a) (predicted h a')
  reads : ∀ {r r' : Rule} {n : Nat} {a a' : Symbol} {t t' : Token}, P.rule r r' →
    r.rhs[n]? = some a → r'.rhs[n]? = some a' → P.token t t' →
    Option.Rel P.rule (scanRule? (entries g) a t) (scanRule? (entries h) a' t')
  branch : ∀ {r r' : Rule} {cs cs' : List Tree}, P.rule r r' → Forall₂ P.tree cs cs' →
    P.tree (.branch r.lhs cs) (.branch r'.lhs cs')
  leaf : ∀ {t t' : Token}, P.token t t' → P.tree (.leaf t) (.leaf t')

/-- States with corresponding rules, at the same places. -/
structure State.Twin (P : Pairing) (s s' : State) : Prop where
  rule : P.rule s.rule s'.rule
  dot : s.dot = s'.dot
  origin : s.origin = s'.origin
  index : s.index = s'.index
  children : Forall₂ P.tree s.children s'.children
  token : Option.Rel P.token s.token s'.token

def Column.Twin (P : Pairing) (c c' : Column) : Prop :=
  Forall₂ (State.Twin P) c.states.toList c'.states.toList

def Twins (P : Pairing) (cols cols' : Array Column) : Prop :=
  Forall₂ (Column.Twin P) cols.toList cols'.toList

variable {P : Pairing} {g h : Grammar} {s s' u u' : State} {c c' : Column}

/-! ## States -/

theorem State.Twin.key (hP : P.Fits g h) (hs : s.Twin P s') (hu : u.Twin P u') :
    s.key = u.key ↔ s'.key = u'.key := by
  simp only [State.key, Prod.mk.injEq, hP.number hs.rule hu.rule, hs.dot, hu.dot, hs.origin,
    hu.origin]

theorem State.Twin.next? (hP : P.Fits g h) (hs : s.Twin P s') :
    s.next? = none ∧ s'.next? = none ∨ ∃ a a', s.next? = some a ∧ s'.next? = some a' := by
  rw [State.next?, State.next?, ← hs.dot]
  by_cases hdot : s.dot < s.rule.rhs.length
  · have hdot' : s.dot < s'.rule.rhs.length := hP.length hs.rule ▸ hdot
    exact .inr ⟨_, _, getElem?_eq_getElem hdot, getElem?_eq_getElem hdot'⟩
  · have hdot' : ¬ s.dot < s'.rule.rhs.length := hP.length hs.rule ▸ hdot
    exact .inl ⟨getElem?_eq_none_iff.2 (Nat.not_lt.1 hdot),
      getElem?_eq_none_iff.2 (Nat.not_lt.1 hdot')⟩

theorem State.Twin.tree (hP : P.Fits g h) (hs : s.Twin P s') : P.tree s.tree s'.tree := by
  have htoken := hs.token
  rw [State.tree, State.tree]
  cases hk : s.token <;> cases hk' : s'.token <;> rw [hk, hk'] at htoken <;> cases htoken
  case none.none.none => exact hP.branch hs.rule hs.children
  case some.some.some ht => exact hP.branch hs.rule (.cons (hP.leaf ht) .nil)

theorem State.Twin.advance {t t' : Tree} (hs : s.Twin P s') (ht : P.tree t t') (i : Nat) :
    (s.advance i t).Twin P (s'.advance i t') where
  rule := hs.rule
  dot := congrArg (· + 1) hs.dot
  origin := hs.origin
  index := rfl
  children := rel_append hs.children (.cons ht .nil)
  token := hs.token

variable {r r' : Rule} {t t' : Token} {earlier : Array Column}

theorem twin_begin (i : Nat) (hr : P.rule r r') : (State.begin i r).Twin P (State.begin i r') :=
  ⟨hr, rfl, rfl, rfl, .nil, .none⟩

theorem twin_scanned (i : Nat) (hr : P.rule r r') (ht : P.token t t') :
    (State.scanned i r t).Twin P (State.scanned i r' t') :=
  ⟨hr, rfl, rfl, rfl, .nil, .some ht⟩

/-! ## Columns -/

theorem twin_empty : Column.empty.Twin P Column.empty := .nil

theorem Column.Twin.insert (hP : P.Fits g h) (hc : c.Twin P c') (hs : s.Twin P s') :
    (c.insert s).Twin P (c'.insert s') := by
  have hkey : s.key ∈ c.keys ↔ s'.key ∈ c'.keys := by
    rw [c.mem_keys, c'.mem_keys]
    simpa using exists_mem_iff hc fun a b hab => hab.key hP hs
  unfold Column.insert
  by_cases hmem : s.key ∈ c.keys
  · rwa [if_pos hmem, if_pos (hkey.1 hmem)]
  · rw [if_neg hmem, if_neg (mt hkey.2 hmem)]
    simpa [Column.Twin, Column.push] using rel_append hc (.cons hs .nil)

theorem Column.Twin.insertAll (hP : P.Fits g h) (hc : c.Twin P c') {ss ss' : List State}
    (hss : Forall₂ (State.Twin P) ss ss') :
    (ss.foldl Column.insert c).Twin P (ss'.foldl Column.insert c') :=
  rel_foldl (fun _ _ hc _ _ hs => hc.insert hP hs) hc hss

theorem Column.Twin.waiting (hP : P.Fits g h) (hc : c.Twin P c') (hr : P.rule r r') :
    Forall₂ (State.Twin P) (c.waiting.getD r.lhs #[]).toList (c'.waiting.getD r'.lhs #[]).toList := by
  rw [c.waiting_eq, c'.waiting_eq, Array.toList_filter, Array.toList_filter]
  refine rel_filter (fun a b hab => ?_) hc
  simp only [beq_iff_eq, State.next?, ← hab.dot]
  exact hP.waits hab.rule hr

theorem followers_of_next? {i : Nat} {a : Symbol} (hs : s.next? = some a) :
    followers (entries g) earlier i s = (predicted g a).map (State.begin i) := by
  rw [followers, hs, predicted]
  simp only [lookup?_entries]
  cases ha : g.isTerminal a with
  | true =>
    have htag : g.isTag a = false := by simp [Grammar.isTag, ha]
    simp [htag, Grammar.rulesOf_of_isTerminal ha]
  | false => cases g.isTag a <;> simp

theorem twin_followers (hP : P.Fits g h) {earlier' : Array Column}
    (he : Twins P earlier earlier') (i : Nat) (hs : s.Twin P s') :
    Forall₂ (State.Twin P) (followers (entries g) earlier i s)
      (followers (entries h) earlier' i s') := by
  rcases hs.next? hP with ⟨hnone, hnone'⟩ | ⟨a, a', hsome, hsome'⟩
  · rw [followers, followers, hnone, hnone', ← hs.origin]
    have hcol := rel_getElem? he s.origin
    rw [Array.getElem?_toList, Array.getElem?_toList] at hcol
    match earlier[s.origin]?, earlier'[s.origin]?, hcol with
    | none, none, .none => exact .nil
    | some c, some c', .some hc =>
      exact rel_map (fun _ _ hw => hw.advance (hs.tree hP) i) (hc.waiting hP hs.rule)
  · rw [followers_of_next? hsome, followers_of_next? hsome']
    rw [State.next?] at hsome
    rw [State.next?, ← hs.dot] at hsome'
    exact rel_map (fun _ _ hr => twin_begin i hr) (hP.predicts hs.rule hsome hsome')

theorem Column.Twin.close (hP : P.Fits g h) {earlier' : Array Column}
    (he : Twins P earlier earlier') (i : Nat) : ∀ (fuel n : Nat) {c c' : Column}, c.Twin P c' →
    (close (entries g) earlier i fuel n c).Twin P (close (entries h) earlier' i fuel n c')
  | 0, _, _, _, hc => hc
  | fuel + 1, n, c, c', hc => by
    have hstate := rel_getElem? hc n
    rw [Array.getElem?_toList, Array.getElem?_toList] at hstate
    unfold Chart.close
    generalize c.states[n]? = o, c'.states[n]? = o' at hstate
    cases hstate with
    | none => exact hc
    | some hs =>
      exact Column.Twin.close hP he i fuel (n + 1) (hc.insertAll hP (twin_followers hP he i hs))

theorem rel_scanState? (hP : P.Fits g h) (i : Nat) (ht : P.token t t')
    (hs : s.Twin P s') : Option.Rel (State.Twin P) (scanState? (entries g) i t s)
      (scanState? (entries h) i t' s') := by
  rcases hs.next? hP with ⟨hnone, hnone'⟩ | ⟨a, a', hsome, hsome'⟩
  · rw [scanState?, scanState?, hnone, hnone']
    exact .none
  · rw [scanState?, scanState?, hsome, hsome']
    rw [State.next?] at hsome
    rw [State.next?, ← hs.dot] at hsome'
    have hrule := hP.reads hs.rule hsome hsome' ht
    simp only [bind, Option.bind_some]
    generalize scanRule? (entries g) a t = r, scanRule? (entries h) a' t' = r' at hrule
    cases hrule with
    | none => exact .none
    | some hr => exact .some (twin_scanned i hr ht)

theorem Column.Twin.scan (hP : P.Fits g h) (i : Nat) (ht : P.token t t')
    (hc : c.Twin P c') : (scan (entries g) i t c).Twin P (scan (entries h) i t' c') :=
  twin_empty.insertAll hP (rel_filterMap (fun _ _ hs => rel_scanState? hP i ht hs) hc)

/-! ## Charts -/

theorem Twins.push {cols cols' : Array Column} (hcols : Twins P cols cols') (hc : c.Twin P c') :
    Twins P (cols.push c) (cols'.push c') := by
  simpa [Twins] using rel_append hcols (.cons hc .nil)

theorem twins_fill (hP : P.Fits g h) {ts ts' : List Token} (hts : Forall₂ P.token ts ts') :
    ∀ {i : Nat} {earlier earlier' : Array Column} {seeds seeds' : Column},
      Twins P earlier earlier' → seeds.Twin P seeds' →
      Twins P (fill g (entries g) i earlier seeds ts) (fill h (entries h) i earlier' seeds' ts') := by
  induction hts with
  | nil =>
    intro i earlier earlier' seeds seeds' he hseeds
    rw [fill, fill, hP.capacity]
    exact he.push (hseeds.close hP he i _ 0)
  | cons ht _ ih =>
    intro i earlier earlier' seeds seeds' he hseeds
    have hc := hseeds.close hP he i (Chart.capacity h i) 0
    rw [fill, fill, hP.capacity]
    exact ih (he.push hc) (hc.scan hP i ht)

/-- **The charts of corresponding tokens have twins at the same places.** -/
theorem twin_sets (hP : P.Fits g h) {ts ts' : List Token} (hts : Forall₂ P.token ts ts') :
    Forall₂ (Forall₂ (State.Twin P)) (ofTokens g ts).sets (ofTokens h ts').sets := by
  have hseed : (seed g).Twin P (seed h) := twin_empty.insert hP (twin_begin 0 hP.top)
  have hcolumns : Twins P (columns g ts) (columns h ts') := twins_fill hP hts .nil hseed
  exact forall₂_map_left_iff.2 (forall₂_map_right_iff.2 hcolumns)

section
variable {ts ts' : List Token}

theorem length_sets_eq (hP : P.Fits g h) (hts : Forall₂ P.token ts ts') :
    (ofTokens g ts).sets.length = (ofTokens h ts').sets.length :=
  (twin_sets hP hts).length_eq

theorem size_eq (hP : P.Fits g h) (hts : Forall₂ P.token ts ts') :
    (ofTokens g ts).size = (ofTokens h ts').size :=
  congrArg total (map_eq_map (twin_sets hP hts) fun _ _ hset => hset.length_eq)

theorem findIdx?_sets_eq (hP : P.Fits g h) (hts : Forall₂ P.token ts ts') :
    (ofTokens g ts).sets.findIdx? isEmpty = (ofTokens h ts').sets.findIdx? isEmpty := by
  have hempty : (ofTokens g ts).sets.map isEmpty = (ofTokens h ts').sets.map isEmpty :=
    map_eq_map (twin_sets hP hts) fun _ _ hset => by cases hset <;> rfl
  have hidx := congrArg (findIdx? id) hempty
  rwa [findIdx?_map, findIdx?_map] at hidx

theorem State.Twin.accepting (hP : P.Fits g h) (hs : s.Twin P s') (n : Nat) :
    accepting n s = accepting n s' := by
  have hnumber : s.rule.number = 0 ↔ s'.rule.number = 0 := hP.number hs.rule hP.top
  have hzero : (s.rule.number == 0) = (s'.rule.number == 0) := by
    rw [Bool.eq_iff_iff, beq_iff_eq, beq_iff_eq, hnumber]
  rw [Chart.accepting, Chart.accepting, State.isComplete, State.isComplete, hzero, hP.length hs.rule,
    hs.dot, hs.origin, hs.index]

theorem rel_accepted? (hP : P.Fits g h) (hts : Forall₂ P.token ts ts') :
    Option.Rel (State.Twin P) (ofTokens g ts).accepted? (ofTokens h ts').accepted? := by
  have hlast : Forall₂ (State.Twin P) ((ofTokens g ts).sets.getLast?.getD [])
      ((ofTokens h ts').sets.getLast?.getD []) := by
    match (ofTokens g ts).sets.getLast?, (ofTokens h ts').sets.getLast?,
        rel_getLast? (twin_sets hP hts) with
    | none, none, .none => exact .nil
    | some _, some _, .some hset => exact hset
  refine rel_find? hlast fun s s' hs => ?_
  rw [hs.accepting hP]
  exact congrArg (accepting · s') hts.length_eq

theorem isSome_accepted? (hP : P.Fits g h) (hts : Forall₂ P.token ts ts') :
    (ofTokens g ts).accepted?.isSome = (ofTokens h ts').accepted?.isSome := by
  match (ofTokens g ts).accepted?, (ofTokens h ts').accepted?, rel_accepted? hP hts with
  | none, none, .none => rfl
  | some _, some _, .some _ => rfl

theorem rel_tree? (hP : P.Fits g h) (hts : Forall₂ P.token ts ts') :
    Option.Rel P.tree (ofTokens g ts).tree? (ofTokens h ts').tree? := by
  rw [tree?, tree?]
  match (ofTokens g ts).accepted?, (ofTokens h ts').accepted?, rel_accepted? hP hts with
  | none, none, .none => exact .none
  | some s, some s', .some hs =>
    change Option.Rel P.tree s.children.head? s'.children.head?
    rw [head?_eq_getElem?, head?_eq_getElem?]
    exact rel_getElem? hs.children 0

end

end JavaToCpp.Chart
