/-
  The layout of a source does not matter.

  Tokens have places, which only tell people where an error is.  Two lists of tokens with the same
  words are accepted or rejected alike, have the same tree up to the places, the same verdict up to
  the line of the violation, and the same C++ text.
-/
import JavaToCpp.Pipeline.Basic
import JavaToCpp.Proofs.Chart.Renumber
import JavaToCpp.Proofs.Java.Concrete
import JavaToCpp.Proofs.Typing.Plain

namespace JavaToCpp

open List

/-- Tokens that differ at most in their places. -/
def Token.Alike (k k' : Token) : Prop := k.category = k'.category ∧ k.text = k'.text

/-! ## Recognition -/

namespace Chart

/-- Tokens and trees correspond if they differ at most in places. -/
def layouts : Pairing where
  rule := Eq
  token := Token.Alike
  tree t t' := t.plain = t'.plain

theorem layouts_fits (g : Grammar) : layouts.Fits g g where
  top := rfl
  capacity _ := rfl
  length hr := congrArg (fun r => r.rhs.length) hr
  number := by
    rintro r _ q _ rfl rfl
    rfl
  waits := by
    rintro r _ q _ n rfl rfl
    rfl
  predicts := by
    rintro r _ n a a' rfl ha ha'
    cases ha.symm.trans ha'
    exact forall₂_same.2 fun _ _ => rfl
  reads := by
    rintro r _ n a a' t t' rfl ha ha' ht
    cases ha.symm.trans ha'
    rw [scanRule?_entries, scanRule?_entries, ht.1]
    cases (if g.isTag a then tagRule? (g.rulesOf a) t'.category else none) with
    | none => exact .none
    | some r => exact .some rfl
  branch := by
    rintro r _ cs cs' rfl hcs
    change (Tree.branch r.lhs cs).plain = (Tree.branch r.lhs cs').plain
    rw [Tree.plain_branch, Tree.plain_branch, map_eq_map hcs fun _ _ h => h]
  leaf ht := by
    change (Tree.leaf _).plain = (Tree.leaf _).plain
    rw [Tree.plain_leaf, Tree.plain_leaf, Token.plain_eq_plain.2 ht]

/-- The rejections are of one kind and name tokens at one place. -/
inductive SameRejection (c c' : Chart) : Rejection → Rejection → Prop
  | noTokens : SameRejection c c' .noTokens .noTokens
  /-- the first set without states comes after these tokens -/
  | unexpected {n : Nat} {k k' : Token} (hn : c.sets.findIdx? isEmpty = some n)
      (hn' : c'.sets.findIdx? isEmpty = some n) (hk : c.tokens[n - 1]? = some k)
      (hk' : c'.tokens[n - 1]? = some k') : SameRejection c c' (.unexpected k) (.unexpected k')
  | endOfInput {k k' : Token} (hk : c.tokens.getLast? = some k) (hk' : c'.tokens.getLast? = some k') :
      SameRejection c c' (.endOfInput k) (.endOfInput k')

variable {g : Grammar} {ts ts' : List Token}

theorem exists_before_empty {n : Nat} (hts : ts ≠ [])
    (hn : (ofTokens g ts).sets.findIdx? isEmpty = some n) : ∃ k, ts[n - 1]? = some k := by
  have hlt : n < ts.length + 1 := by
    rw [← length_sets g ts]
    exact (findIdx?_eq_some_iff_getElem.1 hn).1
  have hpos := length_pos_iff.2 hts
  have hbefore : n - 1 < ts.length := by omega
  exact ⟨_, getElem?_eq_getElem hbefore⟩

theorem rel_rejection? (hts : Forall₂ Token.Alike ts ts') :
    Option.Rel (SameRejection (ofTokens g ts) (ofTokens g ts')) (ofTokens g ts).rejection?
      (ofTokens g ts').rejection? := by
  have hempty := findIdx?_sets_eq (layouts_fits g) hts
  have hlast : Option.Rel Token.Alike (ofTokens g ts).tokens.getLast? (ofTokens g ts').tokens.getLast? :=
    rel_getLast? hts
  rw [rejection?, rejection?, isSome_accepted? (layouts_fits g) hts]
  generalize hl : (ofTokens g ts).tokens.getLast? = o, hl' : (ofTokens g ts').tokens.getLast? = o'
    at hlast
  cases hlast with
  | none =>
    cases (ofTokens g ts').accepted?.isSome with
    | true => exact .none
    | false => exact .some .noTokens
  | some =>
    cases hn : (ofTokens g ts).sets.findIdx? isEmpty with
    | some n =>
      have hn' := hempty.symm.trans hn
      obtain ⟨k, hk⟩ := exists_before_empty (ne_nil_of_mem (mem_of_getLast? hl)) hn
      obtain ⟨k', hk'⟩ := exists_before_empty (ne_nil_of_mem (mem_of_getLast? hl')) hn'
      have htoken : (ofTokens g ts).tokens[n - 1]? = some k := hk
      have htoken' : (ofTokens g ts').tokens[n - 1]? = some k' := hk'
      simp only [hn', htoken, htoken', Option.getD_some]
      exact .some (.unexpected hn hn' htoken htoken')
    | none =>
      have hn' := hempty.symm.trans hn
      simp only [hn']
      cases (ofTokens g ts').accepted?.isSome with
      | true => exact .none
      | false => exact .some (.endOfInput hl hl')

theorem SameRejection.message {r r' : Rejection} (hts : Forall₂ Token.Alike ts ts')
    (h : SameRejection (ofTokens g ts) (ofTokens g ts') r r') : r.message = r'.message := by
  cases h with
  | noTokens => rfl
  | endOfInput _ _ => rfl
  | @unexpected n k k' hn hn' hk hk' =>
    have hrel : Option.Rel Token.Alike (some k) (some k') := hk ▸ hk' ▸ rel_getElem? hts (n - 1)
    cases hrel with
    | some halike => rw [Rejection.message, Rejection.message, halike.1, halike.2]

end Chart

/-! ## Generation -/

namespace Cpp

open Java Label JavaToCpp.Tree

theorem section_plain (header : Text) (body : List Token) :
    section_ header (body.map Token.plain) = section_ header body := by
  rw [section_, section_, foldl_map]
  rfl

theorem paramText_plain (p : Tree) : paramText p.plain = paramText p := by
  rw [paramText, paramText, find_plain, find_plain]
  cases p.find type with
  | error e => rfl
  | ok type =>
    cases p.find id with
    | error e => rfl
    | ok id => simp only [Except.map, bind, Except.bind, text_plain]

theorem mapM_plain {α : Type} {f : Tree → Except Missing α} (h : ∀ t, f t.plain = f t)
    (ts : List Tree) : (ts.map Tree.plain).mapM f = ts.mapM f := by
  have hcomp : f ∘ Tree.plain = f := funext h
  rw [mapM_map, hcomp]

theorem headerOf_plain (f : Tree) : headerOf f.plain = headerOf f := by
  rw [headerOf, headerOf]
  simp only [find_plain]
  cases f.find funcReturnType with
  | error e => rfl
  | ok returns =>
    cases f.find name with
    | error e => rfl
    | ok name =>
      cases f.find funcParams with
      | error e => rfl
      | ok list =>
        simp only [Except.map, bind, Except.bind, flatten_plain, text_plain]
        cases list.flatten param with
        | error e => rfl
        | ok ps => simp only [mapM_plain paramText_plain]

theorem partOf_plain (m : Tree) : partOf m.plain = partOf m := by
  rw [partOf, partOf]
  simp only [child_plain, label_plain, find_plain, headerOf_plain]
  cases (m.child 0).label with
  | error e => rfl
  | ok l =>
    cases (m.child 0).find codeBlock with
    | error e => rfl
    | ok body =>
      simp only [Except.map, bind, Except.bind, tokens_plain, section_plain]

theorem usesAlgorithm_plain (t : Tree) : usesAlgorithm t.plain = usesAlgorithm t := by
  rw [usesAlgorithm, usesAlgorithm, tokens_plain, any_map]
  rfl

theorem generate_plain (t : Tree) : generate t.plain = generate t := by
  have hparts : (t.plain.find classBody >>= fun body =>
        body.flatten member >>= mapM partOf) =
      t.find classBody >>= fun body => body.flatten member >>= mapM partOf := by
    rw [← bind_assoc, ← bind_assoc, find_flatten_plain]
    cases t.find classBody >>= flatten member with
    | error e => rfl
    | ok ms => exact mapM_plain partOf_plain ms
  rw [generate, generate, hasLabel_plain, usesAlgorithm_plain, hparts]

end Cpp

/-! ## All stages -/

namespace Pipeline

open Chart (ofTokens SameRejection)

/-- **The layout does not matter.**  Two lists of tokens that agree on categories and texts are both
    rejected, with the same message at the same place, or both accepted.  Then their trees differ at
    most in places, the check has the same verdict up to the line of a violation, and the C++ text is
    the same. -/
theorem layout_independent (g : Grammar) {ts ts' : List Token} (h : Forall₂ Token.Alike ts ts') :
    (∃ r r', treeOf (ofTokens g ts) = .error (.rejected r) ∧
      treeOf (ofTokens g ts') = .error (.rejected r') ∧
      SameRejection (ofTokens g ts) (ofTokens g ts') r r' ∧ r.message = r'.message) ∨
    ∃ t t', treeOf (ofTokens g ts) = .ok t ∧ treeOf (ofTokens g ts') = .ok t' ∧
      t.plain = t'.plain ∧
      (Typing.check t).mapError Typing.Failure.plain = (Typing.check t').mapError Typing.Failure.plain ∧
      Cpp.generate t = Cpp.generate t' := by
  have hrejection := Chart.rel_rejection? (g := g) h
  have htree := Chart.rel_tree? (Chart.layouts_fits g) h
  rw [treeOf, treeOf]
  generalize (ofTokens g ts).rejection? = o, (ofTokens g ts').rejection? = o' at hrejection
  cases hrejection with
  | @some r r' hr => exact .inl ⟨r, r', rfl, rfl, hr, hr.message h⟩
  | none =>
    have hplain : ((ofTokens g ts).tree?.getD .hole).plain =
        ((ofTokens g ts').tree?.getD .hole).plain := by
      generalize (ofTokens g ts).tree? = u, (ofTokens g ts').tree? = u' at htree
      cases htree with
      | none => rfl
      | some ht => exact ht
    refine .inr ⟨_, _, rfl, rfl, hplain, ?_, ?_⟩
    · rw [← Typing.blind_id, ← Typing.blind_id, ← Typing.check_plain, hplain, Typing.check_plain]
    · rw [← Cpp.generate_plain, hplain, Cpp.generate_plain]

def spread (ts : List Token) : List Token := ts.mapIdx fun i k => { k with pos := i + 1, line := i + 1 }

theorem alike_spread (ts : List Token) : Forall₂ Token.Alike ts (spread ts) := by
  refine forall₂_iff_get.2 ⟨length_mapIdx.symm, fun i hi hi' => ?_⟩
  simp [spread, Token.Alike]

theorem layout_independent_printTwice :
    (Java.printTwice.tree.tokens ≠ spread Java.printTwice.tree.tokens) ∧
    ∃ t', treeOf (ofTokens Java.grammar (spread Java.printTwice.tree.tokens)) = .ok t' ∧
      Java.printTwice.tree.plain = t'.plain ∧ Typing.check t' = .ok () ∧
      Cpp.generate Java.printTwice.tree = Cpp.generate t' := by
  have hparses : Java.grammar.Parses Java.grammar.start Java.printTwice.tree :=
    Java.grammar_start ▸ Java.printTwice.parses
  have htree : treeOf (ofTokens Java.grammar Java.printTwice.tree.tokens) = .ok Java.printTwice.tree := by
    rw [treeOf, Chart.accepted_of_derives Java.grammar_wellFormed hparses.derives,
      (Chart.tree?_eq_some Java.grammar_wellFormed Java.grammar_free Java.grammar_unambiguous).2
        ⟨hparses, rfl⟩]
    rfl
  have hcheck : Typing.check Java.printTwice.tree = .ok () := by decide +kernel
  refine ⟨by decide +kernel, ?_⟩
  rcases layout_independent Java.grammar (alike_spread Java.printTwice.tree.tokens) with
    ⟨r, r', hr, -⟩ | ⟨t, t', ht, ht', hplain, hverdict, hgenerate⟩
  · cases htree.symm.trans hr
  · cases htree.symm.trans ht
    rw [hcheck] at hverdict
    refine ⟨t', ht', hplain, ?_, hgenerate⟩
    cases hcheck' : Typing.check t' with
    | ok u => rfl
    | error e => simp [hcheck', Except.mapError] at hverdict

end Pipeline

end JavaToCpp
