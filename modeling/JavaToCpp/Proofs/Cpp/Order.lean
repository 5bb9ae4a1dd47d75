/-
  Calls and the order of functions.

  The functions of a program are written in the order of the source and its entry point behind them,
  whatever they call.
-/
import JavaToCpp.Proofs.Cpp.Printing

open List

namespace JavaToCpp.Java

open JavaToCpp.Cpp (typeName entryHeader)
open JavaToCpp.Program (functionIn)

/-! ## Sections -/

/-- The routine that a member declares. -/
def routineIn : Decl .member → Routine
  | .ofFunction (.function _ _ returns name _ params _ body) =>
    ⟨typeName returns.text ++ " " ++ name.text ++ "(" ++ Text.join ", " params.paramTexts ++ ")",
      body⟩
  | .ofFunction (.functionEmpty _ _ returns name _ _ body) =>
    ⟨typeName returns.text ++ " " ++ name.text ++ "(" ++ ")", body⟩
  | .ofMain (.main _ _ _ _ _ _ _ body) => ⟨entryHeader, body⟩

/-- The routine is the text of the function: its name stands in front of the parameters, unless it
    is the entry point, and they have one body. -/
structure Routine.Defines (r : Routine) (f : Program.Function) : Prop where
  header : if f.entry then r.header = entryHeader
    else ∃ returns params, r.header = typeName returns ++ " " ++ f.name ++ "(" ++ params ++ ")"
  body : r.body.tree = f.body

theorem defines_routineIn : ∀ m : Decl .member, (routineIn m).Defines (functionIn m)
  | .ofFunction (.function _ _ returns name _ params _ body) => ⟨⟨returns.text, _, rfl⟩, rfl⟩
  | .ofFunction (.functionEmpty _ _ returns name _ _ body) =>
    ⟨⟨returns.text, [], by simp [routineIn, functionIn]⟩, rfl⟩
  | .ofMain (.main _ _ _ _ _ _ _ body) => ⟨rfl, rfl⟩

theorem functions_member (m : Decl .member) :
    m.functions = if (functionIn m).entry then [] else [routineIn m] := by
  match m with
  | .ofFunction (.function ..) | .ofFunction (.functionEmpty ..) | .ofMain (.main ..) => rfl

theorem entries_member (m : Decl .member) :
    m.entries = if (functionIn m).entry then [routineIn m] else [] := by
  match m with
  | .ofFunction (.function ..) | .ofFunction (.functionEmpty ..) | .ofMain (.main ..) => rfl

theorem functions_classBody : ∀ body : Decl .classBody,
    body.functions = (body.members.filter fun m => !(functionIn m).entry).map routineIn
  | .lastMember m => by
    rw [Decl.functions, functions_member, Decl.members]
    by_cases h : (functionIn m).entry <;> simp [h]
  | .moreMembers m rest => by
    rw [Decl.functions, functions_member, functions_classBody rest, Decl.members]
    by_cases h : (functionIn m).entry <;> simp [h]

theorem entries_classBody : ∀ body : Decl .classBody,
    body.entries = (body.members.filter fun m => (functionIn m).entry).map routineIn
  | .lastMember m => by
    rw [Decl.entries, entries_member, Decl.members]
    by_cases h : (functionIn m).entry <;> simp [h]
  | .moreMembers m rest => by
    rw [Decl.entries, entries_member, entries_classBody rest, Decl.members]
    by_cases h : (functionIn m).entry <;> simp [h]

end JavaToCpp.Java

namespace JavaToCpp.Cpp

open Program Java Typing

variable {all : List Function} {a b : Nat} {f g : Function}

/-- Where the function with the index `a` in the source is written: behind the functions that come
    before it, and behind all functions if it is the entry point. -/
def sectionIndex (all : List Function) (a : Nat) : Nat :=
  if (all[a]?).any Function.entry then (callables all).length else (callables (all.take a)).length

theorem sectionIndex_entry (ha : all[a]? = some f) (hf : f.entry) :
    sectionIndex all a = (callables all).length := by
  simp [sectionIndex, ha, hf]

theorem sectionIndex_function (ha : all[a]? = some f) (hf : f.entry = false) :
    sectionIndex all a = (callables (all.take a)).length := by
  simp [sectionIndex, ha, hf]

theorem getElem?_filter {α : Type} {q : α → Bool} : ∀ {l : List α} {a : Nat} {x : α},
    l[a]? = some x → q x → (l.filter q)[((l.take a).filter q).length]? = some x
  | y :: l, 0, x, h, hx => by
    cases h
    simp [hx]
  | y :: l, a + 1, x, h, hx => by
    have ih := getElem?_filter (l := l) (a := a) h hx
    by_cases hy : q y <;> simpa [hy] using ih

theorem length_callables_take (ha : all[a]? = some f) (hf : f.entry = false) :
    (callables (all.take (a + 1))).length = (callables (all.take a)).length + 1 := by
  rw [take_add_one, ha]
  simp [callables, hf]

theorem length_callables_mono {l : List Function} (h : l.Sublist all) :
    (callables l).length ≤ (callables all).length :=
  (h.filter _).length_le

theorem sectionIndex_le_iff (ha : all[a]? = some f) (hb : all[b]? = some g) (hg : g.entry = false) :
    sectionIndex all b ≤ sectionIndex all a ↔ f.entry ∨ b ≤ a := by
  rw [sectionIndex_function hb hg]
  cases hf : f.entry with
  | true =>
    rw [sectionIndex_entry ha hf]
    simp [length_callables_mono (take_sublist b all)]
  | false =>
    rw [sectionIndex_function ha hf]
    simp only [Bool.false_eq_true, false_or]
    constructor
    · intro h
      by_contra hab
      have hmono := length_callables_mono
        (take_sublist_take_left (Nat.lt_of_not_le hab) (l := all))
      rw [Nat.succ_eq_add_one, length_callables_take ha hf] at hmono
      omega
    · intro h
      exact length_callables_mono (take_sublist_take_left h)

theorem exists_routine {pub : Word .public_} {cl : Word .class_} {name : Word .name}
    {lb : Word .lbracketCurly} {body : Decl .classBody} {rb : Word .rbracketCurly}
    (hentries : body.entries.length ≤ 1) (ha : (body.members.map functionIn)[a]? = some f) :
    ∃ r, (Decl.program pub cl name lb body rb).routines[
      sectionIndex (body.members.map functionIn) a]? = some r ∧ r.Defines f := by
  have hmap := ha
  rw [getElem?_map] at hmap
  obtain ⟨m, hm, rfl⟩ := Option.map_eq_some_iff.1 hmap
  refine ⟨routineIn m, ?_, defines_routineIn m⟩
  have hlength : body.functions.length = (callables (body.members.map functionIn)).length := by
    rw [functions_classBody, callables, filter_map, length_map, length_map]
    rfl
  rw [Decl.routines, Decl.functions, Decl.entries]
  cases hf : (functionIn m).entry with
  | true =>
    rw [sectionIndex_entry ha hf, ← hlength, getElem?_append_right (Nat.le_refl _),
      Nat.sub_self]
    have hmem : routineIn m ∈ body.entries := by
      rw [entries_classBody]
      exact mem_map_of_mem (mem_filter.2 ⟨mem_of_getElem? hm, hf⟩)
    obtain ⟨r, hbody⟩ : ∃ r, body.entries = [r] :=
      length_eq_one_iff.1 (Nat.le_antisymm hentries (length_pos_of_mem hmem))
    rw [hbody] at hmem ⊢
    rw [mem_singleton.1 hmem]
    rfl
  | false =>
    rw [sectionIndex_function ha hf, functions_classBody, entries_classBody]
    have hget := getElem?_filter (q := fun m => !(functionIn m).entry) hm (by simp [hf])
    have hindex : (callables ((body.members.map functionIn).take a)).length =
        ((body.members.take a).filter fun m => !(functionIn m).entry).length := by
      rw [← map_take, callables, filter_map, length_map]
      rfl
    rw [hindex, getElem?_append_left, getElem?_map, hget]
    · rfl
    · rw [length_map]
      exact (List.getElem?_eq_some_iff.1 hget).1

/-! ## Calls -/

/-- The function with the index `b` can be called by the name with arguments of the types. -/
def Takes (all : List Function) (name : Text) (args : List ValueType) (b : Nat) : Prop :=
  ∃ g, all[b]? = some g ∧ g.entry = false ∧ callable name args g

/-- The call is a call of the function with the index `b`: that one takes the arguments, and no
    other one does. -/
inductive ResolvesTo (all : List Function) (Γ : Text → ValueType → Prop) :
    Phrase .funcCall → Nat → Prop
  | call {f lp args rp τs b} : HaveTypes (callables all) Γ args τs →
      (∀ b', Takes all f.text τs b' ↔ b' = b) → ResolvesTo all Γ (.call f lp args rp) b
  | callEmpty {f lp rp b} : (∀ b', Takes all f.text [] b' ↔ b' = b) →
      ResolvesTo all Γ (.callEmpty f lp rp) b

theorem exists_index {α : Type} {q : α → Bool} : ∀ {l : List α} {x : α}, l.filter q = [x] →
    ∃ b : Nat, l[b]? = some x ∧ ∀ b' : Nat, (∃ y, l[b']? = some y ∧ q y) ↔ b' = b
  | y :: l, x, h => by
    by_cases hy : q y
    · rw [filter_cons_of_pos hy] at h
      obtain ⟨rfl, hnil⟩ := List.cons.inj h
      refine ⟨0, rfl, fun b' => ⟨?_, ?_⟩⟩
      · rintro ⟨z, hz, hqz⟩
        cases b' with
        | zero => rfl
        | succ b' => exact absurd hqz (filter_eq_nil_iff.1 hnil z (mem_of_getElem? hz))
      · rintro rfl
        exact ⟨y, rfl, hy⟩
    · rw [filter_cons_of_neg hy] at h
      obtain ⟨b, hb, hiff⟩ := exists_index h
      refine ⟨b + 1, hb, fun b' => ?_⟩
      cases b' with
      | zero => simp [hy]
      | succ b' => simpa using hiff b'

theorem exists_takes {name : Text} {τs : List ValueType}
    (h : (callables all).filter (callable name τs) = [g]) :
    ∃ b, all[b]? = some g ∧ g.entry = false ∧ ∀ b', Takes all name τs b' ↔ b' = b := by
  rw [callables, filter_filter] at h
  obtain ⟨b, hb, hiff⟩ := exists_index h
  have hg : g ∈ all.filter fun f => callable name τs f && !f.entry := by simp [h]
  refine ⟨b, hb, by simpa using (Bool.and_eq_true_iff.1 (mem_filter.1 hg).2).2, fun b' => ?_⟩
  rw [← hiff]
  simp [Takes, and_comm]

variable {w : Word .name} {ts : List Tree}

theorem eq_call {c : Phrase .funcCall} (h : c.tree = Nonterminal.funcCall.node (w.tree :: ts)) :
    (∃ f lp args rp, c = .call f lp args rp) ∨ ∃ f lp rp, c = .callEmpty f lp rp := by
  have hchildren := congrArg Tree.children h
  have hne {s : Nonterminal} (hs : s ≠ .name) (f : Word s) : f.tree ≠ w.tree := by
    intro hf
    have hlabel : f.tree.label = .ok Nonterminal.name.label := by rw [hf]; rfl
    exact hs (Nonterminal.label_inj.1 (Except.ok.inj hlabel))
  match c with
  | .call f lp args rp => exact .inl ⟨f, lp, args, rp, rfl⟩
  | .callEmpty f lp rp => exact .inr ⟨f, lp, rp, rfl⟩
  | .print f _ _ _ | .max f _ _ _ | .min f _ _ _ =>
    exact absurd (List.cons.inj hchildren).1 (hne (by decide) f)

theorem exists_resolvesTo {ρ : ValueType} {Γ : List Nat → Env}
    (h : Lawful (callables all) ρ Γ (Nonterminal.funcCall.node (w.tree :: ts))) :
    ∃ c : Phrase .funcCall, c.tree = Nonterminal.funcCall.node (w.tree :: ts) ∧
      ∃ b g, ResolvesTo all (In (Γ [])) c b ∧ all[b]? = some g ∧ g.entry = false := by
  obtain ⟨c, hc, τ, hτ⟩ := h.hasType (by decide)
  refine ⟨c, hc, ?_⟩
  rcases eq_call hc with ⟨f, lp, args, rp, rfl⟩ | ⟨f, lp, rp, rfl⟩
  · obtain ⟨τs, g, hargs, hg, -⟩ := hasType_call.1 hτ
    obtain ⟨b, hb, hentry, htakes⟩ := exists_takes hg
    exact ⟨b, g, .call hargs htakes, hb, hentry⟩
  · obtain ⟨g, hg, -⟩ := hasType_callEmpty.1 hτ
    obtain ⟨b, hb, hentry, htakes⟩ := exists_takes hg
    exact ⟨b, g, .callEmpty htakes, hb, hentry⟩

theorem params_eq_nil : ∀ m : Decl .member, (functionIn m).entry → (functionIn m).params = []
  | .ofMain (.main ..), _ => rfl
  | .ofFunction (.function ..), h | .ofFunction (.functionEmpty ..), h => by cases h

/-- What is in scope at a place of the body of a function. -/
def scopeAt (f : Function) (v : List Nat) : Env :=
  (f.params.map fun p => (p.name, p.type)) ++ envAt f.body v

/-- **When a function is written before it is called.**  The text of a program that passes is a
    section for each function in the order of the source, and the section of the entry point behind
    them.  Every call is the call of one function, and that one is written in the same section or
    before it if and only if the call is in the entry point or the function does not come behind the
    caller in the source. -/
theorem written_before_iff {root : Tree} (hparse : grammar.Parses Label.program root)
    (hcheck : check root = .ok ()) :
    ∃ (p : Decl .program) (all : List Function), p.tree = root ∧ functionsOf root = .ok all ∧
      generate root = .ok (p.includes ++ "\n" ++ Text.join "\n" (p.routines.map Routine.text)) ∧
      ∀ a f, all[a]? = some f →
        (∃ r, p.routines[sectionIndex all a]? = some r ∧ r.Defines f) ∧
        ∀ v (w : Word .name) ts, f.body.get? v = some (Nonterminal.funcCall.node (w.tree :: ts)) →
          ∃ c : Phrase .funcCall, c.tree = Nonterminal.funcCall.node (w.tree :: ts) ∧
            ∃ b, ResolvesTo all (In (scopeAt f v)) c b ∧
              (sectionIndex all b ≤ sectionIndex all a ↔ f.entry ∨ b ≤ a) := by
  obtain ⟨p, rfl⟩ := exists_decl (s := .program) hparse rfl
  have hentries := length_entries_le p hcheck
  obtain ⟨all, hall, hheaders, hfunctions⟩ := check_ok hcheck
  refine ⟨p, all, rfl, hall, generate_tree p hentries, fun a f ha => ?_⟩
  match p with
  | .program pub cl name lb body rb =>
    rw [functionsOf_program] at hall
    cases hall
    obtain ⟨r, hr, hdefines⟩ := exists_routine hentries ha
    refine ⟨⟨r, hr, hdefines⟩, fun v w ts hv => ?_⟩
    have hmem := mem_of_getElem? ha
    have hfree : ∀ f ∈ callables (body.members.map functionIn), isReserved f.name = false := by
      intro f hf
      obtain ⟨hf, hentry⟩ := mem_filter.1 hf
      exact (checkHeaders_ok hheaders f hf (by simpa using hentry)).1
    have hparams : ∀ p ∈ f.params, isReserved p.name = false := by
      cases hentry : f.entry with
      | true =>
        obtain ⟨m, -, rfl⟩ := mem_map.1 hmem
        simp [params_eq_nil m hentry]
      | false => exact (checkHeaders_ok hheaders f hmem hentry).2
    obtain ⟨-, hbody⟩ := everywhere_body hfree f r.body hdefines.body.symm hparams
      (hfunctions f hmem)
    rw [hdefines.body] at hbody
    obtain ⟨c, hc, b, g, hresolves, hb, hg⟩ := exists_resolvesTo (hbody v _ hv).2
    rw [append_nil] at hresolves
    exact ⟨c, hc, b, hresolves, sectionIndex_le_iff ha hb hg⟩

theorem written_before_printTwice :
    grammar.Parses Label.program printTwice.tree ∧ check printTwice.tree = .ok () ∧
    ∃ all f, functionsOf printTwice.tree = .ok all ∧ all[1]? = some f ∧ f.entry ∧
      ∃ v c b, f.body.get? v = some (Phrase.tree c) ∧ ResolvesTo all (In (scopeAt f v)) c b ∧
        sectionIndex all b ≤ sectionIndex all 1 := by
  have hcheck : check printTwice.tree = .ok () := by decide +kernel
  obtain ⟨p, all, -, hall, -, hcalls⟩ := written_before_iff printTwice.parses hcheck
  rw [printTwice, functionsOf_program] at hall
  cases hall
  obtain ⟨-, hcalls⟩ := hcalls 1 _ rfl
  obtain ⟨c, hc, b, hresolves, hiff⟩ := hcalls [1, 0, 0, 8, 1, 0, 0, 2, 0, 0, 0, 0, 0, 0, 0]
    (.ofText "twice") _ rfl
  refine ⟨printTwice.parses, hcheck, _, _, functionsOf_program .., rfl, rfl, _, c, b, ?_, hresolves,
    hiff.2 (.inl rfl)⟩
  rw [hc]
  rfl

/-- Whether every function is written before it is called. -/
def CalleesFirst (all : List Function) : Prop :=
  ∀ a f v c b, all[a]? = some f → f.body.get? v = some (Phrase.tree c) →
    ResolvesTo all (In (scopeAt f v)) c b → sectionIndex all b ≤ sectionIndex all a

def returning (name : Text) (o : Phrase .operand) : Decl .member :=
  .ofFunction (.functionEmpty (.ofText "public") (.ofText "static") (.ofText "int") (.ofText name)
    (.ofText "(") (.ofText ")")
    (.braced (.last (.ofReturn (.ofTerm (.term o))))))

def second : Decl .member := returning "second" (.number (.ofText "1"))

/-- The function `int first() { return second(); }`, then `second` and an entry point that runs
    `System.out.println(first());`. -/
def forwardMembers : Decl .classBody :=
  .moreMembers
    (returning "first" (.value (.callEmpty (.ofText "second") (.ofText "(") (.ofText ")"))))
    (.moreMembers second
      (.entry (.braced (.last (.ofPrint (.ofTerm (.term (.value
        (.callEmpty (.ofText "first") (.ofText "(") (.ofText ")"))))))))))

def forwardCall : Decl .program := .ofMembers forwardMembers

/-- A program that passes is written with a call of a function that is written behind it. -/
theorem forwardCall_written_behind :
    grammar.Parses Label.program forwardCall.tree ∧ check forwardCall.tree = .ok () ∧
    generate forwardCall.tree = .ok (Text.ofString
      "#include <iostream>\n\nint first()\n\x7b\n    return second();\n\x7d\n\nint second()\n\x7b\n    return 1;\n\x7d\n\nvoid main(int argc, char *argv[])\n\x7b\n    std::cout << first() << \"\\n\";\n\x7d\n") ∧
    ∃ all, functionsOf forwardCall.tree = .ok all ∧ ¬ CalleesFirst all := by
  refine ⟨forwardCall.parses, by decide +kernel, by decide +kernel, _, functionsOf_program .., ?_⟩
  intro h
  have hfilter : (callables (forwardMembers.members.map functionIn)).filter (callable "second" []) =
      [functionIn second] := rfl
  obtain ⟨b, -, -, htakes⟩ := exists_takes hfilter
  obtain rfl : 1 = b := (htakes 1).1 ⟨_, rfl, rfl, by decide +kernel⟩
  exact absurd (h 0 _ [1, 0, 0, 1, 0, 0, 0, 0, 0, 0] _ 1 rfl rfl (.callEmpty htakes))
    (by decide +kernel)

end JavaToCpp.Cpp
