/-
  Returns.

  In a program that passes, every path through the body of a function with a value returns a value,
  the other functions return without one, and nothing stands behind a statement that always returns.
-/
import JavaToCpp.Proofs.Typing.Flow

namespace JavaToCpp.Typing

open Program Java Scopes Nonterminal

variable {c : Context} {sc sc' : Scopes} {body : Stmt .codeBlock}

theorem Does.value {s : Nonterminal} {p : Phrase s} (h : Does c p sc sc') {value : Bool}
    (hp : p.exit = .returns value) : value = true ↔ c.current.returns ≠ .void := by
  cases h with
  | returnValue hreturns | returnNothing hreturns =>
    cases hp
    simpa using hreturns
  | @call p => cases p <;> cases hp
  | _ => cases hp

theorem Admits.value (h : Admits c body sc sc') (hne : sc ≠ []) {value : Bool}
    (hreturn : body.HasReturn value) : value = true ↔ c.current.returns ≠ .void := by
  obtain ⟨k, hk, p, e, hp, hpart⟩ := hreturn
  obtain ⟨sc₁, sc₂, -, hadmits⟩ := h.part hpart hne
  cases hadmits with
  | simple hdoes => exact hdoes.value hp

theorem Admits.falls {i : Stmt .instruction} {rest : Stmt .instructions}
    (h : Admits c (.more i rest) sc sc') (hne : sc ≠ []) : i.alwaysReturns = false := by
  cases h with
  | @more _ _ _ sc₁ _ _ hi hrest =>
    have hreturned : sc₁.returned = false := by
      cases hrest with
      | last hreturned | more hreturned => exact hreturned
    obtain ⟨f, sc, rfl⟩ := List.exists_cons_of_ne_nil hne
    rw [returned_eq, hi.flags] at hreturned
    have hflags : f.returned = false ∧ i.alwaysReturns = false := by
      simpa [mark, Scopes.flags] using hreturned
    exact hflags.2

theorem ne_nil_of_declareParams {ps : List Variable}
    (h : declareParams ps (Scopes.push []) = .ok sc) : sc ≠ [] := by
  rintro rfl
  cases flags_declareParams h

/-- **Returns.**  In every function of a program that passes:
    every path through its body ends with a return of a value, if it is to give one;
    every return in it carries a value exactly in that case;
    and no instruction stands behind one that always returns. -/
theorem returns_of_check {root : Tree} (hparse : grammar.Parses Label.program root)
    (hcheck : check root = .ok ()) : ∃ all, functionsOf root = .ok all ∧ ∀ f ∈ all,
      (∃ body : Stmt .codeBlock, body.tree = f.body) ∧
      ∀ body : Stmt .codeBlock, body.tree = f.body →
        (∀ once es e, Runs once body es e →
          (f.returns ≠ .void → e = .returns true) ∧ (f.returns = .void → e ≠ .returns true)) ∧
        (∀ value, body.HasReturn value → (value = true ↔ f.returns ≠ .void)) ∧
        ∀ i rest, Part (.more i rest) body → i.alwaysReturns = false := by
  obtain ⟨all, hall, hfunctions⟩ := functions_of_check hparse hcheck
  refine ⟨all, hall, fun f hf => ?_⟩
  obtain ⟨hf, hexists⟩ := hfunctions f hf
  refine ⟨hexists, fun body hbody => ?_⟩
  obtain ⟨sc, sc', hsc, hadmits, hreturns⟩ := admits_of_checkFunction hf hbody
  have hne := ne_nil_of_declareParams hsc
  have hvalue (value : Bool) (h : body.HasReturn value) : value = true ↔ f.returns ≠ .void :=
    hadmits.value hne h
  refine ⟨fun once es e hrun => ⟨fun hf => ?_, ?_⟩, hvalue, fun i rest hpart => ?_⟩
  · have hexit := ne_falls_of_alwaysReturns hrun (hreturns hf)
    cases e with
    | falls => exact absurd rfl hexit
    | returns value => rw [(hvalue value (hasReturn_of_runs hrun rfl)).2 hf]
  · rintro hf rfl
    exact (hvalue true (hasReturn_of_runs hrun rfl)).1 rfl hf
  · obtain ⟨sc₁, sc₂, hne, hmore⟩ := hadmits.part hpart hne
    exact hmore.falls hne

def returnBlock : Stmt .codeBlock := .braced (.last (.ofReturn (.ofVar "a")))

/-- The body `{ while (b) { return a; } if (b) { return a; } else { return a; } }`. -/
def pickBody : Stmt .codeBlock :=
  .braced
    (.more
      (.compound whileLoop_mem_compound
        (.whileLoop (.ofText "while") (.ofText "(") (.ofVar "b") (.ofText ")") returnBlock))
      (.last (.compound ifStatement_mem_compound
        (.ifElse (.ofText "if") (.ofText "(") (.ofVar "b") (.ofText ")") returnBlock
          (.ofText "else") returnBlock))))

/-- A class with the function `int pick(int a, boolean b)` of that body and an entry point that
    returns. -/
def pick : Decl .program :=
  .ofMembers
    (.moreMembers
      (.ofFunction (.function (.ofText "public") (.ofText "static") (.ofText "int")
        (.ofText "pick") (.ofText "(")
        (.moreParams (.param (.ofText "int") (.ofText "a")) (.ofText ",")
          (.lastParam (.param (.ofText "boolean") (.ofText "b"))))
        (.ofText ")") pickBody))
      (.entry (.braced (.last
        (.simple funcReturn_mem_simple (.returnNothing (.ofText "return")) (.ofText ";"))))))

theorem returns_of_check_pick :
    grammar.Parses Label.program pick.tree ∧ check pick.tree = .ok () ∧
    (∃ es, Runs true pickBody es (.returns true)) ∧
    ∀ once es e, Runs once pickBody es e → e = .returns true := by
  have hcheck : check pick.tree = .ok () := by decide +kernel
  have hblock : Runs true returnBlock [.read "a"] (.returns true) := .block (.last .simple)
  refine ⟨pick.parses, hcheck, ⟨_, .block (.moreFalls (.compound .whileNone)
    (.last (.compound (.elseNo hblock))))⟩, ?_⟩
  obtain ⟨all, hall, h⟩ := returns_of_check pick.parses hcheck
  rw [pick, functionsOf_program] at hall
  cases hall
  obtain ⟨-, hbody⟩ := h _ List.mem_cons_self
  intro once es e hrun
  exact ((hbody pickBody rfl).1 once es e hrun).1 (by decide)

end JavaToCpp.Typing
