/-
  The rule text of a grammar gives the grammar back.
-/
import JavaToCpp.Proofs.Grammar.Alike

namespace JavaToCpp.Grammar

variable {g h : Grammar}

theorem Alike.sides (hgh : g.Alike h) (s : Symbol) :
    (g.rulesOf s).map Rule.sides = (h.rulesOf s).map Rule.sides := by
  have hsides (k : Grammar) : (k.rulesOf s).map Rule.sides =
      ((k.rulesOf s).map Rule.rhs).map fun rhs => (s, rhs) := by
    rw [List.map_map]
    refine List.map_congr_left fun r hr => ?_
    obtain ⟨-, rfl⟩ := mem_rulesOf.1 hr
    rfl
  rw [hsides, hsides, hgh.rights]

theorem Alike.render (hgh : g.Alike h) : g.render = h.render := by
  rw [render_eq, render_eq, hgh.nonterminals]
  simp only [hgh.rights]

theorem load_render_eq (hg : g.Readable) (hlines : ∀ line ∈ lines g.render, line.length ≤ maxLine) :
    load g.render = .ok (ofAlternatives g.grouped) := by
  rw [render_eq]
  refine load_lines g.nonterminals _ _ (fun s hs => ?_) hg.grouped_ne_nil
  refine ⟨newline_not_mem_ruleLine (hg.isName hs) (hg.right s), hlines _ ?_, hg.parseLine hs⟩
  rw [lines_render hg]
  exact List.mem_map_of_mem hs

/-- **The rule text of a grammar gives the grammar back**, if it has no line that is too long. What
    is read has the same nonterminals in the same order, the same rules of each of them in the same
    order, the same start symbol, the same tags that accept the same categories, and so the same
    rule text. -/
theorem load_render {text : Text} {g : Grammar} (hload : load text = .ok g)
    (hlines : ∀ line ∈ lines g.render, line.length ≤ maxLine) :
    ∃ h, load g.render = .ok h ∧ h.nonterminals = g.nonterminals ∧
      (∀ s, (h.rulesOf s).map Rule.sides = (g.rulesOf s).map Rule.sides) ∧ h.start = g.start ∧
      (∀ s, h.isTag s = g.isTag s) ∧
      (∀ tag category, h.accepts tag category = g.accepts tag category) ∧ h.render = g.render := by
  have halike := alike_grouped g
  exact ⟨_, load_render_eq (load_readable hload) hlines, halike.nonterminals, halike.sides,
    halike.start, halike.sameRules.isTag, halike.sameRules.accepts, halike.render⟩

/-- The symbol `b` with a byte behind it that is no character. -/
def stray : Symbol := [98, 128]

/-- A text with a name on two lines, a carriage return, a comment and symbols with marks in them. -/
def untidy : Text := Text.ofString "b->#x|y\r\n\n # b -> z\n a- ->b -> c#\nb   ->  " ++ stray

def untidyRules : Grammar := .ofAlternatives
  [("b", ["#x"]), ("b", ["y"]), ("a-", ["b", "->", "c#"]), ("b", [stray])]

theorem load_render_untidy : load untidy = .ok untidyRules ∧
    untidyRules.render = Text.ofString "b -> #x | y | " ++ stray ++ "\na- -> b -> c#\n" ∧
    ∃ h, load untidyRules.render = .ok h ∧ h.nonterminals = ["b", "a-"] ∧ h.isTag "b" ∧
      h.render = untidyRules.render := by
  have hload : load untidy = .ok untidyRules := by decide +kernel
  obtain ⟨h, hh, hnonterminals, -, -, htag, -, hrender⟩ := load_render hload (by decide +kernel)
  refine ⟨hload, by decide +kernel, h, hh, ?_, ?_, hrender⟩
  · rw [hnonterminals]
    decide +kernel
  · rw [htag]
    decide +kernel

end JavaToCpp.Grammar
