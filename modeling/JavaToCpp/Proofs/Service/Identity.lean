/-
  When two runs have one identity.

  The identity of a run is the text of its grammar, a zero, a byte for the check and the source,
  without lengths.  A zero may stand in a grammar and in a source, so the place where the grammar ends
  cannot always be told.
-/
import JavaToCpp.Proofs.Grammar.RoundTrip
import JavaToCpp.Proofs.Service.Cached

namespace JavaToCpp

open List

/-! ## Rule texts that go on -/

namespace Grammar

open Text (newline)

theorem append_newline_inj {l m x y : Text} (hl : newline ∉ l) (hm : newline ∉ m)
    (h : m ++ newline :: x = l ++ newline :: y) : m = l ∧ x = y := by
  induction m generalizing l with
  | nil =>
    cases l with
    | nil => exact ⟨rfl, (cons.inj h).2⟩
    | cons b l => exact absurd (cons.inj h).1 (ne_of_not_mem_cons hl)
  | cons b m ih =>
    cases l with
    | nil => exact absurd (cons.inj h).1.symm (ne_of_not_mem_cons hm)
    | cons c l =>
      obtain ⟨rfl, htail⟩ := cons.inj h
      obtain ⟨rfl, hxy⟩ := ih (not_mem_of_not_mem_cons hl) (not_mem_of_not_mem_cons hm) htail
      exact ⟨rfl, hxy⟩

theorem exists_lines_append {ls ms : List Text} (hls : ∀ l ∈ ls, newline ∉ l)
    (hms : ∀ m ∈ ms, newline ∉ m) {x : Text}
    (h : ms.flatMap (fun l => l ++ [newline]) = ls.flatMap (fun l => l ++ [newline]) ++ x) :
    ∃ more, ms = ls ++ more ∧ x = more.flatMap fun l => l ++ [newline] := by
  induction ls generalizing ms with
  | nil => exact ⟨ms, rfl, h.symm⟩
  | cons l ls ih =>
    cases ms with
    | nil => simp at h
    | cons m ms =>
      obtain ⟨hl, hls'⟩ := forall_mem_cons.1 hls
      obtain ⟨hm, hms'⟩ := forall_mem_cons.1 hms
      simp only [flatMap_cons, append_assoc, cons_append, nil_append] at h
      obtain ⟨rfl, hrest⟩ := append_newline_inj hl hm h
      obtain ⟨more, rfl, rfl⟩ := ih hls' hms' hrest
      exact ⟨more, rfl, rfl⟩

variable {g h : Grammar}

/-- **A rule text that goes on where another one ends goes on with a nonterminal**, and a blank
    behind it. -/
theorem exists_nonterminal (hg : g.Readable) (hh : h.Readable) {b : UInt8} {x : Text}
    (heq : h.render = g.render ++ b :: x) :
    ∃ s ∈ h.nonterminals, s ≠ [] ∧ ∃ y, b :: x = s ++ Text.blank :: y := by
  have hlines {k : Grammar} (hk : k.Readable) : k.render =
      (lines k.render).flatMap (fun l => l ++ [newline]) := by
    rw [lines_render hk, flatMap_map, render_eq]
  have hnewline {k : Grammar} : ∀ l ∈ lines k.render, newline ∉ l := fun _ => newline_not_mem
  rw [hlines hg, hlines hh] at heq
  obtain ⟨more, hmore, hx⟩ := exists_lines_append hnewline hnewline heq
  cases more with
  | nil => cases hx
  | cons l more =>
    have hl : l ∈ lines h.render := by simp [hmore]
    rw [lines_render hh] at hl
    obtain ⟨s, hs, rfl⟩ := mem_map.1 hl
    rw [flatMap_cons, ruleLine, ofString_arrow] at hx
    simp only [append_assoc, cons_append] at hx
    exact ⟨s, hs, (hh.isName hs).word.1, _, hx⟩

end Grammar

/-! ## Identities -/

namespace Service

open Grammar (load_readable exists_nonterminal)

def flag (checked : Bool) : UInt8 := if checked then 1 else 0

variable {j k : Job} {g h : Grammar}

theorem Job.identity_eq (j : Job) : j.identity = j.grammar ++ 0 :: flag j.checked :: j.source := by
  simp [Job.identity, Service.identity, flag]

theorem flag_inj {c d : Bool} : flag c = flag d ↔ c = d := by
  cases c <;> cases d <;> decide

theorem flag_ne_blank (c : Bool) : flag c ≠ Text.blank := by
  cases c <;> decide

/-- The text of the grammar of `k` goes on where that of `j` ends, with the zero and the byte for the
    check that stand there in the identity of `j`, and the source of `j` holds the rest of the
    identity of `k`. -/
def Overlaps (j k : Job) : Prop :=
  ∃ more, k.grammar = j.grammar ++ 0 :: flag j.checked :: more ∧
    j.source = more ++ 0 :: flag k.checked :: k.source

theorem Overlaps.identity (h : Overlaps j k) : j.identity = k.identity := by
  obtain ⟨more, hgrammar, hsource⟩ := h
  rw [j.identity_eq, k.identity_eq, hgrammar, hsource]
  simp

/-- A symbol that starts with a zero and a byte for a check. -/
def Marked (s : Symbol) : Prop := ∃ c name, s = 0 :: flag c :: name

section

variable (hg : g.Readable) (hh : h.Readable) (hj : j.grammar = g.render) (hk : k.grammar = h.render)
include hg hh hj hk

/-- **An overlap needs a marked nonterminal**: the grammar that reaches further has it. -/
theorem Overlaps.marked (hoverlaps : Overlaps j k) : ∃ s ∈ h.nonterminals, Marked s := by
  obtain ⟨more, hgrammar, -⟩ := hoverlaps
  rw [hj, hk] at hgrammar
  obtain ⟨s, hs, hne, y, hy⟩ := exists_nonterminal hg hh hgrammar
  refine ⟨s, hs, j.checked, ?_⟩
  -- the name is longer than the zero, because a blank is no byte for a check
  rcases s with - | ⟨b, - | ⟨c, name⟩⟩
  · exact absurd rfl hne
  · exact absurd (cons.inj (cons.inj hy).2).1 (flag_ne_blank _)
  · obtain ⟨rfl, htail⟩ := cons.inj hy
    obtain ⟨rfl, -⟩ := cons.inj htail
    exact ⟨name, rfl⟩

theorem overlaps_of_append {x : Text} (hx : k.grammar = j.grammar ++ x)
    (hrest : 0 :: flag j.checked :: j.source = x ++ 0 :: flag k.checked :: k.source) :
    j = k ∨ Overlaps j k := by
  rcases x with - | ⟨b, - | ⟨c, more⟩⟩
  · left
    obtain ⟨grammar, source, checked⟩ := j
    obtain ⟨grammar', source', checked'⟩ := k
    simp only [nil_append, cons.injEq, true_and, flag_inj] at hrest
    obtain ⟨rfl, rfl⟩ := hrest
    obtain rfl : grammar' = grammar := by simpa using hx
    rfl
  · rw [hj, hk] at hx
    obtain ⟨s, -, hne, y, hy⟩ := exists_nonterminal hg hh hx
    have hlength := congrArg length hy
    simp only [length_append, length_cons, length_nil] at hlength
    exact absurd (length_eq_zero_iff.1 (by omega)) hne
  · obtain ⟨rfl, htail⟩ := cons.inj hrest
    obtain ⟨rfl, hsource⟩ := cons.inj htail
    exact .inr ⟨more, hx, hsource⟩

end

/-- **When two runs have one identity**: if and only if they are one run or overlap. An overlap
    needs a nonterminal that starts with a zero and a byte for the check; where there is none, runs
    with one digest are one run, or their identities are a collision of the hash. -/
theorem identity_eq_iff (hg : Loaded g) (hh : Loaded h) (hj : j.grammar = g.render)
    (hk : k.grammar = h.render) :
    (j.identity = k.identity ↔ j = k ∨ Overlaps j k ∨ Overlaps k j) ∧
    (Overlaps j k → ∃ s ∈ h.nonterminals, Marked s) ∧
    (Overlaps k j → ∃ s ∈ g.nonterminals, Marked s) ∧
    ((∀ s ∈ g.nonterminals ++ h.nonterminals, ¬ Marked s) → j.digest = k.digest →
      j = k ∨ j.identity ≠ k.identity ∧
        Hash.Blake2b.digest j.identity = Hash.Blake2b.digest k.identity) := by
  obtain ⟨_, hg⟩ := hg
  obtain ⟨_, hh⟩ := hh
  replace hg := load_readable hg
  replace hh := load_readable hh
  have hidentity : j.identity = k.identity ↔ j = k ∨ Overlaps j k ∨ Overlaps k j := by
    constructor
    · intro heq
      rw [j.identity_eq, k.identity_eq] at heq
      rcases append_eq_append_iff.1 heq with ⟨x, hx, hrest⟩ | ⟨x, hx, hrest⟩
      · exact (overlaps_of_append hg hh hj hk hx hrest).imp_right .inl
      · exact (overlaps_of_append hh hg hk hj hx hrest).imp Eq.symm .inr
    · rintro (rfl | hoverlaps | hoverlaps)
      · rfl
      · exact hoverlaps.identity
      · exact hoverlaps.identity.symm
  have hmarked := Overlaps.marked hg hh hj hk
  have hmarked' := Overlaps.marked hh hg hk hj
  refine ⟨hidentity, hmarked, hmarked', fun hfree hdigest => ?_⟩
  by_cases heq : j.identity = k.identity
  · rcases hidentity.1 heq with hjk | hoverlaps | hoverlaps
    · exact .inl hjk
    · obtain ⟨s, hs, hmark⟩ := hmarked hoverlaps
      exact absurd hmark (hfree s (mem_append_right _ hs))
    · obtain ⟨s, hs, hmark⟩ := hmarked' hoverlaps
      exact absurd hmark (hfree s (mem_append_left _ hs))
  · exact .inr ⟨heq, Text.hex_injective hdigest⟩

def loopRule : Grammar := .ofAlternatives [("<program>", ["while"])]

/-- The same with a rule for the symbol of two zeros. -/
def loopRuleMarked : Grammar := .ofAlternatives [("<program>", ["while"]), ([0, 0], ["b"])]

theorem loaded_loopRule : Loaded loopRule :=
  ⟨"<program> -> while", by decide +kernel⟩

theorem loaded_loopRuleMarked : Loaded loopRuleMarked :=
  ⟨"<program> -> while\n\x00\x00 -> b", by decide +kernel⟩

/-- The source `while` under the second grammar. -/
def shortRun : Job := ⟨loopRuleMarked.render, "while", false⟩

/-- The rest of the second grammar and of that run as a source under the first grammar. -/
def longRun : Job := ⟨loopRule.render, " -> b\n\x00\x00while", false⟩

theorem overlaps_longRun : Overlaps longRun shortRun :=
  ⟨" -> b\n", by decide +kernel, by decide +kernel⟩

theorem identity_eq_iff_marked : Loaded loopRule ∧ Loaded loopRuleMarked ∧
    longRun.grammar = loopRule.render ∧ shortRun.grammar = loopRuleMarked.render ∧
    longRun.identity = shortRun.identity ∧ ∃ s ∈ loopRuleMarked.nonterminals, Marked s := by
  obtain ⟨hiff, hmarked, -, -⟩ := identity_eq_iff (j := longRun) (k := shortRun) loaded_loopRule
    loaded_loopRuleMarked rfl rfl
  exact ⟨loaded_loopRule, loaded_loopRuleMarked, rfl, rfl, hiff.2 (.inr (.inl overlaps_longRun)),
    hmarked overlaps_longRun⟩

/-- **Two runs can have one identity**, so that not even a hash without collisions tells them apart. -/
theorem runs_share_identity :
    ¬ ∀ (g h : Grammar), Loaded g → Loaded h → ∀ source source' checked checked',
      identity g.render source checked = identity h.render source' checked' →
      g.render = h.render ∧ source = source' ∧ checked = checked' := by
  intro hall
  have hsame := hall _ _ loaded_loopRule loaded_loopRuleMarked _ _ _ _ overlaps_longRun.identity
  exact absurd hsame.1 (by decide +kernel)

end Service

end JavaToCpp
