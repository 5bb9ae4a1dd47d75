/-
  The lines of a program.
-/
import JavaToCpp.Proofs.Cpp.Rendering
import JavaToCpp.Proofs.Java.Place

namespace JavaToCpp.Tree

mutual

theorem exists_get? {n : Tree} : ∀ {t : Tree}, n ∈ t.nodes → ∃ u, t.get? u = some n
  | .leaf k, h | .hole, h => ⟨[], congrArg some (List.mem_singleton.1 h).symm⟩
  | .branch l cs, h => by
    rcases List.mem_cons.1 h with rfl | h
    · exact ⟨[], rfl⟩
    · obtain ⟨i, c, hc, u, hu⟩ := exists_getElem? h
      exact ⟨i :: u, by simp [get?_cons, children, hc, hu]⟩

theorem exists_getElem? {n : Tree} : ∀ {cs : List Tree}, n ∈ nodesOf cs →
    ∃ (i : Nat) (c : Tree), cs[i]? = some c ∧ ∃ u, c.get? u = some n
  | c :: cs, h => by
    rcases List.mem_append.1 h with h | h
    · exact ⟨0, c, rfl, exists_get? h⟩
    · obtain ⟨i, c', hc, hu⟩ := exists_getElem? h
      exact ⟨i + 1, c', hc, hu⟩

end

theorem mem_nodes_of_get? {t n : Tree} {u : List Nat} (h : t.get? u = some n) : n ∈ t.nodes := by
  induction u generalizing t with
  | nil =>
    cases h
    cases n <;> simp [nodes]
  | cons i u ih =>
    obtain ⟨c, hc, hn⟩ := Option.bind_eq_some_iff.1 h
    cases t with
    | hole | leaf => cases hc
    | branch l cs =>
      exact List.mem_cons_of_mem _ (mem_nodesOf.2 ⟨c, List.mem_of_getElem? hc, ih hn⟩)

end JavaToCpp.Tree

namespace JavaToCpp.Java

/-! ## Instructions in lines -/

variable {s : Nonterminal} {cs : List Tree}

/-- The tree has an instruction with these children. -/
def Instructs (t : Tree) (cs : List Tree) : Prop := Nonterminal.instruction.node cs ∈ t.nodes

@[simp] theorem instructs_node {ts : List Tree} :
    Instructs (s.node ts) cs ↔ (s = .instruction ∧ ts = cs) ∨ ∃ t ∈ ts, Instructs t cs := by
  unfold Instructs
  rw [Nonterminal.node, Nonterminal.node, Tree.nodes, List.mem_cons, Tree.mem_nodesOf,
    Tree.branch.injEq, Nonterminal.label_inj, eq_comm, @eq_comm _ cs]

/-- The nonterminals of what holds no instructions. -/
def Nonterminal.Plain (s : Nonterminal) : Prop :=
  s.level = .phrase ∨ s.level = .word ∨ s = .param ∨ s = .funcParams

theorem not_instructs (hs : s.Plain) {t : Tree} (h : grammar.Parses s.label t) :
    ¬ Instructs t cs := by
  have hsides : ∀ s : Nonterminal, s.Plain → ∀ side ∈ s.sides, ∀ x ∈ side, x.Plain := by
    unfold Nonterminal.Plain
    decide
  intro hn
  obtain ⟨u, hu⟩ := Tree.exists_get? hn
  obtain ⟨k, hk, -, hplain⟩ := parses_get? hsides h hs hu
  cases Nonterminal.label_inj.1 hk
  simp [Nonterminal.Plain, Nonterminal.level] at hplain

@[simp] theorem not_instructs_word (w : Word s) :
    ¬ Instructs w.tree cs :=
  not_instructs (.inr (.inl (level_word w))) w.parses

@[simp] theorem not_instructs_phrase (p : Phrase s) :
    ¬ Instructs p.tree cs :=
  not_instructs (.inl (level_phrase p)) p.parses

@[simp] theorem not_instructs_params (ps : Decl .funcParams) :
    ¬ Instructs ps.tree cs :=
  not_instructs (.inr (.inr (.inr rfl))) ps.parses

/-- The lines of an instruction are among the lines. -/
def Shown (cs : List Tree) (ls : List Text) : Prop :=
  ∃ i : Stmt .instruction, i.tree = Nonterminal.instruction.node cs ∧
    ∃ depth, ∀ l ∈ i.lines depth [], l ∈ ls

theorem Shown.mono {ls ls' : List Text} (h : Shown cs ls) (hsub : ∀ l ∈ ls, l ∈ ls') :
    Shown cs ls' := by
  obtain ⟨i, hi, depth, hl⟩ := h
  exact ⟨i, hi, depth, fun l hm => hsub l (hl l hm)⟩

theorem shown_stmt (x : Stmt s) (depth : Nat) {lead : Text}
    (hlead : s = .instructions ∨ s = .instruction → lead = [])
    (h : Instructs x.tree cs) : Shown cs (x.lines depth lead) := by
  induction x generalizing depth lead with
  | block lb body rb ih =>
    have hbody : Instructs body.tree cs := by simpa [Stmt.tree] using h
    exact (ih (depth + 1) (fun _ => rfl) hbody).mono fun l hl => by simp [Stmt.lines, hl]
  | blockEmpty lb rb => simp [Stmt.tree] at h
  | last i ih =>
    exact ih depth (fun _ => hlead (.inl rfl)) (by simpa [Stmt.tree] using h)
  | more i rest ihi ihr =>
    have h : Instructs i.tree cs ∨ Instructs rest.tree cs := by simpa [Stmt.tree] using h
    rcases h with h | h
    · exact (ihi depth (fun _ => hlead (.inl rfl)) h).mono fun l => List.mem_append_left _
    · exact (ihr depth (fun _ => rfl) h).mono fun l => List.mem_append_right _
  | simple hk p e =>
    cases hlead (.inr rfl)
    have h : [p.tree, e.tree] = cs := by simpa [Stmt.tree] using h
    exact ⟨.simple hk p e, by rw [← h]; rfl, depth, fun l hl => hl⟩
  | compound hk x ih =>
    cases hlead (.inr rfl)
    have h : [x.tree] = cs ∨ Instructs x.tree cs := by simpa [Stmt.tree] using h
    rcases h with h | h
    · exact ⟨.compound hk x, by rw [← h]; rfl, depth, fun l hl => hl⟩
    · exact ih depth (fun _ => rfl) h
  | ifThen w lp test rp yes ih | whileLoop w lp test rp yes ih =>
    exact ih depth (by simp) (by simpa [Stmt.tree] using h)
  | ifElse w lp test rp yes el no ihy ihn | ifElseIf w lp test rp yes el no ihy ihn =>
    have h : Instructs yes.tree cs ∨ Instructs no.tree cs := by simpa [Stmt.tree] using h
    rcases h with h | h
    · exact (ihy depth (by simp) h).mono fun l => List.mem_append_left _
    · exact (ihn depth (by simp) h).mono fun l => List.mem_append_right _
  | forLoop w lp init e test e' step rp body ih =>
    exact ih depth (by simp) (by simpa [Stmt.tree] using h)
  | doWhile w body wh lp test rp e ih =>
    have hbody : Instructs body.tree cs := by simpa [Stmt.tree] using h
    exact (ih depth (by simp) hbody).mono fun l => List.mem_append_left _

theorem Decl.entries_eq_nil (f : Decl .funcDeclaration) : f.entries = [] := by
  cases f <;> rfl

theorem Decl.functions_eq_nil (f : Decl .mainFunc) : f.functions = [] := by
  cases f
  rfl

theorem shown_decl (d : Decl s) (h : Instructs d.tree cs) :
    ∃ r ∈ d.routines, Shown cs (r.body.lines 0 r.header) := by
  induction d with
  | param | lastParam p | moreParams p c rest =>
    exact absurd h (not_instructs (.inr (.inr (by simp))) (Decl.parses _))
  | function pub st returns name lp params rp body
    | functionEmpty pub st returns name lp rp body | main pub st v name lp args rp body =>
    have hbody : Instructs body.tree cs := by simpa [Decl.tree] using h
    exact ⟨_, List.mem_singleton_self _, shown_stmt body 0 (by simp) hbody⟩
  | ofFunction f ih =>
    have hf : Instructs f.tree cs := by simpa [Decl.tree] using h
    simpa [Decl.routines, Decl.functions, Decl.entries, Decl.entries_eq_nil] using ih hf
  | ofMain f ih =>
    have hf : Instructs f.tree cs := by simpa [Decl.tree] using h
    simpa [Decl.routines, Decl.functions, Decl.entries, Decl.functions_eq_nil] using ih hf
  | lastMember m ih | program pub cl name lb body rb ih => exact ih (by simpa [Decl.tree] using h)
  | moreMembers m rest ihm ihr =>
    have h : Instructs m.tree cs ∨ Instructs rest.tree cs := by simpa [Decl.tree] using h
    have hroutines {r : Routine} (hr : r ∈ m.routines ∨ r ∈ rest.routines) :
        r ∈ (Decl.moreMembers m rest).routines := by
      simp only [Decl.routines, Decl.functions, Decl.entries, List.mem_append] at hr ⊢
      exact or_or_or_comm.1 hr
    rcases h with h | h
    · obtain ⟨r, hr, hshown⟩ := ihm h
      exact ⟨r, hroutines (.inl hr), hshown⟩
    · obtain ⟨r, hr, hshown⟩ := ihr h
      exact ⟨r, hroutines (.inr hr), hshown⟩

/-! ## Lines in the text -/

def HasLine (t l : Text) : Prop := ∃ a b, t = a ++ Text.newline :: (l ++ Text.newline :: b)

theorem HasLine.append {t l : Text} (h : HasLine t l) (a b : Text) : HasLine (a ++ (t ++ b)) l := by
  obtain ⟨a', b', rfl⟩ := h
  exact ⟨a ++ a', b' ++ b, by simp⟩

theorem hasLine_flatMap {l : Text} : ∀ {ls : List Text}, l ∈ ls →
    HasLine (Text.newline :: ls.flatMap fun l => l ++ [Text.newline]) l
  | l' :: ls, h => by
    rcases List.mem_cons.1 h with rfl | h
    · exact ⟨[], ls.flatMap fun l => l ++ [Text.newline], by simp⟩
    · have heq : Text.newline :: (l' :: ls).flatMap (fun l => l ++ [Text.newline]) =
          (Text.newline :: l') ++ ((Text.newline :: ls.flatMap fun l => l ++ [Text.newline]) ++ []) := by
        simp
      rw [heq]
      exact (hasLine_flatMap h).append _ _

theorem exists_of_mem_join (sep : Text) {t : Text} : ∀ {ts : List Text}, t ∈ ts →
    ∃ a b, sep ++ Text.join sep ts = a ++ (sep ++ t ++ b)
  | [t'], h => ⟨[], [], by simp [Text.join, List.mem_singleton.1 h]⟩
  | t' :: u :: ts, h => by
    have hjoin : Text.join sep (t' :: u :: ts) = t' ++ (sep ++ Text.join sep (u :: ts)) := by
      simp [Text.join, List.intercalate]
    rcases List.mem_cons.1 h with rfl | h
    · exact ⟨[], sep ++ Text.join sep (u :: ts), by simp [hjoin]⟩
    · obtain ⟨a, b, hab⟩ := exists_of_mem_join sep h
      exact ⟨sep ++ (t' ++ a), b, by rw [hjoin, hab]; simp⟩

theorem hasLine_rendering (d : Decl s) {r : Routine} (hr : r ∈ d.routines) {l : Text}
    (hl : l ∈ r.body.lines 0 r.header) : HasLine d.rendering l := by
  have hfeed : Text.ofString "\n" = [Text.newline] := by decide
  obtain ⟨a, b, hab⟩ := exists_of_mem_join [Text.newline]
    (List.mem_map_of_mem (f := Routine.text) hr)
  have hline : HasLine ([Text.newline] ++ r.text) l := hasLine_flatMap hl
  rw [Decl.rendering, hfeed, List.append_assoc, hab, ← List.append_assoc d.includes]
  exact hline.append (d.includes ++ a) b

end JavaToCpp.Java
