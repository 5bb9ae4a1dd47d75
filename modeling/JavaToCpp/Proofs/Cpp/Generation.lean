/-
  The text of a program is its rendering.
-/
import JavaToCpp.Proofs.Cpp.Emission

namespace JavaToCpp.Cpp

open JavaToCpp.Java List Text JavaToCpp.Tree Decl
open JavaToCpp.Java.Nonterminal (node findIn_cons)

theorem section_routine (r : Routine) : section_ r.header r.body.tree.tokens = r.text := by
  have hlines := Emitter.emitAll_stmt r.body [] r.header 0
  have hstart : (Emitter.mk (Page.write {} r.header) 0 [] false none false) =
    Emitter.between [] r.header 0 := rfl
  rw [section_, hstart, ← Emitter.emitAll, hlines]
  simp [Page.text, Emitter.between, endLine_eq, line_nil, Routine.text]

theorem mapM_paramText : ∀ ps : Decl .funcParams,
    ps.params.mapM (paramText ∘ tree) = .ok ps.paramTexts
  | .lastParam (.param type id) => by
    simp [params, tree, paramText, find, Nonterminal.labels, findIn_cons, bind, Except.bind,
      paramTexts, pure, Except.pure]
  | .moreParams (.param type id) c rest => by
    simp [params, tree, paramText, find, Nonterminal.labels, findIn_cons, bind, Except.bind,
      paramTexts, pure, Except.pure, mapM_paramText rest]

/-! ## Members -/

section

attribute [local simp] find Nonterminal.labels findIn_cons bind Except.bind pure Except.pure

theorem partOf_tree : ∀ m : Decl .member, ∃ part, partOf m.tree = .ok part ∧
    part.function?.toList = m.functions.map Routine.text ∧
    part.entry?.toList = m.entries.map Routine.text
  | .ofFunction (.function pub st returns name lp params rp body) => by
    refine ⟨.function (section_ _ body.tree.tokens), ?_,
      congrArg (fun t => [t]) (section_routine ⟨_, body⟩), rfl⟩
    simp [partOf, headerOf, tree, Tree.child, flatten_params, mapM_paramText]
  | .ofFunction (.functionEmpty pub st returns name lp rp body) => by
    refine ⟨.function (section_ _ body.tree.tokens), ?_,
      congrArg (fun t => [t]) (section_routine ⟨_, body⟩), rfl⟩
    simp [partOf, headerOf, tree, Tree.child, Tree.findIn, Tree.flatten, join]
  | .ofMain (.main pub st v name lp args rp body) => by
    refine ⟨.entry (section_ _ body.tree.tokens), ?_, rfl,
      congrArg (fun t => [t]) (section_routine ⟨_, body⟩)⟩
    simp [partOf, tree, Tree.child]

end

theorem entries_length_le {s : Nonterminal} (d : Decl s) :
    d.entries.length ≤ d.tree.nodes.countP (hasLabel Nonterminal.mainFunc.label) := by
  have hnode (s : Nonterminal) (ts : List Tree) :
      (s.node ts).nodes.countP (hasLabel Nonterminal.mainFunc.label) =
        (nodesOf ts).countP (hasLabel Nonterminal.mainFunc.label) +
          if s = .mainFunc then 1 else 0 := by
    simp [node, nodes, countP_cons, hasLabel]
  induction d with
  | ofMain f ih | lastMember m ih => simpa [entries, tree, hnode, nodesOf] using ih
  | moreMembers m rest ihm ih =>
    simp only [entries, tree, hnode, nodesOf, length_append, countP_append]
    omega
  | program pub cl name lb body rb ih =>
    simp only [entries, tree, hnode, nodesOf, countP_append]
    omega
  | main => simp [entries, tree, hnode]
  | _ => exact Nat.zero_le _

/-! ## Programs -/

theorem mem_roles {c : Text} {r : Role} (h : roleOf c = r) (hr : r ≠ .plain) :
    ∃ name, (name, r) ∈ roles ∧ c = ofString name := by
  rcases Option.getD_eq_iff.1 h with h | ⟨-, h⟩
  · obtain ⟨q, hfind, rfl⟩ := Option.map_eq_some_iff.1 h
    have hname : ofString q.1 == c :=
      find?_some (p := fun q : String × Role => ofString q.1 == c) hfind
    exact ⟨q.1, mem_of_find?_eq_some hfind, (eq_of_beq hname).symm⟩
  · exact absurd h.symm hr

theorem usesAlgorithm_iff (root : Tree) :
    usesAlgorithm root ↔
      ∃ t ∈ root.tokens, t.category = ofString "max" ∨ t.category = ofString "min" := by
  have hmax (c : Text) : roleOf c = .max ↔ c = ofString "max" := by
    refine ⟨fun h => ?_, fun h => h ▸ by decide +kernel⟩
    obtain ⟨name, hmem, rfl⟩ := mem_roles h (by decide)
    simp [roles] at hmem
    rw [hmem]
  have hmin (c : Text) : roleOf c = .min ↔ c = ofString "min" := by
    refine ⟨fun h => ?_, fun h => h ▸ by decide +kernel⟩
    obtain ⟨name, hmem, rfl⟩ := mem_roles h (by decide)
    simp [roles] at hmem
    rw [hmem]
  simp [usesAlgorithm, hmax, hmin]

theorem filterMap_cons_toList {α β : Type} (f : α → Option β) (a : α) (as : List α) :
    (a :: as).filterMap f = (f a).toList ++ as.filterMap f := by
  cases h : f a <;> simp [h]

theorem mapM_partOf : ∀ body : Decl .classBody, ∃ parts,
    body.members.mapM (partOf ∘ tree) = .ok parts ∧
    parts.filterMap Part.function? = body.functions.map Routine.text ∧
    parts.filterMap Part.entry? = body.entries.map Routine.text
  | .lastMember m => by
    obtain ⟨part, hpart, hf, he⟩ := partOf_tree m
    refine ⟨[part], ?_, ?_, ?_⟩
    · simp [members, hpart, bind, Except.bind, pure, Except.pure]
    · rw [filterMap_cons_toList, hf]; simp [Decl.functions]
    · rw [filterMap_cons_toList, he]; simp [entries]
  | .moreMembers m rest => by
    obtain ⟨part, hpart, hf, he⟩ := partOf_tree m
    obtain ⟨parts, hparts, hfs, hes⟩ := mapM_partOf rest
    refine ⟨part :: parts, ?_, ?_, ?_⟩
    · simp [members, hpart, hparts, bind, Except.bind, pure, Except.pure]
    · rw [filterMap_cons_toList, hf, hfs]; simp [Decl.functions]
    · rw [filterMap_cons_toList, he, hes]; simp [entries]

theorem toList_getLast? {α : Type} : ∀ {as : List α}, as.length ≤ 1 → as.getLast?.toList = as
  | [], _ => rfl
  | [_], _ => rfl
  | _ :: _ :: _, h => by simp at h

theorem generate_tree (p : Decl .program) (hmain : p.entries.length ≤ 1) :
    generate p.tree = .ok p.rendering := by
  match p with
  | .program pub cl name lb body rb =>
    obtain ⟨parts, hparts, hf, he⟩ := mapM_partOf body
    have hfind : (Decl.program pub cl name lb body rb).tree.find Nonterminal.classBody.label =
        .ok body.tree := by
      simp [tree, find, findIn_cons]
    have hprogram : (Decl.program pub cl name lb body rb).tree.hasLabel
        Nonterminal.program.label = true := beq_self_eq_true _
    have hentry : (parts.filterMap Part.entry?).getLast?.toList = body.entries.map Routine.text := by
      rw [he, toList_getLast? (by simpa [entries] using hmain)]
    have hsections : sections parts = body.routines.map Routine.text := by
      rw [sections, hf, hentry, Decl.routines, map_append]
    have halgorithm := usesAlgorithm_iff (Decl.program pub cl name lb body rb).tree
    simp [generate, Nonterminal.labels, hprogram, hfind, flatten_members, hparts, hsections,
      halgorithm, bind, Except.bind, Decl.rendering, Decl.includes, Decl.routines, Decl.functions,
      entries, comparesNumbers]

/-! ## The tokens of a body -/

/-- The text without blanks and line feeds. -/
def solid (t : Text) : Text := t.filter fun b => b != blank && b != newline

/-- What can stand for a token. -/
def images (t : Token) : List Text :=
  match roleOf t.category with
  | .openBrace => ["\x7b"]
  | .closeBrace => ["\x7d"]
  | .semicolon => [";"]
  | .openParen => ["(", "<<"]
  | .closeParen => [")", "<< \"\\n\""]
  | .comma => [",", "<<"]
  | .print => ["std::cout"]
  | .max => ["std::max"]
  | .min => ["std::min"]
  | .typeHint => [typeName t.text]
  | .void => ["void"]
  | .for_ => ["for"]
  | .operator | .word | .plain => [t.text]

def Page.contents (p : Page) : Text := p.lines.flatten ++ p.pending

theorem solid_nil : solid [] = [] := rfl

theorem solid_append (a b : Text) : solid (a ++ b) = solid a ++ solid b := filter_append ..

theorem filter_dropWhile {α : Type} {p q : α → Bool} (h : ∀ a, p a → q a = false) :
    ∀ as : List α, (as.dropWhile p).filter q = as.filter q
  | [] => rfl
  | a :: as => by
    by_cases ha : p a
    · simp [ha, h a ha, filter_dropWhile h as]
    · simp [ha]

theorem solid_trimmed (t : Text) : solid (Page.trimmed t) = solid t := by
  have hblank : ∀ b : UInt8, (b == blank) → (b != blank && b != newline) = false := by
    intro b hb
    simp [eq_of_beq hb]
  rw [solid, Page.trimmed, trimRight, filter_reverse, filter_dropWhile hblank,
    filter_reverse, reverse_reverse, solid]

theorem solid_indented (depth : Nat) (t : Text) : solid (Page.indented depth t) = solid t := by
  have hblanks : solid (times depth "    ") = [] := by
    have hall : ∀ b ∈ ofString "    ", b = blank := by decide +kernel
    refine filter_eq_nil_iff.2 fun b hb => ?_
    obtain ⟨u, hu, hb⟩ := mem_flatten.1 hb
    rw [hall b ((eq_of_mem_replicate hu) ▸ hb)]
    decide
  rw [Page.indented, solid_append, hblanks, nil_append]

@[simp] theorem solid_write (p : Page) (t : Text) :
    solid (p.write t).contents = solid p.contents ++ solid t := by
  simp [Page.contents, Page.write, solid_append]

@[simp] theorem solid_trim (p : Page) : solid p.trim.contents = solid p.contents := by
  simp [Page.contents, Page.trim, solid_append, solid_trimmed]

@[simp] theorem solid_endLine (p : Page) : solid p.endLine.contents = solid p.contents := by
  have htrim := solid_trimmed p.pending
  by_cases h : Page.trimmed p.pending = []
  · rw [h] at htrim
    simp [Page.endLine, h, Page.contents, solid_append, ← htrim, solid_nil]
  · simp [Page.endLine, h, Page.contents, solid_append, solid_indented, htrim]

@[simp] theorem solid_openBrace (p : Page) :
    solid p.openBrace.contents = solid p.contents ++ solid "\x7b" :=
  calc solid p.openBrace.contents
      = solid (p.endLine.write "\x7b").endLine.contents := rfl
    _ = solid p.contents ++ solid "\x7b" := by rw [solid_endLine, solid_write, solid_endLine]

@[simp] theorem solid_closeBrace (p : Page) :
    solid p.closeBrace.contents = solid p.contents ++ solid "\x7d" :=
  calc solid p.closeBrace.contents
      = solid ({ p.endLine with depth := p.endLine.depth - 1 }.write "\x7d").contents := by
        rw [Page.closeBrace, solid_endLine]
    _ = solid p.endLine.contents ++ solid "\x7d" := solid_write ..
    _ = solid p.contents ++ solid "\x7d" := by rw [solid_endLine]

theorem solid_emit (e : Emitter) (t : Token) : ∃ i ∈ images t,
    solid (e.emit t).page.contents = solid e.page.contents ++ solid i := by
  have hblank : solid (ofString " ") = [] := by decide
  cases hr : roleOf t.category <;>
    simp only [images, hr, Emitter.emit, mem_cons, not_mem_nil, or_false, exists_eq_left,
      exists_eq_or_imp, solid_openBrace, solid_closeBrace, Emitter.write, solid_write]
  case semicolon =>
    by_cases hheader : e.header.isSome <;> simp [Emitter.semicolon, hheader]
    decide
  case openParen =>
    by_cases hprint : e.awaitingPrint
    · right
      simp [Emitter.openParen, hprint, Emitter.write]
      decide
    · left
      by_cases hfor : e.awaitingFor <;> simp [Emitter.openParen, hprint, hfor, Emitter.write]
  case closeParen =>
    by_cases hprint : e.prints.head? = some (e.parens - 1)
    · right
      simp [Emitter.closeParen, hprint, Emitter.write]
      decide
    · left
      by_cases hfor : e.header = some (e.parens - 1) <;>
        simp [Emitter.closeParen, hprint, hfor, Emitter.write]
  case comma =>
    by_cases hprint : e.inPrint
    · right
      simp [hprint]
      decide
    · left
      simp [hprint]
      decide
  case void | for_ => exact congrArg _ (by decide)
  case typeHint | operator | word => simp [solid_append, hblank]

theorem solid_emitAll (ts : List Token) : ∀ e : Emitter, ∃ is,
    Forall₂ (fun t i => i ∈ images t) ts is ∧
    solid (e.emitAll ts).page.contents = solid e.page.contents ++ is.flatMap solid := by
  induction ts with
  | nil => exact fun e => ⟨[], .nil, by simp⟩
  | cons t ts ih =>
    intro e
    obtain ⟨i, hi, ht⟩ := solid_emit e t
    obtain ⟨is, his, hts⟩ := ih (e.emit t)
    exact ⟨i :: is, .cons hi his, by simp [hts, ht]⟩

theorem solid_text (r : Routine) : ∃ is,
    Forall₂ (fun t i => i ∈ images t) r.body.tree.tokens is ∧
    solid r.text = solid r.header ++ is.flatMap solid := by
  obtain ⟨is, his, hsolid⟩ := solid_emitAll r.body.tree.tokens (Emitter.between [] r.header 0)
  refine ⟨is, his, ?_⟩
  have hlines (ls : List Text) :
      solid (ls.flatMap fun l => l ++ [newline]) = solid ls.flatten := by
    induction ls with
    | nil => rfl
    | cons l ls ih =>
      rw [flatMap_cons, flatten_cons, solid_append, solid_append, solid_append, ih,
        show solid [newline] = [] from rfl, append_nil]
  rw [Emitter.emitAll_stmt] at hsolid
  rw [Routine.text, hlines]
  simpa [Emitter.between, Page.contents] using hsolid

/-- **The C++ text of a program is read off its syntax**, and in the text of every routine the
    tokens of its body stand one after the other. -/
theorem generate_eq_rendering {root : Tree} (h : grammar.Parses Label.program root)
    (hmain : root.nodes.countP (hasLabel Label.mainFunc) ≤ 1) :
    ∃ p : Decl .program, p.tree = root ∧ generate root = .ok p.rendering ∧
      ∀ r ∈ p.routines, ∃ is, Forall₂ (fun t i => i ∈ images t) r.body.tree.tokens is ∧
        solid r.text = solid r.header ++ is.flatMap solid := by
  obtain ⟨p, rfl⟩ := exists_decl (s := .program) h rfl
  have hentries : p.entries.length ≤ 1 := Nat.le_trans (entries_length_le p) hmain
  exact ⟨p, rfl, generate_tree p hentries, fun r _ => solid_text r⟩

theorem rendering_printTwice :
    grammar.Parses Label.program printTwice.tree ∧
    printTwice.tree.nodes.countP (hasLabel Label.mainFunc) ≤ 1 ∧
    ∃ p : Decl .program, p.tree = printTwice.tree ∧ p.rendering = ofString
      "#include <iostream>\n\nint twice(int a)\n\x7b\n    return a + a;\n\x7d\n\nvoid main(int argc, char *argv[])\n\x7b\n    for (int i = 0; i < 3; i++)\n    \x7b\n        std::cout << twice(i) << \"\\n\";\n    \x7d\n\x7d\n" := by
  have hmain : printTwice.tree.nodes.countP (hasLabel Label.mainFunc) ≤ 1 := by decide +kernel
  obtain ⟨p, hp, htext, -⟩ := generate_eq_rendering printTwice.parses hmain
  rw [generate_tree printTwice (by decide)] at htext
  refine ⟨printTwice.parses, hmain, p, hp, ?_⟩
  rw [← Except.ok.inj htext]
  decide +kernel

end JavaToCpp.Cpp
