/-
  What the emitter writes.

  The emitter sees one token after the other.  Here its text is compared with the text that the
  syntax has by recursion.
-/
import JavaToCpp.Proofs.Cpp.Rendering

namespace JavaToCpp.Cpp

open JavaToCpp.Java List Text Nonterminal Phrase
open JavaToCpp.Cpp.Page (trimmed indented)

/-! ## The roles of words -/

/-- The role of the tokens that a tag accepts; those of a return type have two. -/
def roleOfTag : Nonterminal → Role
  | .lbracketCurly => .openBrace
  | .rbracketCurly => .closeBrace
  | .semicolon => .semicolon
  | .lbracket => .openParen
  | .rbracket => .closeParen
  | .comma => .comma
  | .print => .print
  | .max => .max
  | .min => .min
  | .type | .funcReturnType => .typeHint
  | .void => .void
  | .assign | .opAssign | .mathOperator | .compare | .booleanOperator => .operator
  | .for_ => .for_
  | .if_ | .else_ | .while_ | .do_ | .return_ => .word
  | _ => .plain

theorem roleOf_word {s : Nonterminal} (w : Word s) (hs : s ≠ .funcReturnType) :
    roleOf w.token.category = roleOfTag s := by
  have hall : ∀ s ∈ tagged, s ≠ .funcReturnType → ∀ c ∈ s.categories,
      roleOf c = roleOfTag s := by decide +kernel
  have htag : s ∈ tagged := by
    have hne := ne_nil_of_mem w.accepted
    cases s <;> first | decide | exact absurd rfl hne
  exact hall s htag hs _ w.accepted

/-! ## Blanks at the end -/

def EndsSolid (t : Text) : Prop := ∃ c, t.getLast? = some c ∧ c ≠ blank

variable {a : Text}

theorem EndsSolid.trimmed_append (ha : EndsSolid a) (x b : Text) :
    Page.trimmed (x ++ (a ++ b)) = x ++ (a ++ Page.trimmed b) := by
  obtain ⟨c, hc, hne⟩ := ha
  obtain ⟨a, rfl⟩ := getLast?_eq_some_iff.1 hc
  have hc : (c == blank) = false := by simpa using hne
  simp only [Page.trimmed, trimRight, reverse_append, append_assoc,
    dropWhile_append]
  by_cases hb : (b.reverse.dropWhile (· == blank)).isEmpty
  · simp_all
  · simp [hb]

theorem EndsSolid.trimmed (ha : EndsSolid a) : Page.trimmed a = a := by
  simpa [Page.trimmed, trimRight] using ha.trimmed_append [] []

theorem EndsSolid.append (ha : EndsSolid a) (x : Text) : EndsSolid (x ++ a) := by
  obtain ⟨c, hc, hne⟩ := ha
  exact ⟨c, by simp [getLast?_append, hc], hne⟩

theorem EndsSolid.line (ha : EndsSolid a) (depth : Nat) : line depth a = [indented depth a] := by
  obtain ⟨c, hc, -⟩ := id ha
  have hne : a ≠ [] := by rintro rfl; simp at hc
  simp [Java.line, ha.trimmed, hne]

theorem line_nil (depth : Nat) : line depth [] = [] := rfl

theorem endLine_eq (ls : List Text) (lead : Text) (depth : Nat) :
    (Page.mk ls lead depth).endLine = ⟨ls ++ line depth lead, [], depth⟩ := by
  by_cases h : trimmed lead = [] <;> simp [Page.endLine, line, h]

theorem endsSolid_literals : EndsSolid "(" ∧ EndsSolid ")" ∧ EndsSolid ";" ∧ EndsSolid "std::cout" :=
  ⟨⟨_, rfl, by decide⟩, ⟨_, rfl, by decide⟩, ⟨_, rfl, by decide⟩, ⟨_, rfl, by decide⟩⟩

/-! ## Phrases -/

namespace Emitter

variable {e : Emitter}

def emitAll (e : Emitter) (ts : List Token) : Emitter := ts.foldl emit e

@[simp] theorem emitAll_nil : e.emitAll [] = e := rfl

@[simp] theorem emitAll_cons (t : Token) (ts : List Token) :
    e.emitAll (t :: ts) = (e.emit t).emitAll ts := rfl

@[simp] theorem emitAll_append (ts us : List Token) : e.emitAll (ts ++ us) = (e.emitAll ts).emitAll us :=
  foldl_append

@[simp] theorem write_nil (e : Emitter) : e.write [] = e := by simp [write, Page.write]

@[simp] theorem write_write (t u : Text) : (e.write t).write u = e.write (t ++ u) := by
  simp [write, Page.write]

/-- Nothing is awaited, and the open print and for header were opened outside the innermost
    parenthesis or by it. -/
structure Calm (e : Emitter) : Prop where
  noPrint : e.awaitingPrint = false
  noFor : e.awaitingFor = false
  prints_lt : ∀ n ∈ e.prints.head?, n < e.parens
  header_lt : ∀ n ∈ e.header, n < e.parens

def nested (e : Emitter) : Emitter := { e with parens := e.parens + 1 }

def printing (e : Emitter) : Emitter :=
  { e with prints := e.parens :: e.prints, parens := e.parens + 1 }

/-- What stands between two arguments. -/
def separator (e : Emitter) : Text := if e.inPrint then " << " else ", "

theorem Calm.write (h : Calm e) (t : Text) : Calm (e.write t) := ⟨h.1, h.2, h.3, h.4⟩

theorem Calm.nested (h : Calm e) : Calm e.nested where
  noPrint := h.noPrint
  noFor := h.noFor
  prints_lt n hn := Int.lt_add_one_of_le (Int.le_of_lt (h.prints_lt n hn))
  header_lt n hn := Int.lt_add_one_of_le (Int.le_of_lt (h.header_lt n hn))

theorem Calm.printing (h : Calm e) : Calm e.printing where
  noPrint := h.noPrint
  noFor := h.noFor
  prints_lt n hn := by simp [Emitter.printing] at hn ⊢; omega
  header_lt n hn := Int.lt_add_one_of_le (Int.le_of_lt (h.header_lt n hn))

@[simp] theorem separator_write (t : Text) : (e.write t).separator = e.separator := rfl

theorem Calm.separator_nested (h : Calm e) : e.nested.separator = ofString ", " := by
  have hprint : e.nested.inPrint = false := by
    simp only [inPrint, Emitter.nested, Option.any_eq_false, beq_eq_false_iff_ne]
    intro n hn
    have := h.prints_lt n hn
    omega
  simp [separator, hprint]

theorem separator_printing : e.printing.separator = ofString " << " := by
  simp [separator, inPrint, Emitter.printing]

theorem Calm.openParen (h : Calm e) : e.openParen = (e.write "(").nested := by
  simp [Emitter.openParen, h.noPrint, h.noFor, Emitter.nested, Emitter.write]

variable {s : Nonterminal} {t : Text}

theorem emit_word (w : Word s) (hs : s ≠ .funcReturnType) : e.emit w.token = match roleOfTag s with
      | .openBrace => { e with page := e.page.openBrace }
      | .closeBrace => { e with page := e.page.closeBrace }
      | .semicolon => e.semicolon
      | .openParen => e.openParen
      | .closeParen => e.closeParen
      | .comma => e.write e.separator
      | .print => { e.write "std::cout" with awaitingPrint := true }
      | .max => e.write "std::max"
      | .min => e.write "std::min"
      | .typeHint => e.write (typeName w.text ++ " ")
      | .void => e.write "void "
      | .operator => e.write (spaced w.text)
      | .for_ => { e.write "for " with awaitingFor := true }
      | .word => e.write (w.text ++ " ")
      | .plain => e.write w.text := by
  rw [emit, roleOf_word w hs]
  cases hr : roleOfTag s <;> simp only [separator, spaced, Word.text]
  split <;> rfl

theorem emit_lbracket (w : Word .lbracket) : e.emit w.token = e.openParen :=
  emit_word w (by decide)

theorem emit_rbracket (w : Word .rbracket) : e.emit w.token = e.closeParen :=
  emit_word w (by decide)

theorem Calm.enclosed (h : Calm e) (lp : Word .lbracket) (rp : Word .rbracket) {ts : List Token}
    (hts : ∀ e : Emitter, Calm e → e.separator = ofString ", " → e.emitAll ts = e.write t) :
    e.emitAll (lp.token :: (ts ++ [rp.token])) = e.write (enclosed t) := by
  have hprint : e.prints.head? ≠ some e.parens := fun hn => Int.lt_irrefl _ (h.prints_lt _ hn)
  have hheader : e.header ≠ some e.parens := fun hn => Int.lt_irrefl _ (h.header_lt _ hn)
  calc e.emitAll (lp.token :: (ts ++ [rp.token]))
      = ((e.write "(").nested.write t).closeParen := by
        rw [emitAll_cons, emit_lbracket, h.openParen, emitAll_append, hts _ (h.write _).nested
          (h.write _).separator_nested, emitAll_cons, emit_rbracket, emitAll_nil]
    _ = e.write (Java.enclosed t) := by
        simp [Emitter.closeParen, Emitter.nested, Emitter.write, Page.write, Page.trim, hprint,
          hheader, Java.enclosed, endsSolid_literals.1.trimmed_append]

theorem Calm.print (h : Calm e) (w : Word .print) (lp : Word .lbracket) (rp : Word .rbracket)
    {ts : List Token} (hts : ∀ e : Emitter, Calm e → e.separator = ofString " << " →
      e.emitAll ts = e.write t) :
    e.emitAll (w.token :: lp.token :: (ts ++ [rp.token])) =
      e.write ("std::cout" ++ Page.trimmed (" << " ++ t) ++ " << \"\\n\"") := by
  calc e.emitAll (w.token :: lp.token :: (ts ++ [rp.token]))
      = ((e.write ("std::cout" ++ " << ")).printing.emitAll ts).closeParen := by
        simp [emit_word, roleOfTag, Emitter.openParen, Emitter.printing, Emitter.write, Page.write,
          h.noPrint]
    _ = ((e.write ("std::cout" ++ " << ")).printing.write t).closeParen := by
        rw [hts _ (h.write _).printing separator_printing]
    _ = _ := by
        simp [Emitter.closeParen, Emitter.printing, Emitter.write, Page.write, Page.trim,
          endsSolid_literals.2.2.2.trimmed_append]

/-- The text that a phrase has where the emitter is. -/
def textOf (e : Emitter) {s : Nonterminal} (p : Phrase s) : Text :=
  if s = .callArgs then join e.separator p.argTexts else p.text

theorem argTexts_ne_nil (p : Phrase .callArgs) : p.argTexts ≠ [] := by
  cases p <;> simp [argTexts]

theorem join_cons {ts : List Text} (sep : Text) (h : ts ≠ []) :
    join sep (t :: ts) = t ++ sep ++ join sep ts := by
  obtain ⟨u, us, rfl⟩ := exists_cons_of_ne_nil h
  simp [join, intercalate_cons_cons]

theorem append_join (sep : Text) : ∀ {ts : List Text}, ts ≠ [] →
    sep ++ join sep ts = ts.flatMap fun t => sep ++ t
  | [t], _ => by simp [join]
  | t :: u :: ts, _ => by
    rw [join_cons sep (by simp), flatMap_cons, ← append_join sep (by simp)]
    simp

/-- **A calm emitter writes the text of a phrase.** -/
theorem emitAll_phrase (p : Phrase s) :
    ∀ {e : Emitter}, Calm e → e.emitAll p.tree.tokens = e.write (e.textOf p) := by
  induction p with
  | group lp _ rp ih =>
    intro e h
    have hgroup := h.enclosed lp rp fun e he _ => ih he
    simpa [tree, Tree.tokensOf, textOf, text] using hgroup
  | call f lp args rp ih | max f lp args rp ih | min f lp args rp ih =>
    intro e h
    have hargs (callee : Text) := (h.write callee).enclosed lp rp fun e he hsep => by
      simpa only [textOf, hsep] using ih he
    simpa [tree, Tree.tokensOf, textOf, text, emit_word, roleOfTag] using hargs _
  | callEmpty f lp rp =>
    intro e h
    have hargs : (e.write f.text).emitAll (lp.token :: ([] ++ [rp.token])) = _ :=
      (h.write f.text).enclosed lp rp fun e _ _ => (write_nil e).symm
    simpa [tree, Tree.tokensOf, textOf, text, emit_word, roleOfTag] using hargs
  | print f lp args rp ih =>
    intro e h
    have hargs := h.print f lp rp fun e he hsep => by
      simpa only [textOf, hsep] using ih he
    simpa [tree, Tree.tokensOf, textOf, text, append_join, argTexts_ne_nil] using hargs
  | lastArg e ih =>
    intro e h
    simp [tree, Tree.tokensOf, textOf, argTexts, join, ih h]
  | arg e c rest ihe ih =>
    intro e h
    simp [tree, Tree.tokensOf, textOf, argTexts, join_cons, argTexts_ne_nil,
      emit_word, roleOfTag, ihe h, ih, h, Calm.write]
  | _ =>
    intro e h
    simp [tree, Tree.tokensOf, emit_word, roleOfTag, textOf, text, Calm.write, *]

/-! ## Statements -/

/-- The emitter between two statements, with the finished lines, what is on the line already and
    the depth of braces. -/
def between (ls : List Text) (lead : Text) (depth : Nat) : Emitter := { page := ⟨ls, lead, depth⟩ }

/-- The emitter in the header of a for. -/
def inHeader (ls : List Text) (lead : Text) (depth : Nat) : Emitter :=
  { page := ⟨ls, lead, depth⟩, parens := 1, header := some 0 }

variable (ls : List Text) (lead t : Text) (depth : Nat)

theorem calm_between : Calm (between ls lead depth) := ⟨rfl, rfl, by simp [between], by simp [between]⟩

theorem calm_inHeader : Calm (inHeader ls lead depth) :=
  ⟨rfl, rfl, by simp [inHeader], by simp [inHeader]⟩

@[simp] theorem write_between : (between ls lead depth).write t = between ls (lead ++ t) depth := rfl

@[simp] theorem write_inHeader : (inHeader ls lead depth).write t = inHeader ls (lead ++ t) depth := rfl

theorem emit_lbracketCurly (w : Word .lbracketCurly) : (between ls lead depth).emit w.token =
      between (ls ++ line depth lead ++ [indented depth "\x7b"]) [] (depth + 1) := by
  have hbrace : EndsSolid "\x7b" := ⟨_, rfl, by decide⟩
  rw [emit_word w (by decide)]
  simp [roleOfTag, between, Page.openBrace, endLine_eq, Page.write, hbrace.line]

theorem emit_rbracketCurly (w : Word .rbracketCurly) : (between ls [] (depth + 1)).emit w.token =
      between (ls ++ [indented depth "\x7d"]) [] depth := by
  have hbrace : EndsSolid "\x7d" := ⟨_, rfl, by decide⟩
  rw [emit_word w (by decide)]
  simp [roleOfTag, between, Page.closeBrace, endLine_eq, Page.write, hbrace.line, line_nil]

theorem emit_semicolon (w : Word .semicolon) : (between ls lead depth).emit w.token =
      between (ls ++ [indented depth (trimmed lead ++ ";")]) [] depth := by
  rw [emit_word w (by decide)]
  simp [roleOfTag, between, Emitter.semicolon, Page.trim, Page.write, endLine_eq,
    (endsSolid_literals.2.2.1.append _).line]

theorem emit_semicolon_inHeader (w : Word .semicolon) :
    (inHeader ls lead depth).emit w.token = inHeader ls (trimmed lead ++ "; ") depth :=
  emit_word w (by decide)

theorem emit_rbracket_inHeader (w : Word .rbracket) :
    (inHeader ls lead depth).emit w.token = between ls (trimmed lead ++ ")") depth :=
  emit_word w (by decide)

theorem emit_for (w : Word .for_) (lp : Word .lbracket) :
    ((between ls lead depth).emit w.token).emit lp.token =
      inHeader ls (lead ++ "for " ++ "(") depth := by
  simp [emit_word, roleOfTag, between, inHeader, Emitter.openParen, Emitter.write, Page.write]

theorem emitAll_phrase_between (p : Phrase s) (hs : s ≠ .callArgs) :
    (between ls lead depth).emitAll p.tree.tokens = between ls (lead ++ p.text) depth := by
  rw [emitAll_phrase p (calm_between ..), textOf, if_neg hs, write_between]

theorem emitAll_phrase_inHeader (p : Phrase s) (hs : s ≠ .callArgs) :
    (inHeader ls lead depth).emitAll p.tree.tokens = inHeader ls (lead ++ p.text) depth := by
  rw [emitAll_phrase p (calm_inHeader ..), textOf, if_neg hs, write_inHeader]

theorem emit_test (lp : Word .lbracket) (test : Phrase .expr) (rp : Word .rbracket) :
    (((between ls lead depth).emit lp.token).emitAll test.tree.tokens).emit rp.token =
      between ls (lead ++ enclosed test.text) depth := by
  have htest := (calm_between ls lead depth).enclosed lp rp fun _ he _ => emitAll_phrase test he
  simpa [textOf] using htest

theorem emit_forHeader (w : Word .for_) (lp : Word .lbracket) (init : Phrase .forInit)
    (e : Word .semicolon) (test : Phrase .expr) (e' : Word .semicolon) (step : Phrase .forStep)
    (rp : Word .rbracket) :
    (between ls lead depth).emitAll ([w.token, lp.token] ++ init.tree.tokens ++ [e.token] ++
        test.tree.tokens ++ [e'.token] ++ step.tree.tokens ++ [rp.token]) =
      between ls (lead ++ forHeader init.text test.text step.text) depth := by
  have hsemi : ofString "; " = ofString ";" ++ ofString " " := rfl
  have hfor : ofString "for (" = ofString "for " ++ ofString "(" := rfl
  have hopen := endsSolid_literals.1.trimmed_append (lead ++ "for ") init.text
  -- a later trim stops at the last semicolon, so that every part is trimmed by itself
  have hpart (a t : Text) : trimmed (a ++ "; " ++ t) = a ++ trimmed ("; " ++ t) := by
    have hend := endsSolid_literals.2.2.1.trimmed_append
    have hstart := hend [] (ofString " " ++ t)
    rw [nil_append, nil_append] at hstart
    rw [hsemi, append_assoc, append_assoc, hend, hstart]
  simp only [emitAll_append, emit_for, emitAll_phrase_inHeader, emitAll_cons, emitAll_nil,
    emit_semicolon_inHeader, emit_rbracket_inHeader, ne_eq, reduceCtorEq, not_false_eq_true, hpart]
  rw [← append_assoc] at hopen
  rw [hopen]
  simp [forHeader, hfor]

/-- **Between two statements, the emitter writes the lines of a statement.** -/
theorem emitAll_stmt (x : Stmt s) : ∀ (ls : List Text) (lead : Text) (depth : Nat),
    (between ls lead depth).emitAll x.tree.tokens = between (ls ++ x.lines depth lead) [] depth := by
  induction x with
  | block lb body rb ih =>
    intro ls lead depth
    simp [Stmt.tree, Tree.tokensOf, Stmt.lines, emit_lbracketCurly, ih, emit_rbracketCurly]
  | blockEmpty lb rb =>
    intro ls lead depth
    simp [Stmt.tree, Tree.tokensOf, Stmt.lines, emit_lbracketCurly, emit_rbracketCurly]
  | last i ih | compound hk x ih =>
    intro ls lead depth
    simp [Stmt.tree, Tree.tokensOf, Stmt.lines, ih]
  | more i rest ihi ih =>
    intro ls lead depth
    simp [Stmt.tree, Tree.tokensOf, Stmt.lines, ihi, ih]
  | @simple k hk p e =>
    intro ls lead depth
    have hne : k ≠ .callArgs := by rintro rfl; simp [simple] at hk
    simp [Stmt.tree, Tree.tokensOf, Stmt.lines, emitAll_phrase_between, hne, emit_semicolon]
  | ifThen w lp test rp yes ih | whileLoop w lp test rp body ih =>
    intro ls lead depth
    simp [Stmt.tree, Tree.tokensOf, Stmt.lines, emit_word w, roleOfTag, emit_test, ih]
  | ifElse w lp test rp yes el no ihyes ihno | ifElseIf w lp test rp yes el no ihyes ihno =>
    intro ls lead depth
    simp [Stmt.tree, Tree.tokensOf, Stmt.lines, emit_word w, emit_word el, roleOfTag, emit_test,
      ihyes, ihno]
  | forLoop w lp init e test e' step rp body ih =>
    intro ls lead depth
    have hheader := emit_forHeader ls lead depth w lp init e test e' step rp
    simp only [Stmt.tree, tokens_node, Tree.tokensOf, Word.tokens_tree, Stmt.lines]
    rw [← ih, ← hheader]
    simp 
  | doWhile w body wh lp test rp e ih =>
    intro ls lead depth
    have hend := (endsSolid_literals.2.1.append
      (wh.text ++ (ofString " " ++ (ofString "(" ++ trimmed test.text)))).trimmed
    simp only [append_assoc] at hend
    simp [Stmt.tree, Tree.tokensOf, Stmt.lines, emit_word w, emit_word wh, roleOfTag, emit_test,
      emit_semicolon, ih, enclosed, hend]

end Emitter

end JavaToCpp.Cpp
