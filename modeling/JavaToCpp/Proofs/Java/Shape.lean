/-
  The shapes of tokens.
-/
import JavaToCpp.Proofs.Pattern.Watch
import JavaToCpp.Proofs.Token.Spacing

namespace JavaToCpp.Java

open Pattern List Text

/-- The kinds of characters that tokens are told apart by. -/
inductive Kind where
  | letter | digit | blank | quote | backslash | dot | slash | star | bracket | sign | foreign
deriving DecidableEq, Repr

/-- What the beginning of a token looks like. -/
inductive Shape where
  | start
  | word
  /-- a word and white space -/
  | gap
  /-- words joined by a dot or brackets, which the text ends with, or white space behind them -/
  | broken
  /-- words joined by a dot or brackets -/
  | joined
  | number
  /-- a number and a point -/
  | point
  | slash
  | comment
  | quote
  /-- a quotation mark and a backslash -/
  | escape
  /-- a quotation mark and what is quoted -/
  | inner
  | quoted
  | signs
  /-- no beginning of a token -/
  | none
deriving DecidableEq, Repr

namespace Shape

def next : Shape → Kind → Shape
  | start, .letter => word
  | start, .digit => number
  | start, .quote => quote
  | start, .slash => slash
  | start, .blank | start, .bracket | start, .foreign => none
  | start, _ => signs
  | word, .letter | word, .digit => word
  | word, .blank => gap
  | word, .bracket | word, .dot => broken
  | gap, .blank => gap
  | gap, .bracket => broken
  | broken, .letter | broken, .digit => joined
  | broken, .blank | broken, .bracket | broken, .dot => broken
  | joined, .letter | joined, .digit => joined
  | joined, .dot => broken
  | number, .digit => number
  | number, .dot => point
  | point, .digit => number
  | slash, .slash | slash, .star => comment
  | slash, .sign => signs
  | comment, _ => comment
  | quote, .backslash => escape
  | quote, _ => inner
  | escape, _ => inner
  | inner, .quote => quoted
  | signs, .sign | signs, .star | signs, .slash => signs
  | _, _ => none

end Shape

/-- The shapes of the beginnings of a text. -/
def shapes : Watcher Kind Shape where
  stretches := [(8, .sign), (13, .blank), (31, .sign), (32, .blank), (38, .sign), (39, .quote),
    (41, .sign), (42, .star), (45, .sign), (46, .dot), (47, .slash), (57, .digit), (64, .sign),
    (90, .letter), (91, .bracket), (92, .backslash), (93, .bracket), (94, .sign), (95, .letter),
    (96, .sign), (122, .letter), (127, .sign), (0x84, .foreign), (0x85, .blank), (0x9F, .foreign),
    (0xA0, .blank), (0x167F, .foreign), (0x1680, .blank), (0x1FFF, .foreign), (0x200A, .blank),
    (0x2027, .foreign), (0x2029, .blank), (0x202E, .foreign), (0x202F, .blank), (0x205E, .foreign),
    (0x205F, .blank), (0x2FFF, .foreign), (0x3000, .blank)]
  beyond := .foreign
  start := .start
  next := .next

def Shape.whole (s : Shape) : Bool :=
  s == .word || s == .joined || s == .number || s == .slash || s == .quoted || s == .signs

def Shape.ofWord (s : Shape) : Bool := s == .word || s == .joined

/-- Whether what is known of a way to an instruction fits tokens.  Where a word boundary is asked for, a
    word begins or ends; a match is a comment or a whole token, and a word ends at a boundary. -/
def fits (table : Token.Table) (c : Instruction) (v : Sight Shape) : Bool :=
  match c with
  | .require a => a == .beginText || a == .wordBoundary && (v.state == .start || v.state.ofWord)
  | .accept => (table.ruleOf? v.entered).any fun r =>
    if r.skip then v.state == .comment
    else v.state.whole && (!v.state.ofWord || v.required.contains .wordBoundary)
  | _ => true

/-- Whether the matches of a table look like tokens, as far as a table of sights tells. -/
def hasShapes (table : Token.Table) (sights : Sights Shape) : Bool :=
  table.program.sees shapes sights &&
    table.program.toList.zipIdx.all fun (c, i) => (sights.get i).all (fits table c)

section HasShapes

variable {table : Token.Table} {sights : Sights Shape} (h : hasShapes table sights)
include h

theorem sees_of_hasShapes : table.program.sees shapes sights := (Bool.and_eq_true_iff.1 h).1

theorem fits_of_hasShapes {i : Nat} {c : Instruction} (hc : table.program[i]? = some c)
    {v : Sight Shape} (hv : v ∈ sights.get i) : fits table c v := by
  have hmem : (c, i) ∈ table.program.toList.zipIdx :=
    mk_mem_zipIdx_iff_getElem?.2 (by rw [Array.getElem?_toList, hc])
  have hall := all_eq_true.1 (Bool.and_eq_true_iff.1 h).2 _ hmem
  exact all_eq_true.1 hall v hv

end HasShapes

/-! ## Kinds -/

theorem kind_of_isBlank {rune : Nat} (h : isBlank rune) : shapes.kind rune = .blank := by
  have hblanks : ∀ r ∈ blanks, shapes.kind r = .blank := by decide
  exact hblanks rune (mem_blanks h)

theorem lt_of_kind {rune : Nat} (hblank : shapes.kind rune ≠ .blank)
    (hforeign : shapes.kind rune ≠ .foreign) : rune < 128 := by
  refine Nat.lt_of_not_le fun hge => ?_
  have hkind : shapes.kind rune = .blank ∨ shapes.kind rune = .foreign :=
    Watcher.of_kindIn (W := shapes) (P := fun k => k = Kind.blank ∨ k = Kind.foreign) (.inr rfl) hge (by decide)
  exact hkind.elim hblank hforeign

theorem isWord_of_kind : ∀ n < 128, shapes.kind n = .letter ∨ shapes.kind n = .digit →
    isWord (UInt8.ofNat n) := by
  decide +kernel

/-! ## Shapes -/

namespace Shape

variable {s s' : Shape} {t : Text} {n : Nat}

theorem of_whole_next {k : Kind} (h : (s.next k).whole) : k ≠ .blank ∧ k ≠ .foreign := by
  revert h
  cases s <;> cases k <;> decide

theorem of_ofWord_next {k : Kind} (h : (s.next k).ofWord) : k = .letter ∨ k = .digit := by
  revert h
  cases s <;> cases k <;> decide

/-- The shape says that a token does not go on. -/
def idle (s : Shape) : Bool := s == .gap || s == .none

theorem next_blank (h : s.whole) : s.next .blank = .gap ∨ s.next .blank = .none := by
  revert h
  cases s <;> decide

theorem of_whole (h : s.whole) : ¬ s.idle ∧ s ≠ .start := by
  revert h
  cases s <;> decide

theorem read_none (h : shapes.read .none t n = some s) : s = .none := by
  generalize hs : Shape.none = s₀ at h
  fun_induction Watcher.read shapes s₀ t n with
  | case1 => exact (Option.some.inj h).symm
  | case2 | case4 => cases h
  | case3 s b t n rune more hdecode hmore ih =>
    subst hs
    refine ih ?_ h
    cases shapes.kind rune <;> rfl

end Shape

/-- The text begins like a token: not with white space, and not with a bracket. -/
def Begins (t : Text) : Prop :=
  ∃ b rest, t = b :: rest ∧ b < 0x80 ∧ shapes.kind b.toNat ≠ .blank ∧ shapes.kind b.toNat ≠ .bracket

/-- No token goes on behind white space. -/
def Apart (t : Text) : Prop :=
  ∃ gap rest, t = gap ++ rest ∧ White gap ∧ (rest = [] ∨ gap ≠ [] ∧ Begins rest)

section Read

variable {s s' : Shape} {t x gap rest : Text} {n : Nat}

theorem Begins.append (h : Begins x) (rest : Text) : Begins (x ++ rest) := by
  obtain ⟨b, x, rfl, hb⟩ := h
  exact ⟨b, x ++ rest, rfl, hb⟩

theorem decodeHead_ascii {b : UInt8} (h : b < 0x80) (rest : Text) :
    decodeHead b rest = (b.toNat, 0) := by
  simp [decodeHead, h]

theorem Begins.leadingBlank_eq (h : Begins t) : Token.leadingBlank t = 0 := by
  obtain ⟨b, rest, rfl, hb, hblank, -⟩ := h
  rw [Token.leadingBlank_cons, decodeHead_ascii hb]
  exact if_neg (mt kind_of_isBlank hblank)

theorem begins_of_read (h : shapes.read shapes.start t n = some s) (hn : n ≠ 0) (hs : s ≠ .none) :
    Begins t := by
  obtain ⟨n, rfl⟩ := Nat.exists_eq_succ_of_ne_zero hn
  cases t with
  | nil =>
    rw [Watcher.read] at h
    cases h
  | cons b rest =>
    rw [Watcher.read] at h
    simp only at h
    split at h
    · have hnext : shapes.next shapes.start (shapes.kind (decodeHead b rest).1) ≠ .none := by
        intro hnone
        rw [hnone] at h
        exact hs (Shape.read_none h)
      have hkind : ∀ k, Shape.next .start k ≠ .none → k ≠ .blank ∧ k ≠ .foreign ∧ k ≠ .bracket := by
        intro k
        cases k <;> decide
      obtain ⟨hblank, hforeign, hbracket⟩ := hkind _ hnext
      have hlt := lt_of_kind hblank hforeign
      have hascii := decodeHead_of_lt hlt
      rw [hascii] at hblank hbracket hlt
      exact ⟨b, rest, rfl, UInt8.lt_iff_toNat_lt.2 hlt, hblank, hbracket⟩
    · cases h

theorem read_blank {rune : Nat} (hrune : isBlank rune)
    (h : shapes.read s (encodeRune rune ++ rest) (n + 1) = some s') :
    ∃ k, shapes.read (s.next .blank) rest k = some s' := by
  obtain ⟨b, more, hspelled, -, hdecode⟩ := exists_encodeRune_of_isBlank hrune
  rw [hspelled, cons_append, Watcher.read, hdecode] at h
  simp only [drop_left] at h
  split at h
  · rw [kind_of_isBlank hrune] at h
    exact ⟨_, h⟩
  · cases h

theorem read_gap (hgap : White gap) (hrest : rest = [] ∨ Begins rest)
    (h : shapes.read .gap (gap ++ rest) n = some s) : s.idle := by
  obtain ⟨runes, hblank, rfl⟩ := hgap
  induction runes generalizing n with
  | nil =>
    rw [flatMap_nil, nil_append] at h
    cases n with
    | zero =>
      rw [Watcher.read] at h
      cases h
      rfl
    | succ n =>
      rcases hrest with rfl | ⟨b, rest, rfl, hb, hkind⟩
      · rw [Watcher.read] at h
        cases h
      · rw [Watcher.read, decodeHead_ascii hb] at h
        simp only [Nat.zero_le, if_true] at h
        have hnext : ∀ k, k ≠ .blank ∧ k ≠ .bracket → Shape.next .gap k = .none := by
          intro k
          cases k <;> decide
        rw [show shapes.next .gap (shapes.kind b.toNat) = .none from hnext _ hkind] at h
        rw [Shape.read_none h]
        rfl
  | cons r runes ih =>
    cases n with
    | zero =>
      rw [Watcher.read] at h
      cases h
      rfl
    | succ n =>
      rw [flatMap_cons, append_assoc] at h
      obtain ⟨k, hk⟩ := read_blank (hblank r mem_cons_self) h
      exact ih (fun r' hr' => hblank r' (mem_cons_of_mem r hr')) hk

theorem idle_of_read (hs : s.whole) (ht : Apart t) (h : shapes.read s t (n + 1) = some s') : s'.idle := by
  obtain ⟨gap, rest, rfl, ⟨runes, hblank, rfl⟩, hrest⟩ := ht
  cases runes with
  | nil =>
    obtain rfl := hrest.resolve_right fun h => h.1 rfl
    rw [flatMap_nil, nil_append, Watcher.read] at h
    cases h
  | cons r runes =>
    rw [flatMap_cons, append_assoc] at h
    obtain ⟨k, hk⟩ := read_blank (hblank r mem_cons_self) h
    have hgap : White (runes.flatMap encodeRune) :=
      ⟨runes, fun r' hr' => hblank r' (mem_cons_of_mem r hr'), rfl⟩
    rcases Shape.next_blank hs with hnext | hnext
    · rw [hnext] at hk
      exact read_gap hgap (hrest.imp_right And.right) hk
    · rw [hnext] at hk
      rw [Shape.read_none hk]
      rfl

theorem Apart.not_isWord (h : Apart t) : wordAt t.head? = false := by
  obtain ⟨gap, rest, rfl, ⟨runes, hblank, rfl⟩, hrest⟩ := h
  cases runes with
  | nil =>
    obtain rfl := hrest.resolve_right fun h => h.1 rfl
    rfl
  | cons r runes =>
    obtain ⟨b, more, hspelled, hword, -⟩ := exists_encodeRune_of_isBlank (hblank r mem_cons_self)
    rw [flatMap_cons, hspelled]
    exact hword

end Read

/-! ## Matches -/

section Matches

variable {table : Token.Table} {sights : Sights Shape} {x c d t : Text} {rule : Token.Rule} {n : Nat}

theorem state_of_fits {v : Sight Shape} (h : fits table .accept v) :
    ¬ v.state.idle ∧ v.state ≠ .start := by
  rw [fits] at h
  cases hr : table.ruleOf? v.entered with
  | none =>
    rw [hr] at h
    cases h
  | some r =>
    rw [hr, Option.any_some] at h
    split at h
    · rw [eq_of_beq h]
      decide
    · exact Shape.of_whole (Bool.and_eq_true_iff.1 h).1

theorem pos_of_match? (h : hasShapes table sights) (hm : table.match? t = some (rule, n)) : 0 < n := by
  obtain ⟨m, hmatch, -, rfl⟩ := Token.match?_eq_some_iff.1 hm
  obtain ⟨i, hway, haccept⟩ := ends_of_match? hmatch
  obtain ⟨v, hv, htold⟩ := exists_told (sees_of_hasShapes h) hway
  refine Nat.pos_of_ne_zero fun hzero => ?_
  have hstate := htold.state
  rw [hzero, Watcher.read] at hstate
  exact (state_of_fits (fits_of_hasShapes h haccept hv)).2 (Option.some.inj hstate).symm

end Matches

end JavaToCpp.Java
