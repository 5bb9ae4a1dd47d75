/-
  Whether a stored grammar can be read back.

  A row is read as the line `name -> alternative`, which can be longer than the line that the rule came
  from: the blanks around the arrow need not have been there.
-/
import JavaToCpp.Proofs.Grammar.RuleLanguage
import JavaToCpp.Proofs.Migration.Run

open List

namespace JavaToCpp.Text

/-! ## Fields with blanks between them -/

theorem bytes_ne_nil (t : Text) : ∀ g ∈ glyphs t, g.bytes ≠ [] := by
  fun_induction glyphs t with
  | case1 => simp
  | case2 b rest rune more _ ih => exact forall_mem_cons.2 ⟨cons_ne_nil _ _, ih⟩

theorem length_join_cons_le (w : Text) (ws : List Text) :
    (join " " (w :: ws)).length ≤ w.length + (1 + (join " " ws).length) := by
  cases ws with
  | nil =>
    rw [join_singleton]
    omega
  | cons u ws =>
    have hblank : (ofString " ").length = 1 := by decide
    rw [join_cons_cons, length_append, length_append, hblank]

theorem length_join_runs (gs : List Glyph) (hgs : ∀ g ∈ gs, g.bytes ≠ []) :
    (join " " (((gs.splitOnP Glyph.isBlank).filter fun run => !run.isEmpty).map ofGlyphs)).length ≤
      (ofGlyphs gs).length := by
  rcases splitOnP_cases Glyph.isBlank gs with ⟨-, hsplit⟩ | ⟨ys, sep, zs, hsep, -, -, hsplit⟩
  · rw [hsplit]
    cases gs with
    | nil => exact Nat.zero_le _
    | cons g gs =>
      rw [filter_cons_of_pos rfl, filter_nil, map_singleton, join_singleton]
  · have hzs : ∀ g ∈ zs, g.bytes ≠ [] := fun g hg => hgs g (by simp [hsep, hg])
    have ih := length_join_runs zs hzs
    -- the white space that parts the runs has at least one byte
    have hbytes := length_pos_iff.2 (hgs sep (by simp [hsep]))
    have hlength : (ofGlyphs gs).length =
        (ofGlyphs ys).length + (sep.bytes.length + (ofGlyphs zs).length) := by
      rw [hsep, ofGlyphs_append, length_append, ofGlyphs, ofGlyphs, ofGlyphs, flatMap_cons,
        length_append]
    rw [hsplit, hlength]
    cases ys with
    | nil =>
      rw [filter_cons_of_neg (by simp)]
      omega
    | cons y ys =>
      rw [filter_cons_of_pos rfl, map_cons]
      exact (length_join_cons_le _ _).trans (by omega)
termination_by gs.length
decreasing_by simp [hsep]; omega

theorem length_join_fields (t : Text) : (join " " (fields t)).length ≤ t.length := by
  have h := length_join_runs (glyphs t) (bytes_ne_nil t)
  rwa [ofGlyphs_glyphs] at h

theorem length_le_of_mem_fields {t w : Text} (h : w ∈ fields t) : w.length ≤ t.length := by
  obtain ⟨-, before, behind, rfl⟩ := isWord_of_mem_fields h
  simp only [length_append]
  omega

theorem length_strip_le (t : Text) : (strip t).length ≤ t.length := by
  obtain ⟨-, before, behind, ht⟩ := strip_spec t
  have hlength := congrArg length ht
  simp only [length_append] at hlength
  omega

end JavaToCpp.Text

namespace JavaToCpp.Grammar

open Text (join fields)

variable {g : Grammar}

/-! ## Lengths of rows -/

theorem length_ruleLine_singleton (name : Symbol) (rhs : List Symbol) :
    (ruleLine name [rhs]).length = name.length + (4 + (join " " rhs).length) := by
  have harrow : (Text.ofString " -> ").length = 4 := by decide
  rw [ruleLine, map_singleton, Text.join_singleton, length_append, length_append,
    harrow, Nat.add_assoc]

theorem IsRule.length_le {line : Text} {name : Symbol} {rights : List (List Symbol)}
    {rhs : List Symbol} (h : IsRule line name rights) (hrhs : rhs ∈ rights) :
    (ruleLine name [rhs]).length ≤ line.length + 2 := by
  obtain ⟨left, right, hcut, hleft, rfl, -⟩ := h
  obtain ⟨part, hpart, rfl⟩ := mem_map.1 hrhs
  obtain ⟨before, behind, hright, -⟩ := Text.exists_of_mem_splitOnP _ hpart
  have hname : name.length ≤ left.length := Text.length_le_of_mem_fields (by simp [hleft])
  have hfields := Text.length_join_fields part
  have hstrip := Text.length_strip_le line
  have harrow : (Text.ofString "->").length = 2 := by decide
  have hline := congrArg length hcut.eq
  have hparts := congrArg length hright
  simp only [length_append, harrow] at hline hparts
  rw [length_ruleLine_singleton]
  omega

theorem exists_line_of_load {text : Text} (hload : load text = .ok g) {r : Rule} (hr : r ∈ g.rules) :
    ∃ line ∈ lines text, r.describe.length ≤ line.length + 2 := by
  obtain ⟨-, found, hfound, -, rfl⟩ := load_eq_ok_iff.1 hload
  obtain ⟨p, hp, hmem⟩ := mem_flatMap.1 (mem_ofAlternatives hr).1
  obtain ⟨rhs, hrhs, heq⟩ := mem_map.1 hmem
  obtain ⟨hlhs, rfl⟩ := Prod.mk.inj heq
  obtain ⟨line, hline, hrule⟩ := hfound.exists_line hp
  refine ⟨line, hline, ?_⟩
  rw [describe_eq, ← hlhs]
  exact hrule.length_le hrhs

/-! ## Rows that are too long -/

theorem load_rows_of_long (hg : g.Readable) (hlong : ∃ r ∈ g.rules, maxLine < r.describe.length) :
    load (textOfRows (g.toRows.map fun row => (row.nonterminal, row.alternative))) =
      .error .lineTooLong := by
  have hlines := lines_flatMap (forall_mem_map.2 fun _ => hg.newline_not_mem_line)
  rw [flatMap_map] at hlines
  refine load_of_parseLines_error ?_
  rw [textOfRows_toRows, hlines]
  refine parseLines_of_long (forall_mem_map.2 fun a ha => ?_) ?_
  · obtain ⟨r, hr, rfl⟩ := mem_grouped ha
    exact legible_ruleLine (hg.name r hr) (cons_ne_nil _ _)
      (forall_mem_singleton.2 (hg.isRight hr))
  · obtain ⟨r, hr, hlength⟩ := hlong
    rw [describe_eq] at hlength
    exact ⟨_, mem_map_of_mem (mem_grouped_of_mem hr), hlength⟩

end JavaToCpp.Grammar

namespace JavaToCpp.Migration

open Grammar (maxLine lines ofRows)

variable {s s' : Store} {g : Grammar}

theorem ofRows_storedRules (hg : g.Readable) (hrules : s.tables.rules = g.toRows) :
    ofRows s.storedRules = (Grammar.load (Grammar.textOfRows
      (g.toRows.map fun row => (row.nonterminal, row.alternative)))).map some := by
  have hne := toRows_ne_nil hg
  rw [Store.storedRules, hrules, Grammar.mergeSort_toRows, ofRows, if_neg (by simpa using hne)]

/-- **When a stored grammar can be read back.** The rows of a grammar that was read from a text are
    read as a grammar with the same nonterminals in the same order, the same alternatives and the
    same start symbol exactly if no row is longer as a line than a line can be; otherwise they
    cannot be read. A row is at most two bytes longer than the line of the text that it comes from,
    so that only lines of the greatest lengths can come to that. -/
theorem rows_read_back_iff {text : Text} (hload : Grammar.load text = .ok g)
    (hwrite : (replace g).run s = (.ok (), s')) :
    ((∃ h, ofRows s'.storedRules = .ok (some h) ∧ h.Alike g) ↔
      ∀ r ∈ g.rules, r.describe.length ≤ maxLine) ∧
    ((∃ r ∈ g.rules, maxLine < r.describe.length) →
      ofRows s'.storedRules = .error .lineTooLong) ∧
    ∀ r ∈ g.rules, ∃ line ∈ lines text, r.describe.length ≤ line.length + 2 := by
  have hreadable := Grammar.load_readable hload
  have hrules : s'.tables.rules = g.toRows := by rw [(replace_spec hwrite).tables rfl]
  have hrows := ofRows_storedRules hreadable hrules
  have hlong (h : ∃ r ∈ g.rules, maxLine < r.describe.length) :
      ofRows s'.storedRules = .error .lineTooLong := by
    rw [hrows, Grammar.load_rows_of_long hreadable h]
    rfl
  refine ⟨⟨?_, fun hlength => ?_⟩, hlong, fun r hr => Grammar.exists_line_of_load hload hr⟩
  · rintro ⟨h, hh, -⟩ r hr
    refine Nat.not_lt.1 fun hlength => ?_
    rw [hlong ⟨r, hr, hlength⟩] at hh
    cases hh
  · refine ⟨_, ?_, g.alike_grouped⟩
    rw [hrows, Grammar.load_rows hreadable hlength]
    rfl

def joined : Grammar := .ofAlternatives [("a", ["b"]), ("a", ["c", "d"])]

theorem rows_read_back_joined : Grammar.load "a->b\na->c  d" = .ok joined ∧
    ∃ s', (replace joined).run {} = (.ok (), s') ∧
      ∃ h, ofRows s'.storedRules = .ok (some h) ∧ h.Alike joined := by
  have hload : Grammar.load "a->b\na->c  d" = .ok joined := by decide +kernel
  have hwrite : (replace joined).run {} = (.ok (), ((replace joined).run {}).2) := rfl
  exact ⟨hload, _, hwrite, (rows_read_back_iff hload hwrite).1.2 (by decide +kernel)⟩

/-! ## A grammar that cannot be read back -/

/-- A rule of 65535 bytes without blanks. -/
def compactLine : Text := "a->" ++ Grammar.longSymbol 65532

def compact : Grammar := .ofAlternatives [("a", [Grammar.longSymbol 65532])]

theorem isWord_compactLine : Text.IsWord compactLine := by
  refine Grammar.isWord_of_ascii (append_ne_nil_of_left_ne_nil (by decide) _) ?_
  rw [compactLine, all_append, Grammar.all_longSymbol, Bool.and_true]
  decide

theorem strip_compactLine : Text.strip compactLine = compactLine :=
  Text.strip_eq_self (fun g hg => isWord_compactLine.2 g (mem_of_mem_head? hg))
    fun g hg => isWord_compactLine.2 g (mem_of_mem_getLast? hg)

theorem isRule_compactLine : Grammar.IsRule compactLine "a" [[Grammar.longSymbol 65532]] := by
  have hsymbol := Grammar.isSymbol_longSymbol (k := 65532) (by decide)
  have hline : compactLine = Text.ofString "a" ++ ("->" ++ Grammar.longSymbol 65532) := by
    rw [← append_assoc]
    rfl
  refine ⟨"a", Grammar.longSymbol 65532, ⟨strip_compactLine.trans hline, fun l r h => ?_⟩,
    Text.fields_of_isWord Grammar.isName_a.word, ?_, ?_⟩
  · cases l with
    | nil =>
      -- the line does not start with the arrow
      rw [strip_compactLine, hline] at h
      have hhead : some (Text.byte 'a') = some (Text.byte '-') := congrArg head? h
      exact absurd hhead (by decide)
    | cons b l => exact Nat.succ_le_succ (Nat.zero_le _)
  · have hbar : ∀ b ∈ Grammar.longSymbol 65532, (b == Text.byte '|') = false := fun b hb => by
      rw [(mem_replicate.1 hb).2]
      decide
    rw [splitOn, splitOnP_eq_singleton hbar, map_singleton,
      Text.fields_of_isWord hsymbol.word]
  · exact forall_mem_singleton.2 (cons_ne_nil _ _)

theorem length_compactLine : compactLine.length = maxLine := by
  have hleft : (Text.ofString "a->").length = 3 := by decide
  rw [compactLine, length_append, hleft, Grammar.longSymbol, length_replicate, maxLine]

theorem load_compactLine : Grammar.load (compactLine ++ [Text.newline]) = .ok compact := by
  have hnewline : Text.newline ∉ compactLine := by
    rw [compactLine, mem_append, not_or]
    exact ⟨by decide, (Grammar.isSymbol_longSymbol (by decide)).newline⟩
  have hholds : Grammar.holdsRules compactLine := by
    rw [Grammar.holdsRules, strip_compactLine]
    rfl
  have hlines := Grammar.lines_singleton hnewline
  refine Grammar.load_eq_ok_iff.2 ⟨?_, [("a", [[Grammar.longSymbol 65532]])], ?_,
    cons_ne_nil _ _, rfl⟩
  · rw [hlines, forall_mem_singleton, length_compactLine]
  · rw [hlines, Grammar.Reads, filter_cons_of_pos hholds]
    exact .cons isRule_compactLine .nil

/-- **A grammar can make the store unreadable**: the text of the rule can be read, and its grammar can be
    written, but what is written cannot be read. -/
theorem compact_unreadable : Grammar.load (compactLine ++ [Text.newline]) = .ok compact ∧
    ∃ s', (replace compact).run {} = (.ok (), s') ∧
      ofRows s'.storedRules = .error .lineTooLong ∧
      (load.run { s' with plan := [] }).1 = .error (.grammar .lineTooLong) := by
  have hwrite : (replace compact).run {} = (.ok (), ((replace compact).run {}).2) := rfl
  have hreadable := Grammar.load_readable load_compactLine
  have hrules : ((replace compact).run {}).2.tables.rules = compact.toRows := by
    rw [(replace_spec hwrite).tables rfl]
  have hlong : ∃ r ∈ compact.rules, maxLine < r.describe.length := by
    refine ⟨⟨1, "a", [Grammar.longSymbol 65532]⟩, mem_cons_self, ?_⟩
    rw [Grammar.describe_eq, Grammar.length_ruleLine_longSymbol, maxLine]
    decide
  have hrows : ofRows ((replace compact).run {}).2.storedRules = .error .lineTooLong := by
    rw [ofRows_storedRules hreadable hrules, Grammar.load_rows_of_long hreadable hlong]
    rfl
  refine ⟨load_compactLine, _, hwrite, hrows, ?_⟩
  rw [load_run, hrows]
  rfl

end JavaToCpp.Migration
