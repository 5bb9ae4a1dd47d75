/-
  Characters on their way from the source to the output.

  A token ends where a character ends, and what is written beside the texts of tokens is ASCII.
-/
import JavaToCpp.Proofs.Pipeline.ErrorLines
import JavaToCpp.Proofs.Text.Encoded

open List

namespace JavaToCpp

open Text (isUtf8 isUtf8_append isUtf8_append_iff isUtf8_of_ascii)

/-! ## Tokens -/

/-- **A match takes whole characters** of a text of whole characters. -/
theorem Pattern.Way.isUtf8 {p : Program} {t : Text} {w : Thread} {n : Nat} (h : Way p t w n)
    (ht : Text.isUtf8 t) : Text.isUtf8 (t.take n) ∧ Text.isUtf8 (t.drop n) := by
  induction h with
  | start => exact ⟨Text.isUtf8_nil, ht⟩
  | require _ _ _ ih => exact ih
  | enter _ _ ih => exact ih
  | first _ _ ih => exact ih
  | second _ _ ih => exact ih
  | jump _ _ ih => exact ih
  | @take w n set b rest _ _ hrest _ ih =>
    -- the only step that moves on in the text, by one character
    obtain ⟨htake, hdrop⟩ := ih
    rw [hrest, Text.isUtf8_cons, Bool.and_eq_true, Bool.not_eq_true'] at hdrop
    have hsplit : t.take (n + 1 + (Text.decodeHead b rest).2) =
        t.take n ++ b :: rest.take (Text.decodeHead b rest).2 := by
      rw [Nat.add_assoc, take_add, hrest, Nat.add_comm 1, take_succ_cons]
    have hbehind : t.drop (n + 1 + (Text.decodeHead b rest).2) = rest.drop (Text.decodeHead b rest).2 := by
      rw [Nat.add_assoc, ← drop_drop, hrest, Nat.add_comm 1, drop_succ_cons]
    rw [hsplit, hbehind]
    exact ⟨isUtf8_append htake (Text.isUtf8_head hdrop.1), hdrop.2⟩

namespace Token

variable {table : Table} {last rest : Text}

theorem isUtf8_of_match? {x : Text} {rule : Rule} (h : table.match? (x ++ rest) = some (rule, x.length))
    (ht : isUtf8 (x ++ rest)) : isUtf8 x ∧ isUtf8 rest := by
  obtain ⟨m, hm, -, htaken⟩ := match?_eq_some_iff.1 h
  obtain ⟨i, hway, -⟩ := Pattern.ends_of_match? hm
  have hparts := hway.isUtf8 ht
  rwa [htaken, take_left, drop_left] at hparts

theorem isUtf8_of_isBlank {rune : Nat} (h : Text.isBlank rune) : isUtf8 (Text.encodeRune rune) := by
  obtain ⟨b, more, hspelled, -, hdecode⟩ := Text.exists_encodeRune_of_isBlank h
  have hdecode := hdecode []
  rw [append_nil] at hdecode
  have hdecodable : Text.undecodable b more = false := Text.undecodable_of_isBlank (by rwa [hdecode])
  rw [hspelled, Text.isUtf8_cons, hdecodable, hdecode, drop_length, Text.isUtf8_nil]
  rfl

theorem Gap.isUtf8_rest {gap : Text} (h : Gap table rest gap) (ht : isUtf8 (gap ++ rest)) : isUtf8 rest := by
  induction h with
  | nil => exact ht
  | blank hblank _ ih =>
    rw [append_assoc] at ht
    exact ih ((isUtf8_append_iff (isUtf8_of_isBlank hblank)).1 ht)
  | skipped _ hmatch _ ih =>
    rw [append_assoc] at ht
    exact ih (isUtf8_of_match? hmatch ht).2

theorem Tiled.isUtf8_text {before : Text} {pieces : List (Text × Token)}
    (h : Tiled table last rest before pieces) (ht : isUtf8 (weave pieces last ++ rest)) :
    ∀ p ∈ pieces, isUtf8 p.2.text := by
  induction h with
  | last hgap => simp
  | @token before gap k rule pieces hgap hmatch hskip hcategory hpos hline htiled ih =>
    simp only [weave, append_assoc] at ht
    obtain ⟨htext, hrest⟩ := isUtf8_of_match? hmatch (hgap.isUtf8_rest ht)
    exact forall_mem_cons.2 ⟨htext, ih hrest⟩

end Token

open Java in
theorem isUtf8_of_tokenize {source : Text} {ts : List Token} (h : tokenize source = .ok ts)
    (hsource : isUtf8 source) : ∀ k ∈ ts, isUtf8 k.text := by
  obtain ⟨table, htable, -⟩ := exists_lexicon
  obtain ⟨pieces, last, rfl, rfl, htiled⟩ := exists_tiled htable h
  intro k hk
  obtain ⟨p, hp, rfl⟩ := mem_map.1 hk
  exact htiled.isUtf8_text (by rwa [append_nil]) p hp

/-! ## Pages -/

namespace Cpp

structure Page.Spelled (p : Page) : Prop where
  lines : ∀ l ∈ p.lines, isUtf8 l
  pending : isUtf8 p.pending

theorem isUtf8_trimmed {t : Text} (h : isUtf8 t) : isUtf8 (Page.trimmed t) := by
  induction t using reverseRecOn with
  | nil => exact h
  | append_singleton t b ih =>
    rw [Page.trimmed, Text.trimRight, reverse_append, reverse_singleton, singleton_append,
      dropWhile_cons]
    split
    · rename_i hb
      obtain rfl := eq_of_beq hb
      exact ih (Text.isUtf8_of_append_ascii (by decide) h).1
    · simpa using h

theorem isUtf8_indented {line : Text} (depth : Nat) (h : isUtf8 line) :
    isUtf8 (Page.indented depth line) := by
  have hindent : isUtf8 (Text.times depth "    ") := by
    rw [Text.times, ← flatMap_id]
    refine Text.isUtf8_flatMap fun t ht => ?_
    rw [eq_of_mem_replicate ht]
    exact isUtf8_of_ascii (by decide)
  exact isUtf8_append hindent h

namespace Page.Spelled

variable {p : Page}

theorem write (h : p.Spelled) {t : Text} (ht : isUtf8 t) : (p.write t).Spelled :=
  ⟨h.lines, isUtf8_append h.pending ht⟩

theorem trim (h : p.Spelled) : p.trim.Spelled := ⟨h.lines, isUtf8_trimmed h.pending⟩

theorem endLine (h : p.Spelled) : p.endLine.Spelled := by
  rw [Page.endLine]
  split
  · exact ⟨h.lines, Text.isUtf8_nil⟩
  · refine ⟨fun l hl => ?_, Text.isUtf8_nil⟩
    rcases mem_append.1 hl with hl | hl
    · exact h.lines l hl
    · rw [mem_singleton.1 hl]
      exact isUtf8_indented _ (isUtf8_trimmed h.pending)

theorem withDepth (h : p.Spelled) (depth : Nat) : Spelled { p with depth } := ⟨h.lines, h.pending⟩

theorem openBrace (h : p.Spelled) : p.openBrace.Spelled :=
  (h.endLine.write (isUtf8_of_ascii (by decide))).endLine.withDepth _

theorem closeBrace (h : p.Spelled) : p.closeBrace.Spelled :=
  ((h.endLine.withDepth _).write (isUtf8_of_ascii (by decide))).endLine

theorem text (h : p.Spelled) : isUtf8 p.text :=
  Text.isUtf8_flatMap fun l hl => isUtf8_append (h.endLine.lines l hl) (isUtf8_of_ascii (by decide))

end Page.Spelled

theorem isUtf8_typeName {keyword : Text} (h : isUtf8 keyword) : isUtf8 (typeName keyword) := by
  rw [typeName]
  split
  · exact isUtf8_of_ascii (by decide)
  · exact h

theorem Emitter.spelled_emit {e : Emitter} {k : Token} (h : e.page.Spelled) (hk : isUtf8 k.text) :
    (e.emit k).page.Spelled := by
  have hliteral : ∀ {t : Text}, t.all (· < 0x80) → (e.page.write t).Spelled :=
    fun ht => h.write (isUtf8_of_ascii ht)
  have htrimmed : ∀ {t : Text}, t.all (· < 0x80) → (e.page.trim.write t).Spelled :=
    fun ht => h.trim.write (isUtf8_of_ascii ht)
  have hblank : isUtf8 (Text.ofString " ") := isUtf8_of_ascii (by decide)
  rw [Emitter.emit]
  split
  · exact h.openBrace
  · exact h.closeBrace
  · rw [Emitter.semicolon]
    split
    · exact htrimmed (by decide)
    · exact (htrimmed (by decide)).endLine
  · rw [Emitter.openParen]
    split_ifs <;> exact hliteral (by decide)
  · rw [Emitter.closeParen]
    split_ifs <;> exact htrimmed (by decide)
  · split <;> exact hliteral (by decide)
  · exact hliteral (by decide)
  · exact hliteral (by decide)
  · exact hliteral (by decide)
  · exact h.write (isUtf8_append (isUtf8_typeName hk) hblank)
  · exact hliteral (by decide)
  · exact h.write (isUtf8_append (isUtf8_append hblank hk) hblank)
  · exact hliteral (by decide)
  · exact h.write (isUtf8_append hk hblank)
  · exact h.write hk

theorem isUtf8_section {header : Text} {body : List Token} (hheader : isUtf8 header)
    (hbody : ∀ k ∈ body, isUtf8 k.text) : isUtf8 (section_ header body) := by
  have hrun : ∀ {ks : List Token} {e : Emitter}, e.page.Spelled → (∀ k ∈ ks, isUtf8 k.text) →
      (ks.foldl Emitter.emit e).page.Spelled := by
    intro ks
    induction ks with
    | nil => exact fun h _ => h
    | cons k ks ih =>
      intro e h hks
      obtain ⟨hk, hks⟩ := forall_mem_cons.1 hks
      exact ih (Emitter.spelled_emit h hk) hks
  exact (hrun ⟨by simp [Page.write], by simpa [Page.write] using hheader⟩ hbody).text

end Cpp

/-! ## Trees -/

namespace Tree

mutual

theorem leaf_mem_nodes {k : Token} : ∀ {t : Tree}, k ∈ t.tokens → leaf k ∈ t.nodes
  | leaf k', h => by
    rw [mem_singleton.1 h]
    exact mem_nodes_self _
  | branch l cs, h => mem_cons_of_mem _ (leaf_mem_nodesOf h)
  | hole, h => absurd h (not_mem_nil)

theorem leaf_mem_nodesOf {k : Token} : ∀ {cs : List Tree}, k ∈ tokensOf cs → leaf k ∈ nodesOf cs
  | [], h => absurd h (not_mem_nil)
  | c :: cs, h => by
    rcases mem_append.1 h with h | h
    · exact mem_append_left _ (leaf_mem_nodes h)
    · exact mem_append_right _ (leaf_mem_nodesOf h)

end

def Spelled (t : Tree) : Prop := ∀ k, leaf k ∈ t.nodes → isUtf8 k.text

variable {t c : Tree}

theorem spelled_hole : hole.Spelled := by
  intro k hk
  cases mem_singleton.1 hk

namespace Spelled

theorem of_mem (h : t.Spelled) (hc : c ∈ t.nodes) : c.Spelled := fun k hk => h k (nodes_subset_of_mem hc hk)

theorem of_mem_children (h : t.Spelled) (hc : c ∈ t.children) : c.Spelled :=
  h.of_mem (nodes_subset hc c.mem_nodes_self)

theorem tokens (h : t.Spelled) : ∀ k ∈ t.tokens, isUtf8 k.text := fun k hk => h k (leaf_mem_nodes hk)

theorem text (h : t.Spelled) : isUtf8 t.text := by
  rw [Tree.text]
  cases hfirst : t.first? with
  | none => exact Text.isUtf8_nil
  | some k => exact h.tokens k (mem_tokens_of_first? hfirst)

theorem child (h : t.Spelled) (i : Nat) : (t.child i).Spelled := by
  rw [Tree.child]
  cases hi : t.children[i]? with
  | none => exact spelled_hole
  | some c => exact h.of_mem_children (mem_of_getElem? hi)

theorem find {l : Text} (h : t.Spelled) (hfind : t.find l = .ok c) : c.Spelled := by
  have hlist : ∀ {cs : List Tree}, (∀ c ∈ cs, c.Spelled) → findIn l cs = .ok c → c.Spelled := by
    intro cs
    induction cs with
    | nil =>
      rintro - ⟨⟩
      exact spelled_hole
    | cons c' cs ih =>
      intro hcs hfind
      obtain ⟨hc', hcs⟩ := forall_mem_cons.1 hcs
      obtain ⟨l', -, hfind⟩ := bind_eq_ok.1 hfind
      split at hfind
      · cases hfind
        exact hc'
      · exact ih hcs hfind
  exact hlist (fun c hc => h.of_mem_children hc) hfind

theorem flatten {item : Text} {items : List Tree} (h : t.Spelled) (hitems : t.flatten item = .ok items) :
    ∀ c ∈ items, c.Spelled := by
  fun_induction Tree.flatten item t generalizing items with
  | case1 => cases hitems
  | case2 l cs | case4 l cs =>
    cases hitems
    exact fun c hc => h.of_mem (mem_nodes_of_filter hc).1
  | case3 l cs _ _ next hn ih =>
    obtain ⟨more, hmore, rfl⟩ := map_eq_ok.1 hitems
    intro c hc
    rcases mem_append.1 hc with hc | hc
    · exact h.of_mem (mem_nodes_of_filter hc).1
    · exact ih (h.of_mem_children (mem_of_lastWith? hn)) hmore c hc
  | case5 | case6 =>
    cases hitems
    simp

end Spelled

end Tree

/-! ## Programs -/

namespace Cpp

variable {t : Tree} {text : Text}

theorem isUtf8_paramText (h : t.Spelled) (htext : paramText t = .ok text) : isUtf8 text := by
  obtain ⟨type, htype, htext⟩ := bind_eq_ok.1 htext
  obtain ⟨id, hid, htext⟩ := bind_eq_ok.1 htext
  cases htext
  exact isUtf8_append (isUtf8_append (isUtf8_typeName (h.find htype).text) (isUtf8_of_ascii (by decide)))
    (h.find hid).text

theorem isUtf8_headerOf (h : t.Spelled) (htext : headerOf t = .ok text) : isUtf8 text := by
  obtain ⟨returns, hreturns, htext⟩ := bind_eq_ok.1 htext
  obtain ⟨name, hname, htext⟩ := bind_eq_ok.1 htext
  obtain ⟨list, hlist, htext⟩ := bind_eq_ok.1 htext
  obtain ⟨params, hparams, htext⟩ := bind_eq_ok.1 htext
  obtain ⟨texts, htexts, htext⟩ := bind_eq_ok.1 htext
  cases htext
  have hspelled := (h.find hlist).flatten hparams
  have hjoin : isUtf8 (Text.join ", " texts) := by
    refine Text.isUtf8_join (isUtf8_of_ascii (by decide)) fun u hu => ?_
    obtain ⟨c, hc, hu⟩ := exists_of_mem_mapM htexts hu
    exact isUtf8_paramText (hspelled c hc) hu
  refine isUtf8_append (isUtf8_append (isUtf8_append (isUtf8_append (isUtf8_append ?_ ?_) ?_) ?_) hjoin) ?_
  · exact isUtf8_typeName (h.find hreturns).text
  · exact isUtf8_of_ascii (by decide)
  · exact (h.find hname).text
  · exact isUtf8_of_ascii (by decide)
  · exact isUtf8_of_ascii (by decide)

theorem isUtf8_partOf {part : Part} (h : t.Spelled) (hpart : partOf t = .ok part)
    (htext : part.function? = some text ∨ part.entry? = some text) : isUtf8 text := by
  obtain ⟨l, -, hpart⟩ := bind_eq_ok.1 hpart
  have hchild := h.child 0
  split at hpart
  · obtain ⟨block, hblock, hpart⟩ := bind_eq_ok.1 hpart
    cases hpart
    rcases htext with htext | htext
    · cases htext
    · cases htext
      exact isUtf8_section (isUtf8_of_ascii (by decide)) (hchild.find hblock).tokens
  · split at hpart
    · obtain ⟨header, hheader, hpart⟩ := bind_eq_ok.1 hpart
      obtain ⟨block, hblock, hpart⟩ := bind_eq_ok.1 hpart
      cases hpart
      rcases htext with htext | htext
      · cases htext
        exact isUtf8_section (isUtf8_headerOf hchild hheader) (hchild.find hblock).tokens
      · cases htext
    · cases hpart
      rcases htext with htext | htext
      · cases htext
      · cases htext

theorem isUtf8_sections {parts : List Part}
    (h : ∀ part ∈ parts, part.function? = some text ∨ part.entry? = some text → isUtf8 text)
    (htext : text ∈ sections parts) : isUtf8 text := by
  rcases mem_append.1 htext with htext | htext
  · obtain ⟨part, hpart, htext⟩ := mem_filterMap.1 htext
    exact h part hpart (.inl htext)
  · have hlast := mem_of_getLast? (Option.mem_toList.1 htext)
    obtain ⟨part, hpart, htext⟩ := mem_filterMap.1 hlast
    exact h part hpart (.inr htext)

theorem isUtf8_generate {root : Tree} {output : Text} (h : root.Spelled)
    (houtput : generate root = .ok output) :
    isUtf8 output := by
  rw [generate] at houtput
  split at houtput
  · cases houtput
  split at houtput
  · cases houtput
  rename_i parts hparts
  cases houtput
  obtain ⟨body, hbody, hparts⟩ := bind_eq_ok.1 hparts
  obtain ⟨members, hmembers, hparts⟩ := bind_eq_ok.1 hparts
  have hspelled := (h.find hbody).flatten hmembers
  have hsections : ∀ text ∈ sections parts, isUtf8 text := by
    intro text htext
    refine isUtf8_sections (fun part hpart hsome => ?_) htext
    obtain ⟨m, hm, hpart⟩ := exists_of_mem_mapM hparts hpart
    exact isUtf8_partOf (hspelled m hm) hpart hsome
  refine isUtf8_append (isUtf8_append (isUtf8_append ?_ ?_) ?_) (Text.isUtf8_join ?_ hsections)
  · exact isUtf8_of_ascii (by decide)
  · split
    · exact isUtf8_of_ascii (by decide)
    · exact Text.isUtf8_nil
  · exact isUtf8_of_ascii (by decide)
  · exact isUtf8_of_ascii (by decide)

end Cpp

/-! ## Runs -/

namespace Pipeline

theorem mapError_eq_ok {ε δ α : Type} {x : Except ε α} {f : ε → δ} {a : α} :
    x.mapError f = .ok a ↔ x = .ok a := by
  cases x <;> simp [Except.mapError]

theorem exists_tree_of_run {g : Grammar} {checked : Bool} {source : Text} {p : Product}
    (h : run g checked source = .ok p) : ∃ ts t, Java.tokenize source = .ok ts ∧
      (Chart.ofTokens g ts).tree?.getD .hole = t ∧ Cpp.generate t = .ok p.output := by
  obtain ⟨c, hc, h⟩ := bind_eq_ok.1 h
  obtain ⟨ts, hts, rfl⟩ := map_eq_ok.1 hc
  obtain ⟨t, ht, h⟩ := bind_eq_ok.1 h
  have htree : (Chart.ofTokens g ts).tree?.getD .hole = t := by
    rw [treeOf] at ht
    split at ht
    · cases ht
    · exact Except.ok.inj ht
  obtain ⟨output, hgenerate, rfl⟩ : ∃ output, generate t = .ok output ∧ p.output = output := by
    cases checked with
    | true =>
      obtain ⟨⟨⟩, -, h⟩ := bind_eq_ok.1 h
      obtain ⟨output, hgenerate, h⟩ := bind_eq_ok.1 h
      cases h
      exact ⟨output, hgenerate, rfl⟩
    | false =>
      obtain ⟨output, hgenerate, h⟩ := bind_eq_ok.1 h
      cases h
      exact ⟨output, hgenerate, rfl⟩
  exact ⟨ts, t, mapError_eq_ok.1 hts, htree, mapError_eq_ok.1 hgenerate⟩

/-- **The output of a source of whole characters is whole characters.** -/
theorem isUtf8_output {g : Grammar} (hg : g.WellFormed) {checked : Bool} {source : Text} {p : Product}
    (h : run g checked source = .ok p) (hsource : isUtf8 source) : isUtf8 p.output := by
  obtain ⟨ts, t, htokens, ht, houtput⟩ := exists_tree_of_run h
  refine Cpp.isUtf8_generate ?_ houtput
  cases htree : (Chart.ofTokens g ts).tree? with
  | none =>
    rw [← ht, htree]
    exact Tree.spelled_hole
  | some root =>
    obtain ⟨-, hfollows⟩ := Chart.follows_of_tree? hg htree
    rw [← ht, htree]
    exact fun k hk => isUtf8_of_tokenize htokens hsource k (hfollows.token k hk).1

end Pipeline

end JavaToCpp
