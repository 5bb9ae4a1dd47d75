/-
  Columns, token by token.

  One more token adds one more column and leaves the others as they are.  So a column depends on
  the tokens before it only, and what holds of all columns is proved from one column to the next.
-/
import JavaToCpp.Proofs.Chart.Steps
import Mathlib.Data.List.Induction

namespace JavaToCpp.Chart

open List
open Grammar (Rule)

variable {g : Grammar} {ts : List Token}

def seed (g : Grammar) : Column := Column.empty.insert (State.begin 0 (topRule g))

def columns (g : Grammar) (ts : List Token) : Array Column := fill g (entries g) 0 #[] (seed g) ts

theorem sets_ofTokens (g : Grammar) (ts : List Token) :
    (ofTokens g ts).sets = (columns g ts).toList.map fun c => c.states.toList := rfl

/-! ## One more token -/

theorem fill_snoc (g : Grammar) (es : List Entry) (t : Token) :
    ∀ (ts : List Token) (i : Nat) (earlier : Array Column) (seeds : Column), earlier.size = i →
      ∃ c, (fill g es i earlier seeds ts)[i + ts.length]? = some c ∧
        fill g es i earlier seeds (ts ++ [t]) = (fill g es i earlier seeds ts).push
          (close es (fill g es i earlier seeds ts) (i + ts.length + 1)
            (capacity g (i + ts.length + 1)) 0 (scan es (i + ts.length) t c))
  | [], i, earlier, seeds, h => by
    subst h
    exact ⟨close es earlier earlier.size (capacity g earlier.size) 0 seeds, by simp [fill],
      rfl⟩
  | u :: ts, i, earlier, seeds, h => by
    simp only [cons_append, fill, length_cons]
    rw [show i + (ts.length + 1) = i + 1 + ts.length by omega]
    exact fill_snoc g es t ts (i + 1) _ _ (by simp [h])

theorem columns_nil (g : Grammar) :
    columns g [] = #[close (entries g) #[] 0 (capacity g 0) 0 (seed g)] := rfl

theorem columns_snoc (g : Grammar) (ts : List Token) (t : Token) :
    ∃ c, (columns g ts)[ts.length]? = some c ∧ columns g (ts ++ [t]) = (columns g ts).push
      (close (entries g) (columns g ts) (ts.length + 1) (capacity g (ts.length + 1)) 0
        (scan (entries g) ts.length t c)) := by
  obtain ⟨c, hc, h⟩ := fill_snoc g (entries g) t ts 0 #[] (seed g) rfl
  simp only [Nat.zero_add] at hc h
  exact ⟨c, hc, h⟩

theorem size_columns (g : Grammar) (ts : List Token) : (columns g ts).size = ts.length + 1 := by
  induction ts using reverseRecOn with
  | nil => rfl
  | append_singleton ts t ih =>
    obtain ⟨c, -, h⟩ := columns_snoc g ts t
    rw [h, Array.size_push, ih, length_append]
    rfl

/-- **A column depends on the tokens before it only.** -/
theorem columns_append (g : Grammar) (ts us : List Token) {i : Nat} (hi : i ≤ ts.length) :
    (columns g (ts ++ us))[i]? = (columns g ts)[i]? := by
  induction us using reverseRecOn with
  | nil => rw [append_nil]
  | append_singleton us u ih =>
    obtain ⟨c, -, h⟩ := columns_snoc g (ts ++ us) u
    have hlt : i < (columns g (ts ++ us)).size := by
      rw [size_columns, length_append]
      omega
    rw [← append_assoc, h, Array.getElem?_push_lt hlt, ← ih, Array.getElem?_eq_getElem hlt]

/-! ## The states of a column -/

theorem Reached.append {s : State} (h : Reached g ts s) (us : List Token) :
    Reached g (ts ++ us) s := by
  induction h with
  | start => exact .start
  | predict _ hn ht hr ih => exact .predict ih hn ht hr
  | scan _ hn ht hr hk ih =>
    refine .scan ih hn ht hr ?_
    rw [List.getElem?_append_left (List.getElem?_eq_some_iff.1 hk).1, hk]
  | complete _ _ hc hi hn ihs ihw => exact .complete ihs ihw hc hi hn

/-- The states at place `i` that steps lead to. -/
def At (g : Grammar) (ts : List Token) (i : Nat) (s : State) : Prop := Reached g ts s ∧ s.index = i

theorem size_le_of_at (hg : g.WellFormed) {i : Nat} {c : Column} (hc : c.Distinct)
    (h : ∀ s ∈ c.states, At g ts i s) : c.states.size ≤ capacity g i := by
  refine size_le_capacity hc fun s hs => ?_
  obtain ⟨hreached, rfl⟩ := h s hs
  exact hreached.fits hg

/-- Every column holds states that steps lead to. -/
def Sound (g : Grammar) (ts : List Token) (cols : Array Column) : Prop :=
  ∀ i c, cols[i]? = some c → ∀ s ∈ c.states, At g ts i s

theorem Sound.append {cols : Array Column} (h : Sound g ts cols) (us : List Token) :
    Sound g (ts ++ us) cols :=
  fun i c hc s hs => ⟨(h i c hc s hs).1.append us, (h i c hc s hs).2⟩

theorem Sound.push {cols : Array Column} (h : Sound g ts cols) {c : Column}
    (hc : ∀ s ∈ c.states, At g ts cols.size s) : Sound g ts (cols.push c) := by
  intro i d hd
  rw [Array.getElem?_push] at hd
  split at hd
  · cases hd
    subst_vars
    exact hc
  · exact h i d hd

theorem at_followers {earlier : Array Column} (he : Sound g ts earlier) {i : Nat} {s f : State}
    (hs : At g ts i s) (hf : f ∈ followers (entries g) earlier i s) : At g ts i f := by
  obtain ⟨hs, rfl⟩ := hs
  rcases mem_followers.1 hf with ⟨hc, c, hget, w, hw, hn, rfl⟩ | ⟨a, hn, ht, r, hr, rfl⟩
  · obtain ⟨hw, hi⟩ := he _ c hget w hw
    exact ⟨.complete hs hw hc hi hn, rfl⟩
  · exact ⟨.predict hs hn ht hr, rfl⟩

theorem at_scan {i : Nat} {k : Token} {c : Column} (hk : ts[i]? = some k)
    (hc : ∀ s ∈ c.states, At g ts i s) :
    ∀ s ∈ (scan (entries g) i k c).states, At g ts (i + 1) s := by
  intro f hf
  rcases Column.mem_of_mem_insertAll hf with hf | hf
  · simp [Column.empty] at hf
  · obtain ⟨s, hs, hf⟩ := mem_filterMap.1 hf
    obtain ⟨hs, rfl⟩ := hc s (Array.mem_toList_iff.1 hs)
    obtain ⟨a, r, hn, ht, hr, rfl⟩ := scanState?_eq_some.1 hf
    exact ⟨.scan hs hn ht hr hk, rfl⟩

theorem distinct_scan (es : List Entry) (i : Nat) (k : Token) (c : Column) :
    (scan es i k c).Distinct :=
  Column.distinct_empty.insertAll _

/-- What working through a column at place `i` gives. -/
structure WorkedOff (g : Grammar) (ts : List Token) (earlier : Array Column) (i : Nat)
    (seeds c : Column) : Prop where
  grows : seeds.Grows c
  distinct : c.Distinct
  sound : ∀ s ∈ c.states, At g ts i s
  closed : ∀ s ∈ c.states, ∀ f ∈ followers (entries g) earlier i s, f.key ∈ c.keys

theorem workedOff_close (hg : g.WellFormed) {earlier : Array Column} (he : Sound g ts earlier)
    {i : Nat} {seeds : Column} (hd : seeds.Distinct) (hs : ∀ s ∈ seeds.states, At g ts i s) :
    WorkedOff g ts earlier i seeds (close (entries g) earlier i (capacity g i) 0 seeds) := by
  have hP : ∀ s, At g ts i s → ∀ f ∈ followers (entries g) earlier i s, At g ts i f :=
    fun _ hs _ hf => at_followers he hs hf
  refine ⟨grows_close _ _ _, distinct_close _ _ hd, mem_close hP hs, ?_⟩
  exact close_closed hP (fun _ => size_le_of_at hg) (Nat.le_add_left _ _) hd hs
    fun m hm => absurd hm (Nat.not_lt_zero m)

/-! ## Saturated columns -/

/-- The columns hold states that steps lead to, no two of a column with the same key, and under
    its key every state that a step from one of these leads to. -/
structure Saturated (g : Grammar) (ts : List Token) (cols : Array Column) : Prop where
  sound : Sound g ts cols
  distinct : ∀ (i : Nat) (c : Column), cols[i]? = some c → c.Distinct
  start : ∃ c : Column, cols[0]? = some c ∧ (State.begin 0 (topRule g)).key ∈ c.keys
  closed : ∀ (i : Nat) (c : Column), cols[i]? = some c → ∀ s ∈ c.states,
    ∀ f ∈ followers (entries g) cols i s, f.key ∈ c.keys
  scanned : ∀ (i : Nat) (c : Column), cols[i]? = some c → ∀ s ∈ c.states, ∀ k, ts[i]? = some k →
    ∀ f, scanState? (entries g) i k s = some f →
      ∃ d : Column, cols[i + 1]? = some d ∧ f.key ∈ d.keys

theorem followers_push (hg : g.WellFormed) (cols : Array Column) {i : Nat} {s : State}
    (hs : At g ts i s) (hi : i ≤ cols.size) (c : Column) :
    followers (entries g) (cols.push c) i s = followers (entries g) cols i s := by
  unfold followers
  cases hn : s.next? with
  | some a => rfl
  | none =>
    have hlt : s.origin < cols.size := by
      have := (hs.1.fits hg).origin_lt hg hn
      rw [hs.2] at this
      omega
    simp only [Array.getElem?_push_lt hlt, Array.getElem?_eq_getElem hlt]

theorem saturated_nil (hg : g.WellFormed) : Saturated g [] (columns g []) := by
  have hseed : ∀ s ∈ (seed g).states, At g [] 0 s := by
    intro s hs
    rcases Column.mem_of_mem_insert hs with hs | rfl
    · simp [Column.empty] at hs
    · exact ⟨.start, rfl⟩
  have hempty : Sound g [] #[] := fun i c hc => by simp at hc
  have hw : WorkedOff g [] #[] 0 (seed g) (close (entries g) #[] 0 (capacity g 0) 0 (seed g)) :=
    workedOff_close hg hempty (Column.distinct_empty.insert _) hseed
  rw [columns_nil]
  refine ⟨?_, ?_, ⟨_, rfl, hw.grows.keys (Column.key_mem_insert _ _)⟩, ?_, ?_⟩
  · exact hempty.push hw.sound
  · intro i c hc
    obtain ⟨hi, rfl⟩ := Array.getElem?_eq_some_iff.1 hc
    simpa using hw.distinct
  · intro i c hc s hs f hf
    obtain ⟨hi, rfl⟩ := Array.getElem?_eq_some_iff.1 hc
    obtain rfl : i = 0 := by simpa using hi
    exact hw.closed s hs f (followers_push hg #[] (hw.sound s hs) (Nat.le_refl 0) _ ▸ hf)
  · intro i c _ s _ k hk
    simp at hk

theorem Saturated.snoc (hg : g.WellFormed) {t : Token} (h : Saturated g ts (columns g ts)) :
    Saturated g (ts ++ [t]) (columns g (ts ++ [t])) := by
  obtain ⟨c, hc, hcols⟩ := columns_snoc g ts t
  have hsize := size_columns g ts
  have hsound := h.sound.append [t]
  have hlast : (ts ++ [t])[ts.length]? = some t := by simp
  have hw := workedOff_close hg hsound (distinct_scan (entries g) ts.length t c)
    (at_scan hlast (hsound _ c hc))
  rw [hcols]
  -- a place is that of the new column or one before it
  have hplace : ∀ i d, ((columns g ts).push (close (entries g) (columns g ts) (ts.length + 1)
      (capacity g (ts.length + 1)) 0 (scan (entries g) ts.length t c)))[i]? = some d →
      (i = ts.length + 1 ∧ d = close (entries g) (columns g ts) (ts.length + 1)
        (capacity g (ts.length + 1)) 0 (scan (entries g) ts.length t c)) ∨
      (i ≤ ts.length ∧ (columns g ts)[i]? = some d) := by
    intro i d hd
    rw [Array.getElem?_push] at hd
    split at hd
    · exact Or.inl ⟨by omega, by cases hd; rfl⟩
    · have := (Array.getElem?_eq_some_iff.1 hd).1
      exact Or.inr ⟨by omega, hd⟩
  refine ⟨hsound.push (by rw [hsize]; exact hw.sound), ?_, ?_, ?_, ?_⟩
  · intro i d hd
    rcases hplace i d hd with ⟨-, rfl⟩ | ⟨-, hd⟩
    · exact hw.distinct
    · exact h.distinct i d hd
  · obtain ⟨d, hd, hkey⟩ := h.start
    exact ⟨d, by rw [Array.getElem?_push_lt (by omega), ← hd, Array.getElem?_eq_getElem], hkey⟩
  · intro i d hd s hs f hf
    rcases hplace i d hd with ⟨rfl, rfl⟩ | ⟨hi, hd⟩
    · rw [followers_push hg _ (hw.sound s hs) (by omega)] at hf
      exact hw.closed s hs f hf
    · rw [followers_push hg _ (h.sound i d hd s hs) (by omega)] at hf
      exact h.closed i d hd s hs f hf
  · intro i d hd s hs k hk f hf
    rcases hplace i d hd with ⟨rfl, rfl⟩ | ⟨hi, hd⟩
    · simp at hk
    · rcases Nat.lt_or_eq_of_le hi with hlt | rfl
      · rw [List.getElem?_append_left hlt] at hk
        obtain ⟨e, he, hkey⟩ := h.scanned i d hd s hs k hk f hf
        exact ⟨e, by rw [Array.getElem?_push_lt (by omega), ← he, Array.getElem?_eq_getElem], hkey⟩
      · rw [hlast] at hk
        rw [hc] at hd
        cases hk
        cases hd
        refine ⟨_, by rw [← hsize, Array.getElem?_push_size], hw.grows.keys ?_⟩
        exact Column.key_mem_insertAll _ (mem_filterMap.2 ⟨s, Array.mem_toList_iff.2 hs, hf⟩)

theorem columns_saturated (hg : g.WellFormed) (ts : List Token) :
    Saturated g ts (columns g ts) := by
  induction ts using reverseRecOn with
  | nil => exact saturated_nil hg
  | append_singleton ts t ih => exact ih.snoc hg

end JavaToCpp.Chart
