/-
  Maps that are stored and scanned again.

  What is stored for a map is read as this map, unless it nests too deep, and its members are put into
  those that are there before.  So a name stays that the destination has and the map has not.
-/
import JavaToCpp.Json.Map
import JavaToCpp.Proofs.Json.Numbers
import Mathlib.Data.List.Perm.Basic

namespace JavaToCpp.Json

open List Text

/-! ## Members in order -/

/-- Every name once, in the order of the names. -/
def Ordered (ms : List (Text × Json)) : Prop := ms.Pairwise fun x y => (x.1 : List UInt8) < y.1

variable {ms before : List (Text × Json)} {name : Text} {v : Json} {x : Text × Json}

theorem Ordered.ne (h : Ordered ((name, v) :: ms)) (hx : x ∈ ms) : x.1 ≠ name := by
  intro heq
  have hlt := (pairwise_cons.1 h).1 x hx
  simp only [heq] at hlt
  exact absurd hlt (List.lt_irrefl _)

theorem Ordered.ext {ns : List (Text × Json)} (hms : Ordered ms) (hns : Ordered ns)
    (h : ∀ x, x ∈ ms ↔ x ∈ ns) : ms = ns := by
  have hnodup : ∀ {l : List (Text × Json)}, Ordered l → l.Nodup := fun hl =>
    hl.imp fun hlt heq => absurd (heq ▸ hlt) (List.lt_irrefl _)
  refine Perm.eq_of_pairwise (fun x y _ _ hxy hyx => ?_) hms hns
    ((perm_ext_iff_of_nodup (hnodup hms) (hnodup hns)).2 h)
  exact absurd (List.lt_trans hxy hyx) (List.lt_irrefl _)

theorem mem_put (h : Ordered ms) : x ∈ put name v ms ↔ x = (name, v) ∨ x ∈ ms ∧ x.1 ≠ name := by
  induction ms with
  | nil => simp [put]
  | cons m ms ih =>
    obtain ⟨n, w⟩ := m
    have hrest : Ordered ms := (pairwise_cons.1 h).2
    have hne : x ∈ ms → x.1 ≠ n := h.ne
    rw [put]
    split
    · grind
    · split
      · rename_i hn hle
        have hlt : x ∈ ms → x.1 ≠ name := by
          rintro hx rfl
          exact absurd ((pairwise_cons.1 h).1 x hx) (List.not_lt.2 (le_iff.1 hle))
        grind
      · grind

theorem Ordered.put (h : Ordered ms) (name : Text) (v : Json) : Ordered (put name v ms) := by
  induction ms with
  | nil => exact pairwise_singleton _ _
  | cons m ms ih =>
    obtain ⟨n, w⟩ := m
    obtain ⟨hfirst, hrest⟩ := pairwise_cons.1 h
    rw [Json.put]
    split
    · rename_i hn
      subst hn
      exact pairwise_cons.2 ⟨hfirst, hrest⟩
    · rename_i hn
      split
      · rename_i hle
        have hlt : (name : List UInt8) < n :=
          List.not_le.1 fun hge => hn (List.le_antisymm hge (le_iff.1 hle))
        exact pairwise_cons.2 ⟨forall_mem_cons.2 ⟨hlt, fun y hy => List.lt_trans hlt (hfirst y hy)⟩, h⟩
      · rename_i hle
        refine pairwise_cons.2 ⟨fun y hy => ?_, ih hrest⟩
        rcases (mem_put hrest).1 hy with rfl | ⟨hy, -⟩
        · exact List.not_le.1 (mt le_iff.2 hle)
        · exact hfirst y hy

theorem Ordered.merge : ∀ (ms : List (Text × Json)) {before : List (Text × Json)}, Ordered before →
    Ordered (Map.merge before ms)
  | [], _, h => h
  | (name, v) :: ms, _, h => Ordered.merge ms (h.put name v)

/-- **What is put into a map**: the new members, and the old ones of other names. -/
theorem mem_merge (h : Ordered before) (hms : Ordered ms) :
    x ∈ Map.merge before ms ↔ x ∈ ms ∨ x ∈ before ∧ ∀ y ∈ ms, y.1 ≠ x.1 := by
  induction ms generalizing before with
  | nil => simp [Map.merge]
  | cons m ms ih =>
    obtain ⟨name, v⟩ := m
    have hne : ∀ y ∈ ms, y.1 ≠ name := fun y => hms.ne
    have hstep : Map.merge before ((name, v) :: ms) = Map.merge (put name v before) ms := rfl
    rw [hstep, ih (h.put name v) (pairwise_cons.1 hms).2, mem_put h]
    simp only [mem_cons, forall_eq_or_imp]
    grind

theorem merge_eq_iff (h : Ordered before) (hms : Ordered ms) :
    Map.merge before ms = ms ↔ ∀ x ∈ before, ∃ y ∈ ms, y.1 = x.1 := by
  constructor
  · intro heq x hx
    by_contra hnone
    push Not at hnone
    have hmem := (mem_merge h hms).2 (.inr ⟨hx, hnone⟩)
    exact hnone x (heq ▸ hmem) rfl
  · intro hsub
    refine (Ordered.merge ms h).ext hms fun x => ?_
    rw [mem_merge h hms]
    grind

/-! ## What a map holds -/

mutual

/-- A value of a map: its numbers are finite ones as they are written, its strings are UTF-8, and its
    objects are maps again. -/
def Held : Json → Prop
  | null => True
  | bool _ => True
  | number literal => ∃ x : Binary64, x.Finite ∧ literal = writeNumber x
  | string t => isUtf8 t
  | array items => HeldItems items
  | object members => Ordered members ∧ HeldMembers members

def HeldItems : List Json → Prop
  | [] => True
  | v :: vs => Held v ∧ HeldItems vs

def HeldMembers : List (Text × Json) → Prop
  | [] => True
  | (name, v) :: ms => isUtf8 name ∧ Held v ∧ HeldMembers ms

end

theorem toMap_eq (h : Ordered ms) : toMap ms = ms := (merge_eq_iff Pairwise.nil h).2 (by simp)

mutual

/-- Neither reading nor settling changes what a map holds. -/
theorem settle_held : ∀ {v : Json}, Held v → recoded v = v ∧ settle v = some v
  | null, _ => ⟨rfl, rfl⟩
  | bool _, _ => ⟨rfl, rfl⟩
  | number literal, h => by
    rw [Held] at h
    obtain ⟨x, hx, rfl⟩ := h
    exact ⟨rfl, by rw [settle, (toBinary64?_writeNumber hx).2, Option.map_some]⟩
  | string t, h => by
    rw [Held] at h
    exact ⟨by rw [recoded, toUtf8_eq_self h], rfl⟩
  | array items, h => by
    rw [Held] at h
    obtain ⟨hread, hsettle⟩ := settleItems_held h
    exact ⟨by rw [recoded, hread], by rw [settle, hsettle, Option.map_some]⟩
  | object members, h => by
    rw [Held] at h
    obtain ⟨hread, hsettle⟩ := settleMembers_held h.2
    exact ⟨by rw [recoded, hread], by rw [settle, hsettle, Option.map_some, toMap_eq h.1]⟩

theorem settleItems_held : ∀ {vs : List Json}, HeldItems vs → recodedItems vs = vs ∧ settleItems vs = some vs
  | [], _ => ⟨rfl, rfl⟩
  | v :: vs, h => by
    rw [HeldItems] at h
    obtain ⟨hread, hsettle⟩ := settle_held h.1
    obtain ⟨hreads, hsettles⟩ := settleItems_held h.2
    exact ⟨by rw [recodedItems, hread, hreads], by rw [settleItems, hsettle, hsettles]; rfl⟩

theorem settleMembers_held : ∀ {ms : List (Text × Json)}, HeldMembers ms →
    recodedMembers ms = ms ∧ settleMembers ms = some ms
  | [], _ => ⟨rfl, rfl⟩
  | (name, v) :: ms, h => by
    rw [HeldMembers] at h
    obtain ⟨hread, hsettle⟩ := settle_held h.2.1
    obtain ⟨hreads, hsettles⟩ := settleMembers_held h.2.2
    exact ⟨by rw [recodedMembers, toUtf8_eq_self h.1, hread, hreads],
      by rw [settleMembers, hsettle, hsettles]; rfl⟩

end

/-! ## Values that nest too deep -/

theorem Held.number (h : Held v) : ∀ t, v = .number t → Number t := by
  rintro t rfl
  rw [Held] at h
  obtain ⟨x, hx, rfl⟩ := h
  exact (toBinary64?_writeNumber hx).1

theorem readValue_closed {fuel depth : Nat} {b : UInt8} (hdepth : maxDepth ≤ depth) (hb : b = 91 ∨ b = 123)
    (t : Text) : readValue (fuel + 1) depth (b :: t) = .error .malformed := by
  rcases hb with rfl | rfl
  · rw [readValue.eq_def]
    simp only [skipSpace_cons (by decide : isSpace 91 = false), if_pos hdepth]
  · rw [readValue.eq_def]
    simp only [skipSpace_cons (by decide : isSpace 123 = false), if_pos hdepth]

theorem join_stops (w : Text) (ws : List Text) {b : UInt8} (hb : b = 93 ∨ b = 125) (t : Text) :
    w.length ≤ (join [44] (w :: ws)).length ∧
      ∃ more, join [44] (w :: ws) ++ b :: t = w ++ more ∧ Stops more := by
  cases ws with
  | nil =>
    rw [join_singleton]
    exact ⟨le_rfl, b :: t, rfl, stops_cons (.inr hb) t⟩
  | cons u ws =>
    rw [join_cons_cons]
    exact ⟨by simp, 44 :: (join [44] (u :: ws) ++ b :: t), by simp, stops_cons (.inl rfl) _⟩

mutual

theorem readValue_deep : ∀ (v : Json) {depth fuel : Nat} {rest : Text}, Held v → ¬ Proper depth v →
    Stops rest → 2 * (write v).length ≤ fuel → readValue fuel depth (write v ++ rest) = .error .malformed
  | null, _, _, _, _, h, _, _ => absurd (by rw [Proper]; trivial) h
  | bool _, _, _, _, _, h, _, _ => absurd (by rw [Proper]; trivial) h
  | number _, _, _, _, hv, h, _, _ => absurd (by rw [Proper]; exact hv.number _ rfl) h
  | string _, _, _, _, _, h, _, _ => absurd (by rw [Proper]; trivial) h
  | array items, depth, fuel, rest, hv, h, hrest, hfuel => by
    have hlength := congrArg length (write_array items [])
    simp only [length_append, length_cons, length_nil] at hlength
    obtain ⟨n, rfl⟩ : ∃ n, fuel = n + 1 := ⟨fuel - 1, by omega⟩
    rw [Held] at hv
    rw [Proper] at h
    by_cases hdepth : depth < maxDepth
    · have hdeep : ¬ ProperItems (depth + 1) items := fun hitems => h ⟨hdepth, hitems⟩
      cases items with
      | nil => exact absurd (by rw [ProperItems]; trivial) hdeep
      | cons v vs =>
        have hfirst := hv
        rw [HeldItems] at hfirst
        rw [readValue_items hdepth hfirst.1.number, readItems_deep (v :: vs) hv hdeep (by omega)]
    · rw [write_array, readValue_closed (Nat.le_of_not_lt hdepth) (.inl rfl)]
  | object members, depth, fuel, rest, hv, h, hrest, hfuel => by
    have hlength := congrArg length (write_object members [])
    simp only [length_append, length_cons, length_nil] at hlength
    obtain ⟨n, rfl⟩ : ∃ n, fuel = n + 1 := ⟨fuel - 1, by omega⟩
    rw [Held] at hv
    rw [Proper] at h
    by_cases hdepth : depth < maxDepth
    · have hdeep : ¬ ProperMembers (depth + 1) members := fun hmembers => h ⟨hdepth, hmembers⟩
      cases members with
      | nil => exact absurd (by rw [ProperMembers]; trivial) hdeep
      | cons m ms =>
        obtain ⟨name, v⟩ := m
        rw [readValue_members hdepth, readMembers_deep ((name, v) :: ms) hv.2 hdeep (by omega)]
    · rw [write_object, readValue_closed (Nat.le_of_not_lt hdepth) (.inr rfl)]

theorem readItems_deep : ∀ (vs : List Json) {depth fuel : Nat} {found : List Json} {rest : Text},
    HeldItems vs → ¬ ProperItems depth vs → 2 * (join [44] (writeItems vs)).length + 1 ≤ fuel →
    readItems fuel depth found (join [44] (writeItems vs) ++ 93 :: rest) = .error .malformed
  | [], _, _, _, _, _, h, _ => absurd (by rw [ProperItems]; trivial) h
  | v :: vs, depth, fuel, found, rest, hvs, h, hfuel => by
    obtain ⟨n, rfl⟩ : ∃ n, fuel = n + 1 := ⟨fuel - 1, by omega⟩
    rw [HeldItems] at hvs
    rw [ProperItems] at h
    by_cases hv : Proper depth v
    · -- a later item nests too deep
      cases vs with
      | nil => exact absurd ⟨hv, by rw [ProperItems]; trivial⟩ h
      | cons w vs =>
        rw [writeItems, writeItems, join_cons_cons, ← writeItems] at hfuel ⊢
        simp only [length_append, length_singleton] at hfuel
        rw [append_assoc, append_assoc, singleton_append,
          readItems_next (readValue_write v hv (stops_cons (.inl rfl) _) (by omega)),
          readItems_deep (w :: vs) hvs.2 (fun hvs => h ⟨hv, hvs⟩) (by omega)]
    · obtain ⟨hle, t, ht, hstops⟩ := join_stops (b := 93) (write v) (writeItems vs) (.inl rfl) rest
      rw [writeItems] at hfuel ⊢
      rw [ht, readItems, readValue_deep v hvs.1 hv hstops (by omega)]

theorem readMembers_deep : ∀ (ms : List (Text × Json)) {depth fuel : Nat} {found : List (Text × Json)}
    {rest : Text}, HeldMembers ms → ¬ ProperMembers depth ms →
    2 * (join [44] (writeMembers ms)).length + 1 ≤ fuel →
    readMembers fuel depth found (join [44] (writeMembers ms) ++ 125 :: rest) = .error .malformed
  | [], _, _, _, _, _, h, _ => absurd (by rw [ProperMembers]; trivial) h
  | (name, v) :: ms, depth, fuel, found, rest, hms, h, hfuel => by
    obtain ⟨n, rfl⟩ : ∃ n, fuel = n + 1 := ⟨fuel - 1, by omega⟩
    rw [HeldMembers] at hms
    rw [ProperMembers] at h
    have hlength := congrArg length (writeMember_append name v [])
    by_cases hv : Proper depth v
    · cases ms with
      | nil => exact absurd ⟨hv, by rw [ProperMembers]; trivial⟩ h
      | cons m ms =>
        obtain ⟨w, ws, hws⟩ : ∃ w ws, writeMembers (m :: ms) = w :: ws := ⟨_, _, rfl⟩
        rw [writeMembers, hws, join_cons_cons, ← hws] at hfuel ⊢
        simp only [length_append, length_cons, length_nil] at hlength hfuel
        rw [append_assoc (writeString name ++ ofString ":" ++ write v), writeMember_append,
          singleton_append, cons_append, readMembers_next (readString_glyphs name _ (by omega))
            (readValue_write v hv (stops_cons (.inl rfl) _) (by omega)),
          readMembers_deep (m :: ms) hms.2.2 (fun hms => h ⟨hv, hms⟩) (by omega)]
    · obtain ⟨hle, t, ht, hstops⟩ := join_stops (b := 125) (writeString name ++ ofString ":" ++ write v)
        (writeMembers ms) (.inr rfl) rest
      rw [writeMembers] at hfuel ⊢
      simp only [length_append, length_cons, length_nil] at hlength hle
      rw [ht, writeMember_append]
      simp only [readMembers, readString_glyphs name _ (by omega : _ < n),
        skipSpace_cons (by decide : isSpace 34 = false), skipSpace_cons (by decide : isSpace 58 = false),
        readValue_deep v hms.2.1 hv hstops (by omega : _ ≤ n)]

end

theorem read_deep (hv : Held v) (h : ¬ Proper 0 v) : read (write v) = .error .malformed := by
  have hvalue := readValue_deep v hv h (by simp [Stops] : Stops []) (Nat.le_add_right _ 2)
  rw [append_nil] at hvalue
  rw [read, readFirst, hvalue]
  rfl

namespace Map

theorem scan_of_proper {m : Map} (hm : Held (object m)) (hproper : Proper 0 (object m)) (before : Option Map) :
    scan (.text (write (object m))) before = .ok (some (merge (before.getD []) m)) := by
  obtain ⟨hread, hsettle⟩ := settle_held hm
  simp only [scan, read_write hproper, hread, hsettle]

/-- **Scanning what is stored for a map.**  The members go into the destination, beside those that
    the map does not name.  So the destination is the map afterwards exactly if every name that it had
    is one of the map, and the map does not nest too deep to be read. -/
theorem scan_value_iff {m : Map} {before : Option Map} {t : Text} (hm : Held (object m))
    (hbefore : Ordered (before.getD [])) (ht : value (some m) = some t) :
    (scan (.text t) before = .ok (some m) ↔
      Proper 0 (object m) ∧ ∀ x ∈ before.getD [], ∃ y ∈ m, y.1 = x.1) ∧
    (Proper 0 (object m) → ∃ after, scan (.text t) before = .ok (some after) ∧ Ordered after ∧
      ∀ x, x ∈ after ↔ x ∈ m ∨ x ∈ before.getD [] ∧ ∀ y ∈ m, y.1 ≠ x.1) ∧
    (¬ Proper 0 (object m) → scan (.text t) before = .error .undecodable) := by
  have hordered : Ordered m := by
    rw [Held] at hm
    exact hm.1
  cases ht
  by_cases hproper : Proper 0 (object m)
  · rw [scan_of_proper hm hproper]
    refine ⟨?_, fun _ => ⟨_, rfl, Ordered.merge m hbefore, fun x => mem_merge hbefore hordered⟩,
      fun h => absurd hproper h⟩
    rw [Except.ok.injEq, Option.some.injEq, merge_eq_iff hbefore hordered]
    exact (and_iff_right hproper).symm
  · have hscan : scan (.text (write (object m))) before = .error .undecodable := by
      simp only [scan, read_deep hm hproper]
    simp [hscan, hproper]

def single : Map := [("b", number "1")]

theorem held_single : Held (object single) ∧ Proper 0 (object single) := by
  have hone : Held (number "1") := by
    rw [Held]
    exact ⟨⟨false, 4503599627370496, -52⟩, ⟨by decide, by decide, by decide, by decide⟩, by decide +kernel⟩
  refine ⟨?_, ?_⟩
  · rw [Held, single, HeldMembers, HeldMembers]
    exact ⟨pairwise_singleton _ _, by decide +kernel, hone, trivial⟩
  · rw [Proper, single, ProperMembers, ProperMembers, Proper]
    exact ⟨by decide, hone.number _ rfl, trivial⟩

theorem write_single : write (object single) = "\x7b\"b\":1\x7d" := by decide +kernel

theorem scan_value_single : scan (.text "\x7b\"b\":1\x7d") (some [("b", null)]) = .ok (some single) := by
  have hbefore : Ordered ((some [(ofString "b", null)]).getD []) := pairwise_singleton _ _
  exact (scan_value_iff held_single.1 hbefore (congrArg some write_single)).1.2
    ⟨held_single.2, by simp [single]⟩

/-- A name that the map does not have stays. -/
theorem previous_name_stays : value (some single) = some "\x7b\"b\":1\x7d" ∧
    scan (.text "\x7b\"b\":1\x7d") (some [("a", number "1")]) = .ok (some (("a", number "1") :: single)) := by
  refine ⟨congrArg some write_single, ?_⟩
  rw [← write_single, scan_of_proper held_single.1 held_single.2]
  rfl

end Map

end JavaToCpp.Json
