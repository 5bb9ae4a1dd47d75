/-
  Recognition, moment by moment.

  The sets are walked through one after the other.  A state that is visited brings further ones into
  its own set and into the next one, which are added one by one; the walk through a set ends where no
  state is left to visit.
-/
import JavaToCpp.Proofs.Chart.Answer
import Mathlib.Logic.Relation

namespace JavaToCpp.Chart

open List

variable {g : Grammar} {ts : List Token} {sets : Nat → Column} {i n : Nat} {s f : State}

/-- A moment of recognition: the sets, the place of the one that is walked through, how many of its
    states have been visited, and what the last of them has yet to add. -/
structure Moment where
  sets : Nat → Column
  place : Nat
  visited : Nat
  pending : List State

def add (sets : Nat → Column) (f : State) : Nat → Column :=
  Function.update sets f.index ((sets f.index).insert f)

def before (sets : Nat → Column) (i : Nat) : Array Column := ((range i).map sets).toArray

/-- The state that a state brings into the next set. -/
def scanned? (g : Grammar) (ts : List Token) (i : Nat) (s : State) : Option State :=
  ts[i]?.bind fun k => scanState? (entries g) i k s

/-- What visiting a state of the set at place `i` adds. -/
def brought (g : Grammar) (ts : List Token) (sets : Nat → Column) (i : Nat) (s : State) : List State :=
  followers (entries g) (before sets i) i s ++ (scanned? g ts i s).toList

namespace Moment

def start (g : Grammar) : Moment := ⟨add (fun _ => .empty) (State.begin 0 (topRule g)), 0, 0, []⟩

/-- The next moment: a state is added, or one is visited, or the walk goes on to the next set. -/
def next? (g : Grammar) (ts : List Token) : Moment → Option Moment
  | ⟨sets, i, n, f :: fs⟩ => some ⟨add sets f, i, n, fs⟩
  | ⟨sets, i, n, []⟩ =>
    match (sets i).states[n]? with
    | some s => some ⟨sets, i, n + 1, brought g ts sets i s⟩
    | none => if i < ts.length then some ⟨sets, i + 1, 0, []⟩ else none

/-- Recognition of the tokens leads from one moment to the other. -/
def Leads (g : Grammar) (ts : List Token) : Moment → Moment → Prop :=
  Relation.ReflTransGen fun m m' => m.next? g ts = some m'

end Moment

/-! ## What holds at every moment -/

/-- The trees are those of complete states of the sets, one for each symbol; the first begins at a
    place, each further one where the one before it ends, and the last ends at another place. -/
inductive Spans (sets : Nat → Column) (i : Nat) : List Symbol → List Tree → Nat → Prop
  | nil : Spans sets i [] [] i
  | snoc {ss : List Symbol} {cs : List Tree} {s : State} : Spans sets i ss cs s.origin →
      s ∈ (sets s.index).states → s.isComplete →
      Spans sets i (ss ++ [s.rule.lhs]) (cs ++ [s.tree]) s.index

/-- The children of a state without a token span it. -/
def State.Spanned (sets : Nat → Column) (s : State) : Prop :=
  s.token = none → Spans sets s.origin (s.rule.rhs.take s.dot) s.children s.index

theorem mem_add (f : State) (h : s ∈ (sets i).states) : s ∈ (add sets f i).states := by
  unfold add
  by_cases hi : i = f.index
  · subst hi
    rw [Function.update_self]
    have hgrows := Column.grows_insert (sets f.index) f
    exact Array.mem_toList_iff.1 (hgrows.subset (Array.mem_toList_iff.2 h))
  · rwa [Function.update_of_ne hi]

theorem of_mem_add (h : s ∈ (add sets f i).states) : s ∈ (sets i).states ∨ s = f ∧ i = f.index := by
  unfold add at h
  by_cases hi : i = f.index
  · subst hi
    rw [Function.update_self] at h
    exact (Column.mem_of_mem_insert h).imp_right fun h => ⟨h, rfl⟩
  · rw [Function.update_of_ne hi] at h
    exact .inl h

theorem Spans.add {ss : List Symbol} {cs : List Tree} {j : Nat} (h : Spans sets i ss cs j)
    (f : State) : Spans (add sets f) i ss cs j := by
  induction h with
  | nil => exact .nil
  | snoc _ hs hc ih => exact .snoc ih (mem_add f hs) hc

/-- What recognition keeps: every state is one that steps lead to, stands in the set of its place
    and is spanned by its children, and no two states of a set have the same key. -/
structure Keeps (g : Grammar) (ts : List Token) (m : Moment) : Prop where
  sound : ∀ i, ∀ s ∈ (m.sets i).states, At g ts i s ∧ s.Spanned m.sets
  distinct : ∀ i, (m.sets i).Distinct
  pending : ∀ f ∈ m.pending, Reached g ts f ∧ f.Spanned m.sets

theorem Keeps.add {fs : List State} (h : Keeps g ts ⟨sets, i, n, f :: fs⟩) :
    Keeps g ts ⟨add sets f, i, n, fs⟩ where
  sound j s hs := by
    rcases of_mem_add hs with hs | ⟨rfl, rfl⟩
    · exact ⟨(h.sound j s hs).1, fun hk => ((h.sound j s hs).2 hk).add f⟩
    · obtain ⟨hreached, hspan⟩ := h.pending s mem_cons_self
      exact ⟨⟨hreached, rfl⟩, fun hk => (hspan hk).add s⟩
  distinct j := by
    by_cases hj : j = f.index
    · subst hj
      simpa [Chart.add] using (h.distinct f.index).insert f
    · simpa [Chart.add, hj] using h.distinct j
  pending f' hf' := by
    obtain ⟨hreached, hspan⟩ := h.pending f' (mem_cons_of_mem _ hf')
    exact ⟨hreached, fun hk => (hspan hk).add f⟩

theorem before_getElem? {c : Column} (h : (before sets i)[n]? = some c) : c = sets n := by
  obtain ⟨-, rfl⟩ := Array.getElem?_eq_some_iff.1 h
  simp [before]

/-- **What a visited state brings** is reached, and spanned by its children. -/
theorem Keeps.brought {fs : List State} (h : Keeps g ts ⟨sets, i, n, fs⟩) (hs : s ∈ (sets i).states) :
    ∀ f ∈ brought g ts sets i s, Reached g ts f ∧ f.Spanned sets := by
  obtain ⟨⟨hreached, rfl⟩, -⟩ := h.sound i s hs
  intro f hf
  rcases mem_append.1 hf with hf | hf
  · rcases mem_followers.1 hf with ⟨hc, c, hget, w, hw, hn, rfl⟩ | ⟨a, hn, ht, r, hr, rfl⟩
    · -- the state completes `w`, which gets its tree as the last child
      rw [before_getElem? hget] at hw
      obtain ⟨⟨hwreached, hi⟩, hspan⟩ := h.sound _ w hw
      refine ⟨.complete hreached hwreached hc hi hn, fun hk => ?_⟩
      have hchildren := hspan hk
      rw [hi] at hchildren
      show Spans sets w.origin (w.rule.rhs.take (w.dot + 1)) (w.children ++ [s.tree]) s.index
      rw [take_add_one, show w.rule.rhs[w.dot]? = some s.rule.lhs from hn]
      exact .snoc hchildren hs (decide_eq_true (State.next?_eq_none.1 hc))
    · exact ⟨.predict hreached hn ht hr, fun _ => .nil⟩
  · obtain ⟨k, hk, hf⟩ := Option.bind_eq_some_iff.1 (Option.mem_toList.1 hf)
    obtain ⟨a, r, hn, ht, hr, rfl⟩ := scanState?_eq_some.1 hf
    exact ⟨.scan hreached hn ht hr hk, fun hnone => by cases hnone⟩

theorem Keeps.next {m m' : Moment} (h : Keeps g ts m) (hm : m.next? g ts = some m') :
    Keeps g ts m' := by
  obtain ⟨sets, i, n, _ | ⟨f, fs⟩⟩ := m
  · rw [Moment.next?] at hm
    split at hm
    · rename_i s hs
      cases hm
      exact ⟨h.sound, h.distinct, h.brought (Array.mem_of_getElem? hs)⟩
    · split at hm
      · cases hm
        exact ⟨h.sound, h.distinct, h.pending⟩
      · cases hm
  · cases hm
    exact h.add

theorem keeps_start (g : Grammar) (ts : List Token) : Keeps g ts (.start g) := by
  have hempty : Keeps g ts ⟨fun _ => .empty, 0, 0, [State.begin 0 (topRule g)]⟩ := by
    refine ⟨fun i s hs => by simp [Column.empty] at hs, fun _ => Column.distinct_empty, ?_⟩
    intro f hf
    rw [mem_singleton.1 hf]
    exact ⟨.start, fun _ => .nil⟩
  exact hempty.add

theorem Keeps.leads {m m' : Moment} (h : Keeps g ts m) (hm : m.Leads g ts m') : Keeps g ts m' := by
  induction hm with
  | refl => exact h
  | tail _ hnext ih => exact ih.next hnext

theorem Keeps.size_le {m : Moment} (h : Keeps g ts m) (hg : g.WellFormed) (i : Nat) :
    (m.sets i).states.size ≤ capacity g i :=
  size_le_of_at hg (h.distinct i) fun s hs => (h.sound i s hs).1

/-! ## The end of the walk -/

theorem leads_pending : ∀ (fs : List State) (sets : Nat → Column),
    Moment.Leads g ts ⟨sets, i, n, fs⟩ ⟨fs.foldl add sets, i, n, []⟩
  | [], _ => .refl
  | f :: fs, sets => (leads_pending fs (add sets f)).head rfl

theorem foldl_add (j : Nat) : ∀ (fs : List State) (sets : Nat → Column),
    fs.foldl add sets j = (fs.filter (·.index == j)).foldl Column.insert (sets j)
  | [], _ => rfl
  | f :: fs, sets => by
    rw [foldl_cons, foldl_add j fs, filter_cons]
    by_cases hj : f.index = j
    · subst hj
      simp [add]
    · simp [add, hj, Ne.symm hj]

theorem index_of_mem_followers {earlier : Array Column} (h : f ∈ followers (entries g) earlier i s) :
    f.index = i := by
  rcases mem_followers.1 h with ⟨-, c, -, w, -, -, rfl⟩ | ⟨a, -, -, r, -, rfl⟩
  · rfl
  · rfl

theorem index_of_mem_scanned? (h : f ∈ scanned? g ts i s) : f.index = i + 1 := by
  obtain ⟨k, -, hf⟩ := Option.bind_eq_some_iff.1 h
  obtain ⟨a, r, -, -, -, rfl⟩ := scanState?_eq_some.1 hf
  rfl

theorem filter_index {fs : List State} (h : ∀ f ∈ fs, f.index = i) (j : Nat) :
    fs.filter (·.index == j) = if j = i then fs else [] := by
  split
  · subst j
    exact filter_eq_self.2 fun f hf => beq_iff_eq.2 (h f hf)
  · rename_i hj
    exact filter_eq_nil_iff.2 fun f hf hf' => hj (by rw [← h f hf, eq_of_beq hf'])

theorem foldl_brought (g : Grammar) (ts : List Token) (sets : Nat → Column) (i : Nat) (s : State)
    (j : Nat) : (brought g ts sets i s).foldl add sets j =
      if j = i then (followers (entries g) (before sets i) i s).foldl Column.insert (sets i)
      else if j = i + 1 then (scanned? g ts i s).toList.foldl Column.insert (sets (i + 1))
      else sets j := by
  rw [foldl_add, brought, filter_append, filter_index fun f => index_of_mem_followers,
    filter_index fun f hf => index_of_mem_scanned? (Option.mem_toList.1 hf)]
  by_cases hj : j = i
  · simp [hj]
  · by_cases hj' : j = i + 1 <;> simp [hj, hj']

/-- What the first `n` states of a set bring into the next one. -/
def sought (g : Grammar) (ts : List Token) (i n : Nat) (c : Column) : Column :=
  ((c.states.toList.take n).filterMap (scanned? g ts i)).foldl Column.insert .empty

theorem sought_succ {c d : Column} (h : c.Grows d) (hs : c.states[n]? = some s) :
    (scanned? g ts i s).toList.foldl Column.insert (sought g ts i n c) = sought g ts i (n + 1) d := by
  obtain ⟨rest, hd⟩ := h
  rw [← Array.getElem?_toList] at hs
  obtain ⟨hn, -⟩ := List.getElem?_eq_some_iff.1 hs
  rw [sought, sought, ← hd, take_append_of_le_length hn, take_add_one, hs,
    filterMap_append, foldl_append]
  cases hf : scanned? g ts i s <;> simp [hf]

theorem sought_of_size_le {c : Column} {t : Token} (hn : c.states.size ≤ n) (ht : ts[i]? = some t) :
    sought g ts i n c = scan (entries g) i t c := by
  have hscan : scanned? g ts i = scanState? (entries g) i t := by
    funext s
    rw [scanned?, ht, Option.bind_some]
  rw [sought, take_of_length_le hn, hscan, scan]

theorem before_succ (sets : Nat → Column) (i : Nat) : before sets (i + 1) = (before sets i).push (sets i) := by
  simp [before, range_succ]

theorem before_congr {sets' : Nat → Column} (h : ∀ j < i, sets' j = sets j) :
    before sets' i = before sets i := by
  rw [before, before, map_congr_left fun j hj => h j (mem_range.1 hj)]

/-- **The walk through a set ends** with the set closed, and with the next one begun. -/
theorem leads_close (hg : g.WellFormed) : ∀ (fuel n : Nat) (sets : Nat → Column),
    Keeps g ts ⟨sets, i, n, []⟩ → capacity g i ≤ n + fuel → sets (i + 1) = sought g ts i n (sets i) →
    ∃ sets' n', Moment.Leads g ts ⟨sets, i, n, []⟩ ⟨sets', i, n', []⟩ ∧
      sets' i = close (entries g) (before sets i) i fuel n (sets i) ∧ (sets' i).states.size ≤ n' ∧
      sets' (i + 1) = sought g ts i n' (sets' i) ∧ ∀ j, j ≠ i → j ≠ i + 1 → sets' j = sets j
  | 0, n, sets, h, hfuel, hnext =>
    ⟨sets, n, .refl, rfl, Nat.le_trans (h.size_le hg i) hfuel, hnext, fun _ _ _ => rfl⟩
  | fuel + 1, n, sets, h, hfuel, hnext => by
    rw [close]
    cases hs : (sets i).states[n]? with
    | none => exact ⟨sets, n, .refl, rfl, Array.getElem?_eq_none_iff.1 hs, hnext, fun _ _ _ => rfl⟩
    | some s =>
      have hsets := foldl_brought g ts sets i s
      have hvisit : Moment.next? g ts ⟨sets, i, n, []⟩ =
          some ⟨sets, i, n + 1, brought g ts sets i s⟩ := by
        simp only [Moment.next?, hs]
      have hlead : Moment.Leads g ts ⟨sets, i, n, []⟩
          ⟨(brought g ts sets i s).foldl add sets, i, n + 1, []⟩ := .head hvisit (leads_pending _ _)
      have hplace := hsets i
      have hbefore : before ((brought g ts sets i s).foldl add sets) i = before sets i :=
        before_congr fun j hj => by rw [hsets, if_neg (by omega), if_neg (by omega)]
      rw [if_pos rfl] at hplace
      obtain ⟨sets', n', hlead', hclose, hsize, hnext', hother⟩ :=
        leads_close hg fuel (n + 1) _ (h.leads hlead) (by omega) (by
          rw [hsets, if_neg (by omega), if_pos rfl, hnext, hplace]
          exact sought_succ (Column.grows_insertAll _ _) hs)
      refine ⟨sets', n', hlead.trans hlead', ?_, hsize, hnext', fun j hj hj' => ?_⟩
      · rw [hclose, hbefore, hplace]
      · rw [hother j hj hj', hsets, if_neg hj, if_neg hj']

/-- **Recognition ends**, with the columns of the chart. -/
theorem leads_fill (hg : g.WellFormed) : ∀ (us : List Token) (i : Nat) (sets : Nat → Column),
    ts.drop i = us → i ≤ ts.length → Keeps g ts ⟨sets, i, 0, []⟩ → (∀ j, i < j → sets j = .empty) →
    ∃ m, Moment.Leads g ts ⟨sets, i, 0, []⟩ m ∧ m.next? g ts = none ∧
      fill g (entries g) i (before sets i) (sets i) us = before m.sets (ts.length + 1) := by
  intro us
  induction us with
  | nil =>
    intro i sets hus hi h hempty
    obtain ⟨sets', n', hlead, hclose, hsize, -, hother⟩ :=
      leads_close hg (capacity g i) 0 sets h (by omega) (hempty _ (by omega))
    obtain rfl : i = ts.length := Nat.le_antisymm hi (drop_eq_nil_iff.1 hus)
    refine ⟨_, hlead, ?_, ?_⟩
    · simp only [Moment.next?, Array.getElem?_eq_none hsize, Nat.lt_irrefl, if_false]
    · show _ = before sets' (ts.length + 1)
      rw [fill, before_succ, hclose, before_congr fun j hj => hother j (by omega) (by omega)]
  | cons t us ih =>
    intro i sets hus hi h hempty
    obtain ⟨sets', n', hlead, hclose, hsize, hnext, hother⟩ :=
      leads_close hg (capacity g i) 0 sets h (by omega) (hempty _ (by omega))
    have ht : ts[i]? = some t := by rw [← head?_drop, hus]; rfl
    have hlt := (List.getElem?_eq_some_iff.1 ht).1
    have hstep : Moment.next? g ts ⟨sets', i, n', []⟩ = some ⟨sets', i + 1, 0, []⟩ := by
      simp only [Moment.next?, Array.getElem?_eq_none hsize, if_pos hlt]
    have hlead' := hlead.tail hstep
    have hdrop : ts.drop (i + 1) = us := by rw [← drop_drop, hus]; rfl
    obtain ⟨m, hm, hend, hfill⟩ := ih (i + 1) sets' hdrop hlt (h.leads hlead') fun j hj => by
      rw [hother j (by omega) (by omega), hempty j (by omega)]
    refine ⟨m, hlead'.trans hm, hend, ?_⟩
    rw [← hfill, fill, before_succ, hnext, sought_of_size_le hsize ht, hclose,
      before_congr fun j hj => hother j (by omega) (by omega)]

/-! ## All moments -/

/-- A state where it can stand: in the set of its place, the dot inside of its rule, begun not behind
    that place and, if it is complete, before it.  Without a token it has a child for each symbol
    before the dot, and these span it. -/
structure State.Stands (sets : Nat → Column) (i : Nat) (s : State) : Prop where
  index : s.index = i
  origin : s.origin ≤ i
  dot : s.dot ≤ s.rule.rhs.length
  complete : s.isComplete → s.origin < i
  children : s.token = none → s.children.length = s.dot ∧
    Spans sets s.origin (s.rule.rhs.take s.dot) s.children i

theorem Spans.length_eq {ss : List Symbol} {cs : List Tree} {j : Nat} (h : Spans sets i ss cs j) :
    cs.length = ss.length := by
  induction h with
  | nil => rfl
  | snoc _ _ _ ih => simp [ih]

theorem Keeps.stands {m : Moment} (h : Keeps g ts m) (hg : g.WellFormed) (hs : s ∈ (m.sets i).states) :
    s.Stands m.sets i := by
  obtain ⟨⟨hreached, rfl⟩, hspan⟩ := h.sound i s hs
  have hfits := hreached.fits hg
  refine ⟨rfl, hfits.origin, hfits.dot, fun hc => ?_, fun hk => ⟨?_, hspan hk⟩⟩
  · exact hfits.origin_lt hg (State.next?_eq_none.2 (of_decide_eq_true hc))
  · rw [(hspan hk).length_eq, length_take, Nat.min_eq_left hfits.dot]

/-- **Every moment of recognition.**  Whatever text the grammar is read from, at every moment each
    state stands where it can stand, no two states of a set have the same rule, dot and beginning,
    and the set at place `i` has at most `i + 1` states for each rule and dot.  Recognition comes to
    an end, and its sets are those of the chart then. -/
theorem moments_of_recognition {text : Text} (hload : Grammar.load text = .ok g) (ts : List Token) :
    (∀ m, Moment.Leads g ts (.start g) m → ∀ i, (m.sets i).Distinct ∧
      (m.sets i).states.size ≤ capacity g i ∧ ∀ s ∈ (m.sets i).states, s.Stands m.sets i) ∧
    ∃ m, Moment.Leads g ts (.start g) m ∧ m.next? g ts = none ∧
      (ofTokens g ts).sets = (range (ts.length + 1)).map fun i => (m.sets i).states.toList := by
  have hg := Grammar.load_wellFormed hload
  have hstart := keeps_start g ts
  constructor
  · intro m hm i
    have h := hstart.leads hm
    exact ⟨h.distinct i, h.size_le hg i, fun s hs => h.stands hg hs⟩
  · have hempty : ∀ j, 0 < j → (Moment.start g).sets j = .empty := fun j hj => by
      simp [Moment.start, add, State.begin, Nat.ne_of_gt hj]
    obtain ⟨m, hm, hend, hfill⟩ := leads_fill hg ts 0 _ rfl (Nat.zero_le _) hstart hempty
    refine ⟨m, hm, hend, ?_⟩
    have hcolumns : columns g ts = before m.sets (ts.length + 1) := hfill
    rw [sets_ofTokens, hcolumns]
    simp [before]

theorem moments_of_sum : ∃ m, Moment.Leads sums (tokensFor ["num", "plus", "num"]) (.start sums) m ∧
    m.next? sums (tokensFor ["num", "plus", "num"]) = none ∧ ∀ i, (m.sets i).Distinct := by
  obtain ⟨hall, m, hm, hend, -⟩ := moments_of_recognition load_sums (tokensFor ["num", "plus", "num"])
  exact ⟨m, hm, hend, fun i => (hall m hm i).1⟩

end JavaToCpp.Chart
