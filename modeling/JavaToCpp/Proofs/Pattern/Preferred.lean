/-
  The match of the most preferred way.
-/
import JavaToCpp.Proofs.Pattern.Marks
import JavaToCpp.Proofs.Pattern.Ways

namespace JavaToCpp.Pattern

open List hiding set

/-- The match of a way that has entered some groups before. -/
def Match.after (entered : List Nat) (m : Match) : Match := ⟨m.taken, m.entered ++ entered⟩

@[simp] theorem Match.after_nil : Match.after [] = id := by
  funext m
  simp [Match.after]

theorem Match.after_after (d e : List Nat) (m : Match) : (m.after d).after e = m.after (d ++ e) := by
  simp [Match.after]

theorem card_unseen_lt {size i : Nat} {seen : Finset Nat} (hi : i < size) (hseen : i ∉ seen) :
    (Finset.range size \ insert i seen).card < (Finset.range size \ seen).card := by
  refine Finset.card_lt_card (Finset.ssubset_iff_subset_ne.2
    ⟨Finset.sdiff_subset_sdiff (Finset.Subset.refl _) (Finset.subset_insert ..), fun heq => ?_⟩)
  have hmem : i ∈ Finset.range size \ seen := by simp [hi, hseen]
  rw [← heq] at hmem
  simp at hmem

/-- The match of the most preferred way from the instruction `i` on that ends one, behind `n` bytes of
    a text.  The way has come to the instructions in `seen` at this place of the text. -/
def Program.attempt (p : Program) (t : Text) (seen : Finset Nat) (i n : Nat) : Option Match :=
  if _hseen : i ∈ seen then none
  else if hi : i < p.size then
    match p[i] with
    | .take set =>
      match _hrest : t.drop n with
      | [] => none
      | b :: rest =>
        if set.mem (Text.decodeHead b rest).1 then
          attempt p t ∅ (i + 1) (n + 1 + (Text.decodeHead b rest).2)
        else none
    | .require a => if a.holds (placeAt t n) then attempt p t (insert i seen) (i + 1) n else none
    | .enter g => (attempt p t (insert i seen) (i + 1) n).map (Match.after [g])
    | .fork first second =>
      (attempt p t (insert i seen) first n).or (attempt p t (insert i seen) second n)
    | .jump target => attempt p t (insert i seen) target n
    | .accept => some ⟨n, []⟩
  else none
termination_by (t.length - n, (Finset.range p.size \ seen).card)
decreasing_by
  · have hlength := congrArg length _hrest
    rw [length_drop, length_cons] at hlength
    exact Prod.Lex.left _ _ (by omega)
  all_goals exact Prod.Lex.right _ (card_unseen_lt hi _hseen)

variable {p : Program} {t : Text} {n : Nat}

section Instruction

variable {seen : Finset Nat} {i : Nat}

theorem attempt_of_mem (h : i ∈ seen) : p.attempt t seen i n = none := by
  rw [Program.attempt, dif_pos h]

theorem attempt_of_none (h : p[i]? = none) : p.attempt t seen i n = none := by
  have hi : ¬ i < p.size := Nat.not_lt.2 (Array.getElem?_eq_none_iff.1 h)
  rw [Program.attempt, dif_neg hi]
  split <;> rfl

theorem attempt_take_nil {set : RuneSet} (h : p[i]? = some (.take set)) (hrest : t.drop n = []) :
    p.attempt t seen i n = none := by
  obtain ⟨hsize, h⟩ := Array.getElem?_eq_some_iff.1 h
  rw [Program.attempt, dif_pos hsize, h]
  split
  · rfl
  · simp only
    split
    · rfl
    · simp_all

theorem attempt_take_cons {set : RuneSet} {b : UInt8} {rest : Text} (hi : i ∉ seen)
    (h : p[i]? = some (.take set)) (hrest : t.drop n = b :: rest) :
    p.attempt t seen i n = if set.mem (Text.decodeHead b rest).1 then
      p.attempt t ∅ (i + 1) (n + 1 + (Text.decodeHead b rest).2) else none := by
  obtain ⟨hsize, h⟩ := Array.getElem?_eq_some_iff.1 h
  rw [Program.attempt, dif_neg hi, dif_pos hsize, h]
  simp only
  split
  · simp_all
  · cases hrest.symm.trans ‹_›
    rfl

theorem attempt_take_congr {seen' : Finset Nat} {set : RuneSet} (hi : i ∉ seen) (hi' : i ∉ seen')
    (h : p[i]? = some (.take set)) : p.attempt t seen i n = p.attempt t seen' i n := by
  cases hrest : t.drop n with
  | nil => rw [attempt_take_nil h hrest, attempt_take_nil h hrest]
  | cons b rest => rw [attempt_take_cons hi h hrest, attempt_take_cons hi' h hrest]

theorem attempt_require {a : Assertion} (hi : i ∉ seen) (h : p[i]? = some (.require a)) :
    p.attempt t seen i n =
      if a.holds (placeAt t n) then p.attempt t (insert i seen) (i + 1) n else none := by
  obtain ⟨hsize, h⟩ := Array.getElem?_eq_some_iff.1 h
  rw [Program.attempt, dif_neg hi, dif_pos hsize, h]

theorem attempt_enter {g : Nat} (hi : i ∉ seen) (h : p[i]? = some (.enter g)) :
    p.attempt t seen i n = (p.attempt t (insert i seen) (i + 1) n).map (Match.after [g]) := by
  obtain ⟨hsize, h⟩ := Array.getElem?_eq_some_iff.1 h
  rw [Program.attempt, dif_neg hi, dif_pos hsize, h]

theorem attempt_fork {j k : Nat} (hi : i ∉ seen) (h : p[i]? = some (.fork j k)) :
    p.attempt t seen i n =
      (p.attempt t (insert i seen) j n).or (p.attempt t (insert i seen) k n) := by
  obtain ⟨hsize, h⟩ := Array.getElem?_eq_some_iff.1 h
  rw [Program.attempt, dif_neg hi, dif_pos hsize, h]

theorem attempt_jump {j : Nat} (hi : i ∉ seen) (h : p[i]? = some (.jump j)) :
    p.attempt t seen i n = p.attempt t (insert i seen) j n := by
  obtain ⟨hsize, h⟩ := Array.getElem?_eq_some_iff.1 h
  rw [Program.attempt, dif_neg hi, dif_pos hsize, h]

theorem attempt_accept (hi : i ∉ seen) (h : p[i]? = some .accept) :
    p.attempt t seen i n = some ⟨n, []⟩ := by
  obtain ⟨hsize, h⟩ := Array.getElem?_eq_some_iff.1 h
  rw [Program.attempt, dif_neg hi, dif_pos hsize, h]

end Instruction

/-- Induction along ways: what is to be shown of a way may be used of the ways that go on from its
    instruction, with one instruction more come to or behind some more of the text. -/
theorem attempt_induction {motive : Finset Nat → Nat → Nat → Prop}
    (step : ∀ seen i n, (i ∉ seen → i < p.size → ∀ j, motive (insert i seen) j n) →
      (n < t.length → ∀ j k, n < k → motive ∅ j k) → motive seen i n)
    (seen : Finset Nat) (i n : Nat) : motive seen i n := by
  refine step seen i n (fun hseen hi j => ?_) (fun hn j k hk => ?_)
  · exact attempt_induction step (insert i seen) j n
  · exact attempt_induction step ∅ j k
termination_by (t.length - n, (Finset.range p.size \ seen).card)
decreasing_by
  · exact Prod.Lex.right _ (card_unseen_lt hi hseen)
  · exact Prod.Lex.left _ _ (by omega)

/-! ## Instructions that lead nowhere -/

theorem lt_length_of_drop {b : UInt8} {rest : Text} (h : t.drop n = b :: rest) : n < t.length := by
  have hlength := congrArg length h
  rw [length_drop, length_cons] at hlength
  omega

theorem attempt_eq_none_of_subset (seen : Finset Nat) (i n : Nat) :
    ∀ seen', seen ⊆ seen' → p.attempt t seen i n = none → p.attempt t seen' i n = none := by
  induction seen, i, n using attempt_induction (p := p) (t := t) with
  | step seen i n hplace _ =>
    intro seen' hsub h
    by_cases hi' : i ∈ seen'
    · exact attempt_of_mem hi'
    have hi : i ∉ seen := fun hmem => hi' (hsub hmem)
    have hsub' : insert i seen ⊆ insert i seen' := Finset.insert_subset_insert i hsub
    cases hc : p[i]? with
    | none => exact attempt_of_none hc
    | some c =>
      have hplace := hplace hi (Array.getElem?_eq_some_iff.1 hc).1
      cases c with
      | take set => rwa [attempt_take_congr hi' hi hc]
      | require a =>
        rw [attempt_require hi hc] at h
        rw [attempt_require hi' hc]
        split
        · rw [if_pos ‹_›] at h
          exact hplace _ _ hsub' h
        · rfl
      | enter g =>
        rw [attempt_enter hi hc, Option.map_eq_none_iff] at h
        rw [attempt_enter hi' hc, hplace _ _ hsub' h]
        rfl
      | fork j k =>
        rw [attempt_fork hi hc, Option.or_eq_none_iff] at h
        rw [attempt_fork hi' hc, hplace _ _ hsub' h.1, hplace _ _ hsub' h.2]
        rfl
      | jump j =>
        rw [attempt_jump hi hc] at h
        rw [attempt_jump hi' hc]
        exact hplace _ _ hsub' h
      | accept =>
        rw [attempt_accept hi hc] at h
        cases h

/-- **An instruction from which no way ends a match need not be come to again.** -/
theorem attempt_insert {failed : Finset Nat} {w : Nat} (seen : Finset Nat) (i n : Nat) :
    failed ⊆ seen → p.attempt t failed w n = none →
    p.attempt t (insert w seen) i n = p.attempt t seen i n := by
  induction seen, i, n using attempt_induction (p := p) (t := t) with
  | step seen i n hplace _ =>
    intro hsub hw
    by_cases hi : i ∈ seen
    · rw [attempt_of_mem hi, attempt_of_mem (Finset.mem_insert_of_mem hi)]
    by_cases hiw : i = w
    · subst hiw
      rw [attempt_of_mem (Finset.mem_insert_self ..), attempt_eq_none_of_subset _ _ _ _ hsub hw]
    have hi' : i ∉ insert w seen := by simp [hi, hiw]
    cases hc : p[i]? with
    | none => rw [attempt_of_none hc, attempt_of_none hc]
    | some c =>
      have hplace (j : Nat) :
          p.attempt t (insert i (insert w seen)) j n = p.attempt t (insert i seen) j n := by
        rw [Finset.insert_comm]
        exact hplace hi (Array.getElem?_eq_some_iff.1 hc).1 j
          (hsub.trans (Finset.subset_insert ..)) hw
      cases c with
      | take set => exact attempt_take_congr hi' hi hc
      | require a => rw [attempt_require hi' hc, attempt_require hi hc, hplace]
      | enter g => rw [attempt_enter hi' hc, attempt_enter hi hc, hplace]
      | fork j k => rw [attempt_fork hi' hc, attempt_fork hi hc, hplace, hplace]
      | jump j => rw [attempt_jump hi' hc, attempt_jump hi hc, hplace]
      | accept => rw [attempt_accept hi' hc, attempt_accept hi hc]

/-! ## All ways at once -/

def first? (p : Program) (t : Text) (seen : Finset Nat) (n : Nat) (ts : List Thread) : Option Match :=
  ts.findSome? fun w => (p.attempt t seen w.place n).map (Match.after w.entered)

section First

variable {seen : Finset Nat} {w : Thread} {ts : List Thread}

theorem first?_cons : first? p t seen n (w :: ts) =
    ((p.attempt t seen w.place n).map (Match.after w.entered)).or (first? p t seen n ts) := by
  rw [first?, findSome?_cons]
  cases (p.attempt t seen w.place n).map (Match.after w.entered) <;> rfl

theorem first?_visit : first? p t seen n (w :: ts) =
    ((p.attempt t seen w.place n).map (Match.after w.entered)).or
      (first? p t (insert w.place seen) n ts) := by
  rw [first?_cons]
  cases h : p.attempt t seen w.place n with
  | some m => rfl
  | none =>
    have hinsert (v : Thread) :
        p.attempt t (insert w.place seen) v.place n = p.attempt t seen v.place n :=
      attempt_insert seen v.place n (Finset.Subset.refl _) h
    simp only [first?, hinsert]

end First

/-- What a front holds of the ways of a list: those in `new` wait for a character, and the match that
    one of them ends or else the one that ends here is the match of the most preferred way. -/
structure Follows (p : Program) (t : Text) (n : Nat) (seen : Finset Nat) (ts new : List Thread)
    (f : Front) : Prop where
  takes : ∀ w ∈ new, ∃ set, p[w.place]? = some (.take set)
  first : first? p t seen n ts = (first? p t ∅ n new).or (f.ended.map fun e => ⟨n, e⟩)
  marks : Marks p (placeAt t n) f.met

theorem Follows.visit {seen seen' : Finset Nat} {w : Thread} {ts ts' new : List Thread} {f : Front}
    (h : Follows p t n seen' ts' new f)
    (hfirst : first? p t seen n (w :: ts) = first? p t seen' n ts') :
    Follows p t n seen (w :: ts) new f :=
  ⟨h.takes, hfirst.trans h.first, h.marks⟩

theorem exists_follows (fuel : Nat) : ∀ (ts : List Thread) (met : Array Nat) (waiting : List Thread)
    (seen : Finset Nat), Marks p (placeAt t n) met → (∀ i, i ∈ seen ↔ Met (placeAt t n) met i) →
    ts.length + 2 * (unmet p (placeAt t n) met).card < fuel →
    ∃ new, (p.follow (placeAt t n) fuel ts met waiting).waiting = new.reverse ++ waiting ∧
      Follows p t n seen ts new (p.follow (placeAt t n) fuel ts met waiting) := by
  induction fuel with
  | zero => exact fun ts met waiting _ _ _ hfuel => absurd hfuel (Nat.not_lt_zero _)
  | succ fuel ih =>
    intro ts met waiting seen hmarks hseen hfuel
    cases ts with
    | nil => exact ⟨[], rfl, by simp, rfl, hmarks⟩
    | cons w ts =>
      rw [length_cons] at hfuel
      by_cases hmet : met.getD w.place 0 = (placeAt t n).taken + 1
      · have hw : w.place ∈ seen := (hseen _).2 hmet
        obtain ⟨new, hnew, hfollows⟩ := ih ts met waiting seen hmarks hseen (by omega)
        rw [Program.follow, if_pos hmet]
        refine ⟨new, hnew, hfollows.visit ?_⟩
        rw [first?_cons, attempt_of_mem hw]
        rfl
      rw [Program.follow, if_neg hmet]
      have hw : w.place ∉ seen := fun hmem => hmet ((hseen _).1 hmem)
      cases hc : p[w.place]? with
      | none =>
        have hsize : met.size ≤ w.place := hmarks.size ▸ Array.getElem?_eq_none_iff.1 hc
        obtain ⟨new, hnew, hfollows⟩ := ih ts met waiting seen hmarks hseen (by omega)
        simp only [Array.setIfInBounds_eq_of_size_le hsize]
        refine ⟨new, hnew, hfollows.visit ?_⟩
        rw [first?_cons, attempt_of_none hc]
        rfl
      | some c =>
        obtain ⟨hsize, -⟩ := Array.getElem?_eq_some_iff.1 hc
        have hcard := card_unmet_mark hmarks hsize hmet
        have hseen' (i : Nat) : i ∈ insert w.place seen ↔
            Met (placeAt t n) (met.setIfInBounds w.place ((placeAt t n).taken + 1)) i := by
          rw [met_mark hmarks hsize, Finset.mem_insert, hseen]
        -- the ways from the instruction in front of the others
        have hvisit (ts' : List Thread) (hlength : ts'.length ≤ 2)
            (hfirst : (p.attempt t seen w.place n).map (Match.after w.entered) =
              first? p t (insert w.place seen) n ts') :
            ∃ new, (p.follow (placeAt t n) fuel (ts' ++ ts)
                (met.setIfInBounds w.place ((placeAt t n).taken + 1)) waiting).waiting =
                new.reverse ++ waiting ∧
              Follows p t n seen (w :: ts) new (p.follow (placeAt t n) fuel (ts' ++ ts)
                (met.setIfInBounds w.place ((placeAt t n).taken + 1)) waiting) := by
          obtain ⟨new, hnew, hfollows⟩ := ih (ts' ++ ts) _ waiting _ (hmarks.mark hsize) hseen'
            (by rw [length_append]; omega)
          refine ⟨new, hnew, hfollows.visit ?_⟩
          rw [first?_visit, hfirst, first?, first?, first?, findSome?_append]
        cases c with
        | take set =>
          obtain ⟨new, hnew, hfollows⟩ := ih ts _ (w :: waiting) _ (hmarks.mark hsize) hseen'
            (by omega)
          refine ⟨w :: new, by simp [hnew], ?_, ?_, hfollows.marks⟩
          · exact forall_mem_cons.2 ⟨⟨set, hc⟩, hfollows.takes⟩
          · rw [first?_visit, hfollows.first, first?_cons, Option.or_assoc,
              attempt_take_congr hw (Finset.notMem_empty _) hc]
        | require a =>
          cases hholds : a.holds (placeAt t n) with
          | true =>
            simp only [hholds, if_true]
            refine hvisit [⟨w.place + 1, w.entered⟩] (by simp) ?_
            rw [attempt_require hw hc, if_pos hholds]
            simp [first?]
          | false =>
            simp only [hholds]
            refine hvisit [] (by simp) ?_
            rw [attempt_require hw hc, hholds]
            rfl
        | enter g =>
          refine hvisit [⟨w.place + 1, g :: w.entered⟩] (by simp) ?_
          rw [attempt_enter hw hc, Option.map_map]
          simp [first?, Function.comp_def, Match.after_after]
        | fork i j =>
          refine hvisit [⟨i, w.entered⟩, ⟨j, w.entered⟩] (by simp) ?_
          rw [attempt_fork hw hc, Option.map_or, first?_cons]
          simp [first?]
        | jump i =>
          refine hvisit [⟨i, w.entered⟩] (by simp) ?_
          rw [attempt_jump hw hc]
          simp [first?]
        | accept =>
          refine ⟨[], rfl, by simp, ?_, hmarks.mark hsize⟩
          rw [first?_cons, attempt_accept hw hc]
          rfl

theorem exists_follows_front {met : Array Nat} (hsize : met.size = p.size)
    (hbound : ∀ i, met.getD i 0 ≤ n) (ts : List Thread) :
    ∃ new, (p.front (placeAt t n) met ts).waiting = new.reverse ∧
      Follows p t n ∅ ts new (p.front (placeAt t n) met ts) := by
  have hunmet (i : Nat) : ¬ Met (placeAt t n) met i := fun h => absurd (hbound i) (by
    rw [h]
    exact Nat.not_succ_le_self n)
  have hcard : (unmet p (placeAt t n) met).card ≤ p.size :=
    (Finset.card_filter_le _ _).trans (Finset.card_range _).le
  obtain ⟨new, hnew, hfollows⟩ := exists_follows (p := p) (t := t) (n := n)
    (ts.length + 2 * p.size + 1) ts met [] ∅ ⟨hsize, fun i => Nat.le_succ_of_le (hbound i)⟩
    (fun i => by simp [hunmet]) (by omega)
  exact ⟨new, by rw [Program.front, hnew, append_nil], hfollows⟩

theorem foldl_advance (rune : Nat) (new ts : List Thread) :
    new.reverse.foldl (p.advance rune) ts = new.flatMap (p.advance rune []) ++ ts := by
  induction new with
  | nil => rfl
  | cons w new ih =>
    have hadvance (ts : List Thread) : p.advance rune ts w = p.advance rune [] w ++ ts := by
      unfold Program.advance
      split
      · split <;> rfl
      · rfl
    rw [reverse_cons, foldl_append, ih, foldl_cons, foldl_nil, hadvance,
      flatMap_cons, append_assoc]

theorem first?_advance {b : UInt8} {rest : Text} (hrest : t.drop n = b :: rest) {new : List Thread}
    (htakes : ∀ w ∈ new, ∃ set, p[w.place]? = some (.take set)) :
    first? p t ∅ n new = first? p t ∅ (n + 1 + (Text.decodeHead b rest).2)
      (new.flatMap (p.advance (Text.decodeHead b rest).1 [])) := by
  induction new with
  | nil => rfl
  | cons w new ih =>
    obtain ⟨⟨set, hset⟩, htakes⟩ := forall_mem_cons.1 htakes
    rw [first?_cons, ih htakes, attempt_take_cons (Finset.notMem_empty _) hset hrest,
      flatMap_cons, Program.advance, hset]
    simp only
    split
    · rw [singleton_append, first?_cons]
    · rfl

theorem placeAt_succ {b : UInt8} {rest : Text} (h : t.drop n = b :: rest) :
    t.drop (n + 1) = rest ∧ (placeAt t (n + 1)).before = some b := by
  have hget : t[n]? = some b := by rw [← head?_drop, h]; rfl
  refine ⟨?_, by simpa [placeAt] using hget⟩
  rw [← tail_drop, h]
  rfl

theorem search_eq_first? : ∀ (rest : Text) (skip : Nat) (before : Option UInt8) (n : Nat)
    (met : Array Nat) (ts : List Thread) (best : Option Match), t.drop n = rest →
    (placeAt t n).before = before → skip ≤ rest.length → met.size = p.size →
    (∀ i, met.getD i 0 ≤ n + skip) →
    p.search rest skip before n met ts best = (first? p t ∅ (n + skip) ts).or best
  | b :: rest, skip + 1, _, n, met, ts, best, hrest, _, hskip, hsize, hbound => by
    obtain ⟨hrest', hbefore'⟩ := placeAt_succ hrest
    have hadd : n + (skip + 1) = n + 1 + skip := by omega
    rw [hadd] at hbound ⊢
    exact search_eq_first? rest skip (some b) (n + 1) met ts best hrest' hbefore'
      (Nat.le_of_succ_le_succ hskip) hsize hbound
  | [], skip, before, n, met, ts, best, hrest, hbefore, hskip, hsize, hbound => by
    cases Nat.le_zero.1 hskip
    have hplace : (⟨before, n, []⟩ : Place) = placeAt t n := by rw [← hbefore, ← hrest]; rfl
    rw [Nat.add_zero] at hbound ⊢
    obtain ⟨new, -, hfront⟩ := exists_follows_front (t := t) hsize hbound ts
    have hnone : first? p t ∅ n new = none := by
      refine findSome?_eq_none_iff.2 fun w hw => ?_
      obtain ⟨set, hset⟩ := hfront.takes w hw
      rw [attempt_take_nil hset hrest]
      rfl
    rw [Program.search, hplace, hfront.first, hnone]
    rfl
  | b :: rest, 0, before, n, met, ts, best, hrest, hbefore, hskip, hsize, hbound => by
    have hplace : (⟨before, n, b :: rest⟩ : Place) = placeAt t n := by
      rw [← hbefore, ← hrest]
      rfl
    obtain ⟨hrest', hbefore'⟩ := placeAt_succ hrest
    rw [Nat.add_zero] at hbound ⊢
    obtain ⟨new, hnew, hfront⟩ := exists_follows_front (t := t) hsize hbound ts
    rw [Program.search, hplace]
    simp only [hnew, foldl_advance, append_nil]
    rw [hfront.first, first?_advance hrest hfront.takes, Option.or_assoc]
    split
    · rename_i hnil
      rw [hnil]
      rfl
    · exact search_eq_first? rest _ (some b) (n + 1) _ _ _ hrest' hbefore'
        (Text.decodeHead_le b rest) hfront.marks.size
        fun j => Nat.le_add_right_of_le (hfront.marks.bound j)

/-- **Following all ways at once finds the match of the most preferred way that ends one.** -/
theorem match?_eq_attempt (p : Program) (t : Text) : p.match? t = p.attempt t ∅ 0 0 := by
  rw [Program.match?, search_eq_first? t 0 none 0 _ _ none rfl rfl (Nat.zero_le _) (by simp)
    fun i => ?_]
  · simp [first?]
  · rw [Array.getD_eq_getD_getElem?, Array.getElem?_replicate]
    split <;> rfl

end JavaToCpp.Pattern
