/-
  What a cache answers, by what was done with it.

  A cache is used under a clock that never goes back: an `Act` is a use of the cache, or time that
  passes.
-/
import JavaToCpp.Cache.Basic
import Mathlib.Data.List.Induction
import Mathlib.Data.List.Nodup

namespace JavaToCpp.Cache

open List

variable {α : Type} {c : Cache α} {t : Timestamp} {key k : Text} {v w : α}

/-! ## One change -/

theorem Entry.expired_eq_false {e : Entry α} :
    e.expired t = false ↔ e.expires = Timestamp.zero ∨ t < e.expires := by
  by_cases h : e.expires = Timestamp.zero
  · simp [expired, h]
  · simp [expired, h]

/-- The cache has the value for the key, and it is not expired. -/
def Lasts (c : Cache α) (t : Timestamp) (key : Text) (v : α) : Prop :=
  ∃ e, (key, e) ∈ c.entries ∧ e.value = v ∧ e.expired t = false

theorem lasts_delete : (c.delete k).Lasts t key v ↔ k ≠ key ∧ c.Lasts t key v := by
  constructor
  · rintro ⟨e, he, hv, ht⟩
    obtain ⟨he, hne⟩ := mem_filter.1 he
    exact ⟨fun h => by simp [h] at hne, e, he, hv, ht⟩
  · rintro ⟨hne, e, he, hv, ht⟩
    exact ⟨e, mem_filter.2 ⟨he, by simpa using hne.symm⟩, hv, ht⟩

theorem lasts_set {now : Timestamp} : (c.set now k w).Lasts t key v ↔
    (k = key ∧ w = v ∧
      (Entry.mk w (if 0 < c.span then now + c.span else Timestamp.zero)).expired t = false) ∨
    (k ≠ key ∧ c.Lasts t key v) := by
  rw [← lasts_delete]
  constructor
  · rintro ⟨e, he, hv, ht⟩
    rcases mem_cons.1 he with heq | he
    · cases heq
      exact .inl ⟨rfl, hv, ht⟩
    · exact .inr ⟨e, he, hv, ht⟩
  · rintro (⟨rfl, rfl, ht⟩ | ⟨e, he, hv, ht⟩)
    · exact ⟨_, mem_cons_self, rfl, ht⟩
    · exact ⟨e, mem_cons_of_mem _ he, hv, ht⟩

theorem expired_set {now : Timestamp} {span : Int} (hnow : Timestamp.zero ≤ now) :
    (Entry.mk w (if 0 < span then now + span else Timestamp.zero)).expired t = false ↔
      span ≤ 0 ∨ t < now + span := by
  rw [Entry.expired_eq_false]
  by_cases hspan : span ≤ 0
  · simp [hspan, Int.not_lt.2 hspan]
  · -- the clock has come to the zero point, so that what it shows later is another one
    have hpos : 0 < span := Int.not_le.1 hspan
    have hzero : now + span ≠ Timestamp.zero :=
      (Int.ne_of_lt (Int.lt_of_le_of_lt hnow (Int.lt_add_of_pos_right now hpos))).symm
    simp [hspan, hpos, hzero]

theorem lasts_cleanup {now : Timestamp} (h : now ≤ t) : (c.cleanup now).Lasts t key v ↔ c.Lasts t key v := by
  constructor
  · rintro ⟨e, he, hv, ht⟩
    exact ⟨e, (mem_filter.1 he).1, hv, ht⟩
  · rintro ⟨e, he, hv, ht⟩
    have hnow : e.expired now = false := by
      rw [Entry.expired_eq_false] at ht ⊢
      exact ht.imp_right (Int.lt_of_le_of_lt h)
    exact ⟨e, mem_filter.2 ⟨he, by simpa using hnow⟩, hv, ht⟩

/-! ## Entries -/

def Distinct (c : Cache α) : Prop := (c.entries.map Prod.fst).Nodup

theorem Distinct.filter (h : c.Distinct) (p : Text × Entry α → Bool) :
    Distinct { c with entries := c.entries.filter p } :=
  h.sublist (filter_sublist.map _)

theorem Distinct.set (h : c.Distinct) (now : Timestamp) (k : Text) (w : α) :
    (c.set now k w).Distinct := by
  refine nodup_cons.2 ⟨?_, h.filter _⟩
  intro hmem
  obtain ⟨e, he, hkey⟩ := mem_map.1 hmem
  have hne := (mem_filter.1 he).2
  simp [hkey] at hne

theorem Distinct.get?_eq_some (h : c.Distinct) : c.get? t key = some v ↔ c.Lasts t key v := by
  constructor
  · intro hget
    obtain ⟨⟨k, e⟩, he, rfl⟩ := Option.map_eq_some_iff.1 hget
    obtain ⟨hfind, ht⟩ := Option.filter_eq_some_iff.1 he
    have hkey : k = key := by simpa using find?_some hfind
    subst hkey
    exact ⟨e, mem_of_find?_eq_some hfind, rfl, by simpa using ht⟩
  · rintro ⟨e, he, rfl, ht⟩
    have hfind : c.entries.find? (fun x => x.1 == key) = some (key, e) := by
      have hsome : (c.entries.find? fun x => x.1 == key).isSome :=
        find?_isSome.2 ⟨_, he, beq_self_eq_true key⟩
      obtain ⟨x, hx⟩ := Option.isSome_iff_exists.1 hsome
      have hkey : x.1 = key := by simpa using find?_some hx
      rw [hx, inj_on_of_nodup_map h (mem_of_find?_eq_some hx) he hkey]
    simp [get?, hfind, ht]

/-! ## Acts -/

inductive Act (α : Type) where
  | set (key : Text) (value : α)
  | get (key : Text)
  | delete (key : Text)
  | cleanup
  | wait (time : Nat)

def Act.written? : Act α → Option Text
  | set key _ => some key
  | delete key => some key
  | _ => none

def Act.asked : Act α → List Text
  | get key => [key]
  | _ => []

def Act.isCleanup : Act α → Bool
  | cleanup => true
  | _ => false

/-- A cache and what its clock shows. -/
structure Timed (α : Type) where
  cache : Cache α
  now : Timestamp

namespace Timed

def get? (s : Timed α) (key : Text) : Option α := s.cache.get? s.now key

def next (s : Timed α) : Act α → Timed α
  | .set key v => { s with cache := s.cache.set s.now key v }
  | .get _ => s
  | .delete key => { s with cache := s.cache.delete key }
  | .cleanup => { s with cache := s.cache.cleanup s.now }
  | .wait time => { s with now := s.now + time }

def after (s : Timed α) (acts : List (Act α)) : Timed α := acts.foldl next s

/-- What is found, by one act that asks after the other. -/
def answers (s : Timed α) : List (Act α) → List (Option α)
  | [] => []
  | a :: acts => a.asked.map s.get? ++ (s.next a).answers acts

def new (span : Int) (start : Timestamp) : Timed α := ⟨{ span }, start⟩

variable {s s' : Timed α} {acts : List (Act α)} {a : Act α}

theorem now_le_next (s : Timed α) (a : Act α) : s.now ≤ (s.next a).now := by
  cases a with
  | wait time => exact Int.le_add_of_nonneg_right (Int.natCast_nonneg _)
  | _ => exact Int.le_refl _

theorem span_next (s : Timed α) (a : Act α) : (s.next a).cache.span = s.cache.span := by
  cases a with
  | _ => rfl

theorem distinct_next (h : s.cache.Distinct) (a : Act α) : (s.next a).cache.Distinct := by
  cases a with
  | set key v => exact h.set _ _ _
  | delete key | cleanup => exact h.filter _
  | get key => exact h
  | wait time => exact h

theorem after_concat (s : Timed α) (acts : List (Act α)) (a : Act α) :
    s.after (acts ++ [a]) = (s.after acts).next a := by
  simp [after]

theorem now_le_after (s : Timed α) (acts : List (Act α)) : s.now ≤ (s.after acts).now := by
  induction acts using reverseRecOn with
  | nil => exact Int.le_refl _
  | append_singleton acts a ih =>
    rw [after_concat]
    exact Int.le_trans ih (now_le_next _ a)

theorem span_after (s : Timed α) (acts : List (Act α)) : (s.after acts).cache.span = s.cache.span := by
  induction acts using reverseRecOn with
  | nil => rfl
  | append_singleton acts a ih => rw [after_concat, span_next, ih]

theorem distinct_after (h : s.cache.Distinct) (acts : List (Act α)) :
    (s.after acts).cache.Distinct := by
  induction acts using reverseRecOn with
  | nil => exact h
  | append_singleton acts a ih =>
    rw [after_concat]
    exact distinct_next ih a

theorem lasts_next_of_ne (ha : a.written? ≠ some key) (ht : (s.next a).now ≤ t) :
    (s.next a).cache.Lasts t key v ↔ s.cache.Lasts t key v := by
  have ht := Int.le_trans (s.now_le_next a) ht
  cases a with
  | set k w =>
    have hne : k ≠ key := fun h => ha (by rw [h]; rfl)
    show (s.cache.set s.now k w).Lasts t key v ↔ _
    rw [lasts_set]
    simp [hne]
  | delete k =>
    have hne : k ≠ key := fun h => ha (by rw [h]; rfl)
    show (s.cache.delete k).Lasts t key v ↔ _
    rw [lasts_delete]
    simp [hne]
  | cleanup => exact lasts_cleanup ht
  | get k | wait time => exact Iff.rfl

/-! ## Runs -/

/-- The key was given the value, nothing was written for it since, and at the time `t` the span since
    then is not over. -/
def Given (s : Timed α) (acts : List (Act α)) (key : Text) (v : α) (t : Timestamp) : Prop :=
  ∃ before later, acts = before ++ .set key v :: later ∧ (∀ a ∈ later, a.written? ≠ some key) ∧
    (s.cache.span ≤ 0 ∨ t < (s.after before).now + s.cache.span)

theorem given_concat_of_ne (ha : a.written? ≠ some key) :
    s.Given (acts ++ [a]) key v t ↔ s.Given acts key v t := by
  constructor
  · rintro ⟨before, later, hacts, hlater, ht⟩
    rcases eq_nil_or_concat later with rfl | ⟨later, b, rfl⟩
    · obtain ⟨-, hset⟩ := append_inj' hacts rfl
      cases hset
      exact absurd rfl ha
    · rw [concat_eq_append, ← cons_append, ← append_assoc] at hacts
      obtain ⟨rfl, -⟩ := append_inj' hacts rfl
      exact ⟨before, later, rfl, fun b hb => hlater b (by simp [hb]), ht⟩
  · rintro ⟨before, later, rfl, hlater, ht⟩
    refine ⟨before, later ++ [a], by simp, ?_, ht⟩
    intro b hb
    rcases mem_append.1 hb with hb | hb
    · exact hlater b hb
    · rwa [mem_singleton.1 hb]

theorem given_concat_of_eq (ha : a.written? = some key) : s.Given (acts ++ [a]) key v t ↔
    a = .set key v ∧ (s.cache.span ≤ 0 ∨ t < (s.after acts).now + s.cache.span) := by
  constructor
  · rintro ⟨before, later, hacts, hlater, ht⟩
    rcases eq_nil_or_concat later with rfl | ⟨later, b, rfl⟩
    · obtain ⟨rfl, hset⟩ := append_inj' hacts rfl
      cases hset
      exact ⟨rfl, ht⟩
    · rw [concat_eq_append, ← cons_append, ← append_assoc] at hacts
      obtain ⟨-, hab⟩ := append_inj' hacts rfl
      cases hab
      exact absurd ha (hlater _ (by simp))
  · rintro ⟨rfl, ht⟩
    exact ⟨acts, [], rfl, by simp, ht⟩

theorem lasts_after (s : Timed α) (hempty : s.cache.entries = []) (hnow : Timestamp.zero ≤ s.now)
    (acts : List (Act α)) : ∀ t, (s.after acts).now ≤ t →
      ((s.after acts).cache.Lasts t key v ↔ s.Given acts key v t) := by
  -- the last act writes for the key, or it leaves what is found for the key from then on
  induction acts using reverseRecOn with
  | nil =>
    intro t _
    constructor
    · rintro ⟨e, he, -⟩
      rw [after, foldl_nil, hempty] at he
      cases he
    · rintro ⟨before, later, hacts, -⟩
      simp at hacts
  | append_singleton acts a ih =>
    intro t ht
    rw [after_concat] at ht ⊢
    by_cases ha : a.written? = some key
    · rw [given_concat_of_eq ha]
      cases a with
      | set k w =>
        cases ha
        show ((s.after acts).cache.set (s.after acts).now key w).Lasts t key v ↔ _
        rw [lasts_set, expired_set (Int.le_trans hnow (s.now_le_after acts)), span_after]
        simp
      | delete k =>
        cases ha
        show ((s.after acts).cache.delete key).Lasts t key v ↔ _
        rw [lasts_delete]
        simp
      | get k => cases ha
      | cleanup => cases ha
      | wait time => cases ha
    · rw [lasts_next_of_ne ha ht, given_concat_of_ne ha]
      exact ih t (Int.le_trans ((s.after acts).now_le_next a) ht)

/-! ## Cleanups -/

/-- The clocks show the same, and from now on the caches have the same values. -/
structure Alike (s s' : Timed α) : Prop where
  now : s.now = s'.now
  span : s.cache.span = s'.cache.span
  distinct : s.cache.Distinct
  distinct' : s'.cache.Distinct
  lasts (t : Timestamp) : s.now ≤ t → ∀ key v, s.cache.Lasts t key v ↔ s'.cache.Lasts t key v

theorem Alike.get? (h : Alike s s') (key : Text) : s.get? key = s'.get? key := by
  refine Option.ext fun v => ?_
  rw [Timed.get?, Timed.get?, h.distinct.get?_eq_some, h.distinct'.get?_eq_some, ← h.now]
  exact h.lasts s.now (Int.le_refl _) key v

theorem Alike.next (h : Alike s s') (a : Act α) : Alike (s.next a) (s'.next a) where
  now := by
    cases a with
    | wait time => simp [Timed.next, h.now]
    | _ => exact h.now
  span := by rw [span_next, span_next, h.span]
  distinct := distinct_next h.distinct a
  distinct' := distinct_next h.distinct' a
  lasts := by
    intro t ht key v
    have hs := h.lasts t (Int.le_trans (s.now_le_next a) ht) key v
    cases a with
    | set k w =>
      show (s.cache.set s.now k w).Lasts t key v ↔ (s'.cache.set s'.now k w).Lasts t key v
      rw [lasts_set, lasts_set, hs, h.now, h.span]
    | delete k =>
      show (s.cache.delete k).Lasts t key v ↔ (s'.cache.delete k).Lasts t key v
      rw [lasts_delete, lasts_delete, hs]
    | cleanup =>
      have hnow : s.now ≤ t := ht
      show (s.cache.cleanup s.now).Lasts t key v ↔ (s'.cache.cleanup s'.now).Lasts t key v
      rw [lasts_cleanup hnow, lasts_cleanup (h.now ▸ hnow), hs]
    | get k => exact hs
    | wait time => exact hs

theorem Alike.cleanup (h : Alike s s') : Alike (s.next .cleanup) s' where
  now := h.now
  span := h.span
  distinct := distinct_next h.distinct .cleanup
  distinct' := h.distinct'
  lasts t ht key v := (lasts_cleanup ht).trans (h.lasts t ht key v)

theorem Alike.answers (h : Alike s s') (acts : List (Act α)) :
    s.answers acts = s'.answers (acts.filter fun a => !a.isCleanup) := by
  induction acts generalizing s s' with
  | nil => rfl
  | cons a acts ih =>
    by_cases ha : a.isCleanup
    · -- a cleanup of one cache alone leaves the two alike
      cases a with
      | cleanup => simpa [Timed.answers, Act.asked, Act.isCleanup] using ih h.cleanup
      | _ => cases ha
    · rw [filter_cons_of_pos (by simpa using ha), Timed.answers, Timed.answers, ih (h.next a),
        map_congr_left fun key _ => h.get? key]

theorem mem_keys_cleanup (hs : s.cache.Distinct) (key : Text) :
    key ∈ (s.next .cleanup).cache.entries.map Prod.fst ↔ ((s.next .cleanup).get? key).isSome := by
  have hdistinct := distinct_next hs .cleanup
  rw [Option.isSome_iff_exists, mem_map]
  constructor
  · rintro ⟨⟨k, e⟩, he, rfl⟩
    have hlasts : e.expired s.now = false := by simpa using (mem_filter.1 he).2
    exact ⟨e.value, hdistinct.get?_eq_some.2 ⟨e, he, rfl, hlasts⟩⟩
  · rintro ⟨v, hv⟩
    obtain ⟨e, he, -⟩ := hdistinct.get?_eq_some.1 hv
    exact ⟨(key, e), he, rfl⟩

/-- **What a cache answers**, as long as the clock never goes back and starts at the zero point or
    later, as the zero point stands for no time.  A value is found for a key if and only if the last
    write for the key gave it that value and either values do not expire, or the clock has not come to
    the span behind that write.  With all cleanups left out, what is asked for on the way is answered
    in the same way.  After one more cleanup the number of entries is the number of keys that a value
    is found for. -/
theorem answers_of_acts (span : Int) {start : Timestamp} (hstart : Timestamp.zero ≤ start)
    (acts : List (Act α)) :
    (∀ key v, ((new span start).after acts).get? key = some v ↔
      ∃ before later, acts = before ++ .set key v :: later ∧ (∀ a ∈ later, a.written? ≠ some key) ∧
        (span ≤ 0 ∨ ((new span start).after acts).now < ((new span start).after before).now + span)) ∧
    (new span start).answers acts =
      (new span start).answers (acts.filter fun a => !a.isCleanup) ∧
    ∃ keys : List Text, keys.Nodup ∧
      (∀ key, key ∈ keys ↔ (((new span start).after (acts ++ [.cleanup])).get? key).isSome) ∧
      ((new span start).after (acts ++ [.cleanup])).cache.size = keys.length := by
  have hnew : (new span start : Timed α).cache.Distinct := nodup_nil
  have hdistinct := distinct_after hnew acts
  refine ⟨fun key v => ?_, ?_, ?_⟩
  · rw [Timed.get?, hdistinct.get?_eq_some]
    exact lasts_after (new span start) rfl hstart acts _ (Int.le_refl _)
  · exact Alike.answers ⟨rfl, rfl, hnew, hnew, fun _ _ _ _ => Iff.rfl⟩ acts
  · rw [after_concat]
    exact ⟨_, distinct_next hdistinct .cleanup, mem_keys_cleanup hdistinct, (length_map _).symm⟩

theorem answers_of_acts_minute : Timestamp.zero ≤ Timestamp.zero ∧
    (new 60 Timestamp.zero : Timed Nat).answers
      [.set "k" 1, .wait 59, .cleanup, .get "k", .wait 1, .get "k"] = [some 1, none] := by
  refine ⟨Int.le_refl _, ?_⟩
  rw [(answers_of_acts 60 (Int.le_refl _) _).2.1]
  decide

end Timed

end JavaToCpp.Cache
