/-
  Pages of the records in memory.
-/
import JavaToCpp.Record.Memory
import Mathlib.Data.List.Induction

namespace JavaToCpp

open List

/-! ## What is asked for -/

namespace Query

/-- The record has each value that is asked for, and was created within the bounds. -/
structure Wants (q : Query) (r : Record) : Prop where
  status : q.status ≠ [] → r.status = q.status
  stage : q.stage ≠ [] → r.errorStage = q.stage
  name : q.name ≠ [] → r.sourceName = q.name
  digest : q.digest ≠ [] → r.digest = q.digest
  start : ∀ t ∈ q.start, t ≤ r.created
  stop : ∀ t ∈ q.stop, r.created ≤ t

theorem agrees_iff {wanted value : Text} : agrees wanted value ↔ (wanted ≠ [] → value = wanted) := by
  cases wanted with
  | nil => simp [agrees]
  | cons b t => simp [agrees, eq_comm (a := value)]

theorem all_iff {t : Option Timestamp} {p : Timestamp → Prop} [DecidablePred p] :
    t.all (p ·) ↔ ∀ x ∈ t, p x := by
  cases t with
  | none => simp
  | some x => simp

theorem admits_iff {q : Query} {r : Record} : q.admits r ↔ q.Wants r := by
  simp only [admits, Bool.and_eq_true, agrees_iff, all_iff]
  constructor
  · rintro ⟨⟨⟨⟨⟨hstatus, hstage⟩, hname⟩, hdigest⟩, hstart⟩, hstop⟩
    exact ⟨hstatus, hstage, hname, hdigest, hstart, hstop⟩
  · rintro ⟨hstatus, hstage, hname, hdigest, hstart, hstop⟩
    exact ⟨⟨⟨⟨⟨hstatus, hstage⟩, hname⟩, hdigest⟩, hstart⟩, hstop⟩

instance (q : Query) (r : Record) : Decidable (q.Wants r) := decidable_of_iff _ admits_iff

/-! ## Order -/

/-- The records `found` are the records `stored`, the latest first.  Those of one time are in the order
    in which they are stored. -/
structure NewestFirst (found stored : List Record) : Prop where
  perm : found.Perm stored
  latest : found.Pairwise fun a b => b.created ≤ a.created
  ties (t : Timestamp) : found.filter (·.created = t) = stored.filter (·.created = t)

theorem newestFirst_mergeSort (stored : List Record) :
    NewestFirst (stored.mergeSort fun a b => b.created ≤ a.created) stored := by
  have htrans (a b c : Record) (hab : decide (b.created ≤ a.created)) (hbc : decide (c.created ≤ b.created)) :
      decide (c.created ≤ a.created) := by
    simp only [decide_eq_true_eq] at hab hbc ⊢
    exact Int.le_trans hbc hab
  have htotal (a b : Record) : decide (b.created ≤ a.created) || decide (a.created ≤ b.created) := by
    simp only [Bool.or_eq_true, decide_eq_true_eq]
    exact Int.le_total _ _
  have hperm := mergeSort_perm stored fun a b => decide (b.created ≤ a.created)
  refine ⟨hperm, by simpa using pairwise_mergeSort htrans htotal stored, fun t => ?_⟩
  -- records of one time are in order as they are stored, and sorting keeps such a part of a list
  have htie : (stored.filter (·.created = t)).Pairwise fun a b => decide (b.created ≤ a.created) := by
    rw [pairwise_filter]
    refine pairwise_of_forall fun a b ha hb => ?_
    simp only [decide_eq_true_eq] at ha hb ⊢
    exact Int.le_of_eq (hb.trans ha.symm)
  have hsub := (sublist_mergeSort htrans htotal htie filter_sublist).filter (·.created = t)
  simp only [filter_filter, Bool.and_self] at hsub
  exact (hsub.eq_of_length (hperm.filter _).length_eq.symm).symm

theorem newestFirst_matching (q : Query) (stored : List Record) :
    NewestFirst (q.matching stored) (stored.filter (q.Wants ·)) := by
  have hfilter : stored.filter q.admits = stored.filter (q.Wants ·) :=
    filter_congr fun r _ => by simp only [← admits_iff, Bool.decide_eq_true]
  rw [matching, hfilter]
  exact newestFirst_mergeSort _

/-! ## Pages -/

/-- The question for the records behind an offset, `size` of them at most. -/
def part (q : Query) (size offset : Nat) : Query := { q with limit := size, offset }

theorem flatMap_parts {α : Type} (xs : List α) (size n : Nat) :
    (range n).flatMap (fun k => (xs.drop (k * size)).take size) = xs.take (n * size) := by
  induction n with
  | zero => simp
  | succ n ih =>
    rw [range_succ, flatMap_append, ih, Nat.succ_mul, take_add]
    simp

end Query

namespace Record.Memory

theorem query?_part (m : Memory) (q : Query) {size : Nat} (hsize : 0 < size) (offset : Nat) :
    m.query? (q.part size offset) =
      some (((q.matching m.records).drop offset).take size, (q.matching m.records).length) := by
  have hoffset : ¬ (q.part size offset).offset < 0 := Int.not_lt.2 (Int.natCast_nonneg offset)
  have hlimit : (q.part size offset).pageSize = size := by simp [Query.pageSize, Query.part, hsize]
  have hmatching : (q.part size offset).matching m.records = q.matching m.records := rfl
  rw [query?, if_neg hoffset, Query.page, hlimit, hmatching]
  rfl

/-! ## Creation -/

/-- A call that creates a record, with the identifier and the time for it. -/
structure Creation where
  record : Record
  fresh : Uuid
  now : Timestamp

def Creation.stored (c : Creation) : Record := c.record.completed c.fresh c.now

def holding (bound : Int) (cs : List Creation) : Memory :=
  cs.foldl (fun m c => m.create c.stored) { bound }

theorem holding_concat (bound : Int) (cs : List Creation) (c : Creation) :
    holding bound (cs ++ [c]) = (holding bound cs).create c.stored := by
  simp [holding]

theorem bound_holding (bound : Int) (cs : List Creation) : (holding bound cs).bound = bound := by
  induction cs using reverseRecOn with
  | nil => rfl
  | append_singleton cs c ih => rwa [holding_concat]

theorem trim_trim (bound : Int) (records : List Record) (r : Record) :
    trim bound (trim bound records ++ [r]) = trim bound (records ++ [r]) := by
  unfold trim
  split
  · rename_i hbound
    have hdrop : records.drop (records.length - bound.toNat) ++ [r] =
        (records ++ [r]).drop (records.length - bound.toNat) := by
      rw [drop_append_of_le_length (by omega)]
    rw [hdrop, drop_drop, length_drop]
    congr 1
    simp only [length_append, length_singleton]
    omega
  · rfl

theorem records_holding (bound : Int) (cs : List Creation) :
    (holding bound cs).records = trim bound (cs.map Creation.stored) := by
  induction cs using reverseRecOn with
  | nil => simp [holding, trim]
  | append_singleton cs c ih =>
    rw [holding_concat, create, bound_holding, ih, trim_trim, map_append, map_singleton]

theorem trim_suffix (bound : Int) (records : List Record) : trim bound records <:+ records := by
  unfold trim
  split
  · exact drop_suffix _ _
  · exact suffix_refl _

theorem length_trim (bound : Int) (records : List Record) : (trim bound records).length =
    if 0 < bound then min bound.toNat records.length else records.length := by
  unfold trim
  split
  · rw [length_drop]
    omega
  · rfl

/-- **Pages of a memory.**  After any creations a memory with a bound holds the latest records, as many
    as the bound allows (all of them without one), in the order of their creation.  The records that a
    query wants, the latest first and in the order of creation where times are equal, are what the pages
    of any size give one after the other.  Each page comes with the number of all these records, and
    behind the last of them pages are empty. -/
theorem pages_of_creations (bound : Int) (cs : List Creation) (q : Query) (size : Nat)
    (hsize : 0 < size) :
    (holding bound cs).records <:+ cs.map Creation.stored ∧
    (holding bound cs).records.length = (if 0 < bound then min bound.toNat cs.length else cs.length) ∧
    ∃ found, Query.NewestFirst found ((holding bound cs).records.filter (q.Wants ·)) ∧
      (∀ n, found.length ≤ n * size → ∃ pages,
        (range n).mapM (fun k => (holding bound cs).query? (q.part size (k * size))) = some pages ∧
        pages.flatMap Prod.fst = found ∧ ∀ p ∈ pages, p.2 = found.length) ∧
      ∀ offset, found.length ≤ offset →
        (holding bound cs).query? (q.part size offset) = some ([], found.length) := by
  refine ⟨?_, ?_, q.matching (holding bound cs).records, q.newestFirst_matching _, fun n hn => ?_,
    fun offset hoffset => ?_⟩
  · rw [records_holding]
    exact trim_suffix _ _
  · rw [records_holding, length_trim, length_map]
  · simp only [query?_part _ q hsize]
    refine ⟨_, mapM_pure, ?_, ?_⟩
    · rw [flatMap_map, Query.flatMap_parts, take_of_length_le hn]
    · simp
  · rw [query?_part _ q hsize, drop_of_length_le hoffset, take_nil]

def tied : List Creation :=
  [5, 7, 7, 6].map fun t => ⟨{ created := t, status := Record.success }, Uuid.nil, t⟩

theorem pages_of_tied : 0 < 2 ∧
    (holding 3 tied).records <:+ tied.map Creation.stored ∧ (holding 3 tied).records.length = 3 ∧
    ∃ found, Query.NewestFirst found
        ((holding 3 tied).records.filter (({ stop := some 7 } : Query).Wants ·)) ∧
      (∀ n, found.length ≤ n * 2 → ∃ pages, (range n).mapM (fun k =>
          (holding 3 tied).query? (({ stop := some 7 } : Query).part 2 (k * 2))) = some pages ∧
        pages.flatMap Prod.fst = found ∧ ∀ p ∈ pages, p.2 = found.length) ∧
      ∀ offset, found.length ≤ offset →
        (holding 3 tied).query? (({ stop := some 7 } : Query).part 2 offset) =
          some ([], found.length) :=
  ⟨by decide, pages_of_creations 3 tied { stop := some 7 } 2 (by decide)⟩

end Record.Memory

end JavaToCpp
