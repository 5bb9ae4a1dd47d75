/-
  Ways through a program.
-/
import JavaToCpp.Pattern.Match
import JavaToCpp.Proofs.Text.Utf8

namespace JavaToCpp.Pattern

open List hiding set

/-- The place in a text behind some bytes. -/
def placeAt (t : Text) (n : Nat) : Place := ⟨if n = 0 then none else t[n - 1]?, n, t.drop n⟩

/-- The ways through a program, with how many bytes of a text they have taken. -/
inductive Way (p : Program) (t : Text) : Thread → Nat → Prop
  | start : Way p t ⟨0, []⟩ 0
  | require {w n a} : Way p t w n → p[w.place]? = some (.require a) → a.holds (placeAt t n) →
      Way p t { w with place := w.place + 1 } n
  | enter {w n g} : Way p t w n → p[w.place]? = some (.enter g) →
      Way p t ⟨w.place + 1, g :: w.entered⟩ n
  | first {w n i j} : Way p t w n → p[w.place]? = some (.fork i j) → Way p t { w with place := i } n
  | second {w n i j} : Way p t w n → p[w.place]? = some (.fork i j) → Way p t { w with place := j } n
  | jump {w n i} : Way p t w n → p[w.place]? = some (.jump i) → Way p t { w with place := i } n
  | take {w n set b rest} : Way p t w n → p[w.place]? = some (.take set) → t.drop n = b :: rest →
      set.mem (Text.decodeHead b rest).1 →
      Way p t { w with place := w.place + 1 } (n + 1 + (Text.decodeHead b rest).2)

/-- The match is where a way ends. -/
def Ends (p : Program) (t : Text) (m : Match) : Prop :=
  ∃ i, Way p t ⟨i, m.entered⟩ m.taken ∧ p[i]? = some .accept

variable {p : Program} {t : Text} {n : Nat}

theorem Way.le_length {w : Thread} (h : Way p t w n) : n ≤ t.length := by
  induction h with
  | start => exact Nat.zero_le _
  | require _ _ _ ih | enter _ _ ih | first _ _ ih | second _ _ ih | jump _ _ ih => exact ih
  | @take w n set b rest _ _ hrest _ _ =>
    have hlength := congrArg length hrest
    have hmore := Text.decodeHead_le b rest
    rw [length_drop, length_cons] at hlength
    omega

/-! ## From an instruction to the end -/

/-- The ways from an instruction to the end of a match, with the groups that they enter and what
    they take of a text. -/
inductive Rest (p : Program) : Nat → Text → List Nat → Text → Prop
  | accept {i t} : p[i]? = some .accept → Rest p i t [] []
  | require {i t a e x} : p[i]? = some (.require a) → Rest p (i + 1) t e x → Rest p i t e x
  | enter {i t g e x} : p[i]? = some (.enter g) → Rest p (i + 1) t e x → Rest p i t (g :: e) x
  | first {i t j k e x} : p[i]? = some (.fork j k) → Rest p j t e x → Rest p i t e x
  | second {i t j k e x} : p[i]? = some (.fork j k) → Rest p k t e x → Rest p i t e x
  | jump {i t j e x} : p[i]? = some (.jump j) → Rest p j t e x → Rest p i t e x
  | take {i b t set e x} : p[i]? = some (.take set) → set.mem (Text.decodeHead b t).1 →
      Rest p (i + 1) (t.drop (Text.decodeHead b t).2) e x →
      Rest p i (b :: t) e (b :: t.take (Text.decodeHead b t).2 ++ x)

theorem Way.append {w : Thread} (h : Way p t w n) : ∀ {e x}, Rest p w.place (t.drop n) e x →
    Rest p 0 t (w.entered.reverse ++ e) (t.take n ++ x) := by
  induction h with
  | start => exact id
  | require _ ha _ ih => exact fun hx => ih (.require ha hx)
  | enter _ hg ih =>
    intro e x hx
    simpa using ih (.enter hg hx)
  | first _ hij ih => exact fun hx => ih (.first hij hx)
  | second _ hij ih => exact fun hx => ih (.second hij hx)
  | jump _ hi ih => exact fun hx => ih (.jump hi hx)
  | @take w n set b rest _ hset hrest hmem ih =>
    intro e x hx
    have hdrop : t.drop (n + 1 + (Text.decodeHead b rest).2) =
        rest.drop (Text.decodeHead b rest).2 := by
      rw [Nat.add_assoc, ← drop_drop, hrest, Nat.add_comm, drop_succ_cons]
    have htake : t.take (n + 1 + (Text.decodeHead b rest).2) =
        t.take n ++ b :: rest.take (Text.decodeHead b rest).2 := by
      rw [Nat.add_assoc, take_add, hrest, Nat.add_comm 1, take_succ_cons]
    rw [hdrop] at hx
    rw [htake, append_assoc]
    exact ih (hrest ▸ .take hset hmem hx)

theorem Ends.rest {m : Match} (h : Ends p t m) :
    Rest p 0 t m.entered.reverse (t.take m.taken) := by
  obtain ⟨i, hway, haccept⟩ := h
  simpa using hway.append (.accept haccept)

/-! ## What a group can match -/

/-- What the ways from an instruction to the end can take, as far as it can be listed. -/
structure Reach where
  /-- all ways -/
  all : Option (List Text) := some []
  /-- those that enter a group -/
  through : Option (List Text) := some []
deriving DecidableEq

namespace Reach

/-- The characters of a set, if they are ASCII. -/
def ascii? (set : RuneSet) : Option (List UInt8) :=
  if set.all fun (_, d) => d < 128 then
    some (set.flatMap fun (c, d) => (range (d + 1 - c)).map fun i => UInt8.ofNat (c + i))
  else none

def cons? (set : RuneSet) : List Text → Option (List Text)
  | [] => some []
  | xs => (ascii? set).map fun bs => bs.flatMap fun b => xs.map (b :: ·)

def both : Option (List Text) → Option (List Text) → Option (List Text)
  | some xs, some ys => some (xs ++ ys)
  | _, _ => none

/-- What can be taken from instruction `i` on, if `r` tells it of the instructions behind it. -/
def of (g i : Nat) (r : Nat → Reach) : Instruction → Reach
  | .take set => ⟨(r (i + 1)).all.bind (cons? set), (r (i + 1)).through.bind (cons? set)⟩
  | .require _ => r (i + 1)
  | .enter h => if h = g then ⟨(r (i + 1)).all, (r (i + 1)).all⟩ else r (i + 1)
  | .fork j k => ⟨both (r j).all (r k).all, both (r j).through (r k).through⟩
  | .jump j => r j
  | .accept => ⟨some [[]], some []⟩

/-- What a table of the instructions behind `i` tells; of the others, that no way from there enters
    the group. -/
def behind (i : Nat) (rs : List Reach) (j : Nat) : Reach :=
  if j ≤ i then ⟨none, some []⟩ else rs.getD (j - (i + 1)) {}

/-- The table of the instructions from `i` on. -/
def table (g : Nat) : (i : Nat) → List Instruction → List Reach
  | _, [] => []
  | i, c :: cs => of g i (behind i (table g (i + 1) cs)) c :: table g (i + 1) cs

end Reach

def Program.reach (p : Program) (g : Nat) : List Reach := Reach.table g 0 p.toList

def Instruction.targets (i : Nat) : Instruction → List Nat
  | .take _ | .require _ | .enter _ => [i + 1]
  | .fork j k => [j, k]
  | .jump j => [j]
  | .accept => []

/-- Whether the group matches nothing but the words, as far as that can be told: no way from where
    the program goes back to enters the group. -/
def Program.spells (p : Program) (g : Nat) (words : List Text) : Bool :=
  (p.toList.zipIdx.all fun (c, i) =>
    (c.targets i).all fun j => i < j || ((p.reach g).getD j {}).through == some []) &&
  ((p.reach g).getD 0 {}).through.any fun xs => xs.all fun x => words.contains x

namespace Reach

/-- What a way takes is among what is listed. -/
structure Tells (r : Reach) (g : Nat) (e : List Nat) (x : Text) : Prop where
  all : ∀ xs, r.all = some xs → x ∈ xs
  through : g ∈ e → ∀ xs, r.through = some xs → x ∈ xs

variable {g : Nat} {e : List Nat} {x : Text}

theorem mem_ascii? {set : RuneSet} {bs : List UInt8} (h : ascii? set = some bs) {b : UInt8}
    {t : Text} (hmem : set.mem (Text.decodeHead b t).1) :
    b ∈ bs ∧ (Text.decodeHead b t).2 = 0 := by
  unfold ascii? at h
  split at h
  · rename_i hascii
    cases h
    obtain ⟨⟨c, d⟩, hset, hcd⟩ := any_eq_true.1 hmem
    have hd : d < 128 := by simpa using all_eq_true.1 hascii _ hset
    simp only [Bool.and_eq_true, decide_eq_true_eq] at hcd
    have hhead := Text.decodeHead_of_lt (by omega : (Text.decodeHead b t).1 < 128)
    rw [hhead] at hcd ⊢
    refine ⟨mem_flatMap.2 ⟨(c, d), hset, mem_map.2 ⟨b.toNat - c, ?_, ?_⟩⟩, rfl⟩
    · rw [mem_range]
      omega
    · rw [Nat.add_sub_cancel' hcd.1, UInt8.ofNat_toNat]
  · cases h

theorem mem_cons? {set : RuneSet} {xs ys : List Text} (h : cons? set xs = some ys) (hx : x ∈ xs)
    {b : UInt8} {t : Text} (hmem : set.mem (Text.decodeHead b t).1) :
    b :: t.take (Text.decodeHead b t).2 ++ x ∈ ys := by
  unfold cons? at h
  split at h
  · cases hx
  · obtain ⟨bs, hbs, rfl⟩ := Option.map_eq_some_iff.1 h
    obtain ⟨hb, htaken⟩ := mem_ascii? hbs hmem
    rw [htaken]
    exact mem_flatMap.2 ⟨b, hb, mem_map.2 ⟨x, hx, rfl⟩⟩

theorem mem_both {as bs : Option (List Text)}
    (hx : (∀ xs, as = some xs → x ∈ xs) ∨ ∀ xs, bs = some xs → x ∈ xs) {zs : List Text}
    (h : both as bs = some zs) : x ∈ zs := by
  unfold both at h
  split at h
  · cases h
    rcases hx with hx | hx
    · exact mem_append_left _ (hx _ rfl)
    · exact mem_append_right _ (hx _ rfl)
  · cases h

theorem getD_table : ∀ {cs : List Instruction} {i k : Nat} {c : Instruction}, cs[k]? = some c →
    (table g i cs).getD k {} = of g (i + k) (behind (i + k) ((table g i cs).drop (k + 1))) c
  | c :: cs, i, 0, _, h => by
    cases h
    rfl
  | _ :: cs, i, k + 1, c, h => by
    have hcs : cs[k]? = some c := h
    have ih := getD_table (i := i + 1) hcs
    rw [Nat.add_assoc, Nat.add_comm 1] at ih
    exact ih

end Reach

theorem reach_eq {g i : Nat} {c : Instruction} (h : p[i]? = some c) :
    (p.reach g).getD i {} = .of g i
      (fun j => if j ≤ i then ⟨none, some []⟩ else (p.reach g).getD j {}) c := by
  have hc : p.toList[i]? = some c := by rw [Array.getElem?_toList, h]
  have htable := Reach.getD_table (g := g) (i := 0) hc
  rw [Nat.zero_add] at htable
  rw [Program.reach, htable]
  congr 1
  funext j
  rw [Reach.behind]
  split
  · rfl
  · rw [getD_eq_getElem?_getD, getD_eq_getElem?_getD, getElem?_drop]
    congr 3
    omega

theorem Rest.tells {g : Nat} (hback : ∀ i c, p[i]? = some c → ∀ j ∈ c.targets i,
      i < j ∨ ((p.reach g).getD j {}).through = some [])
    {i : Nat} {t : Text} {e : List Nat} {x : Text} (h : Rest p i t e x) :
    ((p.reach g).getD i {}).Tells g e x := by
  -- what is told of the instructions that an instruction goes on at, also of those before it
  have htold {i j : Nat} {c : Instruction} {e : List Nat} {x : Text} (hc : p[i]? = some c)
      (hj : j ∈ c.targets i) (h : ((p.reach g).getD j {}).Tells g e x) :
      (if j ≤ i then ⟨none, some []⟩ else (p.reach g).getD j {} : Reach).Tells g e x := by
    split
    · have hnone := (hback i c hc j hj).resolve_left (by omega)
      exact ⟨nofun, fun hg xs hxs => by cases hxs; exact h.through hg _ hnone⟩
    · exact h
  induction h with
  | accept hc =>
    rw [reach_eq hc]
    refine ⟨?_, nofun⟩
    rintro xs ⟨⟩
    exact mem_singleton_self _
  | require hc _ ih | jump hc _ ih =>
    rw [reach_eq hc]
    exact htold hc (by simp [Instruction.targets]) ih
  | @enter i t h e x hc _ ih =>
    have ih := htold hc (by simp [Instruction.targets]) ih
    rw [reach_eq hc, Reach.of]
    split
    · exact ⟨ih.all, fun _ => ih.all⟩
    · rename_i hne
      exact ⟨ih.all, fun hg => ih.through ((mem_cons.1 hg).resolve_left (Ne.symm hne))⟩
  | first hc _ ih =>
    have ih := htold hc (by simp [Instruction.targets]) ih
    rw [reach_eq hc, Reach.of]
    exact ⟨fun xs hxs => Reach.mem_both (.inl ih.all) hxs,
      fun hg xs hxs => Reach.mem_both (.inl (ih.through hg)) hxs⟩
  | second hc _ ih =>
    have ih := htold hc (by simp [Instruction.targets]) ih
    rw [reach_eq hc, Reach.of]
    exact ⟨fun xs hxs => Reach.mem_both (.inr ih.all) hxs,
      fun hg xs hxs => Reach.mem_both (.inr (ih.through hg)) hxs⟩
  | take hc hmem _ ih =>
    have ih := htold hc (by simp [Instruction.targets]) ih
    rw [reach_eq hc, Reach.of]
    refine ⟨fun ys hys => ?_, fun hg ys hys => ?_⟩
    · obtain ⟨xs, hxs, hys⟩ := Option.bind_eq_some_iff.1 hys
      exact Reach.mem_cons? hys (ih.all xs hxs) hmem
    · obtain ⟨xs, hxs, hys⟩ := Option.bind_eq_some_iff.1 hys
      exact Reach.mem_cons? hys (ih.through hg xs hxs) hmem

end JavaToCpp.Pattern
