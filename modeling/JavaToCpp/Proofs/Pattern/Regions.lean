/-
  Patterns inside of programs.
-/
import JavaToCpp.Proofs.Pattern.Search

namespace JavaToCpp.Pattern

open List

@[elab_as_elim]
theorem Core.induction {motive : Core → Prop} (take : ∀ set, motive (.take set))
    (require : ∀ a, motive (.require a)) (enter : ∀ g, motive (.enter g))
    (concat : ∀ rs, (∀ r ∈ rs, motive r) → motive (.concat rs))
    (alternate : ∀ rs, (∀ r ∈ rs, motive r) → motive (.alternate rs))
    (star : ∀ greedy r, motive r → motive (.star greedy r))
    (plus : ∀ greedy r, motive r → motive (.plus greedy r))
    (opt : ∀ greedy r, motive r → motive (.opt greedy r)) (c : Core) : motive c :=
  @Core.rec motive (fun rs => ∀ r ∈ rs, motive r) take require enter concat alternate star plus opt
    (forall_mem_nil _) (fun _ _ h hs => forall_mem_cons.2 ⟨h, hs⟩) c

/-- The instruction with its targets `d` further. -/
def Instruction.shift (d : Nat) : Instruction → Instruction
  | .fork first second => .fork (first + d) (second + d)
  | .jump target => .jump (target + d)
  | c => c

def Instruction.Within (bound : Nat) : Instruction → Prop
  | .fork first second => first ≤ bound ∧ second ≤ bound
  | .jump target => target ≤ bound
  | _ => True

theorem Instruction.Within.mono {b b' : Nat} {c : Instruction} (h : c.Within b) (hb : b ≤ b') :
    c.Within b' := by
  cases c <;> simp only [Instruction.Within] at h ⊢ <;> omega

theorem Instruction.Within.shift {b d : Nat} {c : Instruction} (h : c.Within b) :
    (c.shift d).Within (b + d) := by
  cases c <;> simp only [Instruction.Within, Instruction.shift] at h ⊢ <;> omega

theorem shift_fork (i j d a b : Nat) : (Instruction.fork (i + a) (i + j + b)).shift d =
    .fork (i + d + a) (i + d + j + b) := by
  simp only [Instruction.shift, Instruction.fork.injEq]
  omega

theorem shift_jump (i d : Nat) : (Instruction.jump i).shift d = .jump (i + d) := rfl

theorem shift_forkOf (greedy : Bool) (i j d : Nat) :
    (Core.forkOf greedy i j).shift d = Core.forkOf greedy (i + d) (j + d) := by
  cases greedy <;> rfl

theorem within_forkOf {greedy : Bool} {i j b : Nat} :
    (Core.forkOf greedy i j).Within b ↔ i ≤ b ∧ j ≤ b := by
  cases greedy
  · exact and_comm
  · exact Iff.rfl

/-! ## Moving instructions -/

namespace Core

theorem totalSpan_eq (rs : List Core) : ∀ n, totalSpan n rs = n + totalSpan 0 rs := by
  induction rs with
  | nil => exact fun n => rfl
  | cons r rs ih =>
    intro n
    rw [totalSpan, totalSpan, ih, ih (0 + r.span)]
    omega

theorem emitChoices_cons (after : Nat) (r s : Core) (rs : List Core) (p : Program) :
    emitChoices after (r :: s :: rs) p = emitChoices after (s :: rs)
      ((r.emit (p.push (.fork (p.size + 1) (p.size + r.span + 2)))).push (.jump after)) := by
  rw [emitChoices]
  exact cons_ne_nil s rs

section Shift

variable (q : Program)

theorem size_shift (p : Program) :
    (q ++ p.map (Instruction.shift q.size)).size = p.size + q.size := by
  rw [Array.size_append, Array.size_map, Nat.add_comm]

theorem push_shift (p : Program) {c c' : Instruction} (h : c.shift q.size = c') :
    (q ++ p.map (Instruction.shift q.size)).push c' =
      q ++ (p.push c).map (Instruction.shift q.size) := by
  rw [Array.map_push, h, Array.append_push]

theorem emitAll_shift (rs : List Core)
    (h : ∀ r ∈ rs, ∀ p : Program, r.emit (q ++ p.map (Instruction.shift q.size)) =
      q ++ (r.emit p).map (Instruction.shift q.size)) : ∀ p : Program,
    emitAll rs (q ++ p.map (Instruction.shift q.size)) =
      q ++ (emitAll rs p).map (Instruction.shift q.size) := by
  induction rs with
  | nil => exact fun p => rfl
  | cons r rs ih =>
    intro p
    obtain ⟨hr, hrs⟩ := forall_mem_cons.1 h
    rw [emitAll, hr, ih hrs, emitAll]

theorem emitChoices_shift (rs : List Core)
    (h : ∀ r ∈ rs, ∀ p : Program, r.emit (q ++ p.map (Instruction.shift q.size)) =
      q ++ (r.emit p).map (Instruction.shift q.size)) : ∀ (after : Nat) (p : Program),
    emitChoices (after + q.size) rs (q ++ p.map (Instruction.shift q.size)) =
      q ++ (emitChoices after rs p).map (Instruction.shift q.size) := by
  induction rs with
  | nil =>
    intro after p
    simp [emitChoices, Instruction.shift]
  | cons r rs ih =>
    intro after p
    obtain ⟨hr, hrs⟩ := forall_mem_cons.1 h
    cases rs with
    | nil => exact hr p
    | cons s rs =>
      rw [emitChoices_cons, emitChoices_cons, size_shift, push_shift q p (shift_fork ..), hr,
        push_shift q _ (shift_jump ..), ih hrs]

theorem emit_shift (c : Core) : ∀ p : Program, c.emit (q ++ p.map (Instruction.shift q.size)) =
    q ++ (c.emit p).map (Instruction.shift q.size) := by
  induction c using Core.induction with
  | take set | require a | enter g =>
    intro p
    simp [emit, Instruction.shift]
  | concat rs ih =>
    intro p
    exact emitAll_shift q rs ih p
  | alternate rs ih =>
    intro p
    rw [emit, emit, ← emitChoices_shift q rs ih]
    congr 1
    simp
    omega
  | star greedy r ih =>
    intro p
    have hfork : (forkOf greedy (p.size + 1) (p.size + r.span + 2)).shift q.size =
        forkOf greedy (p.size + q.size + 1) (p.size + q.size + r.span + 2) := by
      rw [shift_forkOf]
      congr 1 <;> omega
    simp only [emit, size_shift]
    rw [push_shift q p hfork, ih, push_shift]
    split
    · exact hfork
    · rfl
  | plus greedy r ih =>
    intro p
    simp only [emit, size_shift]
    rw [ih, push_shift]
    rw [shift_forkOf]
    congr 1
    omega
  | opt greedy r ih =>
    intro p
    simp only [emit, size_shift]
    rw [push_shift, ih]
    rw [shift_forkOf]
    congr 1 <;> omega

end Shift

theorem emit_append (c : Core) (p : Program) :
    c.emit p = p ++ (c.emit #[]).map (Instruction.shift p.size) := by
  simpa using c.emit_shift p #[]

/-! ## Where instructions lead -/

/-- The instructions of a pattern that is written first have their targets among them or right behind
    them, and there are as many as the pattern has. -/
structure Closed (c : Core) : Prop where
  size : (c.emit #[]).size = c.span
  within : ∀ x ∈ c.emit #[], x.Within c.span

theorem Closed.size_emit {c : Core} (h : c.Closed) (p : Program) :
    (c.emit p).size = p.size + c.span := by
  rw [c.emit_append, Array.size_append, Array.size_map, h.size]

theorem Closed.within_emit {c : Core} (h : c.Closed) {p : Program} {b : Nat}
    (hp : ∀ x ∈ p, x.Within b) (hb : p.size + c.span ≤ b) : ∀ x ∈ c.emit p, x.Within b := by
  intro x hx
  rw [c.emit_append, Array.mem_append, Array.mem_map] at hx
  rcases hx with hx | ⟨y, hy, rfl⟩
  · exact hp x hx
  · exact ((h.within y hy).shift (d := p.size)).mono (by omega)

theorem within_push {p : Program} {b : Nat} {c : Instruction} (hp : ∀ x ∈ p, x.Within b)
    (hc : c.Within b) : ∀ x ∈ p.push c, x.Within b := by
  intro x hx
  rcases Array.mem_push.1 hx with hx | rfl
  · exact hp x hx
  · exact hc

theorem closed_emitAll (rs : List Core) (h : ∀ r ∈ rs, r.Closed) : ∀ p : Program,
    (emitAll rs p).size = p.size + totalSpan 0 rs ∧
    ∀ b, (∀ x ∈ p, x.Within b) → p.size + totalSpan 0 rs ≤ b → ∀ x ∈ emitAll rs p, x.Within b := by
  induction rs with
  | nil => exact fun p => ⟨rfl, fun b hp _ => hp⟩
  | cons r rs ih =>
    intro p
    obtain ⟨hr, hrs⟩ := forall_mem_cons.1 h
    obtain ⟨hsize, hwithin⟩ := ih hrs (r.emit p)
    rw [hr.size_emit] at hsize hwithin
    rw [emitAll, totalSpan, totalSpan_eq]
    refine ⟨by omega, fun b hp hb => hwithin b (hr.within_emit hp (by omega)) (by omega)⟩

theorem closed_emitChoices (rs : List Core) (h : ∀ r ∈ rs, r.Closed) (hne : rs ≠ []) :
    ∀ (after : Nat) (p : Program),
    (emitChoices after rs p).size = p.size + totalSpan (2 * (rs.length - 1)) rs ∧
    ∀ b, (∀ x ∈ p, x.Within b) → after ≤ b → p.size + totalSpan (2 * (rs.length - 1)) rs ≤ b →
      ∀ x ∈ emitChoices after rs p, x.Within b := by
  induction rs with
  | nil => exact absurd rfl hne
  | cons r rs ih =>
    intro after p
    obtain ⟨hr, hrs⟩ := forall_mem_cons.1 h
    cases rs with
    | nil =>
      rw [emitChoices, hr.size_emit]
      refine ⟨by simp [totalSpan], fun b hp _ hb => hr.within_emit hp ?_⟩
      simpa [totalSpan] using hb
    | cons s rs =>
      rw [emitChoices_cons]
      obtain ⟨hsize, hwithin⟩ := ih hrs (cons_ne_nil s rs) after
        ((r.emit (p.push (.fork (p.size + 1) (p.size + r.span + 2)))).push (.jump after))
      rw [Array.size_push, hr.size_emit, Array.size_push] at hsize hwithin
      have hspan : totalSpan (2 * ((r :: s :: rs).length - 1)) (r :: s :: rs) =
          r.span + 2 + totalSpan (2 * ((s :: rs).length - 1)) (s :: rs) := by
        rw [totalSpan, totalSpan_eq, totalSpan_eq (s :: rs) (2 * _)]
        simp only [length_cons]
        omega
      rw [hspan]
      refine ⟨by omega, fun b hp hafter hb => hwithin b (within_push (hr.within_emit
        (within_push hp ⟨by omega, by omega⟩) ?_) hafter) hafter (by omega)⟩
      rw [Array.size_push]
      omega

theorem closed (c : Core) : c.Closed := by
  induction c using Core.induction with
  | take set | require a | enter g => exact ⟨rfl, by simp [emit, Instruction.Within]⟩
  | concat rs ih =>
    obtain ⟨hsize, hwithin⟩ := closed_emitAll rs ih #[]
    rw [Array.size_empty, Nat.zero_add] at hsize hwithin
    exact ⟨hsize, hwithin _ (by simp) (Nat.le_refl _)⟩
  | alternate rs ih =>
    cases rs with
    | nil => exact ⟨rfl, by simp [emit, emitChoices, Instruction.Within]⟩
    | cons r rs =>
      obtain ⟨hsize, hwithin⟩ := closed_emitChoices (r :: rs) ih (cons_ne_nil r rs)
        (totalSpan (2 * ((r :: rs).length - 1)) (r :: rs)) #[]
      rw [Array.size_empty, Nat.zero_add] at hsize hwithin
      constructor
      · simpa [emit, span] using hsize
      · simpa [emit, span] using hwithin _ (by simp) (Nat.le_refl _) (Nat.le_refl _)
  | star greedy r ih =>
    have hfork : (forkOf greedy 1 (r.span + 2)).Within (r.span + 2) :=
      within_forkOf.2 ⟨by omega, Nat.le_refl _⟩
    constructor
    · simp [emit, span, ih.size_emit]
      omega
    · simp only [emit, span, Array.size_empty, Nat.zero_add]
      refine within_push (ih.within_emit (by simpa using hfork) (by simp; omega)) ?_
      split
      · exact hfork
      · exact Nat.zero_le _
  | plus greedy r ih =>
    constructor
    · simp [emit, span, ih.size_emit]
    · simp only [emit, span, Array.size_empty, Nat.zero_add]
      exact within_push (ih.within_emit (by simp) (by simp)) (within_forkOf.2 ⟨by omega, Nat.le_refl _⟩)
  | opt greedy r ih =>
    constructor
    · simp [emit, span, ih.size_emit]
      omega
    · simp only [emit, span, Array.size_empty, Nat.zero_add]
      exact ih.within_emit (by simpa using within_forkOf.2 ⟨by omega, Nat.le_refl _⟩)
        (by simp; omega)

def program (c : Core) : Program := (c.emit #[]).push .accept

end Core

/-! ## Ways inside of a region -/

variable {p : Program} {t : Text}

/-- The instructions of a pattern stand in a program from `o` on, and a way that comes out of them
    ends a match. -/
structure Holds (p : Program) (o : Nat) (c : Core) : Prop where
  code : ∀ i x, (c.emit #[])[i]? = some x → p[o + i]? = some (x.shift o)
  exit : p[o + c.span]? = some .accept ∨
    ∃ e, o + c.span < e ∧ p[o + c.span]? = some (.jump e) ∧ p[e]? = some .accept

theorem Core.getElem?_program {c : Core} {i : Nat} (hi : i ≤ c.span) :
    i = c.span ∧ c.program[i]? = some .accept ∨
    i < c.span ∧ ∃ x, (c.emit #[])[i]? = some x ∧ c.program[i]? = some x ∧ x.Within c.span := by
  have hsize := c.closed.size
  rcases Nat.lt_or_eq_of_le hi with hi | rfl
  · have hi' : i < (c.emit #[]).size := by omega
    refine .inr ⟨hi, (c.emit #[])[i], Array.getElem?_eq_getElem hi', ?_,
      c.closed.within _ (Array.getElem_mem hi')⟩
    rw [Core.program, Array.getElem?_push_lt hi']
  · left
    rw [← hsize, Core.program]
    exact ⟨rfl, Array.getElem?_push_size⟩

/-- **Where the instructions of a pattern stand in a program, the ways through them lead to what the
    pattern itself matches.** -/
theorem attempt_of_holds {o : Nat} {c : Core} (h : Holds p o c) (seen' : Finset Nat) (i n : Nat) :
    ∀ seen : Finset Nat, i ≤ c.span → (∀ j ∈ seen, j ≤ o + c.span) →
    (∀ j, o + j ∈ seen ↔ j ∈ seen') →
    p.attempt t seen (o + i) n = c.program.attempt t seen' i n := by
  induction seen', i, n using attempt_induction (p := c.program) (t := t) with
  | step seen' i n hplace hlater =>
    intro seen hi hbound hseen
    by_cases hmem : i ∈ seen'
    · rw [attempt_of_mem hmem, attempt_of_mem ((hseen i).2 hmem)]
    have hmem' : o + i ∉ seen := fun h => hmem ((hseen i).1 h)
    have hbound' : ∀ j ∈ insert (o + i) seen, j ≤ o + c.span := by
      intro j hj
      rcases Finset.mem_insert.1 hj with rfl | hj
      · omega
      · exact hbound j hj
    have hseen' (j : Nat) : o + j ∈ insert (o + i) seen ↔ j ∈ insert i seen' := by
      rw [Finset.mem_insert, Finset.mem_insert, hseen]
      simp
    rcases c.getElem?_program hi with ⟨rfl, hx⟩ | ⟨hi, x, hcode, hx, hwithin⟩
    · rw [attempt_accept hmem hx]
      rcases h.exit with hexit | ⟨e, he, hexit, haccept⟩
      · exact attempt_accept hmem' hexit
      · have hnew : e ∉ insert (o + c.span) seen := by
          intro hmem
          have hle := hbound' e hmem
          omega
        rw [attempt_jump hmem' hexit, attempt_accept hnew haccept]
    have hp := h.code i x hcode
    have hsize : i < c.program.size := (Array.getElem?_eq_some_iff.1 hx).1
    have hplace (j : Nat) (hj : j ≤ c.span) : p.attempt t (insert (o + i) seen) (o + j) n =
        c.program.attempt t (insert i seen') j n :=
      hplace hmem hsize j _ hj hbound' hseen'
    cases x with
    | take set =>
      cases hrest : t.drop n with
      | nil => rw [attempt_take_nil hp hrest, attempt_take_nil hx hrest]
      | cons b rest =>
        rw [attempt_take_cons hmem' hp hrest, attempt_take_cons hmem hx hrest, Nat.add_assoc o,
          hlater (lt_length_of_drop hrest) (i + 1) _ (by omega) ∅ hi (by simp) (by simp)]
    | require a =>
      rw [attempt_require hmem' hp, attempt_require hmem hx, Nat.add_assoc o, hplace _ hi]
    | enter g => rw [attempt_enter hmem' hp, attempt_enter hmem hx, Nat.add_assoc o, hplace _ hi]
    | fork j k =>
      rw [attempt_fork hmem' hp, attempt_fork hmem hx, Nat.add_comm j, Nat.add_comm k,
        hplace _ hwithin.1, hplace _ hwithin.2]
    | jump j => rw [attempt_jump hmem' hp, attempt_jump hmem hx, Nat.add_comm j, hplace _ hwithin]
    | accept =>
      rw [attempt_accept hmem' hp, attempt_accept hmem hx]

theorem attempt_region {o n : Nat} {c : Core} (h : Holds p o c) {seen : Finset Nat}
    (hseen : ∀ j ∈ seen, j < o) : p.attempt t seen o n = c.program.attempt t ∅ 0 n := by
  refine attempt_of_holds h ∅ 0 n seen (Nat.zero_le _) (fun j hj => ?_) (fun j => ?_)
  · have hlt := hseen j hj
    omega
  · simp only [Finset.notMem_empty, iff_false]
    intro hmem
    have hlt := hseen _ hmem
    omega

/-! ## Alternatives -/

theorem getElem?_emit {c : Core} {q : Program} {i : Nat} {x : Instruction}
    (h : (c.emit #[])[i]? = some x) : (c.emit q)[q.size + i]? = some (x.shift q.size) := by
  rw [c.emit_append, Array.getElem?_append_right (Nat.le_add_right ..), Nat.add_sub_cancel_left,
    Array.getElem?_map, h]
  rfl

theorem getElem?_emitChoices (after : Nat) (rs : List Core) : ∀ (q : Program) (i : Nat),
    i < q.size → (Core.emitChoices after rs q)[i]? = q[i]? := by
  have hemit (c : Core) (q : Program) (i : Nat) (hi : i < q.size) : (c.emit q)[i]? = q[i]? := by
    rw [c.emit_append, Array.getElem?_append_left hi]
  have hpush (q : Program) (x : Instruction) (i : Nat) (hi : i < q.size) :
      (q.push x)[i]? = q[i]? := by
    rw [Array.getElem?_push_lt hi, Array.getElem?_eq_getElem hi]
  induction rs with
  | nil => exact fun q i hi => hpush q _ i hi
  | cons r rs ih =>
    intro q i hi
    cases rs with
    | nil => exact hemit r q i hi
    | cons s rs =>
      have hsize := r.closed.size_emit (q.push (.fork (q.size + 1) (q.size + r.span + 2)))
      rw [Array.size_push] at hsize
      rw [Core.emitChoices_cons, ih _ _ (by rw [Array.size_push]; omega), hpush _ _ _ (by omega),
        hemit _ _ _ (by rw [Array.size_push]; omega), hpush _ _ _ hi]

theorem attempt_choices {after n : Nat} (haccept : p[after]? = some .accept) (rs : List Core)
    (hne : rs ≠ []) : ∀ (q : Program) (seen : Finset Nat), (∀ j ∈ seen, j < q.size) →
    after = q.size + Core.totalSpan (2 * (rs.length - 1)) rs →
    (∀ (i : Nat) (x : Instruction), (Core.emitChoices after rs q)[i]? = some x → p[i]? = some x) →
    p.attempt t seen q.size n = rs.findSome? fun c => c.program.attempt t ∅ 0 n := by
  induction rs with
  | nil => exact absurd rfl hne
  | cons r rs ih =>
    intro q seen hseen hafter hp
    rw [findSome?_cons]
    cases rs with
    | nil =>
      have hspan : after = q.size + r.span := by simpa [Core.totalSpan] using hafter
      have hregion : Holds p q.size r :=
        ⟨fun i x hx => hp _ _ (getElem?_emit hx), .inl (hspan ▸ haccept)⟩
      rw [attempt_region hregion hseen]
      cases r.program.attempt t ∅ 0 n <;> rfl
    | cons s rs =>
      rw [Core.totalSpan, Core.totalSpan_eq] at hafter
      simp only [length_cons] at hafter
      rw [Core.emitChoices_cons] at hp
      -- the fork, the first alternative and the jump behind it
      let q1 := q.push (.fork (q.size + 1) (q.size + r.span + 2))
      let q2 := (r.emit q1).push (.jump after)
      change ∀ (i : Nat) (x : Instruction),
        (Core.emitChoices after (s :: rs) q2)[i]? = some x → p[i]? = some x at hp
      have hsize1 : q1.size = q.size + 1 := Array.size_push ..
      have hsize2 : (r.emit q1).size = q.size + 1 + r.span := hsize1 ▸ r.closed.size_emit q1
      have hsize3 : q2.size = q.size + r.span + 2 := by
        rw [Array.size_push, hsize2]
        omega
      have hold (i : Nat) (x : Instruction) (hx : (r.emit q1)[i]? = some x) : p[i]? = some x := by
        obtain ⟨hi, -⟩ := Array.getElem?_eq_some_iff.1 hx
        refine hp i x ?_
        rw [getElem?_emitChoices _ _ _ _ (by omega), Array.getElem?_push_lt hi,
          ← Array.getElem?_eq_getElem hi, hx]
      have hfork : p[q.size]? = some (.fork (q.size + 1) (q.size + r.span + 2)) := by
        refine hold _ _ ?_
        rw [r.emit_append, Array.getElem?_append_left (by omega)]
        exact Array.getElem?_push_size
      have hjump : p[q.size + 1 + r.span]? = some (.jump after) := by
        refine hp _ _ ?_
        rw [getElem?_emitChoices _ _ _ _ (by omega), ← hsize2]
        exact Array.getElem?_push_size
      have hregion : Holds p (q.size + 1) r :=
        ⟨fun i x hx => hold _ _ (hsize1 ▸ getElem?_emit hx), .inr ⟨after, by omega, hjump, haccept⟩⟩
      have hseen' : ∀ j ∈ insert q.size seen, j < q.size + 1 := by
        intro j hj
        rcases Finset.mem_insert.1 hj with rfl | hj
        · omega
        · exact (hseen j hj).trans (Nat.lt_succ_self _)
      have hrest := ih (cons_ne_nil s rs) q2 (insert q.size seen)
        (fun j hj => (hseen' j hj).trans_le (by omega))
        (by rw [Core.totalSpan_eq, hsize3]; simp only [length_cons]; omega) hp
      rw [hsize3] at hrest
      rw [attempt_fork (fun hmem => Nat.lt_irrefl _ (hseen _ hmem)) hfork, hrest,
        attempt_region hregion hseen']
      cases r.program.attempt t ∅ 0 n <;> rfl

theorem attempt_alternate (rs : List Core) (hne : rs ≠ []) (n : Nat) :
    (Core.alternate rs).program.attempt t ∅ 0 n = rs.findSome? fun c => c.program.attempt t ∅ 0 n := by
  let after := (#[] : Program).size + Core.totalSpan (2 * (rs.length - 1)) rs
  have hprogram : (Core.alternate rs).program = (Core.emitChoices after rs #[]).push .accept := rfl
  have hold (i : Nat) (x : Instruction) (hx : (Core.emitChoices after rs #[])[i]? = some x) :
      (Core.alternate rs).program[i]? = some x := by
    obtain ⟨hi, -⟩ := Array.getElem?_eq_some_iff.1 hx
    rw [hprogram, Array.getElem?_push_lt hi, ← Array.getElem?_eq_getElem hi, hx]
  have haccept : (Core.alternate rs).program[after]? = some .accept := by
    have hsize : (Core.emitChoices after rs #[]).size = after :=
      (Core.closed_emitChoices rs (fun r _ => r.closed) hne after #[]).1
    rw [hprogram, Array.getElem?_push, if_pos hsize.symm]
  exact attempt_choices haccept rs hne #[] ∅ (by simp) rfl hold

theorem holds_behind {x : Instruction} {c d : Core} (hc : ∀ p, c.emit p = p.push x) :
    (Core.concat [c, d]).program[0]? = some x ∧ Holds (Core.concat [c, d]).program 1 d := by
  have hprogram : (Core.concat [c, d]).program = (d.emit #[x]).push .accept := by
    change (d.emit (c.emit #[])).push _ = _
    rw [hc]
    rfl
  have hsize : (d.emit #[x]).size = 1 + d.span := d.closed.size_emit _
  have hold (i : Nat) (y : Instruction) (hy : (d.emit #[x])[i]? = some y) :
      (Core.concat [c, d]).program[i]? = some y := by
    obtain ⟨hi, -⟩ := Array.getElem?_eq_some_iff.1 hy
    rw [hprogram, Array.getElem?_push_lt hi, ← Array.getElem?_eq_getElem hi, hy]
  refine ⟨hold _ _ ?_, fun i y hy => hold _ _ (getElem?_emit (q := #[x]) hy), .inl ?_⟩
  · rw [d.emit_append, Array.getElem?_append_left (by simp)]
    rfl
  · rw [hprogram, ← hsize]
    exact Array.getElem?_push_size

theorem attempt_group (g : Nat) (c : Core) (n : Nat) :
    (Core.concat [.enter g, c]).program.attempt t ∅ 0 n =
      (c.program.attempt t ∅ 0 n).map (Match.after [g]) := by
  obtain ⟨henter, hregion⟩ := holds_behind (c := .enter g) (d := c) fun p => rfl
  rw [attempt_enter (Finset.notMem_empty _) henter, attempt_region hregion (by simp)]

theorem match?_bound (c : Core) (t : Text) :
    (Core.concat [.require .beginText, c]).program.match? t = c.program.match? t := by
  obtain ⟨hrequire, hregion⟩ := holds_behind (c := .require .beginText) (d := c) fun p => rfl
  have hbegin : Assertion.beginText.holds (placeAt t 0) := rfl
  rw [match?_eq_attempt, match?_eq_attempt, attempt_require (Finset.notMem_empty _) hrequire,
    if_pos hbegin, attempt_region hregion (by simp)]

/-- **Of alternatives that are groups, the first one that matches is taken, and its group alone is
    entered besides those that it enters itself.** -/
theorem match?_alternatives (gs : List (Nat × Core)) (hne : gs ≠ []) (t : Text) :
    (Core.concat [.require .beginText,
      .alternate (gs.map fun g => .concat [.enter g.1, g.2])]).program.match? t =
    gs.findSome? fun g => (g.2.program.match? t).map (Match.after [g.1]) := by
  rw [match?_bound, match?_eq_attempt, attempt_alternate _ (by simpa using hne), findSome?_map]
  simp only [Function.comp_def, attempt_group, match?_eq_attempt]

/-! ## Groups that are entered -/

/-- The pattern enters no group: its instructions bring no such instruction. -/
def Core.Silent (c : Core) : Prop := ∀ (p : Program) (g : Nat), .enter g ∈ c.emit p → .enter g ∈ p

namespace Core

theorem enter_of_push {p : Program} {x : Instruction} {g : Nat} (hx : x ≠ .enter g)
    (h : .enter g ∈ p.push x) : .enter g ∈ p :=
  (Array.mem_push.1 h).resolve_right fun h => hx h.symm

theorem forkOf_ne_enter (greedy : Bool) (i j g : Nat) : forkOf greedy i j ≠ .enter g := by
  cases greedy <;> rintro ⟨⟩

theorem silent_concat {rs : List Core} (h : ∀ r ∈ rs, r.Silent) : (concat rs).Silent := by
  induction rs with
  | nil => exact fun p g hg => hg
  | cons r rs ih =>
    obtain ⟨hr, hrs⟩ := forall_mem_cons.1 h
    exact fun p g hg => hr p g (ih hrs (r.emit p) g hg)

theorem silent_alternate {rs : List Core} (h : ∀ r ∈ rs, r.Silent) : (alternate rs).Silent := by
  intro p g
  rw [emit]
  generalize p.size + totalSpan (2 * (rs.length - 1)) rs = after
  induction rs generalizing p with
  | nil => exact enter_of_push (by rintro ⟨⟩)
  | cons r rs ih =>
    obtain ⟨hr, hrs⟩ := forall_mem_cons.1 h
    cases rs with
    | nil => exact hr p g
    | cons s rs =>
      intro hg
      rw [emitChoices_cons] at hg
      have hg' := hr _ g (enter_of_push (by rintro ⟨⟩) (ih hrs _ hg))
      exact enter_of_push (by rintro ⟨⟩) hg'

section Repetition

variable {r : Core} (h : r.Silent) (greedy : Bool)
include h

theorem Silent.star : (star greedy r).Silent := by
  intro p g hg
  have hg' : .enter g ∈ r.emit (p.push (forkOf greedy (p.size + 1) (p.size + r.span + 2))) := by
    refine enter_of_push ?_ hg
    split
    · exact forkOf_ne_enter _ _ _ _
    · rintro ⟨⟩
  exact enter_of_push (forkOf_ne_enter _ _ _ _) (h _ g hg')

theorem Silent.plus : (plus greedy r).Silent := fun p g hg =>
  h p g (enter_of_push (forkOf_ne_enter _ _ _ _) hg)

theorem Silent.opt : (opt greedy r).Silent := fun _ g hg =>
  enter_of_push (forkOf_ne_enter _ _ _ _) (h _ g hg)

theorem Silent.starOf : (starOf greedy r).Silent := by
  fun_cases Core.starOf greedy r with
  | case1 | case2 => exact h
  | case3 | case4 => exact h.star greedy

theorem Silent.plusOf : (plusOf greedy r).Silent := by
  fun_cases Core.plusOf greedy r with
  | case1 | case2 => exact h
  | case3 | case4 => exact h.plus greedy

theorem Silent.optOf : (optOf greedy r).Silent := by
  fun_cases Core.optOf greedy r with
  | case1 | case2 => exact h
  | case3 | case4 => exact h.opt greedy

theorem Silent.upTo (n : Nat) : (upTo greedy r n).Silent := by
  induction n with
  | zero => exact h.optOf greedy
  | succ n ih => exact (silent_concat (by simpa using ⟨h, ih⟩)).optOf greedy

theorem Silent.between (least : Nat) (most : Option Nat) : (between least most greedy r).Silent := by
  have hreplicate (n : Nat) {last : List Core} (hlast : ∀ c ∈ last, c.Silent) :
      (concat (replicate n r ++ last)).Silent := by
    refine silent_concat fun c hc => ?_
    rcases mem_append.1 hc with hc | hc
    · rwa [eq_of_mem_replicate hc]
    · exact hlast c hc
  unfold Core.between
  split
  · exact h.starOf greedy
  · exact h.plusOf greedy
  · exact hreplicate _ (by simpa using h.plusOf greedy)
  · exact h
  · split
    · exact silent_concat (by simp)
    · exact h.upTo greedy _
    · simpa using hreplicate _ (forall_mem_nil _)
    · exact hreplicate _ (by simpa using h.upTo greedy _)

end Repetition

theorem Silent.entered_eq_nil {c : Core} (h : c.Silent) {m : Match} (hm : c.program.match? t = some m) :
    m.entered = [] := by
  have hnone (w : Thread) (n : Nat) (hw : Way c.program t w n) : w.entered = [] := by
    induction hw with
    | start => rfl
    | @enter w n g _ hg _ =>
      have hmem := enter_of_push (by rintro ⟨⟩) (Array.mem_of_getElem? hg)
      exact absurd (h _ g hmem) (by simp)
    | require _ _ _ ih | first _ _ ih | second _ _ ih | jump _ _ ih | take _ _ _ _ ih => exact ih
  obtain ⟨i, hway, -⟩ := ends_of_match? hm
  exact hnone _ _ hway

end Core

end JavaToCpp.Pattern
