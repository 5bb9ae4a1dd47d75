/-
  Variables have a value where they are read.

  The scopes note that a variable has a value where the text assigns it, whatever path leads there.
  So a read finds its variable given a value, or finds that the path has passed by a part of the text
  that gives it one.
-/
import JavaToCpp.Proofs.Typing.Flow

namespace JavaToCpp

open List

namespace Java

/-! ## Events -/

/-- The event gives the variable a value, or passes by a part of the text that assigns it. -/
inductive Event.Supplies (x : Text) : Event → Prop
  | give : Supplies x (.give x)
  | skip {xs : List Text} : x ∈ xs → Supplies x (.skip xs)

/-- The variable has been supplied since its last declaration. -/
def Ready (H : List Event) (x : Text) : Prop :=
  ∃ before ev after, H = before ++ ev :: after ∧ ev.Supplies x ∧ .declare x ∉ after

/-- Every variable is ready where it is read in `es`, if `H` has happened before. -/
def Safe (H es : List Event) : Prop :=
  ∀ es₁ x es₂, es = es₁ ++ .read x :: es₂ → Ready (H ++ es₁) x

variable {H es es' : List Event} {x : Text}

theorem Ready.append (h : Ready H x) (hes : .declare x ∉ es) : Ready (H ++ es) x := by
  obtain ⟨before, ev, after, rfl, hev, hafter⟩ := h
  refine ⟨before, ev, after ++ es, by simp, hev, ?_⟩
  simp [hafter, hes]

theorem ready_of_supplies {ev : Event} (h : ev.Supplies x) : Ready (H ++ [ev]) x :=
  ⟨H, ev, [], rfl, h, not_mem_nil⟩

theorem safe_nil : Safe H [] := by
  intro es₁ x es₂ h
  simp at h

theorem Safe.append (h : Safe H es) (h' : Safe (H ++ es) es') : Safe H (es ++ es') := by
  intro es₁ x es₂ heq
  rcases append_eq_append_iff.1 heq with ⟨as, rfl, hes'⟩ | ⟨bs, hes, hbs⟩
  · rw [← append_assoc]
    exact h' as x es₂ hes'
  · cases bs with
    | nil =>
      rw [append_nil] at hes
      have hread := h' [] x es₂ hbs.symm
      rwa [append_nil, hes] at hread
    | cons ev bs =>
      cases hbs
      exact h es₁ x bs hes

theorem safe_reads {xs : List Text} (h : ∀ x ∈ xs, Ready H x) : Safe H (xs.map .read) := by
  intro es₁ x es₂ heq
  obtain ⟨ys, zs, rfl, rfl, hzs⟩ := map_eq_append_iff.1 heq
  obtain ⟨y, zs, rfl, hy, -⟩ := map_eq_cons_iff.1 hzs
  cases hy
  refine (h x (by simp)).append ?_
  simp

theorem safe_singleton {ev : Event} (h : ∀ x, ev ≠ .read x) : Safe H [ev] := by
  intro es₁ x es₂ heq
  cases es₁ with
  | nil =>
    cases heq
    exact absurd rfl (h x)
  | cons _ es₁ => simp at heq

end Java

/-! ## Scopes -/

namespace Scopes

def names (sc : Scopes) : List Text := sc.env.map Prod.fst

variable {sc sc' : Scopes} {x : Text} {n : Nat}

theorem mem_names : x ∈ sc.names ↔ ∃ E ∈ sc.shape, x ∈ E.map Prod.fst := by
  simp only [names, env, mem_map, mem_flatten, mem_reverse]
  constructor
  · rintro ⟨q, ⟨E, hE, hq⟩, rfl⟩
    exact ⟨E, hE, q, hq, rfl⟩
  · rintro ⟨E, hE, q, hq, rfl⟩
    exact ⟨q, ⟨E, hE, hq⟩, rfl⟩

theorem Valued.mem_names (h : sc.Valued x) : x ∈ sc.names := by
  obtain ⟨f, hf, v, hv, rfl, -⟩ := h
  exact mem_map.2 ⟨_, mem_env.2 ⟨f, hf, v, hv, rfl⟩, rfl⟩

theorem Valued.of_drop (h : Valued (sc.drop n) x) : sc.Valued x := by
  obtain ⟨f, hf, h⟩ := h
  exact ⟨f, mem_of_mem_drop hf, h⟩

theorem valued_push : sc.push.Valued x ↔ sc.Valued x := by
  simp [Valued, push]

theorem valued_cons {f : Frame} :
    Valued (f :: sc) x ↔ (∃ v ∈ f.declared, v.name = x ∧ v.initialized) ∨ sc.Valued x := by
  simp [Valued]

variable {v : Variable} {z : Text}

theorem valued_declare (h : (sc.declare v).Valued x) : sc.Valued x ∨ x = v.name ∧ v.initialized := by
  cases sc with
  | nil => exact .inl h
  | cons f sc =>
    rw [declare, valued_cons] at h
    rw [valued_cons]
    rcases h with ⟨w, hw, rfl, hinit⟩ | h
    · rcases mem_cons.1 hw with rfl | hw
      · exact .inr ⟨rfl, hinit⟩
      · exact .inl (.inl ⟨w, hw, rfl, hinit⟩)
    · exact .inl (.inr h)

theorem drop_declare (v : Variable) : (sc.declare v).drop (n + 1) = sc.drop (n + 1) := by
  cases sc <;> rfl

theorem drop_initialise (v : Variable) :
    (setInitialized v.name (sc.declare v)).drop (n + 1) = sc.drop (n + 1) := by
  cases sc <;> simp [declare, setInitialized]

theorem valued_markReturned : Valued (sc.markReturned.drop n) x ↔ Valued (sc.drop n) x := by
  cases sc with
  | nil => exact Iff.rfl
  | cons f sc =>
    cases n with
    | zero => rw [markReturned, drop_zero, drop_zero, valued_cons, valued_cons]
    | succ n => exact Iff.rfl

theorem mem_initializeIn : ∀ {vs : List Variable}, v ∈ initializeIn z vs → v.name = z ∨ v ∈ vs
  | w :: vs, h => by
    rw [initializeIn] at h
    split at h
    · rename_i hw
      rcases mem_cons.1 h with rfl | h
      · exact .inl (by simpa using hw)
      · exact .inr (mem_cons_of_mem w h)
    · rcases mem_cons.1 h with rfl | h
      · exact .inr mem_cons_self
      · exact (mem_initializeIn h).imp_right (mem_cons_of_mem w)

theorem valued_setInitialized : ∀ (sc : Scopes) (n : Nat),
    Valued ((setInitialized z sc).drop n) x → Valued (sc.drop n) x ∨ x = z
  | [], n, h => .inl h
  | f :: sc, n, h => by
    rw [setInitialized] at h
    split at h
    · cases n with
      | zero =>
        rw [drop_zero, valued_cons] at h
        rw [drop_zero, valued_cons]
        rcases h with ⟨v, hv, rfl, hinit⟩ | h
        · exact (mem_initializeIn hv).symm.imp_left fun hv => .inl ⟨v, hv, rfl, hinit⟩
        · exact .inl (.inr h)
      | succ n => exact .inl h
    · cases n with
      | zero =>
        rw [drop_zero, valued_cons] at h
        rw [drop_zero, valued_cons]
        rcases h with h | h
        · exact .inl (.inl h)
        · exact (valued_setInitialized sc 0 h).imp_left .inr
      | succ n => exact valued_setInitialized sc n h

theorem exists_initializeIn (hv : v.initialized) : ∀ {vs : List Variable},
    v ∈ vs → ∃ w ∈ initializeIn z vs, w.name = v.name ∧ w.initialized
  | u :: vs, h => by
    rw [initializeIn]
    rcases mem_cons.1 h with rfl | h
    · split
      · exact ⟨_, mem_cons_self, rfl, rfl⟩
      · exact ⟨v, mem_cons_self, rfl, hv⟩
    · split
      · exact ⟨v, mem_cons_of_mem _ h, rfl, hv⟩
      · obtain ⟨w, hw, hname⟩ := exists_initializeIn hv h
        exact ⟨w, mem_cons_of_mem u hw, hname⟩

theorem Valued.setInitialized (z : Text) : ∀ {sc : Scopes}, sc.Valued x → (setInitialized z sc).Valued x
  | f :: sc, h => by
    rw [Scopes.setInitialized]
    split
    · rw [valued_cons] at h ⊢
      rcases h with ⟨v, hv, rfl, hinit⟩ | h
      · exact .inl (exists_initializeIn hinit hv)
      · exact .inr h
    · rw [valued_cons] at h ⊢
      exact h.imp_right (Valued.setInitialized z)

end Scopes

namespace Typing

open Program Java Scopes Nonterminal

variable {c : Context} {sc sc' : Scopes} {s : Nonterminal} {H es : List Event} {x : Text}

/-! ## What statements change -/

theorem names_of_extend {D : Env} (h : sc'.shape = extend D sc.shape) (hx : x ∈ sc.names) :
    x ∈ sc'.names := by
  rw [mem_names] at hx ⊢
  obtain ⟨E, hE, hx⟩ := hx
  rw [h]
  cases hs : sc.shape with
  | nil => simp [hs] at hE
  | cons E' Es =>
    rw [hs] at hE
    rcases mem_cons.1 hE with rfl | hE
    · exact ⟨E ++ D, mem_cons_self, by simp [map_append, hx]⟩
    · exact ⟨E, mem_cons_of_mem _ hE, hx⟩

variable {p : Phrase s} {n : Nat}

theorem Does.shape (h : Does c p sc sc') : ∃ D, sc'.shape = extend D sc.shape := by
  have hsame (sc : Scopes) : ∃ D, sc.shape = extend D sc.shape := ⟨[], (extend_nil _).symm⟩
  induction h with
  | declare => exact ⟨_, shape_declare ..⟩
  | initialise => exact ⟨_, (shape_setInitialized ..).trans (shape_declare ..)⟩
  | set => exact ⟨[], (shape_setInitialized ..).trans (extend_nil _).symm⟩
  | combine | stepAfter | stepBefore | call => exact hsame _
  | returnValue | returnNothing => exact ⟨[], (shape_markReturned _).trans (extend_nil _).symm⟩
  | initVar _ ih | initSet _ ih | step _ ih => exact ih

theorem Admits.shape {x : Stmt s} (h : Admits c x sc sc') : ∃ D, sc'.shape = extend D sc.shape := by
  have hsame {sc sc' : Scopes} (h : sc'.shape = sc.shape) : ∃ D, sc'.shape = extend D sc.shape :=
    ⟨[], h.trans (extend_nil _).symm⟩
  have hleave {sc sc' : Scopes} (h : ∃ D, sc'.shape = extend D sc.push.shape) :
      Scopes.shape (sc'.drop 1) = sc.shape := by
    obtain ⟨D, h⟩ := h
    exact shape_leave h
  induction h with
  | block _ ih | last _ _ ih => exact ih
  | blockEmpty => exact hsame rfl
  | more _ _ _ ihi ih =>
    obtain ⟨D, hi⟩ := ihi
    obtain ⟨D', h⟩ := ih
    exact ⟨D ++ D', by rw [h, hi, extend_extend]⟩
  | simple h => exact h.shape
  | nested _ ih => exact hsame ((shape_noteReturned ..).trans (hleave ih))
  | compound _ _ ih =>
    obtain ⟨D, h⟩ := ih
    exact ⟨D, (shape_noteReturned ..).trans h⟩
  | ifThen _ _ ih | whileLoop _ _ ih | doWhile _ _ ih => exact hsame (hleave ih)
  | ifElse _ _ _ ihyes ihno => exact hsame ((hleave ihno).trans (hleave ihyes))
  | ifElseIf _ _ _ ihyes ihno =>
    obtain ⟨D, h⟩ := ihno
    exact ⟨D, by rw [h, hleave ihyes]⟩
  | forLoop hinit _ hstep _ ih =>
    obtain ⟨D, hinit⟩ := hinit.shape
    obtain ⟨D', hstep⟩ := hstep.shape
    have hbody := hleave ih
    rw [hstep, hinit, extend_extend] at hbody
    exact hsame (shape_leave hbody)

theorem valued_around (h : Valued ((sc.drop 1).drop n) x) : Valued (sc.drop (n + 1)) x := by
  rwa [drop_drop, Nat.add_comm] at h

theorem valued_noteReturned {r : Bool} : Valued ((noteReturned r sc).drop n) x ↔ Valued (sc.drop n) x := by
  cases r
  · exact Iff.rfl
  · exact valued_markReturned

/-- Which variables get a value: those that are assigned and, of the innermost block, those that are
    declared. -/
theorem Does.valued (h : Does c p sc sc') (n : Nat) (hx : Valued (sc'.drop n) x) :
    Valued (sc.drop n) x ∨ x ∈ p.assigned ∨ n = 0 ∧ p.declares ≠ [] := by
  induction h with
  | declare =>
    cases n with
    | zero => exact .inr (.inr ⟨rfl, cons_ne_nil _ _⟩)
    | succ n => exact .inl (by rwa [drop_declare] at hx)
  | initialise _ hname =>
    cases n with
    | zero => exact .inr (.inr ⟨rfl, cons_ne_nil _ _⟩)
    | succ n => exact .inl (by rwa [← hname, drop_initialise] at hx)
  | @set id _ _ sc =>
    refine (valued_setInitialized sc n hx).imp_right fun hx => .inl ?_
    exact mem_singleton.2 hx
  | combine | stepAfter | stepBefore | call => exact .inl hx
  | returnValue | returnNothing => exact .inl (valued_markReturned.1 hx)
  | @initVar v _ _ _ ih => cases v <;> exact ih hx
  | @initSet a _ _ _ ih | @step a _ _ _ ih => cases a <;> exact ih hx

/-- Around the innermost block, only the variables get a value that the statement assigns; an if
    declares nothing in the innermost block. -/
theorem Admits.valued {st : Stmt s} (h : Admits c st sc sc')
    (hn : s = .ifStatement ∨ n ≠ 0) (hx : Valued (sc'.drop n) x) :
    Valued (sc.drop n) x ∨ x ∈ st.assigned := by
  have hdoes {s : Nonterminal} {p : Phrase s} {sc sc' : Scopes} {n : Nat} (h : Does c p sc sc')
      (hn : n ≠ 0) (hx : Valued (sc'.drop n) x) : Valued (sc.drop n) x ∨ x ∈ p.assigned := by
    rcases h.valued n hx with hx | hx | hzero
    · exact .inl hx
    · exact .inr hx
    · exact absurd hzero.1 hn
  induction h generalizing n with
  | block _ ih | last _ _ ih => exact ih (.inr (hn.resolve_left (by decide))) hx
  | blockEmpty => exact .inl hx
  | more _ _ _ ihi ih =>
    have hn := hn.resolve_left (by decide)
    rcases ih (.inr hn) hx with hx | hx
    · exact (ihi (.inr hn) hx).imp_right (mem_append_left _)
    · exact .inr (mem_append_right _ hx)
  | simple h => exact hdoes h (hn.resolve_left (by decide)) hx
  | nested _ ih => exact ih (.inr n.succ_ne_zero) (valued_around (valued_noteReturned.1 hx))
  | compound _ _ ih => exact ih (.inr (hn.resolve_left (by decide))) (valued_noteReturned.1 hx)
  | ifThen _ _ ih | whileLoop _ _ ih | doWhile _ _ ih =>
    exact ih (.inr n.succ_ne_zero) (valued_around hx)
  | ifElse _ _ _ ihyes ihno =>
    rcases ihno (.inr n.succ_ne_zero) (valued_around hx) with hx | hx
    · exact (ihyes (.inr n.succ_ne_zero) (valued_around hx)).imp_right (mem_append_left _)
    · exact .inr (mem_append_right _ hx)
  | ifElseIf _ _ _ ihyes ihno =>
    rcases ihno (.inl rfl) hx with hx | hx
    · exact (ihyes (.inr n.succ_ne_zero) (valued_around hx)).imp_right (mem_append_left _)
    · exact .inr (mem_append_right _ hx)
  | forLoop hinit _ hstep _ ih =>
    -- two blocks are left: that of the body and that of the loop
    rcases ih (.inr (n + 1).succ_ne_zero) (valued_around (valued_around hx)) with hx | hx
    · rcases hdoes hstep n.succ_ne_zero hx with hx | hx
      · exact (hdoes hinit n.succ_ne_zero hx).imp_right (mem_append_left _)
      · exact .inr (mem_append_right _ (mem_append_left _ hx))
    · exact .inr (mem_append_right _ (mem_append_right _ hx))

theorem Admits.valued_leave {b : Stmt .codeBlock} (h : Admits c b sc.push sc')
    (hx : Valued (sc'.drop 1) x) : sc.Valued x ∨ x ∈ b.assigned :=
  h.valued (.inr Nat.one_ne_zero) hx

theorem Does.valued_step {p : Phrase .forStep} (h : Does c p sc sc') (hx : sc'.Valued x) :
    sc.Valued x ∨ x ∈ p.assigned := by
  rcases h.valued 0 hx with hx | hx | ⟨-, hne⟩
  · exact .inl hx
  · exact .inr hx
  · exact absurd (p.declares_eq_nil (by decide) (by decide)) hne

theorem Does.grows {p : Phrase .forStep} (h : Does c p sc sc') (hx : sc.Valued x) : sc'.Valued x := by
  cases h with
  | step h =>
    cases h with
    | set => exact hx.setInitialized _
    | combine | stepAfter | stepBefore => exact hx

/-! ## Declarations on a path -/

/-- No open variable is declared again. -/
def Fresh (sc : Scopes) (es : List Event) : Prop := ∀ x ∈ sc.names, .declare x ∉ es

theorem fresh_of_quiet (h : ∀ x, .declare x ∉ es) : Fresh sc es := fun x _ => h x

theorem Fresh.append {es' : List Event} (h : Fresh sc es) (h' : Fresh sc es') : Fresh sc (es ++ es') := by
  intro x hx
  simp [h x hx, h' x hx]

theorem Fresh.of_names (h : Fresh sc' es) (hsc : ∀ x ∈ sc.names, x ∈ sc'.names) : Fresh sc es :=
  fun x hx => h x (hsc x hx)

theorem fresh_push : Fresh sc.push es ↔ Fresh sc es := by
  have hnames (x : Text) : x ∈ sc.push.names ↔ x ∈ sc.names := by simp [mem_names]
  simp [Fresh, hnames]

theorem fresh_rounds {rounds : List (List Event)} {turn : List Event}
    (hround : ∀ es ∈ rounds, Fresh sc es) (hturn : ∀ x, .declare x ∉ turn) :
    Fresh sc (rounds.flatMap fun es => es ++ turn) := by
  intro x hx hmem
  obtain ⟨es, hes, hmem⟩ := mem_flatMap.1 hmem
  exact ((hround es hes).append (fresh_of_quiet hturn)) x hx hmem

theorem not_declare_mem_expr (e : Phrase .expr) (x : Text) : .declare x ∉ e.events := by
  simp

theorem not_declare_mem_turn (step : Phrase .forStep) (test : Phrase .expr) (x : Text) :
    .declare x ∉ step.events ++ test.events := by
  cases step with
  | step a => cases a <;> simp

theorem Does.fresh (h : Does c p sc sc') : Fresh sc p.events := by
  induction h with
  | declare hnew =>
    intro x hx hmem
    cases mem_singleton.1 hmem
    exact not_mem_env_of_lookup? hnew hx
  | initialise hnew =>
    intro x hx hmem
    obtain rfl : x = _ := by simpa using hmem
    exact not_mem_env_of_lookup? hnew hx
  | set | combine | stepAfter | stepBefore | returnValue | returnNothing | call =>
    exact fresh_of_quiet fun x => by simp
  | initVar _ ih | initSet _ ih | step _ ih => exact ih

/-- **Names are not declared twice**: a path declares no variable that was open before. -/
theorem Admits.fresh {once : Bool} {st : Stmt s} {e : Exit} (h : Admits c st sc sc')
    (hrun : Runs once st es e) : Fresh sc es := by
  have htest (test : Phrase .expr) {sc : Scopes} : Fresh sc test.events :=
    fresh_of_quiet (not_declare_mem_expr test)
  have hskip (xs : List Text) {sc : Scopes} : Fresh sc [.skip xs] :=
    fresh_of_quiet fun x => by simp
  have hleave {b : Stmt .codeBlock} {sc sc' : Scopes} (h : Admits c b sc.push sc') (x : Text)
      (hx : x ∈ sc.names) : x ∈ Scopes.names (sc'.drop 1) := by
    obtain ⟨D, h⟩ := h.shape
    have hshape : Scopes.shape (sc'.drop 1) = sc.shape := shape_leave h
    rwa [mem_names, hshape, ← mem_names]
  have hfor {init : Phrase .forInit} {step : Phrase .forStep} {sc sc₁ sc₂ : Scopes}
      {es : List Event} (hinit : Does c init sc.push sc₁) (hstep : Does c step sc₁ sc₂)
      (h : Fresh sc₂.push es) : Fresh sc es := by
    obtain ⟨D, hinit⟩ := hinit.shape
    obtain ⟨D', hstep⟩ := hstep.shape
    rw [fresh_push] at h
    exact fresh_push.1 (h.of_names fun x hx => names_of_extend hstep (names_of_extend hinit hx))
  induction hrun generalizing sc sc' with
  | block _ ih => cases h with | block h => exact ih h
  | blockEmpty => exact fresh_of_quiet fun x => not_mem_nil
  | last _ ih => cases h with | last _ h => exact ih h
  | moreFalls _ _ ihi ih =>
    cases h with
    | more _ hi hrest =>
      obtain ⟨D, hshape⟩ := hi.shape
      exact (ihi hi).append ((ih hrest).of_names fun x => names_of_extend hshape)
  | moreReturns _ ih => cases h with | more _ hi _ => exact ih hi
  | simple => cases h with | simple h => exact h.fresh
  | compound _ ih =>
    cases h with
    | nested h => exact fresh_push.1 (ih h)
    | compound _ h => exact ih h
  | thenYes _ ih => cases h with | ifThen _ h => exact (htest _).append (fresh_push.1 (ih h))
  | thenNo | whileNone => exact (htest _).append (hskip _)
  | elseYes _ ih =>
    cases h with
    | ifElse _ h _ => exact (htest _).append ((fresh_push.1 (ih h)).append (hskip _))
  | elseNo _ ih =>
    cases h with
    | ifElse _ hyes h =>
      exact (htest _).append ((hskip _).append ((fresh_push.1 (ih h)).of_names (hleave hyes)))
  | chainYes _ ih =>
    cases h with
    | ifElseIf _ h _ => exact (htest _).append ((fresh_push.1 (ih h)).append (hskip _))
  | chainNo _ ih =>
    cases h with
    | ifElseIf _ hyes h =>
      exact (htest _).append ((hskip _).append ((ih h).of_names (hleave hyes)))
  | whileRounds _ _ ih =>
    cases h with
    | whileLoop _ h =>
      refine (htest _).append (fresh_rounds (fun es hes => ?_) (not_declare_mem_expr _))
      exact fresh_push.1 (ih es hes h)
  | whileReturns _ _ ih ihlast =>
    cases h with
    | whileLoop _ h =>
      refine (htest _).append (.append (fresh_rounds (fun es hes => ?_) (not_declare_mem_expr _)) ?_)
      · exact fresh_push.1 (ih es hes h)
      · exact fresh_push.1 (ihlast h)
  | forNone =>
    cases h with
    | forLoop hinit _ _ _ =>
      exact (fresh_push.1 hinit.fresh).append ((htest _).append (hskip _))
  | forRounds _ _ ih =>
    cases h with
    | forLoop hinit _ hstep h =>
      refine (fresh_push.1 hinit.fresh).append ((htest _).append ((hskip _).append ?_))
      exact fresh_rounds (fun es hes => hfor hinit hstep (ih es hes h)) (not_declare_mem_turn _ _)
  | forReturns _ _ ih ihlast =>
    cases h with
    | forLoop hinit _ hstep h =>
      refine (fresh_push.1 hinit.fresh).append ((htest _).append ((hskip _).append (.append ?_ ?_)))
      · exact fresh_rounds (fun es hes => hfor hinit hstep (ih es hes h)) (not_declare_mem_turn _ _)
      · exact hfor hinit hstep (ihlast h)
  | doNone => exact (hskip _).append (htest _)
  | doRounds _ _ ih =>
    cases h with
    | doWhile h _ =>
      exact fresh_rounds (fun es hes => fresh_push.1 (ih es hes h)) (not_declare_mem_expr _)
  | doReturns _ _ ih ihlast =>
    cases h with
    | doWhile h _ =>
      exact (fresh_rounds (fun es hes => fresh_push.1 (ih es hes h)) (not_declare_mem_expr _)).append
        (fresh_push.1 (ihlast h))

/-! ## Safe paths -/

/-- What has a value by the scopes is ready. -/
def Covers (sc : Scopes) (H : List Event) : Prop := ∀ x, sc.Valued x → Ready H x

theorem Covers.append (h : Covers sc H) (hes : Fresh sc es) : Covers sc (H ++ es) :=
  fun x hx => (h x hx).append (hes x hx.mem_names)

theorem Covers.of_valued (h : Covers sc H) (hsc : ∀ x, sc'.Valued x → sc.Valued x) : Covers sc' H :=
  fun x hx => h x (hsc x hx)

theorem Covers.push (h : Covers sc H) : Covers sc.push H := h.of_valued fun _ => valued_push.1

theorem Covers.pop (h : Covers sc.push H) : Covers sc H := h.of_valued fun _ => valued_push.2

/-- The path is safe and, if it goes on, has done what the scopes behind it note. -/
def Reaches (sc : Scopes) (H es : List Event) (e : Exit) : Prop :=
  Safe H es ∧ (e = .falls → Covers sc (H ++ es))

section Reaches

variable {sc₁ : Scopes} {es' : List Event} {e : Exit} {xs : List Text}

theorem Reaches.append (h : Reaches sc₁ H es .falls)
    (h' : Covers sc₁ (H ++ es) → Reaches sc' (H ++ es) es' e) : Reaches sc' H (es ++ es') e := by
  obtain ⟨hsafe, hcovers⟩ := h' (h.2 rfl)
  refine ⟨h.1.append hsafe, fun he => ?_⟩
  rw [← append_assoc]
  exact hcovers he

theorem Reaches.of_valued (h : Reaches sc H es e) (hsc : ∀ x, sc'.Valued x → sc.Valued x) :
    Reaches sc' H es e :=
  ⟨h.1, fun he => (h.2 he).of_valued hsc⟩

theorem Reaches.leave (h : Reaches sc H es e) : Reaches (sc.drop 1) H es e :=
  h.of_valued fun _ => Valued.of_drop

theorem Reaches.skip (h : Reaches sc₁ H es e)
    (hsc : ∀ x, sc'.Valued x → sc₁.Valued x ∨ x ∈ xs) : Reaches sc' H (es ++ [.skip xs]) e := by
  refine ⟨h.1.append (safe_singleton (by simp)), fun he x hx => ?_⟩
  rw [← append_assoc]
  rcases hsc x hx with hx | hx
  · exact (h.2 he x hx).append (by simp)
  · exact ready_of_supplies (.skip hx)

theorem reaches_nil (hc : Covers sc H) : Reaches sc H [] .falls :=
  ⟨safe_nil, fun _ => by rwa [append_nil]⟩

theorem reaches_reads (h : ∀ x ∈ xs, sc.Valued x) (hc : Covers sc H) : Reaches sc H (xs.map .read) .falls :=
  ⟨safe_reads fun x hx => hc x (h x hx), fun _ => hc.append (fresh_of_quiet (by simp))⟩

theorem reaches_give (x : Text) (hc : Covers sc H) : Reaches (sc.setInitialized x) H [.give x] .falls := by
  refine ⟨safe_singleton (by simp), fun _ y hy => ?_⟩
  rcases valued_setInitialized sc 0 hy with hy | rfl
  · exact (hc y hy).append (by simp)
  · exact ready_of_supplies .give

theorem reaches_change (hx : sc.Valued x) (hxs : ∀ y ∈ xs, sc.Valued y) (hc : Covers sc H) :
    Reaches sc H ((x :: xs).map .read ++ [.give x]) .falls := by
  refine (reaches_reads (forall_mem_cons.2 ⟨hx, hxs⟩) hc).append fun hc => ?_
  exact (reaches_give x hc).of_valued fun y hy => hy.setInitialized x

theorem reaches_declare {v : Variable} (hnew : sc.lookup? v.name = none) (hv : v.initialized = false)
    (hc : Covers sc H) : Reaches (sc.declare v) H [.declare v.name] .falls := by
  refine ⟨safe_singleton (by simp), fun _ x hx => ?_⟩
  rcases valued_declare hx with hx | ⟨-, hinit⟩
  · refine (hc x hx).append fun hmem => not_mem_env_of_lookup? hnew ?_
    cases mem_singleton.1 hmem
    exact hx.mem_names
  · simp [hv] at hinit

theorem Held.reaches {test : Phrase .expr} (h : Held sc test) (hc : Covers sc H) :
    Reaches sc H test.events .falls := by
  rw [Phrase.events_expr]
  exact reaches_reads h hc

theorem Does.reaches {p : Phrase s} (h : Does c p sc sc') (hc : Covers sc H) :
    Reaches sc' H p.events .falls := by
  induction h with
  | declare hnew hname hv =>
    rw [← hname] at hnew
    simpa [hname] using reaches_declare hnew hv hc
  | @initialise _ id _ e _ _ hnew hname hv he =>
    rw [← hname] at hnew
    have hdeclare := reaches_declare hnew hv hc
    rw [hname] at hdeclare
    exact hdeclare.append fun hc => (reaches_reads he hc).append fun hc => reaches_give id.text hc
  | @set id _ _ _ he => exact (reaches_reads he hc).append fun hc => reaches_give id.text hc
  | combine hid he => exact reaches_change hid he hc
  | stepAfter hid | stepBefore hid => exact reaches_change hid (forall_mem_nil _) hc
  | @call p _ h =>
    rw [Phrase.events_funcCall]
    exact reaches_reads h hc
  | returnValue _ he => exact (reaches_reads he hc).of_valued fun x => (valued_markReturned (n := 0)).1
  | returnNothing => exact (reaches_nil hc).of_valued fun x => (valued_markReturned (n := 0)).1
  | initVar _ ih | initSet _ ih | step _ ih => exact ih hc

theorem Reaches.returns {v : Bool} (h : Reaches sc H es (.returns v)) : Reaches sc' H es (.returns v) :=
  ⟨h.1, fun he => by cases he⟩

/-- The rounds of a loop.  In the scopes `sc` a round begins, and those of `sc'` without the innermost
    are behind the loop. -/
theorem Admits.reaches_rounds {once : Bool} {body : Stmt s} {turn : List Event}
    (h : Admits c body sc sc') (hquiet : ∀ x, .declare x ∉ turn)
    (hturn : ∀ H, Covers sc H → Covers (sc'.drop 1) H → Safe H turn) :
    ∀ {rounds : List (List Event)} {H : List Event}, (∀ es ∈ rounds, Runs once body es .falls) →
    (∀ es ∈ rounds, ∀ H, Covers sc H → Reaches sc' H es .falls) → Covers sc H →
    Reaches sc H (rounds.flatMap fun es => es ++ turn) .falls ∧
      (rounds ≠ [] → Reaches (sc'.drop 1) H (rounds.flatMap fun es => es ++ turn) .falls)
  | [], H, _, _, hc => ⟨reaches_nil hc, fun hne => absurd rfl hne⟩
  | es :: rounds, H, hruns, hrounds, hc => by
    obtain ⟨hrun, hruns⟩ := forall_mem_cons.1 hruns
    obtain ⟨hround, hrounds⟩ := forall_mem_cons.1 hrounds
    have hes := h.fresh hrun
    have hround : Reaches (sc'.drop 1) H (es ++ turn) .falls := (hround H hc).leave.append fun hout =>
      ⟨hturn _ (hc.append hes) hout, fun _ => hout.append (fresh_of_quiet hquiet)⟩
    have hagain : Reaches sc H (es ++ turn) .falls :=
      ⟨hround.1, fun _ => hc.append (hes.append (fresh_of_quiet hquiet))⟩
    have hrest (hc : Covers sc (H ++ (es ++ turn))) := h.reaches_rounds hquiet hturn hruns hrounds hc
    rw [flatMap_cons]
    refine ⟨hagain.append fun hc => (hrest hc).1, fun _ => ?_⟩
    cases rounds with
    | nil => simpa using hround
    | cons es' rounds => exact hagain.append fun hc => (hrest hc).2 (cons_ne_nil es' rounds)

theorem Does.turn {step : Phrase .forStep} {test : Phrase .expr} (h : Does c step sc sc')
    (htest : Held sc test) (hc : Covers sc' H) : Safe H (step.events ++ test.events) := by
  have hstep := h.reaches (hc.of_valued fun x => h.grows)
  exact (hstep.append fun hc => htest.reaches (hc.of_valued fun x => h.grows)).1

end Reaches

/-- **Paths are safe**: a path through a statement that is admitted reads no variable that is not
    ready, and what the scopes behind it note is ready after it. -/
theorem Admits.reaches {once : Bool} {st : Stmt s} {e : Exit} (h : Admits c st sc sc')
    (hrun : Runs once st es e) (hc : Covers sc H) : Reaches sc' H es e := by
  induction hrun generalizing sc sc' H with
  | block _ ih => cases h with | block h => exact ih h hc
  | blockEmpty => cases h with | blockEmpty => exact reaches_nil hc
  | last _ ih => cases h with | last _ h => exact ih h hc
  | moreFalls _ _ ihi ih =>
    cases h with
    | more _ hi hrest => exact (ihi hi hc).append fun hc => ih hrest hc
  | moreReturns _ ih =>
    cases h with
    | more _ hi _ => exact ⟨(ih hi hc).1, fun he => by cases he⟩
  | simple =>
    cases h with
    | simple h => exact ⟨(h.reaches hc).1, fun _ => (h.reaches hc).2 rfl⟩
  | compound _ ih =>
    cases h with
    | nested h => exact (ih h hc.push).leave.of_valued fun x => (valued_noteReturned (n := 0)).1
    | compound _ h => exact (ih h hc).of_valued fun x => (valued_noteReturned (n := 0)).1
  | thenYes _ ih =>
    cases h with
    | ifThen htest h => exact (htest.reaches hc).append fun hc => (ih h hc.push).leave
  | thenNo =>
    cases h with
    | ifThen htest h => exact (htest.reaches hc).skip fun x hx => h.valued_leave hx
  | elseYes _ ih =>
    cases h with
    | ifElse htest hyes hno =>
      exact (htest.reaches hc).append fun hc =>
        (ih hyes hc.push).leave.skip fun x hx => hno.valued_leave hx
  | elseNo _ ih =>
    cases h with
    | ifElse htest hyes hno =>
      rw [append_cons]
      exact ((htest.reaches hc).skip fun x hx => hyes.valued_leave hx).append fun hc =>
        (ih hno hc.push).leave
  | chainYes _ ih =>
    cases h with
    | ifElseIf htest hyes hno =>
      exact (htest.reaches hc).append fun hc =>
        (ih hyes hc.push).leave.skip fun x hx => hno.valued (n := 0) (.inl rfl) hx
  | chainNo _ ih =>
    cases h with
    | ifElseIf htest hyes hno =>
      rw [append_cons]
      exact ((htest.reaches hc).skip fun x hx => hyes.valued_leave hx).append fun hc => ih hno hc
  | whileNone =>
    cases h with
    | whileLoop htest h => exact (htest.reaches hc).skip fun x hx => h.valued_leave hx
  | whileRounds hne hruns ih =>
    cases h with
    | whileLoop htest h =>
      refine (htest.reaches hc).append fun hc => ?_
      exact (h.reaches_rounds (not_declare_mem_expr _) (fun H hc _ => (htest.reaches hc.pop).1)
        hruns (fun es hes _ => ih es hes h) hc.push).2 hne
  | whileReturns hruns _ ih ihlast =>
    cases h with
    | whileLoop htest h =>
      refine (htest.reaches hc).append fun hc => ?_
      refine (h.reaches_rounds (not_declare_mem_expr _) (fun H hc _ => (htest.reaches hc.pop).1)
        hruns (fun es hes _ => ih es hes h) hc.push).1.append fun hc => ?_
      exact (ihlast h hc).returns
  | forNone =>
    cases h with
    | forLoop hinit htest hstep h =>
      refine (hinit.reaches hc.push).append fun hc => (htest.reaches hc).skip fun x hx => ?_
      rcases h.valued_leave hx.of_drop with hx | hx
      · exact (hstep.valued_step hx).imp_right (mem_append_left _)
      · exact .inr (mem_append_right _ hx)
  | forRounds hne hruns ih =>
    cases h with
    | forLoop hinit htest hstep h =>
      refine (hinit.reaches hc.push).append fun hc => ?_
      rw [append_cons]
      refine ((htest.reaches hc).skip fun x hx => hstep.valued_step hx).append fun hc => ?_
      exact ((h.reaches_rounds (not_declare_mem_turn _ _) (fun H hc _ => hstep.turn htest hc.pop)
        hruns (fun es hes _ => ih es hes h) hc.push).2 hne).leave
  | forReturns hruns _ ih ihlast =>
    cases h with
    | forLoop hinit htest hstep h =>
      refine (hinit.reaches hc.push).append fun hc => ?_
      rw [append_cons]
      refine ((htest.reaches hc).skip fun x hx => hstep.valued_step hx).append fun hc => ?_
      refine (h.reaches_rounds (not_declare_mem_turn _ _) (fun H hc _ => hstep.turn htest hc.pop)
        hruns (fun es hes _ => ih es hes h) hc.push).1.append fun hc => ?_
      exact (ihlast h hc).returns
  | doNone =>
    cases h with
    | doWhile h htest =>
      exact ((reaches_nil hc).skip fun x hx => h.valued_leave hx).append fun hc => htest.reaches hc
  | doRounds hne hruns ih =>
    cases h with
    | doWhile h htest =>
      exact (h.reaches_rounds (not_declare_mem_expr _) (fun H _ hc => (htest.reaches hc).1)
        hruns (fun es hes _ => ih es hes h) hc.push).2 hne
  | doReturns hruns _ ih ihlast =>
    cases h with
    | doWhile h htest =>
      refine (h.reaches_rounds (not_declare_mem_expr _) (fun H _ hc => (htest.reaches hc).1)
        hruns (fun es hes _ => ih es hes h) hc.push).1.append fun hc => ?_
      exact (ihlast h hc).returns

/-! ## Functions -/

theorem covers_params : ∀ {ps : List Variable} {sc sc' : Scopes} {H : List Event},
    declareParams ps sc = .ok sc' → Covers sc H → Covers sc' (H ++ (ps.map Variable.name).map .give)
  | [], sc, sc', H, h, hc => by
    cases h
    simpa using hc
  | p :: ps, sc, sc', H, h, hc => by
    rw [declareParams] at h
    split at h
    · cases h
    · have hp : Covers (sc.declare { p with initialized := true }) (H ++ [.give p.name]) := by
        intro x hx
        rcases valued_declare hx with hx | ⟨rfl, -⟩
        · exact (hc x hx).append (by simp)
        · exact ready_of_supplies .give
      rw [map_cons, map_cons, append_cons]
      exact covers_params h hp

theorem mem_or_ready {xs : List Text} (h : Ready (xs.map .give ++ H) x) : x ∈ xs ∨ Ready H x := by
  obtain ⟨before, ev, after, heq, hev, hafter⟩ := h
  rcases append_eq_append_iff.1 heq with ⟨as, rfl, hH⟩ | ⟨bs, hxs, hbs⟩
  · exact .inr ⟨as, ev, after, hH, hev, hafter⟩
  · cases bs with
    | nil => exact .inr ⟨[], ev, after, hbs.symm, hev, hafter⟩
    | cons ev' bs =>
      cases hbs
      have hmem : ev ∈ xs.map Event.give := by simp [hxs]
      obtain ⟨y, hy, rfl⟩ := mem_map.1 hmem
      cases hev
      exact .inl hy

/-- **Definite assignment, by the text.**  On every path through the body of a function of a program
    that passes, a variable that is read is a parameter, or since its declaration it has been given a
    value on the path, or the path has passed by a part of the body that assigns it. -/
theorem ready_of_check {root : Tree} (hparse : grammar.Parses Label.program root)
    (hcheck : check root = .ok ()) : ∃ all, functionsOf root = .ok all ∧ ∀ f ∈ all,
      (∃ body : Stmt .codeBlock, body.tree = f.body) ∧
      ∀ body : Stmt .codeBlock, body.tree = f.body → ∀ es e, Runs true body es e →
        ∀ es₁ x es₂, es = es₁ ++ .read x :: es₂ → x ∈ f.params.map Variable.name ∨ Ready es₁ x := by
  obtain ⟨all, hall, hfunctions⟩ := functions_of_check hparse hcheck
  refine ⟨all, hall, fun f hf => ?_⟩
  obtain ⟨hf, hexists⟩ := hfunctions f hf
  refine ⟨hexists, fun body hbody es e hrun es₁ x es₂ hes => ?_⟩
  obtain ⟨sc, sc', hsc, hadmits, -⟩ := admits_of_checkFunction hf hbody
  have hnone : Covers (Scopes.push []) [] := by
    rintro x ⟨g, hg, v, hv, -⟩
    cases mem_singleton.1 hg
    cases hv
  have hsafe := (hadmits.reaches hrun (covers_params hsc hnone)).1 es₁ x es₂ hes
  rw [nil_append] at hsafe
  exact mem_or_ready hsafe

/-- The body `{ int a; if (true) { a = 1; } System.out.println(a); }`. -/
def guessBody : Stmt .codeBlock :=
  .braced
    (.more (.simple varDecl_mem_simple (.declare (.ofText "int") (.ofText "a"))
      (.ofText ";"))
    (.more (.compound ifStatement_mem_compound
      (.ifThen (.ofText "if") (.ofText "(") (.ofTerm (.term (.booleanValue (.ofText "true"))))
        (.ofText ")")
        (.braced (.last (.simple assignment_mem_simple
          (.set (.ofText "a") (.ofText "=") (.ofTerm (.term (.number (.ofText "1")))))
          (.ofText ";"))))))
    (.last (.ofPrint (.ofVar "a")))))

def guess : Decl .program := .ofMembers (.entry guessBody)

theorem guess_runs : Runs true guessBody ([.declare "a", .skip ["a"]] ++ .read "a" :: []) .falls := by
  have hrun : Runs true guessBody _ _ :=
    .block (.moreFalls .simple (.moreFalls (.compound .thenNo) (.last .simple)))
  exact hrun

theorem check_guess : check guess.tree = .ok () := by decide +kernel

/-- The program passes, though on a path `a` is read that no event before it gives a value. -/
theorem read_without_value_guess : grammar.Parses Label.program guess.tree ∧ check guess.tree = .ok () ∧
    ∃ all, functionsOf guess.tree = .ok all ∧ ∃ f ∈ all, guessBody.tree = f.body ∧
      ∃ es₁ x es₂, Runs true guessBody (es₁ ++ .read x :: es₂) .falls ∧
        x ∉ f.params.map Variable.name ∧ .give x ∉ es₁ := by
  refine ⟨guess.parses, check_guess, _, functionsOf_program .., _, mem_cons_self, rfl,
    _, _, _, guess_runs, not_mem_nil, ?_⟩
  simp

/-- Before that read the path has passed by the assignment. -/
theorem ready_of_check_guess : grammar.Parses Label.program guess.tree ∧ check guess.tree = .ok () ∧
    Ready [.declare "a", .skip ["a"]] "a" := by
  refine ⟨guess.parses, check_guess, ?_⟩
  obtain ⟨all, hall, h⟩ := ready_of_check guess.parses check_guess
  rw [guess, functionsOf_program] at hall
  cases hall
  obtain ⟨-, hbody⟩ := h _ mem_cons_self
  rcases hbody guessBody rfl _ _ guess_runs _ _ _ rfl with hparam | hready
  · cases hparam
  · exact hready

end Typing

end JavaToCpp
