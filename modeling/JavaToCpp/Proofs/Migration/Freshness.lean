/-
  Reading the stored grammar through a reader, and reading it afresh.
-/
import JavaToCpp.Proofs.Migration.Reader

namespace JavaToCpp.Store

variable {ε ε' α β : Type}

/-! ## Actions that do not look back -/

/-- In a store with another history and another log the action answers the same, and leaves the same
    store but for these. -/
def Blind (a : Action ε α) : Prop := ∀ (s : Store) (history : List Attempt) (log : List Statement),
  ∃ history' log', a.run { s with history, log } =
    ((a.run s).1, { (a.run s).2 with history := history', log := log' })

namespace Blind

theorem pure (x : α) : Blind (Pure.pure x : Action ε α) := fun _ history log => ⟨history, log, rfl⟩

theorem throw (e : ε) : Blind (MonadExcept.throw e : Action ε α) :=
  fun _ history log => ⟨history, log, rfl⟩

theorem bind {a : Action ε α} {f : α → Action ε β} (ha : Blind a) (hf : ∀ x, Blind (f x)) :
    Blind (a >>= f) := by
  intro s history log
  obtain ⟨history₁, log₁, h₁⟩ := ha s history log
  rw [run_bind, run_bind, h₁]
  rcases a.run s with ⟨e | x, s₁⟩
  · exact ⟨history₁, log₁, rfl⟩
  · exact hf x s₁ history₁ log₁

theorem adapt {a : Action ε α} (f : ε → ε') (ha : Blind a) : Blind (ExceptT.adapt f a) := by
  intro s history log
  obtain ⟨history₁, log₁, h₁⟩ := ha s history log
  refine ⟨history₁, log₁, ?_⟩
  rw [run_adapt, run_adapt, h₁]

theorem read (f : Store → α) (hf : ∀ (s : Store) history log, f { s with history, log } = f s) :
    Blind (do return f (← get) : Action ε α) := by
  intro s history log
  refine ⟨history, log, ?_⟩
  rw [run_get_bind, run_get_bind, hf]
  rfl

theorem send (st : Statement) : Blind (Store.send st) := by
  intro s history log
  have hrun (t : Store) : (Store.send st).run t = if (t.plan.next st.event).1 then
      (.ok (), (t.noted st (t.plan.next st.event).2).after st)
      else (.error st.event, (t.noted st (t.plan.next st.event).2).afterFailed st) := rfl
  rw [hrun, hrun]
  split
  · cases st <;> exact ⟨_, log ++ [_], rfl⟩
  · cases st <;> exact ⟨history, log ++ [_], rfl⟩

theorem happen (e : Event) : Blind (Store.happen e) := fun _ history log => ⟨history, log, rfl⟩

theorem version : Blind Store.version := (send _).bind fun _ => read _ fun _ _ _ => rfl

theorem rules : Blind Store.rules :=
  (send _).bind fun _ => (happen _).bind fun _ => read _ fun _ _ _ => rfl

end Blind

end JavaToCpp.Store

namespace JavaToCpp.Migration

open Store (Action Blind Attempt Statement)
open Grammar (ofRows)

variable {ε ε' α : Type}

theorem blind_load : Blind load := by
  refine (Blind.rules.adapt _).bind fun rows => ?_
  cases ofRows rows with
  | ok g => exact .pure g
  | error e => exact .throw _

theorem blind_insertRows : ∀ rows : List Grammar.Row, Blind (insertRows rows)
  | [] => .pure ()
  | _ :: rows => ((Blind.send _).adapt _).bind fun _ => blind_insertRows rows

theorem blind_replace (g : Grammar) : Blind (replace g) :=
  ((Blind.send _).adapt _).bind fun _ => blind_insertRows _

theorem blind_ignoring {a : Action ε Unit} (ha : Blind a) : Blind (ignoring a : Action ε' Unit) := by
  intro s history log
  obtain ⟨history₁, log₁, h₁⟩ := ha s history log
  have hrun (t : Store) : (ignoring a : Action ε' Unit).run t = (.ok (), (a.run t).2) := rfl
  refine ⟨history₁, log₁, ?_⟩
  rw [hrun, hrun, h₁]

theorem blind_onFailure {a : Action ε α} {cleanup : ε → Action ε Unit} (ha : Blind a)
    (hcleanup : ∀ e, Blind (cleanup e)) : Blind (onFailure a cleanup) := by
  intro s history log
  obtain ⟨history₁, log₁, h₁⟩ := ha s history log
  rcases hrun : a.run s with ⟨e | x, s₁⟩
  · rw [hrun] at h₁
    rw [onFailure_of_error cleanup hrun, onFailure_of_error cleanup h₁]
    exact (hcleanup e).bind (fun _ => Blind.throw e) s₁ history₁ log₁
  · rw [hrun] at h₁
    rw [onFailure_of_ok cleanup hrun, onFailure_of_ok cleanup h₁]
    exact ⟨history₁, log₁, rfl⟩

theorem blind_commit (w : Store.Wording) (g : Grammar) (v : Store.Version) (diff : Text) :
    Blind (commit w g v diff) := by
  refine ((Blind.send _).adapt _).bind fun _ => ?_
  refine ((blind_onFailure (blind_replace g) fun e => ?_).adapt _).bind fun _ => ?_
  · exact (blind_ignoring (.send _)).bind fun _ => blind_ignoring (.send _)
  refine ((blind_onFailure (.send _) fun _ => blind_ignoring (.send _)).adapt _).bind fun _ => ?_
  exact (Blind.send _).adapt _

theorem blind_apply (w : Store.Wording) (g : Grammar) (description sourceFile : Text) :
    Blind (apply w g description sourceFile) := by
  refine (Blind.version.adapt _).bind fun current => (blind_load.adapt _).bind fun old => ?_
  by_cases hempty : (Grammar.Diff.between old (some g)).isEmpty
  · simp only [hempty, if_true]
    exact .pure none
  · simp only [hempty, if_false, Bool.false_eq_true]
    refine (blind_commit w g _ _).bind fun _ => ?_
    exact (blind_ignoring (.send _)).bind fun _ => .pure _

theorem blind_fetch : Blind Reader.fetch := by
  refine (Blind.rules.adapt _).bind fun rows => ?_
  rcases ofRows rows with e | none | g
  · exact .throw _
  · exact .throw _
  · exact .pure g

theorem blind_active (reader : Reader) : Blind reader.active := by
  refine (Blind.version.adapt _).bind fun v => ?_
  have hfetch : Blind (do let g ← Reader.fetch; return (g, v, ⟨some (g, v)⟩) :
      Action Reader.Failure (Grammar × Int × Reader)) := blind_fetch.bind fun _ => .pure _
  by_cases hzero : v = 0
  · simp only [hzero, if_true]
    exact .throw _
  · simp only [hzero, if_false]
    cases reader.kept with
    | none => exact hfetch
    | some p =>
      obtain ⟨g, kept⟩ := p
      by_cases heq : kept = v
      · simp only [heq, if_true]
        exact .pure _
      · simp only [heq, if_false]
        exact hfetch

/-! ## Clients -/

theorem latest_of_tables {s s' : Store} (h : s'.tables = s.tables) : s'.latest = s.latest := by
  rw [Store.latest, h, Store.latest]

theorem storedRules_of_tables {s s' : Store} (h : s'.tables = s.tables) :
    s'.storedRules = s.storedRules := by
  rw [Store.storedRules, h, Store.storedRules]

structure Client where
  reader : Reader := {}
  store : Store

inductive Visit where
  | migrate (c : Call)
  | active

inductive Reply where
  | migrated (r : Except Failure (Option Text))
  | active (r : Except Reader.Failure (Grammar × Int))

def Reply.commits : Reply → Bool
  | migrated (.ok (some _)) => true
  | _ => false

namespace Client

variable {d : Client}

def visit (d : Client) : Visit → Reply × Client
  | .migrate c => (.migrated (c.run d.store).1, { d with store := (c.run d.store).2 })
  | .active =>
    match d.reader.active.run d.store with
    | (.ok (g, v, reader), store) => (.active (.ok (g, v)), ⟨reader, store⟩)
    | (.error e, store) => (.active (.error e), { d with store })

def after (d : Client) : List Visit → Client
  | [] => d
  | x :: xs => after (d.visit x).2 xs

def replies (d : Client) : List Visit → List Reply
  | [] => []
  | x :: xs => (d.visit x).1 :: replies (d.visit x).2 xs

/-- What the reader keeps is not ahead of the store, and for the latest version it is what the rows
    give. -/
structure Current (d : Client) : Prop where
  saved : d.store.saved = none
  le : ∀ g v, d.reader.kept = some (g, v) → v ≤ d.store.latest
  rows : ∀ g, d.reader.kept = some (g, d.store.latest) → ofRows d.store.storedRules = .ok (some g)

theorem Current.of_tables {store : Store} (h : Current d) (hsaved : store.saved = none)
    (htables : store.tables = d.store.tables) : Current { d with store } where
  saved := hsaved
  le := by
    rw [latest_of_tables htables]
    exact h.le
  rows := by
    rw [latest_of_tables htables, storedRules_of_tables htables]
    exact h.rows

theorem Current.migrate (h : Current d) (c : Call) : Current (d.visit (.migrate c)).2 := by
  rcases hrun : c.run d.store with ⟨r, s⟩
  rw [visit, hrun]
  cases applies_of_run h.saved hrun with
  | failed hleads | unchanged _ _ hleads => exact h.of_tables hleads.saved hleads.tables
  | written _ _ hleads =>
    have hlatest : s.latest = d.store.latest + 1 := latest_of_versions (by rw [hleads.tables])
    refine ⟨hleads.saved, fun g v hkept => ?_, fun g hkept => ?_⟩
    · have hle := h.le g v hkept
      rw [hlatest]
      omega
    · have hle := h.le g _ hkept
      rw [hlatest] at hle
      omega

theorem visit_active_cases (d : Client) :
    (∃ g v reader s, d.reader.active.run d.store = (.ok (g, v, reader), s) ∧
      d.visit .active = (.active (.ok (g, v)), ⟨reader, s⟩)) ∨
    ∃ e s, d.reader.active.run d.store = (.error e, s) ∧
      d.visit .active = (.active (.error e), { d with store := s }) := by
  rcases hrun : d.reader.active.run d.store with ⟨e | ⟨g, v, reader⟩, s⟩
  · exact .inr ⟨e, s, rfl, by rw [visit, hrun]⟩
  · exact .inl ⟨g, v, reader, s, rfl, by rw [visit, hrun]⟩

theorem keeps_active (d : Client) : Keeps d.store (d.visit .active).2.store := by
  rcases d.visit_active_cases with ⟨g, v, reader, s, hrun, hvisit⟩ | ⟨e, s, hrun, hvisit⟩
  · rw [hvisit]
    exact (Reader.active_spec hrun).1
  · rw [hvisit]
    exact (Reader.active_spec hrun).1

variable {g : Grammar} {v : Int} {s : Store}

theorem Current.of_active (h : Current d) {reader : Reader}
    (hrun : d.reader.active.run d.store = (.ok (g, v, reader), s)) :
    v = d.store.latest ∧ ofRows d.store.storedRules = .ok (some g) ∧ Current ⟨reader, s⟩ := by
  obtain ⟨hkeeps, hanswer⟩ := Reader.active_spec hrun
  obtain ⟨rfl, hkept, hsource⟩ := hanswer g v reader rfl
  have hrows : ofRows d.store.storedRules = .ok (some g) := by
    rcases hsource with rfl | hrows
    · exact h.rows g hkept
    · exact hrows
  refine ⟨rfl, hrows, hkeeps.saved.trans h.saved, fun g' v' hkept' => ?_, fun g' hkept' => ?_⟩
  · cases hkept.symm.trans hkept'
    exact (latest_of_tables hkeeps.tables).ge
  · rw [latest_of_tables hkeeps.tables] at hkept'
    cases hkept.symm.trans hkept'
    rw [storedRules_of_tables hkeeps.tables, hrows]

theorem Current.active (h : Current d) : Current (d.visit .active).2 := by
  rcases d.visit_active_cases with ⟨g, v, reader, s, hrun, hvisit⟩ | ⟨e, s, hrun, hvisit⟩
  · rw [hvisit]
    exact (h.of_active hrun).2.2
  · rw [hvisit]
    have hkeeps := (Reader.active_spec hrun).1
    exact h.of_tables (hkeeps.saved.trans h.saved) hkeeps.tables

theorem Current.visit (h : Current d) : ∀ x : Visit, Current (d.visit x).2
  | .migrate c => h.migrate c
  | .active => h.active

theorem Current.after {d : Client} (h : Current d) (xs : List Visit) : Current (d.after xs) := by
  induction xs generalizing d with
  | nil => exact h
  | cons x xs ih => exact ih (h.visit x)

/-! ## Before the first commit -/

theorem tables_visit (hsaved : d.store.saved = none) (x : Visit) (hx : (d.visit x).1.commits = false) :
    (d.visit x).2.store.saved = none ∧ (d.visit x).2.store.tables = d.store.tables := by
  cases x with
  | migrate c =>
    rcases hrun : c.run d.store with ⟨r, s⟩
    rw [visit, hrun] at hx ⊢
    cases applies_of_run hsaved hrun with
    | failed hleads | unchanged _ _ hleads => exact ⟨hleads.saved, hleads.tables⟩
    | written _ _ _ => cases hx
  | active =>
    have hkeeps := d.keeps_active
    exact ⟨hkeeps.saved.trans hsaved, hkeeps.tables⟩

theorem tables_after {d : Client} (hsaved : d.store.saved = none) (xs : List Visit)
    (hxs : ∀ r ∈ d.replies xs, r.commits = false) : (d.after xs).store.tables = d.store.tables := by
  induction xs generalizing d with
  | nil => rfl
  | cons x xs ih =>
    obtain ⟨hx, hxs⟩ := List.forall_mem_cons.1 hxs
    obtain ⟨hsaved', htables⟩ := tables_visit hsaved x hx
    exact (ih hsaved' hxs).trans htables

/-- Why there is no grammar while there are no versions. -/
def noGrammar (s : Store) : Reader.Failure :=
  match (Store.version.run s).1 with
  | .ok _ => .none
  | .error e => .version e

theorem visit_active_of_versions (hversions : d.store.tables.versions = []) :
    (d.visit .active).1 = .active (.error (noGrammar d.store)) := by
  have hlatest : d.store.latest = 0 := by
    rw [Store.latest, hversions]
    rfl
  have hactive : (d.reader.active.run d.store).1 = .error (noGrammar d.store) := by
    rw [Reader.active, Reader.version, run_bind, run_adapt, noGrammar]
    rcases hversion : Store.version.run d.store with ⟨e | v, s⟩
    · rfl
    · obtain rfl := (version_spec hversion).2 v rfl
      simp only [hlatest]
      rfl
  rcases d.visit_active_cases with ⟨g, v, reader, s, hrun, hvisit⟩ | ⟨e, s, hrun, hvisit⟩
  · rw [hrun] at hactive
    cases hactive
  · rw [hrun] at hactive
    cases hactive
    rw [hvisit]

/-! ## After a reading that fails -/

theorem blind_visit (d : Client) (history : List Attempt) (log : List Statement) (x : Visit) :
    ∃ history' log', (⟨d.reader, { d.store with history, log }⟩ : Client).visit x =
      ((d.visit x).1, ⟨(d.visit x).2.reader,
        { (d.visit x).2.store with history := history', log := log' }⟩) := by
  cases x with
  | migrate c =>
    obtain ⟨history', log', h⟩ :=
      blind_apply c.wording c.grammar c.description c.sourceFile d.store history log
    refine ⟨history', log', ?_⟩
    rw [visit, visit, Call.run, h]
    rfl
  | active =>
    obtain ⟨history', log', h⟩ := blind_active d.reader d.store history log
    refine ⟨history', log', ?_⟩
    rw [visit, visit, h]
    rcases d.reader.active.run d.store with ⟨e | ⟨g, v, reader⟩, s⟩
    · rfl
    · rfl

theorem replies_unseen (d : Client) (history : List Attempt) (log : List Statement) (xs : List Visit) :
    (⟨d.reader, { d.store with history, log }⟩ : Client).replies xs = d.replies xs := by
  induction xs generalizing d history log with
  | nil => rfl
  | cons x xs ih =>
    obtain ⟨history', log', h⟩ := blind_visit d history log x
    rw [replies, replies, h]
    exact congrArg (_ :: ·) (ih (d.visit x).2 history' log')

theorem replies_of_error {e : Reader.Failure}
    (hrun : d.reader.active.run d.store = (.error e, s)) (xs : List Visit) :
    (⟨d.reader, s⟩ : Client).replies xs =
      (⟨d.reader, { d.store with plan := s.plan }⟩ : Client).replies xs := by
  have hkeeps := (Reader.active_spec hrun).1
  have hunseen := replies_unseen ⟨d.reader, { d.store with plan := s.plan }⟩ s.history s.log xs
  simp only [← hkeeps.tables, ← hkeeps.saved] at hunseen ⊢
  exact hunseen

/-! ## Reading afresh -/

/-- Without failures, the version and the grammar are read from the store. -/
structure ReadsAfresh (s : Store) (g : Grammar) (v : Int) : Prop where
  version : (Store.version.run { s with plan := [] }).1 = .ok v
  grammar : (load.run { s with plan := [] }).1 = .ok (some g)

theorem readsAfresh_iff : ReadsAfresh s g v ↔ v = s.latest ∧ ofRows s.storedRules = .ok (some g) := by
  have hversion : (Store.version.run { s with plan := [] }).1 = .ok s.latest := rfl
  constructor
  · rintro ⟨hv, hg⟩
    rw [load_run] at hg
    cases hversion.symm.trans hv
    cases hrows : ofRows s.storedRules with
    | error e =>
      rw [hrows] at hg
      cases hg
    | ok stored =>
      rw [hrows] at hg
      cases hg
      exact ⟨rfl, rfl⟩
  · rintro ⟨rfl, hrows⟩
    exact ⟨hversion, load_run_ok hrows⟩

theorem ReadsAfresh.of_tables {s' : Store} (h : ReadsAfresh s g v)
    (htables : s'.tables = s.tables) : ReadsAfresh s' g v := by
  rw [readsAfresh_iff] at h ⊢
  rwa [latest_of_tables htables, storedRules_of_tables htables]

theorem active_run_ok {reader : Reader} (hrows : ofRows s.storedRules = .ok (some g)) (hzero : s.latest ≠ 0)
    (hkept : ∀ g', reader.kept = some (g', s.latest) → g' = g) :
    ∃ reader', (reader.active.run { s with plan := [] }).1 = .ok (g, s.latest, reader') := by
  have hversion : (ExceptT.adapt .version Store.version : Action Reader.Failure Int).run
      { s with plan := [] } =
        (.ok s.latest, { s with plan := [], log := s.log ++ [.selectVersion] }) := rfl
  have hfetch : (Reader.fetch.run { s with plan := [], log := s.log ++ [.selectVersion] }).1 =
      .ok g := by
    have hrules : (ExceptT.adapt .rules Store.rules :
        Action Reader.Failure (List (Symbol × Text))).run
          { s with plan := [], log := s.log ++ [.selectVersion] } = (.ok s.storedRules,
            { s with plan := [], log := s.log ++ [.selectVersion] ++ [.selectRules] }) := rfl
    rw [Reader.fetch, run_bind, hrules]
    simp only [hrows]
    rfl
  have hrefresh : ((do let g ← Reader.fetch; return (g, s.latest, ⟨some (g, s.latest)⟩) :
      Action Reader.Failure (Grammar × Int × Reader)).run
        { s with plan := [], log := s.log ++ [.selectVersion] }).1 =
      .ok (g, s.latest, ⟨some (g, s.latest)⟩) := by
    rw [run_bind]
    rcases hrun : Reader.fetch.run { s with plan := [], log := s.log ++ [.selectVersion] } with ⟨r, s'⟩
    rw [hrun] at hfetch
    cases hfetch
    rfl
  rw [Reader.active, Reader.version, run_bind, hversion]
  simp only [hzero, if_false]
  cases hreader : reader.kept with
  | none => exact ⟨_, hrefresh⟩
  | some p =>
    obtain ⟨g', kept⟩ := p
    by_cases heq : kept = s.latest
    · obtain rfl := hkept g' (by rw [hreader, heq])
      simp only [heq, if_true]
      exact ⟨reader, rfl⟩
    · simp only [heq, if_false]
      exact ⟨_, hrefresh⟩

/-- **What is kept is as good as what is read afresh.** After any migrations and readings a reading
    that answers, answers with the version and the grammar that are read from the store without the
    reader, and it does answer if there are such and nothing fails; there is no grammar as long as
    none was committed; and a reading that fails does not change what comes of later migrations and
    readings. -/
theorem active_fresh (start : Client) (hkept : start.reader.kept = none)
    (hsaved : start.store.saved = none) (done : List Visit) (d : Client)
    (hd : start.after done = d) :
    (∀ g v d', d.visit .active = (.active (.ok (g, v)), d') →
      ReadsAfresh d.store g v ∧ ReadsAfresh d'.store g v) ∧
    (∀ g v, ReadsAfresh d.store g v → v ≠ 0 → d.store.plan = [] →
      (d.visit .active).1 = .active (.ok (g, v))) ∧
    (start.store.tables.versions = [] → (∀ r ∈ start.replies done, r.commits = false) →
      (d.visit .active).1 = .active (.error (noGrammar d.store))) ∧
    (∀ e d', d.visit .active = (.active (.error e), d') →
      d'.reader = d.reader ∧ d'.store.tables = d.store.tables ∧
      ∀ later, d'.replies later =
        (⟨d.reader, { d.store with plan := d'.store.plan }⟩ : Client).replies later) := by
  have hstart : Current start := ⟨hsaved, by simp [hkept], by simp [hkept]⟩
  have hcurrent : Current d := hd ▸ hstart.after done
  refine ⟨fun g v d' hvisit => ?_, fun g v hfresh hzero hplan => ?_, fun hversions hdone => ?_,
    fun e d' hvisit => ?_⟩
  · rcases d.visit_active_cases with ⟨g', v', reader, s, hrun, hvisit'⟩ | ⟨e, s, hrun, hvisit'⟩
    · cases hvisit'.symm.trans hvisit
      obtain ⟨hv, hrows, -⟩ := hcurrent.of_active hrun
      have hfresh : ReadsAfresh d.store g v := readsAfresh_iff.2 ⟨hv, hrows⟩
      exact ⟨hfresh, hfresh.of_tables (Reader.active_spec hrun).1.tables⟩
    · cases hvisit'.symm.trans hvisit
  · obtain ⟨rfl, hrows⟩ := readsAfresh_iff.1 hfresh
    obtain ⟨reader, hactive⟩ := active_run_ok hrows hzero fun g' hkept' => by
      cases (hcurrent.rows g' hkept').symm.trans hrows
      rfl
    rw [← hplan] at hactive
    rcases d.visit_active_cases with ⟨g', v', reader', s, hrun, hvisit⟩ | ⟨e, s, hrun, hvisit⟩
    · cases (congrArg Prod.fst hrun).symm.trans hactive
      rw [hvisit]
    · cases (congrArg Prod.fst hrun).symm.trans hactive
  · refine visit_active_of_versions ?_
    rw [← hd, tables_after hsaved done hdone, hversions]
  · rcases d.visit_active_cases with ⟨g', v', reader, s, hrun, hvisit'⟩ | ⟨e', s, hrun, hvisit'⟩
    · cases hvisit'.symm.trans hvisit
    · cases hvisit'.symm.trans hvisit
      exact ⟨rfl, (Reader.active_spec hrun).1.tables, replies_of_error hrun⟩

/-- Readings with migrations in between, of which a brittle store fails the second one. -/
def lapse : List Visit :=
  [.active, .migrate (callFor [["b"]]), .active, .migrate (callFor [["b"], ["c"]])]

/-- Before the first migration there is no grammar; after a second one that fails, the grammar of the
    first one is still kept, and is what is read. -/
theorem active_fresh_brittle :
    brittle.saved = none ∧ (visit ⟨{}, brittle⟩ .active).1 = .active (.error .none) ∧
    ∃ d d', after ⟨{}, brittle⟩ lapse = d ∧
      d.visit .active = (.active (.ok ((callFor [["b"]]).grammar, 1)), d') ∧
      ReadsAfresh d.store (callFor [["b"]]).grammar 1 ∧
      ReadsAfresh d'.store (callFor [["b"]]).grammar 1 := by
  have hread : ((after ⟨{}, brittle⟩ lapse).reader.active.run
      (after ⟨{}, brittle⟩ lapse).store).1.toOption.map (fun r => (r.1, r.2.1)) =
        some ((callFor [["b"]]).grammar, 1) := by decide +kernel
  obtain ⟨-, -, hnone, -⟩ := active_fresh ⟨{}, brittle⟩ rfl rfl [] _ rfl
  obtain ⟨hanswer, -⟩ := active_fresh ⟨{}, brittle⟩ rfl rfl lapse _ rfl
  rcases visit_active_cases (after ⟨{}, brittle⟩ lapse) with
    ⟨g, v, reader, s, hrun, hvisit⟩ | ⟨e, s, hrun, -⟩
  · rw [hrun] at hread
    cases hread
    exact ⟨rfl, hnone rfl (by simp [replies]), _, _, rfl, hvisit, hanswer _ _ _ hvisit⟩
  · rw [hrun] at hread
    cases hread

end Client

end JavaToCpp.Migration
