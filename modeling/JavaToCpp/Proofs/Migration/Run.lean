/-
  Runs of migrations.
-/
import JavaToCpp.Migration.Basic
import JavaToCpp.Proofs.Grammar.Alike
import JavaToCpp.Proofs.Store.Trace

namespace JavaToCpp.Migration

open List Grammar
open Store (Action Event Wording Version Attempt Statement Trace Traced Tables)

variable {s s' : Store} {g : Grammar} {w : Wording}

/-! ## Statements -/

/-- What tells the rows of a table apart. -/
def key (row : Row) : Symbol × Nat := (row.nonterminal, row.position)

/-- No row with the key of a row that is added is there already. -/
def Distinct (s : Store) (st : Statement) : Prop :=
  ∀ row, st = .insertRule row → key row ∉ s.tables.rules.map key

/-- Distinct statements lead to the store, which has these tables, and those at the beginning of the
    open transaction. -/
structure Leads (s : Store) (tables : Tables) (saved : Option Tables) (s' : Store) : Prop where
  traced : Traced Distinct s s'
  tables : s'.tables = tables
  saved : s'.saved = saved

/-- Distinct statements lead from one store to the other and leave the tables as they are. -/
abbrev Keeps (s s' : Store) : Prop := Leads s s.tables s.saved s'

variable {t : Tables} {o : Option Tables} {r : Except Event Unit} {v : Version}
  {diff description sourceFile : Text} {gs : List Grammar}

theorem Leads.trans {s₁ : Store} {t₁ : Tables} {o₁ : Option Tables} (h : Leads s t o s₁)
    (h₁ : Leads s₁ t₁ o₁ s') : Leads s t₁ o₁ s' :=
  ⟨h.traced.trans h₁.traced, h₁.tables, h₁.saved⟩

theorem Leads.keeps {s₁ : Store} (h : Leads s t o s₁) (h₁ : Keeps s₁ s') : Leads s t o s' :=
  ⟨h.traced.trans h₁.traced, h₁.tables.trans h.tables, h₁.saved.trans h.saved⟩

theorem send_spec {st : Statement} (h : (Store.send st).run s = (r, s')) (hst : Distinct s st) :
    r = .ok () ∧ Leads s (s.after st).tables (s.after st).saved s' ∨
      r = .error st.event ∧ Leads s (s.afterFailed st).tables (s.afterFailed st).saved s' := by
  have htraced := Store.traced_send h hst
  obtain ⟨plan, ⟨rfl, rfl⟩ | ⟨rfl, rfl⟩⟩ := Store.send_cases h
  · exact .inl ⟨rfl, htraced, by cases st <;> rfl, by cases st <;> rfl⟩
  · exact .inr ⟨rfl, htraced, by cases st <;> rfl, by cases st <;> rfl⟩

/-- A statement that reads, or writes to the history. -/
def harmless : Statement → Bool
  | .selectVersion | .selectRules | .insertHistory _ => true
  | _ => false

theorem send_harmless {st : Statement} (hst : harmless st)
    (h : (Store.send st).run s = (r, s')) : Keeps s s' := by
  have hdistinct : Distinct s st := by
    rintro row rfl
    cases hst
  rcases send_spec h hdistinct with ⟨-, hleads⟩ | ⟨-, hleads⟩
  · cases st <;> first | exact hleads | cases hst
  · cases st <;> first | exact hleads | cases hst

theorem happen_keeps {e : Event} (h : (Store.happen e).run s = (r, s')) : Keeps s s' := by
  obtain ⟨plan, rfl, -⟩ := Store.happen_cases h
  exact ⟨Store.traced_happen h, rfl, rfl⟩

theorem send_rollback (h : (Store.send .rollback).run s = (r, s')) :
    Leads s (s.saved.getD s.tables) none s' := by
  rcases send_spec h nofun with ⟨-, hleads⟩ | ⟨-, hleads⟩
  · exact hleads
  · exact hleads

/-! ## Reading -/

theorem version_spec {r : Except Event Int} (h : Store.version.run s = (r, s')) :
    Keeps s s' ∧ ∀ v, r = .ok v → v = s.latest := by
  rcases bind_cases h with ⟨_, s₁, hsend, h⟩ | ⟨e, hsend, rfl⟩
  · have hkeeps := send_harmless rfl hsend
    cases h
    refine ⟨hkeeps, ?_⟩
    rintro v ⟨⟩
    simp [Store.latest, hkeeps.tables]
  · exact ⟨send_harmless rfl hsend, nofun⟩

theorem rules_spec {r : Except Event (List (Symbol × Text))} (h : Store.rules.run s = (r, s')) :
    Keeps s s' ∧ ∀ rows, r = .ok rows → rows = s.storedRules := by
  rcases bind_cases h with ⟨_, s₁, hsend, h⟩ | ⟨e, hsend, rfl⟩
  · have hkeeps := send_harmless rfl hsend
    rcases bind_cases h with ⟨_, s₂, hread, h⟩ | ⟨e, hread, rfl⟩
    · have hkeeps := hkeeps.keeps (happen_keeps hread)
      cases h
      refine ⟨hkeeps, ?_⟩
      rintro rows ⟨⟩
      simp [Store.storedRules, hkeeps.tables]
    · exact ⟨hkeeps.keeps (happen_keeps hread), nofun⟩
  · exact ⟨send_harmless rfl hsend, nofun⟩

theorem load_spec {r : Except LoadFailure (Option Grammar)} (h : load.run s = (r, s')) :
    Keeps s s' ∧ ((∃ e, r = .error (.store e)) ∨
      (∃ g, Grammar.ofRows s.storedRules = .ok g ∧ r = .ok g) ∨
      ∃ e, Grammar.ofRows s.storedRules = .error e ∧ r = .error (.grammar e)) := by
  rcases bind_adapt_cases h with ⟨rows, s₁, hrules, h⟩ | ⟨e, hrules, rfl⟩
  · obtain ⟨hkeeps, hrows⟩ := rules_spec hrules
    rw [hrows _ rfl] at h
    split at h
    · rename_i g hg
      cases h
      exact ⟨hkeeps, .inr (.inl ⟨g, hg, rfl⟩)⟩
    · rename_i e he
      cases h
      exact ⟨hkeeps, .inr (.inr ⟨e, he, rfl⟩)⟩
  · exact ⟨(rules_spec hrules).1, .inl ⟨e, rfl⟩⟩

/-! ## Writing -/

/-- An action that changes the tables and leaves what a rollback brings back; if it succeeds, the
    tables are those given. -/
structure Writes {ε : Type} (s : Store) (tables : Tables) (r : Except ε Unit) (s' : Store) :
    Prop where
  traced : Traced Distinct s s'
  saved : s'.saved = s.saved
  tables : r = .ok () → s'.tables = tables

theorem send_insertRule {row : Row} (hrow : key row ∉ s.tables.rules.map key)
    (h : (Store.send (.insertRule row)).run s = (r, s')) :
    Writes s { s.tables with rules := s.tables.rules ++ [row] } r s' := by
  have hdistinct : Distinct s (.insertRule row) := by
    rintro row' ⟨⟩
    exact hrow
  rcases send_spec h hdistinct with ⟨-, hleads⟩ | ⟨rfl, hleads⟩
  · exact ⟨hleads.traced, hleads.saved, fun _ => hleads.tables⟩
  · exact ⟨hleads.traced, hleads.saved, nofun⟩

theorem send_deleteRules (h : (Store.send .deleteRules).run s = (r, s')) :
    Writes s { s.tables with rules := [] } r s' := by
  rcases send_spec h nofun with ⟨-, hleads⟩ | ⟨rfl, hleads⟩
  · exact ⟨hleads.traced, hleads.saved, fun _ => hleads.tables⟩
  · exact ⟨hleads.traced, hleads.saved, nofun⟩

theorem insertRows_spec : ∀ {rows : List Row} {s s' : Store} {r : Except ReplaceFailure Unit},
    ((s.tables.rules ++ rows).map key).Nodup → (insertRows rows).run s = (r, s') →
    Writes s { s.tables with rules := s.tables.rules ++ rows } r s'
  | [], s, s', r, _, h => by
    cases h
    exact ⟨.refl s, rfl, fun _ => by simp⟩
  | row :: rows, s, s', r, hnodup, h => by
    have hrow : key row ∉ s.tables.rules.map key := by
      intro hmem
      rw [map_append, nodup_append] at hnodup
      exact hnodup.2.2 _ hmem _ mem_cons_self rfl
    rcases bind_adapt_cases h with ⟨_, s₁, hsend, h⟩ | ⟨e, hsend, rfl⟩
    · have hwrites := send_insertRule hrow hsend
      have htables := hwrites.tables rfl
      rw [append_cons] at hnodup
      have hrest := insertRows_spec (by rwa [htables]) h
      refine ⟨hwrites.traced.trans hrest.traced, hrest.saved.trans hwrites.saved, fun hr => ?_⟩
      rw [hrest.tables hr, htables]
      simp
    · have hwrites := send_insertRule hrow hsend
      exact ⟨hwrites.traced, hwrites.saved, nofun⟩

theorem replace_spec {r : Except ReplaceFailure Unit} (h : (replace g).run s = (r, s')) :
    Writes s { s.tables with rules := g.toRows } r s' := by
  rcases bind_adapt_cases h with ⟨_, s₁, hsend, h⟩ | ⟨e, hsend, rfl⟩
  · have hwrites := send_deleteRules hsend
    have htables := hwrites.tables rfl
    have hnodup : ((s₁.tables.rules ++ g.toRows).map key).Nodup := by
      rw [htables]
      exact g.nodup_toRows
    have hrest := insertRows_spec hnodup h
    refine ⟨hwrites.traced.trans hrest.traced, hrest.saved.trans hwrites.saved, fun hr => ?_⟩
    rw [hrest.tables hr, htables]
    rfl
  · have hwrites := send_deleteRules hsend
    exact ⟨hwrites.traced, hwrites.saved, nofun⟩

theorem ignoring_cases {ε ε' : Type} {a : Action ε Unit} {r : Except ε' Unit}
    (h : (ignoring a).run s = (r, s')) : r = .ok () ∧ ∃ r', a.run s = (r', s') := by
  have hrun : (ignoring a : Action ε' Unit).run s = (.ok (), (a.run s).2) := rfl
  rw [hrun] at h
  cases h
  exact ⟨rfl, (a.run s).1, rfl⟩

theorem onFailure_of_ok {ε α : Type} {a : Action ε α} (cleanup : ε → Action ε Unit) {x : α}
    (h : a.run s = (.ok x, s')) : (onFailure a cleanup).run s = (.ok x, s') := by
  have ha : a s = (.ok x, s') := h
  change ExceptT.tryCatch a _ s = _
  simp only [ExceptT.tryCatch, ExceptT.mk, bind, StateT.bind, ha]
  rfl

theorem onFailure_of_error {ε α : Type} {a : Action ε α} (cleanup : ε → Action ε Unit) {e : ε}
    (h : a.run s = (.error e, s')) :
    (onFailure a cleanup).run s = (do cleanup e; throw e : Action ε α).run s' := by
  have ha : a s = (.error e, s') := h
  change ExceptT.tryCatch a _ s = _
  simp only [ExceptT.tryCatch, ExceptT.mk, bind, StateT.bind, ha]
  rfl

theorem onFailure_cases {ε α : Type} {a : Action ε α} {cleanup : ε → Action ε Unit}
    {r : Except ε α} (h : (onFailure a cleanup).run s = (r, s')) :
    (∃ x, a.run s = (.ok x, s') ∧ r = .ok x) ∨
      ∃ e e' s₁ r', a.run s = (.error e, s₁) ∧ (cleanup e).run s₁ = (r', s') ∧ r = .error e' := by
  rcases hrun : a.run s with ⟨e | x, s₁⟩
  · rw [onFailure_of_error cleanup hrun] at h
    rcases bind_cases h with ⟨_, s₂, hclean, h⟩ | ⟨e', hclean, rfl⟩
    · cases h
      exact .inr ⟨e, e, s₁, _, rfl, hclean, rfl⟩
    · exact .inr ⟨e, e', s₁, _, rfl, hclean, rfl⟩
  · rw [onFailure_of_ok cleanup hrun] at h
    cases h
    exact .inl ⟨x, rfl, rfl⟩

theorem replace_or_rollback {r : Except ReplaceFailure Unit} (hsaved : s.saved = some t)
    (h : (onFailure (replace g) fun e => do
      ignoring (Store.send .rollback)
      ignoring (Store.send (.insertHistory ⟨v.number, false, e.message w, diff⟩))).run s = (r, s')) :
    r = .ok () ∧ Leads s { s.tables with rules := g.toRows } (some t) s' ∨
      (∃ e, r = .error e) ∧ Leads s t none s' := by
  rcases onFailure_cases h with ⟨_, hreplace, rfl⟩ | ⟨e, e', s₁, _, hreplace, hclean, rfl⟩
  · have hwrites := replace_spec hreplace
    exact .inl ⟨rfl, hwrites.traced, hwrites.tables rfl, hwrites.saved.trans hsaved⟩
  · have hwrites := replace_spec hreplace
    rcases bind_cases hclean with ⟨_, s₂, hrollback, hhistory⟩ | ⟨_, hrollback, -⟩
    · obtain ⟨-, _, hrollback⟩ := ignoring_cases hrollback
      obtain ⟨-, _, hhistory⟩ := ignoring_cases hhistory
      have hleads := (send_rollback hrollback).keeps (send_harmless rfl hhistory)
      rw [hwrites.saved, hsaved] at hleads
      exact .inr ⟨⟨e', rfl⟩, hwrites.traced.trans hleads.traced, hleads.tables, hleads.saved⟩
    · cases (ignoring_cases hrollback).1

theorem insertVersion_or_rollback (hsaved : s.saved = some t)
    (h : (onFailure (Store.send (.insertVersion v)) fun _ =>
      ignoring (Store.send .rollback)).run s = (r, s')) :
    r = .ok () ∧ Leads s { s.tables with versions := s.tables.versions ++ [v] } (some t) s' ∨
      (∃ e, r = .error e) ∧ Leads s t none s' := by
  rcases onFailure_cases h with ⟨_, hsend, rfl⟩ | ⟨e, e', s₁, _, hsend, hclean, rfl⟩
  · rcases send_spec hsend nofun with ⟨-, hleads⟩ | ⟨hr, -⟩
    · exact .inl ⟨rfl, hleads.traced, hleads.tables, hleads.saved.trans hsaved⟩
    · cases hr
  · rcases send_spec hsend nofun with ⟨hr, -⟩ | ⟨-, hleads⟩
    · cases hr
    · obtain ⟨-, _, hrollback⟩ := ignoring_cases hclean
      have hrollback := send_rollback hrollback
      rw [hleads.saved.trans hsaved] at hrollback
      exact .inr ⟨⟨e', rfl⟩, hleads.trans hrollback⟩

theorem then_cases {ε ε' β : Type} {f : ε → ε'} {a : Action ε Unit} {k : Action ε' β}
    {P Q : Store → Prop} {r : Except ε' β}
    (ha : ∀ r s₁, a.run s = (r, s₁) → r = .ok () ∧ P s₁ ∨ (∃ e, r = .error e) ∧ Q s₁)
    (h : (do ExceptT.adapt f a; k).run s = (r, s')) :
    (∃ s₁, P s₁ ∧ k.run s₁ = (r, s')) ∨ (∃ e, r = .error e) ∧ Q s' := by
  rcases bind_adapt_cases h with ⟨_, s₁, hrun, h⟩ | ⟨e, hrun, rfl⟩
  · rcases ha _ _ hrun with ⟨-, hp⟩ | ⟨⟨_, hr⟩, -⟩
    · exact .inl ⟨s₁, hp, h⟩
    · cases hr
  · rcases ha _ _ hrun with ⟨hr, -⟩ | ⟨-, hq⟩
    · cases hr
    · exact .inr ⟨⟨_, rfl⟩, hq⟩

theorem send_begin (h : (Store.send .begin).run s = (r, s')) :
    r = .ok () ∧ Leads s s.tables (some s.tables) s' ∨ (∃ e, r = .error e) ∧ Keeps s s' := by
  rcases send_spec h nofun with ⟨rfl, hleads⟩ | ⟨rfl, hleads⟩
  · exact .inl ⟨rfl, hleads⟩
  · exact .inr ⟨⟨_, rfl⟩, hleads⟩

theorem send_commit (hsaved : s.saved = some t) (h : (Store.send .commit).run s = (r, s')) :
    r = .ok () ∧ Leads s s.tables none s' ∨ (∃ e, r = .error e) ∧ Leads s t none s' := by
  rcases send_spec h nofun with ⟨rfl, hleads⟩ | ⟨rfl, hleads⟩
  · exact .inl ⟨rfl, hleads⟩
  · have htables : (s.afterFailed .commit).tables = t := by
      change s.saved.getD s.tables = t
      rw [hsaved, Option.getD_some]
    exact .inr ⟨⟨_, rfl⟩, hleads.traced, hleads.tables.trans htables, hleads.saved⟩

theorem commit_spec {r : Except Failure Unit} (hsaved : s.saved = none)
    (h : (commit w g v diff).run s = (r, s')) :
    r = .ok () ∧
      Leads s { s.tables with rules := g.toRows, versions := s.tables.versions ++ [v] } none s' ∨
    (∃ e, r = .error e) ∧ Leads s s.tables none s' := by
  rcases then_cases (fun _ _ => send_begin) h with ⟨s₁, hbegin, h⟩ | ⟨he, hkeeps⟩
  · rcases then_cases (fun _ _ => replace_or_rollback hbegin.saved) h with
      ⟨s₂, hreplace, h⟩ | ⟨he, hrollback⟩
    · rcases then_cases (fun _ _ => insertVersion_or_rollback hreplace.saved) h with
        ⟨s₃, hversion, h⟩ | ⟨he, hrollback⟩
      · have hleads := (hbegin.trans hreplace).trans hversion
        rw [hreplace.tables, hbegin.tables] at hleads
        rcases adapt_cases h with ⟨_, hsend, rfl⟩ | ⟨e, hsend, rfl⟩
        · rcases send_commit hversion.saved hsend with ⟨-, hcommit⟩ | ⟨⟨_, hr⟩, -⟩
          · rw [hleads.tables] at hcommit
            exact .inl ⟨rfl, hleads.trans hcommit⟩
          · cases hr
        · rcases send_commit hversion.saved hsend with ⟨hr, -⟩ | ⟨-, hcommit⟩
          · cases hr
          · exact .inr ⟨⟨_, rfl⟩, hleads.trans hcommit⟩
      · exact .inr ⟨he, (hbegin.trans hreplace).trans hrollback⟩
    · exact .inr ⟨he, hbegin.trans hrollback⟩
  · exact .inr ⟨he, hsaved ▸ hkeeps⟩

theorem write_spec {a : Attempt} {r : Except Failure (Option Text)} (hsaved : s.saved = none) (h : (do
      commit w g v diff
      ignoring (Store.send (.insertHistory a))
      return some diff : Action Failure (Option Text)).run s = (r, s')) :
    r = .ok (some diff) ∧
      Leads s { s.tables with rules := g.toRows, versions := s.tables.versions ++ [v] } none s' ∨
    (∃ e, r = .error e) ∧ Leads s s.tables none s' := by
  rcases bind_cases h with ⟨_, s₁, hcommit, h⟩ | ⟨e, hcommit, rfl⟩
  · rcases commit_spec hsaved hcommit with ⟨-, hleads⟩ | ⟨⟨_, hr⟩, -⟩
    · rcases bind_cases h with ⟨_, s₂, hhistory, h⟩ | ⟨_, hhistory, _⟩
      · obtain ⟨-, _, hhistory⟩ := ignoring_cases hhistory
        cases h
        exact .inl ⟨rfl, hleads.keeps (send_harmless rfl hhistory)⟩
      · cases (ignoring_cases hhistory).1
    · cases hr
  · rcases commit_spec hsaved hcommit with ⟨hr, -⟩ | ⟨-, hleads⟩
    · cases hr
    · exact .inr ⟨⟨e, rfl⟩, hleads⟩

/-! ## Migrations -/

/-- What a migration does: it fails or finds no difference, and changes nothing, or it writes the
    grammar and the next version. -/
inductive Applies (g : Grammar) (description sourceFile : Text) (s s' : Store) :
    Except Failure (Option Text) → Prop
  | failed {e : Failure} : Leads s s.tables none s' →
      Applies g description sourceFile s s' (.error e)
  | unchanged {old : Option Grammar} : Grammar.ofRows s.storedRules = .ok old →
      (Diff.between old (some g)).isEmpty → Leads s s.tables none s' →
      Applies g description sourceFile s s' (.ok none)
  | written {old : Option Grammar} : Grammar.ofRows s.storedRules = .ok old →
      (Diff.between old (some g)).isEmpty = false →
      Leads s { s.tables with
        rules := g.toRows
        versions := s.tables.versions ++ [⟨s.latest + 1, description, sourceFile⟩] } none s' →
      Applies g description sourceFile s s'
        (.ok (some (Diff.between old (some g)).describe))

theorem applies_of_run {r : Except Failure (Option Text)}
    (hsaved : s.saved = none) (h : (apply w g description sourceFile).run s = (r, s')) :
    Applies g description sourceFile s s' r := by
  rcases bind_adapt_cases h with ⟨v, s₁, hversion, h⟩ | ⟨e, hversion, rfl⟩
  · obtain ⟨hkeeps, hv⟩ := version_spec hversion
    rw [hv v rfl] at h
    rcases bind_adapt_cases h with ⟨old, s₂, hload, h⟩ | ⟨e, hload, rfl⟩
    · have hkeeps₂ := hkeeps.keeps (load_spec hload).1
      have hold : Grammar.ofRows s.storedRules = .ok old := by
        have hrows : s₁.storedRules = s.storedRules := by
          rw [Store.storedRules, hkeeps.tables, Store.storedRules]
        rcases (load_spec hload).2 with ⟨_, hr⟩ | ⟨_, hg, hr⟩ | ⟨_, _, hr⟩
        · cases hr
        · cases hr
          exact hrows ▸ hg
        · cases hr
      by_cases hempty : (Diff.between old (some g)).isEmpty
      · simp only [hempty, if_true] at h
        cases h
        exact .unchanged hold hempty (hsaved ▸ hkeeps₂)
      · simp only [hempty, if_false, Bool.false_eq_true] at h
        rcases write_spec (hkeeps₂.saved.trans hsaved) h with ⟨rfl, hleads⟩ | ⟨⟨e, rfl⟩, hleads⟩
        · rw [hkeeps₂.tables] at hleads
          exact .written hold (by simpa using hempty) (hkeeps₂.trans hleads)
        · rw [hkeeps₂.tables] at hleads
          exact .failed (hkeeps₂.trans hleads)
    · exact .failed (hsaved ▸ hkeeps.keeps (load_spec hload).1)
  · exact .failed (hsaved ▸ (version_spec hversion).1)

theorem Applies.saved {r : Except Failure (Option Text)}
    (h : Applies g description sourceFile s s' r) : s'.saved = none := by
  cases h with
  | failed hleads | unchanged _ _ hleads | written _ _ hleads => exact hleads.saved

theorem latest_of_versions
    (h : s'.tables.versions = s.tables.versions ++ [⟨s.latest + 1, description, sourceFile⟩]) :
    s'.latest = s.latest + 1 := by
  have hmax : (s'.tables.versions.map Version.number).max? = some (s.latest + 1) := by
    rw [h, map_append, max?_eq_some_iff]
    refine ⟨by simp, fun v hv => ?_⟩
    rcases mem_append.1 hv with hv | hv
    · obtain ⟨m, hm⟩ : ∃ m, (s.tables.versions.map Version.number).max? = some m := by
        cases hmax : (s.tables.versions.map Version.number).max? with
        | some m => exact ⟨m, rfl⟩
        | none =>
          rw [max?_eq_none_iff.1 hmax] at hv
          cases hv
      have hle := (max?_eq_some_iff.1 hm).2 v hv
      rw [Store.latest, hm, Option.getD_some]
      omega
    · simp only [map_cons, map_nil, mem_singleton] at hv
      omega
  rw [Store.latest, hmax, Option.getD_some]

structure Call where
  wording : Wording
  grammar : Grammar
  description : Text
  sourceFile : Text

def Call.run (c : Call) (s : Store) : Except Failure (Option Text) × Store :=
  (apply c.wording c.grammar c.description c.sourceFile).run s

/-- The grammar of a call that is answered by a difference. -/
def Call.committed (c : Call) (s : Store) : List Grammar :=
  match (c.run s).1 with
  | .ok (some _) => [c.grammar]
  | _ => []

def after (s : Store) : List Call → Store
  | [] => s
  | c :: cs => after (c.run s).2 cs

def committed (s : Store) : List Call → List Grammar
  | [] => []
  | c :: cs => c.committed s ++ committed (c.run s).2 cs

/-- The store as some grammars leave it that were committed one after the other: versions are
    numbered from 1 on, and the rules are those of the last grammar. -/
structure Stored (s : Store) (gs : List Grammar) : Prop where
  saved : s.saved = none
  versions : s.tables.versions.map Version.number =
    (range gs.length).map fun i : Nat => (i : Int) + 1
  rules : s.tables.rules = (gs.getLast?.map toRows).getD []

theorem Stored.latest (h : Stored s gs) : s.latest = gs.length := by
  rw [Store.latest, h.versions]
  cases hn : gs.length with
  | zero => rfl
  | succ n =>
    have hmax : ((range (n + 1)).map fun i : Nat => (i : Int) + 1).max? =
        some ((n : Int) + 1) := by
      rw [max?_eq_some_iff]
      refine ⟨mem_map.2 ⟨n, by simp, rfl⟩, fun v hv => ?_⟩
      obtain ⟨i, hi, rfl⟩ := mem_map.1 hv
      have := mem_range.1 hi
      omega
    rw [hmax]
    simp

theorem Stored.of_tables (h : Stored s gs) (hsaved : s'.saved = none)
    (htables : s'.tables = s.tables) : Stored s' gs :=
  ⟨hsaved, by rw [htables, h.versions], by rw [htables, h.rules]⟩

theorem Stored.append (h : Stored s gs) (hsaved : s'.saved = none) (htables : s'.tables = { s.tables with
      rules := g.toRows
      versions := s.tables.versions ++ [⟨s.latest + 1, description, sourceFile⟩] }) :
    Stored s' (gs ++ [g]) := by
  refine ⟨hsaved, ?_, by simp [htables]⟩
  simp [htables, h.versions, h.latest, range_succ]

theorem Stored.step (c : Call) (h : Stored s gs) : Stored (c.run s).2 (gs ++ c.committed s) := by
  rw [Call.committed]
  match hrun : c.run s with
  | (r, s') =>
    cases applies_of_run h.saved hrun with
    | failed hleads | unchanged _ _ hleads => simpa using h.of_tables hleads.saved hleads.tables
    | written _ _ hleads => exact h.append hleads.saved hleads.tables

theorem Stored.run : ∀ {s : Store} {gs : List Grammar} (cs : List Call), Stored s gs →
    Stored (after s cs) (gs ++ committed s cs)
  | s, gs, [], h => by simpa [committed, after] using h
  | s, gs, c :: cs, h => by
    have hrun := (h.step c).run cs
    rwa [append_assoc] at hrun

theorem after_append : ∀ (s : Store) (cs cs' : List Call), after s (cs ++ cs') = after (after s cs) cs'
  | _, [], _ => rfl
  | s, c :: cs, cs' => after_append (c.run s).2 cs cs'

theorem mem_committed : ∀ {s : Store} {cs : List Call} {g : Grammar}, g ∈ committed s cs →
    ∃ c ∈ cs, c.grammar = g
  | s, c :: cs, g, h => by
    rcases mem_append.1 h with hc | hcs
    · refine ⟨c, mem_cons_self, ?_⟩
      rw [Call.committed] at hc
      split at hc
      · exact (mem_singleton.1 hc).symm
      · cases hc
    · obtain ⟨c', hc', hg⟩ := mem_committed hcs
      exact ⟨c', mem_cons_of_mem _ hc', hg⟩

/-! ## What can be read back -/

/-- A grammar that was loaded, with rules that fit on a line each. -/
def Loaded (g : Grammar) : Prop :=
  (∃ text, Grammar.load text = .ok g) ∧ ∀ r ∈ g.rules, r.describe.length ≤ Grammar.maxLine

theorem toRows_ne_nil (hg : g.Readable) : g.toRows ≠ [] := by
  intro h
  have hmap := g.map_toRows
  rw [h, map_nil] at hmap
  exact hg.grouped_ne_nil (map_eq_nil_iff.1 hmap.symm)

theorem Stored.ofRows (h : Stored s gs) (hgs : ∀ g ∈ gs, Loaded g) :
    ∃ stored, Grammar.ofRows s.storedRules = .ok stored ∧
      Option.Rel Alike stored gs.getLast? := by
  rw [Store.storedRules, h.rules]
  cases hlast : gs.getLast? with
  | none => exact ⟨none, by simp [Grammar.ofRows], .none⟩
  | some g =>
    obtain ⟨⟨text, hload⟩, hlength⟩ := hgs g (mem_of_getLast? hlast)
    have hreadable := load_readable hload
    refine ⟨some (.ofAlternatives g.grouped), ?_, .some g.alike_grouped⟩
    have hne := toRows_ne_nil hreadable
    simp [mergeSort_toRows, Grammar.ofRows, hne, load_rows hreadable hlength]
    rfl

theorem load_run (s : Store) :
    (load.run { s with plan := [] }).1 = (Grammar.ofRows s.storedRules).mapError .grammar := by
  have hrules : (ExceptT.adapt .store Store.rules : Action LoadFailure (List (Symbol × Text))).run
      { s with plan := [] } =
        (.ok s.storedRules, { s with plan := [], log := s.log ++ [.selectRules] }) := rfl
  rw [load, run_bind, hrules]
  cases hrows : Grammar.ofRows s.storedRules with
  | error e | ok stored =>
    simp only [hrows]
    rfl

theorem load_run_ok {stored : Option Grammar} (h : Grammar.ofRows s.storedRules = .ok stored) :
    (load.run { s with plan := [] }).1 = .ok stored := by
  rw [load_run, h]
  rfl

theorem Leads.exists_trace (h : Leads s t o s') :
    ∃ sts, s'.log = s.log ++ sts ∧ Trace Distinct s sts s' := by
  obtain ⟨sts, htrace⟩ := h.traced
  exact ⟨sts, htrace.log, htrace⟩

/-- **The store always holds the last grammar that was committed**, whatever fails. The versions are
    numbered from 1 on, one for each grammar committed, and the rules are the rows of the last one;
    reading gives a grammar alike, or fails because a statement fails; no statement adds a second
    row for a position of a nonterminal; and a migration leaves the tables as they are if it fails
    or finds no difference, and else adds one version. -/
theorem migrations_keep_stored (s : Store) (hsaved : s.saved = none) (hrules : s.tables.rules = [])
    (hversions : s.tables.versions = []) (done : List Call) (c : Call)
    (hloaded : ∀ c' ∈ done ++ [c], Loaded c'.grammar) (s₁ s₂ : Store)
    (r : Except Failure (Option Text)) (hdone : after s done = s₁) (hrun : c.run s₁ = (r, s₂)) :
    Stored s₂ (committed s (done ++ [c])) ∧
    (∃ stored, Option.Rel Alike stored (committed s (done ++ [c])).getLast? ∧
      (load.run { s₂ with plan := [] }).1 = .ok stored ∧
      ∀ plan, (load.run { s₂ with plan }).1 = .ok stored ∨
        ∃ e, (load.run { s₂ with plan }).1 = .error (.store e)) ∧
    (∃ sts, s₂.log = s₁.log ++ sts ∧ Trace Distinct s₁ sts s₂) ∧
    (∀ e, r = .error e → s₂.tables = s₁.tables) ∧
    (r = .ok none → s₂.tables = s₁.tables) ∧
    (∀ diff, r = .ok (some diff) → ∃ v, s₂.tables.versions = s₁.tables.versions ++ [v]) := by
  have hempty : Stored s [] := ⟨hsaved, by rw [hversions]; rfl, hrules⟩
  have hstored : Stored s₂ (committed s (done ++ [c])) := by
    have hall := hempty.run (done ++ [c])
    rw [after_append, hdone] at hall
    have hs₂ : after s₁ [c] = s₂ := congrArg Prod.snd hrun
    rwa [hs₂] at hall
  have hsaved₁ : s₁.saved = none := hdone ▸ (hempty.run done).saved
  refine ⟨hstored, ?_, ?_⟩
  · obtain ⟨stored, hrows, halike⟩ := hstored.ofRows fun g hg => by
      obtain ⟨c', hc', rfl⟩ := mem_committed hg
      exact hloaded c' hc'
    refine ⟨stored, halike, load_run_ok hrows, fun plan => ?_⟩
    rcases (load_spec (s := { s₂ with plan }) rfl).2 with he | ⟨g, hg, hr⟩ | ⟨e, he, -⟩
    · exact .inr he
    · cases hrows.symm.trans hg
      exact .inl hr
    · cases hrows.symm.trans he
  · cases applies_of_run hsaved₁ hrun with
    | failed hleads => exact ⟨hleads.exists_trace, fun _ _ => hleads.tables, nofun, nofun⟩
    | unchanged _ _ hleads => exact ⟨hleads.exists_trace, nofun, fun _ => hleads.tables, nofun⟩
    | written _ _ hleads =>
      exact ⟨hleads.exists_trace, nofun, nofun, fun _ _ => ⟨_, by rw [hleads.tables]⟩⟩

def callFor (rights : List (List Symbol)) : Call :=
  ⟨.bare, .ofAlternatives (rights.map fun rhs => ("a", rhs)), [], []⟩

def brittle : Store := { plan := [(.insertVersion, 1)] }

theorem stored_after_failure : Loaded (callFor [["b"]]).grammar ∧ Loaded (callFor [["b"], ["c"]]).grammar ∧
    Stored (after brittle [callFor [["b"]], callFor [["b"], ["c"]]]) [(callFor [["b"]]).grammar] ∧
    ((callFor [["b"], ["c"]]).run (after brittle [callFor [["b"]]])).2.tables =
      (after brittle [callFor [["b"]]]).tables := by
  have hfirst : Loaded (callFor [["b"]]).grammar :=
    ⟨⟨"a -> b", by decide +kernel⟩, by decide +kernel⟩
  have hsecond : Loaded (callFor [["b"], ["c"]]).grammar :=
    ⟨⟨"a -> b | c", by decide +kernel⟩, by decide +kernel⟩
  have hcommitted : committed brittle ([callFor [["b"]]] ++ [callFor [["b"], ["c"]]]) =
      [(callFor [["b"]]).grammar] := by decide +kernel
  have hloaded : ∀ c ∈ [callFor [["b"]]] ++ [callFor [["b"], ["c"]]], Loaded c.grammar := by
    simpa using ⟨hfirst, hsecond⟩
  have hfails : ((callFor [["b"], ["c"]]).run (after brittle [callFor [["b"]]])).1.isOk = false := by
    decide +kernel
  obtain ⟨hstored, -, -, hfailed, -⟩ :=
    migrations_keep_stored brittle rfl rfl rfl _ _ hloaded _ _ _ rfl rfl
  rw [hcommitted] at hstored
  refine ⟨hfirst, hsecond, hstored, ?_⟩
  cases hr : ((callFor [["b"], ["c"]]).run (after brittle [callFor [["b"]]])).1 with
  | error e => exact hfailed e hr
  | ok diff =>
    rw [hr] at hfails
    cases hfails

end JavaToCpp.Migration
