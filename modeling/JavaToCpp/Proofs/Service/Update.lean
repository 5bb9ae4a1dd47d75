/-
  Updates of the grammar in use.
-/
import JavaToCpp.Proofs.Migration.Run
import JavaToCpp.Service.Grammar

namespace JavaToCpp.Service

open Grammar

/-- Some text was read as the grammar. -/
def Loaded (g : Grammar) : Prop := ∃ text, load text = .ok g

variable {s s' : Service} {st st₁ st₂ : Store} {g : Grammar} {text description : Text}

theorem load_of_readGrammar (h : readGrammar text = .ok g) : load text = .ok g := by
  unfold readGrammar at h
  split at h
  · cases h
  · split at h
    · cases h
    · rename_i g' hload
      split at h
      · cases h
        exact hload
      · cases h

/-! ## Steps -/

theorem run_onStore {ε α : Type} (st : Store) (a : Store.Action ε α) (s : Service) :
    (onStore st a).run s = ((a.run st).1, { s with store := some (a.run st).2 }) := rfl

theorem migrate_run {r : Except Migration.Failure (Option Text)}
    (h : (Migration.apply wording g description "api").run st = (r, st₁)) (s : Service) :
    (migrate st g description).run s = (r.mapError .migrate, { s with store := some st₁ }) := by
  rw [migrate, run_adapt, run_onStore, h]

theorem readVersion_run {r : Except Store.Event Int} (h : Store.version.run st = (r, st₁))
    (s : Service) :
    (readVersion st).run s =
      (r.mapError .version, { s with store := some st₁, version := r.toOption.getD 0 }) := by
  have hadapt : (ExceptT.adapt .version (onStore st Store.version) : Action UpdateError Int).run s =
      (r.mapError .version, { s with store := some st₁ }) := by
    rw [run_adapt, run_onStore, h]
  change readVersion st s = _
  rw [readVersion, hadapt]
  cases r <;> rfl

/-! ## Updates with a store -/

theorem updateStored_of_error {f : Migration.Failure}
    (h : (Migration.apply wording g description "api").run st = (.error f, st₁)) (s : Service) :
    (updateStored st g description).run s =
      (.error (.migrate f), { s with store := some st₁ }) := by
  rw [updateStored, run_bind, migrate_run h]
  rfl

theorem updateStored_of_none
    (h : (Migration.apply wording g description "api").run st = (.ok none, st₁)) (s : Service) :
    (updateStored st g description).run s =
      (.ok ⟨s.version, Migration.noChanges, false⟩, { s with store := some st₁ }) := by
  rw [updateStored, run_bind, migrate_run h]
  rfl

theorem updateStored_of_some {diff : Text}
    (h : (Migration.apply wording g description "api").run st = (.ok (some diff), st₁))
    (s : Service) : (updateStored st g description).run s =
      (do
        let v ← readVersion st₁
        setGrammar g
        return ⟨v, diff, true⟩ : Action UpdateError Updated).run { s with store := some st₁ } := by
  rw [updateStored, run_bind, migrate_run h]
  simp only [Except.mapError]
  rw [run_get_bind, Option.getD_some]

theorem updateStored_of_lost {diff : Text} {e : Store.Event}
    (h : (Migration.apply wording g description "api").run st = (.ok (some diff), st₁))
    (hversion : Store.version.run st₁ = (.error e, st₂)) (s : Service) :
    (updateStored st g description).run s =
      (.error (.version e), { s with store := some st₂, version := 0 }) := by
  rw [updateStored_of_some h, run_bind, readVersion_run hversion]
  rfl

theorem updateStored_of_ok {diff : Text} {v : Int}
    (h : (Migration.apply wording g description "api").run st = (.ok (some diff), st₁))
    (hversion : Store.version.run st₁ = (.ok v, st₂)) (s : Service) :
    (updateStored st g description).run s =
      (.ok ⟨v, diff, true⟩, { s with store := some st₂, version := v, grammar := g }) := by
  rw [updateStored_of_some h, run_bind, readVersion_run hversion]
  rfl

/-! ## Updates without a store -/

theorem updateCounted_of_empty
    (h : (Diff.between (some s.grammar) (some g)).isEmpty) :
    (updateCounted g).run s = (.ok ⟨s.version, Migration.noChanges, false⟩, s) := by
  rw [updateCounted, run_get_bind]
  simp only [h, if_true]
  rfl

theorem updateCounted_of_nonempty
    (h : (Diff.between (some s.grammar) (some g)).isEmpty = false) :
    (updateCounted g).run s =
      (.ok ⟨s.version + 1, (Diff.between (some s.grammar) (some g)).describe, true⟩,
        { s with version := s.version + 1, grammar := g }) := by
  rw [updateCounted, run_get_bind]
  simp only [h, if_false, Bool.false_eq_true]
  rfl

/-! ## Updates -/

theorem update_of_error {e : UpdateError} (h : readGrammar text = .error e) :
    (update text description).run s = (.error e, s) := by
  rw [update, run_lift_bind, h]

theorem update_of_some (h : readGrammar text = .ok g) (hstore : s.store = some st) :
    (update text description).run s = (updateStored st g description).run s := by
  rw [update, run_lift_bind, h]
  simp only
  rw [run_get_bind, hstore]

theorem update_of_none (h : readGrammar text = .ok g) (hstore : s.store = none) :
    (update text description).run s = (updateCounted g).run s := by
  rw [update, run_lift_bind, h]
  simp only
  rw [run_get_bind, hstore]

inductive Updates (text description : Text) (s : Service) :
    Except UpdateError Updated → Service → Prop
  /-- the text is not read -/
  | refused {e : UpdateError} : readGrammar text = .error e →
      Updates text description s (.error e) s
  /-- without a store, the grammar does not differ from the one in use -/
  | same {g : Grammar} : readGrammar text = .ok g → s.store = none →
      (Diff.between (some s.grammar) (some g)).isEmpty →
      Updates text description s (.ok ⟨s.version, Migration.noChanges, false⟩) s
  /-- without a store, the grammar is put into use -/
  | counted {g : Grammar} : readGrammar text = .ok g → s.store = none →
      (Diff.between (some s.grammar) (some g)).isEmpty = false →
      Updates text description s
        (.ok ⟨s.version + 1, (Diff.between (some s.grammar) (some g)).describe, true⟩)
        { s with version := s.version + 1, grammar := g }
  /-- the grammar is not committed -/
  | failed {g : Grammar} {st st₁ : Store} {f : Migration.Failure} : readGrammar text = .ok g →
      s.store = some st →
      (Migration.apply wording g description "api").run st = (.error f, st₁) →
      Updates text description s (.error (.migrate f)) { s with store := some st₁ }
  /-- the grammar does not differ from the stored one -/
  | unchanged {g : Grammar} {st st₁ : Store} : readGrammar text = .ok g → s.store = some st →
      (Migration.apply wording g description "api").run st = (.ok none, st₁) →
      Updates text description s (.ok ⟨s.version, Migration.noChanges, false⟩)
        { s with store := some st₁ }
  /-- the grammar is committed, but its version cannot be read -/
  | lost {g : Grammar} {st st₁ st₂ : Store} {diff : Text} {e : Store.Event} :
      readGrammar text = .ok g → s.store = some st →
      (Migration.apply wording g description "api").run st = (.ok (some diff), st₁) →
      Store.version.run st₁ = (.error e, st₂) →
      Updates text description s (.error (.version e)) { s with store := some st₂, version := 0 }
  /-- the grammar is committed and put into use -/
  | stored {g : Grammar} {st st₁ st₂ : Store} {diff : Text} {v : Int} :
      readGrammar text = .ok g → s.store = some st →
      (Migration.apply wording g description "api").run st = (.ok (some diff), st₁) →
      Store.version.run st₁ = (.ok v, st₂) →
      Updates text description s (.ok ⟨v, diff, true⟩)
        { s with store := some st₂, version := v, grammar := g }

theorem updates_of_run {r : Except UpdateError Updated}
    (h : (update text description).run s = (r, s')) : Updates text description s r s' := by
  rcases ok_or_error (readGrammar text) with ⟨g, hread⟩ | ⟨e, hread⟩
  · cases hstore : s.store with
    | none =>
      rw [update_of_none hread hstore] at h
      cases hdiff : (Diff.between (some s.grammar) (some g)).isEmpty with
      | true =>
        cases h.symm.trans (updateCounted_of_empty hdiff)
        exact .same hread hstore hdiff
      | false =>
        cases h.symm.trans (updateCounted_of_nonempty hdiff)
        exact .counted hread hstore hdiff
    | some st =>
      rw [update_of_some hread hstore] at h
      rcases happly : (Migration.apply wording g description "api").run st with ⟨f | _ | diff, st₁⟩
      · cases h.symm.trans (updateStored_of_error happly s)
        exact .failed hread hstore happly
      · cases h.symm.trans (updateStored_of_none happly s)
        exact .unchanged hread hstore happly
      · rcases hversion : Store.version.run st₁ with ⟨e | v, st₂⟩
        · cases h.symm.trans (updateStored_of_lost happly hversion s)
          exact .lost hread hstore happly hversion
        · cases h.symm.trans (updateStored_of_ok happly hversion s)
          exact .stored hread hstore happly hversion
  · cases h.symm.trans (update_of_error hread)
    exact .refused hread

/-! ## Updates that fail -/

theorem readGrammar_ne_version {event : Store.Event} :
    readGrammar text ≠ .error (.version event) := by
  unfold readGrammar
  split
  · simp
  · split
    · simp
    · split <;> simp

/-- **A failed update leaves the grammar in use as it was.**  What is shown of it stays as it was as
    well, unless the grammar is committed already and only its version cannot be read.  Then the store
    has the new grammar as the next version, and the version shown is 0. -/
theorem failed_update_keeps (s s' : Service) (text description : Text) (e : UpdateError)
    (h : (update text description).run s = (.error e, s')) :
    s'.grammar = s.grammar ∧
    (s'.current = s.current ↔ s.version = 0 ∨ ∀ event, e ≠ .version event) ∧
    ∀ event, e = .version event → s'.current = { s.current with version := 0 } ∧
      ∃ g st st', load text = .ok g ∧ s.store = some st ∧ s'.store = some st' ∧
        (st.saved = none → st'.tables.rules = g.toRows ∧ st'.latest = st.latest + 1) := by
  cases updates_of_run h with
  | refused hread =>
    have hother : ∀ event, e ≠ .version event := by
      rintro event rfl
      exact readGrammar_ne_version hread
    exact ⟨rfl, by simp [hother], fun event he => absurd he (hother event)⟩
  | failed _ _ _ => exact ⟨rfl, by simp [current], nofun⟩
  | @lost g st st₁ st₂ diff _ hread hstore happly hversion =>
    refine ⟨rfl, by simp [current, eq_comm], fun event _ => ⟨rfl, g, st, st₂,
      load_of_readGrammar hread, hstore, rfl, fun hsaved => ?_⟩⟩
    have hkeeps := (Migration.version_spec hversion).1
    cases Migration.applies_of_run hsaved happly with
    | written _ _ hleads =>
      have htables := hkeeps.tables.trans hleads.tables
      exact ⟨by rw [htables], Migration.latest_of_versions (by rw [htables])⟩

/-- A service with a store, where some statements are planned to fail. -/
def storing (plan : Store.Plan) : Service :=
  { grammar := .ofAlternatives [("<program>", ["a"])], cache := { span := 0 },
    archive := { memory := {} }, store := some { plan } }

def updatedOnce (plan : Store.Plan) : Service :=
  ((update "<program> -> b" []).run (storing plan)).2

theorem failed_commit_keeps :
    ((update "<program> -> c" []).run (updatedOnce [(.commit, 1)])).1 =
      .error (.migrate (.commit .commit)) ∧
    (updatedOnce [(.commit, 1)]).version = 1 ∧
    ((update "<program> -> c" []).run (updatedOnce [(.commit, 1)])).2.current =
      (updatedOnce [(.commit, 1)]).current := by
  have hfails : ((update "<program> -> c" []).run (updatedOnce [(.commit, 1)])).1 =
      .error (.migrate (.commit .commit)) := by decide +kernel
  obtain ⟨-, hcurrent, -⟩ := failed_update_keeps _ _ _ _ _ (Prod.ext hfails rfl)
  exact ⟨hfails, by decide +kernel, hcurrent.2 (.inr nofun)⟩

/-- An update that is committed and fails to read its version: the version shown was 1 and is 0. -/
theorem version_lost : ¬ ∀ (s s' : Service) (text description : Text) (e : UpdateError),
    (update text description).run s = (.error e, s') →
      s'.current = s.current ∧ s'.grammar = s.grammar := by
  intro hkeeps
  have hfails : ((update "<program> -> c" []).run (updatedOnce [(.selectVersion, 3)])).1 =
      .error (.version .selectVersion) := by decide +kernel
  obtain ⟨hcurrent, -⟩ := hkeeps _ _ _ _ _ (Prod.ext hfails rfl)
  have hversion : ((update "<program> -> c" []).run
      (updatedOnce [(.selectVersion, 3)])).2.current.version ≠
        (updatedOnce [(.selectVersion, 3)]).current.version := by decide +kernel
  exact hversion (congrArg Current.version hcurrent)

end JavaToCpp.Service
