/-
  Requests to the service, one after the other.
-/
import JavaToCpp.Proofs.Grammar.Difference
import JavaToCpp.Proofs.Service.Interleaving
import JavaToCpp.Server.Startup

namespace JavaToCpp.Service

open List Grammar

/-! ## Requests -/

inductive Request where
  | update (text description : Text)
  | sync
  /-- a synchronisation with another source than the store, and what this answers -/
  | supply (active : Except SourceFailure (Grammar × Int))
  | other (w : Store.Wording) (text description sourceFile : Text)

namespace Deployment

/-- Synchronises with what the reader of the store answers. -/
def sync (d : Deployment) (st : Store) : Deployment :=
  match d.reader.active.run st with
  | (.ok (g, v, reader), st) =>
    ⟨((Service.sync (some (.ok (g, v)))).run { d.service with store := some st }).2, reader⟩
  | (.error f, st) =>
    { d with service := ((Service.sync (some (.error (Server.sourceFailure f)))).run
        { d.service with store := some st }).2 }

/-- The store after a migration by another process. -/
def migrated (st : Store) (w : Store.Wording) (text description sourceFile : Text) : Store :=
  match load text with
  | .ok g => ((Migration.apply w g description sourceFile).run st).2
  | .error _ => st

def next (d : Deployment) : Request → Deployment
  | .update text description =>
    { d with service := ((Service.update text description).run d.service).2 }
  | .sync => (d.service.store.map d.sync).getD d
  | .supply active => { d with service := ((Service.sync (some active)).run d.service).2 }
  | .other w text description sourceFile =>
    { d with service := { d.service with
        store := d.service.store.map fun st => migrated st w text description sourceFile } }

def after (d : Deployment) (rs : List Request) : Deployment := rs.foldl next d

end Deployment

/-- The steps of a request to the service and its store. -/
def Request.moves : Request → List Move
  | update text description => [.commit text description, .number, .use]
  | sync => [.active, .install 0]
  | supply _ => []
  | other w text description sourceFile => [.other w text description sourceFile]

variable {d : Deployment} {st : Store}

theorem shared_update (hst : d.service.store = some st) (text description : Text) :
    d.shared.after (Request.update text description).moves =
      (d.next (.update text description)).shared := by
  have hphase : d.shared.phase = .idle := rfl
  have hshared : d.shared.service = d.service := rfl
  rcases hrun : (update text description).run d.service with ⟨r, s'⟩
  simp only [Request.moves, Shared.after, foldl, Shared.next, Deployment.next, hrun]
  cases updates_of_run hrun with
  | refused hread =>
    simp only [Shared.commit, hread, hphase, Shared.number, Shared.use]
  | same _ hnone | counted _ hnone => cases hst.symm.trans hnone
  | failed hread hsome happly | unchanged hread hsome happly =>
    simp only [Shared.commit, hread, hphase, hshared, hsome, migrate_run happly, Except.mapError,
      Shared.number, Shared.use]
    rfl
  | lost hread hsome happly hversion | stored hread hsome happly hversion =>
    simp only [Shared.commit, hread, hphase, hshared, hsome, migrate_run happly, Except.mapError,
      Shared.number, readVersion_run hversion, Shared.use]
    rfl

theorem sync_of_failure (s : Service) (f : Migration.Reader.Failure) :
    ((Service.sync (some (.error (Server.sourceFailure f)))).run s).2 = s := by
  cases f <;> rfl

theorem shared_sync (hst : d.service.store = some st) :
    d.shared.after Request.sync.moves = (d.next .sync).shared := by
  have hphase : d.shared.phase = .idle := rfl
  have hshared : d.shared.service = d.service := rfl
  have hreader : d.shared.reader = d.reader := rfl
  simp only [Request.moves, Shared.after, foldl, Shared.next, Deployment.next, hst,
    Option.map_some, Option.getD_some]
  rcases hactive : d.reader.active.run st with ⟨f | ⟨g, v, reader⟩, st₁⟩
  · simp only [Shared.active, hshared, hst, hreader, hactive, Deployment.sync, sync_of_failure]
    rfl
  · simp only [Shared.active, hshared, hst, hreader, hactive, Deployment.sync]
    rfl

theorem shared_other (hst : d.service.store = some st) (w : Store.Wording)
    (text description sourceFile : Text) :
    d.shared.after (Request.other w text description sourceFile).moves =
      (d.next (.other w text description sourceFile)).shared := by
  have hshared : d.shared.service = d.service := rfl
  simp only [Request.moves, Shared.after, foldl, Shared.next, Deployment.next, Shared.other,
    hshared, hst, Option.map_some, Deployment.migrated]
  rcases ok_or_error (load text) with ⟨g, hload⟩ | ⟨e, hload⟩
  · rcases happly : (Migration.apply w g description sourceFile).run st with ⟨_ | _ | diff, st₁⟩
    · simp only [hload, happly]
      rfl
    · simp only [hload, happly]
      rfl
    · simp only [hload, happly]
      rfl
  · simp only [hload]
    rw [← hst]

theorem shared_next (hst : d.service.store = some st) {r : Request}
    (hr : ∀ active, r ≠ .supply active) : d.shared.after r.moves = (d.next r).shared := by
  cases r with
  | update text description => exact shared_update hst text description
  | sync => exact shared_sync hst
  | supply active => exact absurd rfl (hr active)
  | other w text description sourceFile => exact shared_other hst w text description sourceFile

theorem Paired.requests : ∀ {d : Deployment} {gs : List Grammar} (rs : List Request),
    (∀ active, .supply active ∉ rs) → Paired gs d.shared → ∃ gs', Paired gs' (d.after rs).shared
  | _, gs, [], _, h => ⟨gs, h⟩
  | d, gs, r :: rs, hrs, h => by
    obtain ⟨st, hst, -⟩ := h.store
    have hst : d.service.store = some st := hst
    obtain ⟨gs', h'⟩ := h.after r.moves
    rw [shared_next hst fun active hr => hrs active (hr ▸ mem_cons_self)] at h'
    have htail : ∀ active, .supply active ∉ rs := fun active hmem =>
      hrs active (mem_cons_of_mem r hmem)
    exact h'.requests rs htail

theorem store_sync (s : Service) (active : Except SourceFailure (Grammar × Int)) :
    ((Service.sync (some active)).run s).2.store = s.store := by
  rcases active with f | ⟨g, v⟩
  · cases f <;> rfl
  · change (Service.install g v s).store = s.store
    rw [Service.install]
    split <;> rfl

theorem store_next_eq_none (hnone : d.service.store = none) (r : Request) :
    (d.next r).service.store = none := by
  cases r with
  | update text description =>
    rcases hrun : (update text description).run d.service with ⟨r, s'⟩
    simp only [Deployment.next, hrun]
    cases updates_of_run hrun with
    | refused _ | same _ _ _ | counted _ _ _ => exact hnone
    | failed _ hsome _ | unchanged _ hsome _ | lost _ hsome _ _ | stored _ hsome _ _ =>
      cases hnone.symm.trans hsome
  | sync | other w text description sourceFile => simp [Deployment.next, hnone]
  | supply active => exact (store_sync d.service active).trans hnone

theorem store_after_eq_none : ∀ {d : Deployment} (rs : List Request),
    d.service.store = none → (d.after rs).service.store = none
  | _, [], hnone => hnone
  | _, r :: rs, hnone => store_after_eq_none rs (store_next_eq_none hnone r)

/-- No transaction is open, if there is a store. -/
def Closed (d : Deployment) : Prop := ∀ st, d.service.store = some st → st.saved = none

theorem Deployment.Fresh.closed (h : d.Fresh) : Closed d := fun st hst => (h.store st hst).1

theorem Closed.update (h : Closed d) (text description : Text) :
    Closed (d.next (.update text description)) := by
  intro st hst
  rcases hrun : (Service.update text description).run d.service with ⟨r, s'⟩
  have hnext : (d.next (.update text description)).service = s' := congrArg Prod.snd hrun
  rw [hnext] at hst
  cases updates_of_run hrun with
  | refused _ | same _ _ _ | counted _ _ _ => exact h st hst
  | failed _ hsome happly | unchanged _ hsome happly =>
    cases hst
    exact (Migration.applies_of_run (h _ hsome) happly).saved
  | lost _ hsome happly hversion | stored _ hsome happly hversion =>
    cases hst
    exact (Migration.version_spec hversion).1.saved.trans
      (Migration.applies_of_run (h _ hsome) happly).saved

theorem Closed.sync (h : Closed d) : Closed (d.next .sync) := by
  intro st' hst'
  rw [Deployment.next] at hst'
  cases hst : d.service.store with
  | none =>
    simp only [hst, Option.map_none, Option.getD_none] at hst'
    cases hst'
  | some st =>
    simp only [hst, Option.map_some, Option.getD_some] at hst'
    rcases hactive : d.reader.active.run st with ⟨r, st₁⟩
    have hkeeps := (Migration.Reader.active_spec hactive).1
    have hstore : (d.sync st).service.store = some st₁ := by
      rw [Deployment.sync, hactive]
      rcases r with f | ⟨g, v, reader⟩
      · exact store_sync _ _
      · exact store_sync _ _
    cases hstore.symm.trans hst'
    exact hkeeps.saved.trans (h st hst)

theorem Closed.other (h : Closed d) (w : Store.Wording) (text description sourceFile : Text) :
    Closed (d.next (.other w text description sourceFile)) := by
  intro st' hst'
  obtain ⟨st, hst, rfl⟩ := Option.map_eq_some_iff.1 hst'
  rw [Deployment.migrated]
  split
  · exact (Migration.applies_of_run (h st hst) rfl).saved
  · exact h st hst

theorem Closed.after : ∀ {d : Deployment} (rs : List Request), Closed d → Closed (d.after rs)
  | _, [], h => h
  | d, r :: rs, h => by
    have hnext : Closed (d.next r) := by
      cases r with
      | update text description => exact h.update text description
      | sync => exact h.sync
      | supply active => exact fun st hst => h st ((store_sync d.service active).symm.trans hst)
      | other w text description sourceFile => exact h.other w text description sourceFile
    exact hnext.after rs

/-! ## Updates that succeed -/

/-- The grammar in use does not differ from the stored one, if there is one. -/
def InStep (s : Service) : Prop :=
  ∀ st g, s.store = some st → ofRows st.storedRules = .ok (some g) →
    (Diff.between (some s.grammar) (some g)).isEmpty

theorem Paired.inStep {gs : List Grammar} (h : Paired gs d.shared)
    (hversion : ∀ st, d.service.store = some st → d.service.version = st.latest) :
    InStep d.service := by
  intro st g hst hrows
  have hstored := h.stored hst
  obtain ⟨k, hlast, halike⟩ := hstored.alike_of_ofRows h.readable hrows
  have hlatest : st.latest ≠ 0 := by
    have hlength := length_pos_of_mem (mem_of_getLast? hlast)
    rw [hstored.latest]
    omega
  obtain ⟨k', hlast', halike'⟩ := h.alike_last hst rfl rfl (hversion st hst) hlatest
  cases hlast.symm.trans hlast'
  exact (halike'.trans halike.symm).isEmpty_between

theorem inStep_iff_of_unchanged {s : Service} {st st₁ : Store} {g : Grammar} {description : Text}
    (hst : s.store = some st) (hsaved : st.saved = none) (hg : g.Readable)
    (happly : (Migration.apply wording g description "api").run st = (.ok none, st₁)) :
    (Diff.between (some s.grammar) (some g)).isEmpty ↔ s.InStep := by
  cases Migration.applies_of_run hsaved happly with
  | @unchanged old hold hempty _ =>
    cases old with
    | none =>
      rw [isEmpty_between_none hg.rules_ne_nil] at hempty
      cases hempty
    | some stored =>
      rw [← isEmpty_between_congr hempty]
      constructor
      · intro hdiff st' g' hst' hrows
        cases hst.symm.trans hst'
        cases hold.symm.trans hrows
        exact hdiff
      · intro hstep
        exact hstep st stored hst hold

/-- **When an update that is answered without an error has taken effect.** After any requests it
    leaves a grammar in use that does not differ from the one of the text, exactly if it is answered
    as a change, and then it is this grammar, or the service was in step with its store. Without a
    store it always is. With one it is whenever the version in use is the newest one stored and no
    grammar came from another source. -/
theorem update_takes_effect (start : Deployment) (hstart : start.Fresh) (rs : List Request)
    (d : Deployment) (hd : start.after rs = d) (text description : Text) (u : Updated)
    (s' : Service) (h : (update text description).run d.service = (.ok u, s')) :
    ∃ g, load text = .ok g ∧ (u.changed → s'.grammar = g) ∧
      ((Diff.between (some s'.grammar) (some g)).isEmpty ↔ u.changed ∨ d.service.InStep) ∧
      (start.service.store = none → d.service.InStep) ∧
      ((∀ active, .supply active ∉ rs) →
        (∀ st, d.service.store = some st → d.service.version = st.latest) → d.service.InStep) := by
  have hclosed : Closed d := hd ▸ Closed.after rs hstart.closed
  have hnone : start.service.store = none → d.service.InStep := by
    intro hstore st g hst
    have hafter := store_after_eq_none rs hstore
    rw [hd] at hafter
    cases hafter.symm.trans hst
  have hinStep : (∀ active, .supply active ∉ rs) →
      (∀ st, d.service.store = some st → d.service.version = st.latest) → d.service.InStep := by
    intro hrs hversion
    cases hstore : start.service.store with
    | none => exact hnone hstore
    | some st₀ =>
      obtain ⟨gs, hpaired⟩ := (hstart.paired hstore).requests rs hrs
      rw [hd] at hpaired
      exact hpaired.inStep hversion
  cases updates_of_run h with
  | @same g hread hstore hdiff =>
    have hstep : d.service.InStep := fun st g hst => by cases hstore.symm.trans hst
    exact ⟨g, load_of_readGrammar hread, nofun, by simp [hdiff, hstep], hnone, hinStep⟩
  | @counted g hread _ _ | @stored g st st₁ st₂ diff v hread _ _ _ =>
    exact ⟨g, load_of_readGrammar hread, fun _ => rfl,
      by simp [isEmpty_between_self], hnone, hinStep⟩
  | @unchanged g st st₁ hread hst happly =>
    have hload := load_of_readGrammar hread
    have hiff := inStep_iff_of_unchanged hst (hclosed st hst) (load_readable hload) happly
    exact ⟨g, hload, nofun, by simpa using hiff, hnone, hinStep⟩

/-- An update whose version cannot be read, a synchronisation, and a migration by another process that
    is synchronised with. -/
def busy : Deployment := Deployment.after ⟨storing [(.selectVersion, 1)], {}⟩
  [.update "<program> -> b" [], .sync, .other .bare "<program> -> c" [] [], .sync]

/-- The grammar of the other process is put into use once more, which changes nothing. -/
theorem update_takes_effect_busy :
    ((update "<program> -> c" []).run busy.service).1 = .ok ⟨2, Migration.noChanges, false⟩ ∧
    ∃ g, load "<program> -> c" = .ok g ∧ (Diff.between
      (some ((update "<program> -> c" []).run busy.service).2.grammar) (some g)).isEmpty := by
  have hanswer : ((update "<program> -> c" []).run busy.service).1 =
      .ok ⟨2, Migration.noChanges, false⟩ := by decide +kernel
  obtain ⟨g, hload, -, hiff, -, hstep⟩ := update_takes_effect _ (fresh_storing _) _ busy rfl _ _ _ _
    (Prod.ext hanswer rfl)
  refine ⟨hanswer, g, hload, hiff.2 (.inr (hstep (by simp) fun st hst => ?_))⟩
  have hlatest : busy.service.store.map Store.latest = some busy.service.version := by
    decide +kernel
  rw [hst] at hlatest
  exact (Option.some.inj hlatest).symm

/-- An update is committed and fails to read its version.  Asked for again, it is answered without an
    error, as no change, while the old grammar stays in use. -/
theorem lost_update_not_noticed : ¬ ∀ (start : Deployment), start.Fresh →
    ∀ (rs : List Request) (text description : Text) (u : Updated) (s' : Service),
    (update text description).run (start.after rs).service = (.ok u, s') →
    ∀ g, load text = .ok g → (Diff.between (some s'.grammar) (some g)).isEmpty := by
  intro hall
  have hanswer : ((update "<program> -> b" []).run (Deployment.after
      ⟨storing [(.selectVersion, 1)], {}⟩ [.update "<program> -> b" []]).service).1 =
        .ok ⟨0, Migration.noChanges, false⟩ := by decide +kernel
  have hload : load "<program> -> b" = .ok (.ofAlternatives [("<program>", ["b"])]) := by
    decide +kernel
  have hdiff := hall _ (fresh_storing _) _ _ _ _ _ (Prod.ext hanswer rfl) _ hload
  revert hdiff
  decide +kernel

end JavaToCpp.Service
