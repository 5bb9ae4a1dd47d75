/-
  Synchronisations that are overtaken.

  A synchronisation asks the store without the lock and installs the answer later.  In between an
  update can put a newer version into use, which the answer then replaces.
-/
import JavaToCpp.Proofs.Service.Interleaving
import Mathlib.Data.List.Induction

namespace JavaToCpp.Service

open List
open Migration (Stored)

/-! ## What a step does to versions -/

/-- What a step can do to the version in use and to the answers that wait; the store is `st`. -/
inductive Acts (s : Shared) (st : Store) : Move → Int → List (Grammar × Int) → Prop
  | keeps {m : Move} : Acts s st m s.service.version s.pending
  | lost {g : Grammar} {crossed : Bool} {e : Store.Event} : s.phase = .committed g crossed →
      (Store.version.run st).1 = .error e → Acts s st .number 0 s.pending
  | numbered : Acts s st .number st.latest s.pending
  | read {g : Grammar} : Acts s st .active s.service.version (s.pending ++ [(g, st.latest)])
  | installed {i : Nat} {g : Grammar} {v : Int} : s.phase = .idle → s.pending[i]? = some (g, v) →
      Acts s st (.install i) v (s.pending.eraseIdx i)

section Steps

variable {gs : List Grammar} {s : Shared} {st : Store}

theorem latest_le_of_applies {g : Grammar} {w : Store.Wording} {description sourceFile : Text}
    {r : Except Migration.Failure (Option Text)} {st₁ : Store} (hstored : Stored st gs)
    (h : (Migration.apply w g description sourceFile).run st = (r, st₁)) : st.latest ≤ st₁.latest := by
  cases Migration.applies_of_run hstored.saved h with
  | failed hleads | unchanged _ _ hleads => rw [Store.latest, Store.latest, hleads.tables]
  | written _ _ hleads =>
    rw [hstored.latest, (hstored.append hleads.saved hleads.tables).latest]
    simp

theorem version_install {i : Nat} {g : Grammar} {v : Int} (hphase : s.phase = .idle)
    (hi : s.pending[i]? = some (g, v)) : (s.install i).service.version = v := by
  have hinstall : (Service.install g v s.service).version = v := by
    rw [Service.install]
    split
    · exact (‹v = _›).symm
    · rfl
  rw [Shared.install, hphase, hi]
  exact hinstall

theorem version_number_of_lost {g : Grammar} {crossed : Bool} {e : Store.Event}
    (hphase : s.phase = .committed g crossed) (hst : s.service.store = some st)
    (hlost : (Store.version.run st).1 = .error e) : s.number.service.version = 0 := by
  rcases hversion : Store.version.run st with ⟨r, st₁⟩
  rw [hversion] at hlost
  obtain rfl : r = .error e := hlost
  rw [Shared.number, hphase, hst]
  simp only [readVersion_run hversion]
  rfl

theorem Paired.acts (h : Paired gs s) (hst : s.service.store = some st) (m : Move) :
    ∃ st', (s.next m).service.store = some st' ∧ st.latest ≤ st'.latest ∧
      Acts s st m (s.next m).service.version (s.next m).pending := by
  have hstored := h.stored hst
  have hsame {m : Move} : ∃ st', s.service.store = some st' ∧ st.latest ≤ st'.latest ∧
      Acts s st m s.service.version s.pending := ⟨st, hst, le_rfl, .keeps⟩
  cases m with
  | commit text description =>
    rw [Shared.next, Shared.commit]
    split
    · rename_i g st' hphase hread hst'
      cases hst.symm.trans hst'
      rcases happly : (Migration.apply wording g description "api").run st with ⟨r, st₁⟩
      have hle := latest_le_of_applies hstored happly
      rw [migrate_run happly]
      rcases r with e | diff
      · exact ⟨st₁, rfl, hle, .keeps⟩
      · cases diff <;> exact ⟨st₁, rfl, hle, .keeps⟩
    · exact hsame
  | number =>
    rw [Shared.next, Shared.number]
    split
    · rename_i g crossed st' hphase hst'
      cases hst.symm.trans hst'
      rcases hversion : Store.version.run st with ⟨r, st₁⟩
      obtain ⟨hkeeps, hv⟩ := Migration.version_spec hversion
      have hle : st.latest ≤ st₁.latest := by rw [Store.latest, Store.latest, hkeeps.tables]
      rw [readVersion_run hversion]
      cases r with
      | error e => exact ⟨st₁, rfl, hle, .lost hphase (congrArg Prod.fst hversion)⟩
      | ok v =>
        obtain rfl := hv v rfl
        exact ⟨st₁, rfl, hle, .numbered⟩
    · exact hsame
  | use =>
    rw [Shared.next, Shared.use]
    split
    · exact hsame
    · exact hsame
  | active =>
    rw [Shared.next, Shared.active]
    split
    · rename_i st' hst'
      cases hst.symm.trans hst'
      rcases hactive : s.reader.active.run st with ⟨r, st₁⟩
      obtain ⟨hkeeps, hr⟩ := Migration.Reader.active_spec hactive
      have hle : st.latest ≤ st₁.latest := by rw [Store.latest, Store.latest, hkeeps.tables]
      rcases r with f | ⟨g, v, reader⟩
      · exact ⟨st₁, rfl, hle, .keeps⟩
      · obtain ⟨rfl, -⟩ := hr g v reader rfl
        exact ⟨st₁, rfl, hle, .read⟩
    · exact hsame
  | install i =>
    by_cases hidle : s.phase = .idle
    · cases hi : s.pending[i]? with
      | none =>
        rw [Shared.next, Shared.install, hidle, hi]
        exact hsame
      | some p =>
        obtain ⟨g, v⟩ := p
        rw [Shared.next, version_install hidle hi, Shared.install, hidle, hi]
        refine ⟨st, ?_, le_rfl, .installed hidle hi⟩
        show (Service.install g v s.service).store = some st
        rw [Service.install]
        split <;> exact hst
    · rw [Shared.next, Shared.install]
      split
      · exact absurd ‹_› hidle
      · exact hsame
  | other w text description sourceFile =>
    rw [Shared.next, Shared.other]
    split
    · rename_i st' g hst' hload
      cases hst.symm.trans hst'
      rcases happly : (Migration.apply w g description sourceFile).run st with ⟨r, st₁⟩
      have hle := latest_le_of_applies hstored happly
      rcases r with e | diff
      · exact ⟨st₁, rfl, hle, .keeps⟩
      · cases diff <;> exact ⟨st₁, rfl, hle, .keeps⟩
    · exact hsame

end Steps

/-! ## Answers -/

theorem Shared.after_append (s : Shared) (ms ms' : List Move) :
    s.after (ms ++ ms') = (s.after ms).after ms' := foldl_append

theorem Shared.after_concat (s : Shared) (ms : List Move) (m : Move) :
    s.after (ms ++ [m]) = (s.after ms).next m := s.after_append ms [m]

/-- On the way a synchronisation read the version; then it was the newest one in the store, and no
    newer one was in use. -/
def ReadOnTheWay (start : Shared) (ms : List Move) (v : Int) : Prop :=
  ∃ ms₁ ms₂ st, ms = ms₁ ++ .active :: ms₂ ∧ (start.after ms₁).service.store = some st ∧
    v = st.latest ∧ (start.after ms₁).service.version ≤ v

theorem ReadOnTheWay.append {start : Shared} {ms : List Move} {v : Int}
    (h : ReadOnTheWay start ms v) (ms' : List Move) : ReadOnTheWay start (ms ++ ms') v := by
  obtain ⟨ms₁, ms₂, st, rfl, hst⟩ := h
  exact ⟨ms₁, ms₂ ++ ms', st, by simp, hst⟩

/-- The versions that are about are those of the store, which is `st`, and the answers that wait were
    read on the way. -/
structure Dated (start : Shared) (ms : List Move) (st : Store) : Prop where
  store : (start.after ms).service.store = some st
  version_nonneg : 0 ≤ (start.after ms).service.version
  version_le : (start.after ms).service.version ≤ st.latest
  pending : ∀ p ∈ (start.after ms).pending, 0 ≤ p.2 ∧ p.2 ≤ st.latest ∧ ReadOnTheWay start ms p.2

theorem Dated.next {start : Shared} {ms : List Move} {st : Store} {gs : List Grammar}
    (h : Dated start ms st) (hpaired : Paired gs (start.after ms)) (m : Move) :
    ∃ st', Dated start (ms ++ [m]) st' := by
  obtain ⟨st', hst', hle, hacts⟩ := hpaired.acts h.store m
  have hlatest : 0 ≤ st.latest := (hpaired.stored h.store).latest ▸ Int.natCast_nonneg _
  have hwait : ∀ p ∈ (start.after ms).pending,
      0 ≤ p.2 ∧ p.2 ≤ st'.latest ∧ ReadOnTheWay start (ms ++ [m]) p.2 := by
    intro p hp
    obtain ⟨hnonneg, hp, hread⟩ := h.pending p hp
    exact ⟨hnonneg, hp.trans hle, hread.append [m]⟩
  have hnext := start.after_concat ms m
  refine ⟨st', ?_⟩
  generalize hversion : ((start.after ms).next m).service.version = v at hacts
  generalize hpending : ((start.after ms).next m).pending = ps at hacts
  suffices hdated : 0 ≤ v ∧ v ≤ st'.latest ∧
      ∀ p ∈ ps, 0 ≤ p.2 ∧ p.2 ≤ st'.latest ∧ ReadOnTheWay start (ms ++ [m]) p.2 by
    rw [← hversion, ← hpending, ← hnext] at hdated
    exact ⟨by rw [hnext, hst'], hdated.1, hdated.2.1, hdated.2.2⟩
  cases hacts with
  | keeps => exact ⟨h.version_nonneg, h.version_le.trans hle, hwait⟩
  | lost => exact ⟨le_rfl, hlatest.trans hle, hwait⟩
  | numbered => exact ⟨hlatest, hle, hwait⟩
  | @read g =>
    refine ⟨h.version_nonneg, h.version_le.trans hle, fun p hp => ?_⟩
    rcases mem_append.1 hp with hp | hp
    · exact hwait p hp
    · cases mem_singleton.1 hp
      exact ⟨hlatest, hle, ms, [], st, rfl, h.store, rfl, h.version_le⟩
  | @installed i g v _ hi =>
    obtain ⟨hnonneg, hv, -⟩ := hwait (g, v) (mem_of_getElem? hi)
    exact ⟨hnonneg, hv, fun p hp => hwait p (mem_of_mem_eraseIdx hp)⟩

theorem exists_dated {start : Deployment} (hstart : start.Fresh) {st₀ : Store}
    (hstore : start.service.store = some st₀) (ms : List Move) : ∃ st, Dated start.shared ms st := by
  induction ms using reverseRecOn with
  | nil =>
    have hversion : start.shared.service.version = 0 := hstart.version
    have hlatest : st₀.latest = 0 := ((hstart.paired hstore).stored hstore).latest
    refine ⟨st₀, hstore, hversion.ge, by rw [hlatest]; exact hversion.le, fun p hp => ?_⟩
    cases hp
  | append_singleton ms m ih =>
    obtain ⟨st, h⟩ := ih
    obtain ⟨gs, hpaired⟩ := (hstart.paired hstore).after ms
    exact h.next hpaired m

/-! ## Steps that lower the version -/

/-- The step lowers the version in use. -/
inductive Lowers (s : Shared) : Move → Prop
  /-- an update has committed its grammar and cannot read the version -/
  | lost {g : Grammar} {crossed : Bool} {st : Store} {e : Store.Event} :
      s.phase = .committed g crossed → s.service.store = some st →
      (Store.version.run st).1 = .error e → 0 < s.service.version → Lowers s .number
  /-- a synchronisation installs an answer, but a newer version is in use already -/
  | overtaken {i : Nat} {g : Grammar} {v : Int} : s.phase = .idle → s.pending[i]? = some (g, v) →
      v < s.service.version → Lowers s (.install i)

theorem lowers_iff {start : Deployment} (hstart : start.Fresh) {st₀ : Store}
    (hstore : start.service.store = some st₀) (ms : List Move) (m : Move) :
    ((start.shared.after ms).next m).service.version < (start.shared.after ms).service.version ↔
      Lowers (start.shared.after ms) m := by
  obtain ⟨st, h⟩ := exists_dated hstart hstore ms
  obtain ⟨gs, hpaired⟩ := (hstart.paired hstore).after ms
  constructor
  · intro hlt
    obtain ⟨-, -, -, hacts⟩ := hpaired.acts h.store m
    generalize hversion : ((start.shared.after ms).next m).service.version = v at hlt hacts
    generalize ((start.shared.after ms).next m).pending = ps at hacts
    cases hacts with
    | keeps | read => exact absurd hlt (lt_irrefl _)
    | lost hphase hlost => exact .lost hphase h.store hlost hlt
    | numbered => exact absurd hlt h.version_le.not_gt
    | installed hphase hi => exact .overtaken hphase hi hlt
  · intro hlowers
    cases hlowers with
    | lost hphase hst hlost hpos =>
      rw [Shared.next, version_number_of_lost hphase hst hlost]
      exact hpos
    | overtaken hphase hi hlt =>
      rw [Shared.next, version_install hphase hi]
      exact hlt

/-- **The version in use falls only if a synchronisation is overtaken or an update fails.** In any
    order of steps, one lowers the version in use exactly if it is the failing read of an update or
    installs an answer that is older than the version in use; steps that do neither never lower it;
    and every answer that waits was the newest version when it was read, with no newer one in use.
    -/
theorem version_lowered_iff (start : Deployment) (hstart : start.Fresh) (st₀ : Store)
    (hstore : start.service.store = some st₀) (ms : List Move) (s : Shared)
    (hs : start.shared.after ms = s) :
    (∀ m, (s.next m).service.version < s.service.version ↔ Lowers s m) ∧
    (∀ ms', (∀ ms₁ m ms₂, ms' = ms₁ ++ m :: ms₂ → ¬ Lowers (s.after ms₁) m) →
      s.service.version ≤ (s.after ms').service.version) ∧
    ∀ p ∈ s.pending, ReadOnTheWay start.shared ms p.2 := by
  subst hs
  refine ⟨lowers_iff hstart hstore ms, fun ms' hms' => ?_, fun p hp => ?_⟩
  · induction ms' using reverseRecOn with
    | nil => exact le_rfl
    | append_singleton ms' m ih =>
      have hkept := hms' ms' m [] rfl
      rw [← Shared.after_append, ← lowers_iff hstart hstore, not_lt, Shared.after_append] at hkept
      rw [Shared.after_concat]
      exact (ih fun ms₁ m' ms₂ he => hms' ms₁ m' (ms₂ ++ [m]) (by simp [he])).trans hkept
  · obtain ⟨st, h⟩ := exists_dated hstart hstore ms
    exact (h.pending p hp).2.2

/-- An update puts version 1 into use and a synchronisation reads it; before it installs its answer,
    a second update puts version 2 into use. -/
def overtaking : List Move :=
  [.commit "<program> -> x" [], .number, .use, .active, .commit "<program> -> b" [], .number, .use]

/-- The service between the second update and the end of the synchronisation. -/
def overtaken : Shared := (Deployment.shared ⟨storing [], {}⟩).after overtaking

theorem pending_overtaken : ∃ g, overtaken.pending = [(g, 1)] := by
  have hpending : overtaken.pending.map Prod.snd = [1] := by decide +kernel
  obtain ⟨⟨g, v⟩, hp, rfl⟩ := map_eq_singleton_iff.1 hpending
  exact ⟨g, hp⟩

theorem version_overtaken : overtaken.service.version = 2 := by decide +kernel

/-- The answer that is overtaken was the newest version when it was read. -/
theorem version_lowered_iff_overtaken :
    (overtaken.next (.install 0)).service.version < overtaken.service.version ∧
    ReadOnTheWay (Deployment.shared ⟨storing [], {}⟩) overtaking 1 := by
  obtain ⟨hiff, -, hread⟩ :=
    version_lowered_iff ⟨storing [], {}⟩ (fresh_storing []) _ rfl overtaking overtaken rfl
  obtain ⟨g, hpending⟩ := pending_overtaken
  have hlowers : Lowers overtaken (.install 0) :=
    .overtaken (by decide +kernel) (by rw [hpending]; rfl) (by rw [version_overtaken]; decide)
  exact ⟨(hiff _).2 hlowers, hread (g, 1) (by rw [hpending]; exact mem_singleton_self _)⟩

/-- So without any failure the version in use does not only grow. -/
theorem overtaken_installed : ¬ ∀ (start : Deployment), start.Fresh → ∀ st₀,
    start.service.store = some st₀ → st₀.plan = [] → ∀ (ms : List Move) (m : Move),
    (start.shared.after ms).service.version ≤ ((start.shared.after ms).next m).service.version := by
  intro hall
  have hle := hall ⟨storing [], {}⟩ (fresh_storing []) _ rfl rfl overtaking (.install 0)
  obtain ⟨g, hpending⟩ := pending_overtaken
  have hinstalled : (overtaken.install 0).service.version = 1 :=
    version_install (by decide +kernel) (by rw [hpending]; rfl)
  rw [show (Deployment.shared ⟨storing [], {}⟩).after overtaking = overtaken from rfl,
    version_overtaken, Shared.next, hinstalled] at hle
  exact absurd hle (by decide)

end JavaToCpp.Service
