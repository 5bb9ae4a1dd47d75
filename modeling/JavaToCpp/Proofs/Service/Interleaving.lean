/-
  The service beside other users of its store.

  An update commits its grammar, then reads the version, then puts the grammar into use, and holds a
  lock all the while.  A synchronisation asks the reader of the store without the lock, and installs
  the answer with it.  Other processes migrate the store at any time.
-/
import JavaToCpp.Proofs.Migration.Reader
import JavaToCpp.Proofs.Service.Update

namespace JavaToCpp.Service

open Grammar
open Migration (Stored IsVersion Reader)

/-! ## Steps -/

/-- The service with the reader of its store. -/
structure Deployment where
  service : Service
  reader : Reader := {}

structure Deployment.Fresh (d : Deployment) : Prop where
  version : d.service.version = 0
  kept : d.reader.kept = none
  store : ∀ st, d.service.store = some st →
    st.saved = none ∧ st.tables.rules = [] ∧ st.tables.versions = []

/-- How far the update that holds the lock has come with its grammar.  A mark tells whether another
    process has committed a grammar between its commit and its reading of the version. -/
inductive Phase where
  | idle
  | committed (g : Grammar) (crossed : Bool)
  | numbered (g : Grammar) (crossed : Bool)
deriving DecidableEq

/-- The phase after another process has committed a grammar. -/
def Phase.cross : Phase → Phase
  | committed g _ => committed g true
  | phase => phase

/-- The service between two steps. -/
structure Shared extends Deployment where
  phase : Phase := .idle
  /-- what synchronisations have read and not yet installed -/
  pending : List (Grammar × Int) := []
  /-- the mark of the update that put the grammar into use; no step looks at it -/
  crossed : Bool := false

inductive Move where
  /-- an update begins and commits its grammar -/
  | commit (text description : Text)
  /-- the update reads its version -/
  | number
  /-- the update puts its grammar into use -/
  | use
  /-- a synchronisation asks the reader -/
  | active
  /-- the synchronisation with the `i`-th of the answers installs it -/
  | install (i : Nat)
  /-- another process migrates the store -/
  | other (w : Store.Wording) (text description sourceFile : Text)

namespace Shared

def withStore (s : Shared) (st : Store) : Shared :=
  { s with service := { s.service with store := some st } }

def commit (s : Shared) (text description : Text) : Shared :=
  match s.phase, readGrammar text, s.service.store with
  | .idle, .ok g, some st =>
    match (migrate st g description).run s.service with
    | (.ok (some _), service) => { s with service, phase := .committed g false }
    | (_, service) => { s with service }
  | _, _, _ => s

def number (s : Shared) : Shared :=
  match s.phase, s.service.store with
  | .committed g crossed, some st =>
    match (readVersion st).run s.service with
    | (.ok _, service) => { s with service, phase := .numbered g crossed }
    | (.error _, service) => { s with service, phase := .idle }
  | _, _ => s

def use (s : Shared) : Shared :=
  match s.phase with
  | .numbered g crossed =>
    { s with service := ((setGrammar g).run s.service).2, phase := .idle, crossed }
  | _ => s

def active (s : Shared) : Shared :=
  match s.service.store with
  | some st =>
    match s.reader.active.run st with
    | (.ok (g, v, reader), st) =>
      { s.withStore st with reader, pending := s.pending ++ [(g, v)] }
    | (.error _, st) => s.withStore st
  | none => s

def install (s : Shared) (i : Nat) : Shared :=
  match s.phase, s.pending[i]? with
  | .idle, some (g, v) =>
    { s with
      service := ((sync (some (.ok (g, v)))).run s.service).2
      pending := s.pending.eraseIdx i
      crossed := s.crossed && v == s.service.version }
  | _, _ => s

def other (s : Shared) (w : Store.Wording) (text description sourceFile : Text) : Shared :=
  match s.service.store, load text with
  | some st, .ok g =>
    match (Migration.apply w g description sourceFile).run st with
    | (.ok (some _), st) => { s.withStore st with phase := s.phase.cross }
    | (_, st) => s.withStore st
  | _, _ => s

/-- The state after a step.  A step that is not possible changes nothing. -/
def next (s : Shared) : Move → Shared
  | .commit text description => s.commit text description
  | .number => s.number
  | .use => s.use
  | .active => s.active
  | .install i => s.install i
  | .other w text description sourceFile => s.other w text description sourceFile

def after (s : Shared) (ms : List Move) : Shared := ms.foldl next s

end Shared

/-- A service that nobody has begun to work with. -/
def Deployment.shared (d : Deployment) : Shared := { toDeployment := d }

/-! ## Grammars with their versions -/

/-- The grammars `gs` are committed, and each grammar that stands with a version is this version. -/
structure Paired (gs : List Grammar) (s : Shared) : Prop where
  store : ∃ st, s.service.store = some st ∧ Stored st gs
  readable : ∀ g ∈ gs, g.Readable
  reader : s.reader.Faithful gs
  pending : ∀ p ∈ s.pending, IsVersion gs p.2 p.1
  /-- between the steps of an update that follow its commit, the grammar in use is behind the version -/
  settled : (∀ g crossed, s.phase ≠ .numbered g crossed) → s.crossed = false →
    s.service.version ≠ 0 → IsVersion gs s.service.version s.service.grammar
  committed : ∀ g, s.phase = .committed g false → gs.getLast? = some g
  numbered : ∀ g, s.phase = .numbered g false → IsVersion gs s.service.version g

namespace Paired

variable {gs : List Grammar} {s : Shared} {st st' : Store} {g : Grammar}

theorem stored (h : Paired gs s) (hst : s.service.store = some st) : Stored st gs := by
  obtain ⟨st', hst', hstored⟩ := h.store
  cases hst.symm.trans hst'
  exact hstored

theorem withStore (h : Paired gs s) (hst : Stored st gs) : Paired gs (s.withStore st) where
  store := ⟨st, rfl, hst⟩
  readable := h.readable
  reader := h.reader
  pending := h.pending
  settled := h.settled
  committed := h.committed
  numbered := h.numbered

theorem grow (h : Paired gs s) (hst : Stored st (gs ++ [g])) (hg : g.Readable) {phase : Phase}
    (hcommitted : ∀ k, phase = .committed k false → k = g)
    (hnumbered : ∀ k crossed, phase = .numbered k crossed ↔ s.phase = .numbered k crossed) :
    Paired (gs ++ [g]) { s.withStore st with phase } where
  store := ⟨st, rfl, hst⟩
  readable := by simpa [or_imp, forall_and] using ⟨h.readable, hg⟩
  reader := h.reader.append [g]
  pending p hp := (h.pending p hp).append [g]
  settled hphase hcrossed hversion := by
    refine (h.settled (fun k crossed hk => ?_) hcrossed hversion).append [g]
    exact hphase k crossed ((hnumbered k crossed).2 hk)
  committed k hk := by rw [hcommitted k hk, List.getLast?_concat]
  numbered k hk := (h.numbered k ((hnumbered k false).1 hk)).append [g]

theorem commit (h : Paired gs s) (text description : Text) :
    ∃ gs', Paired gs' (s.commit text description) := by
  rw [Shared.commit]
  split
  · rename_i g st hphase hread hst
    have hstored := h.stored hst
    rcases happly : (Migration.apply wording g description "api").run st with ⟨r, st₁⟩
    have happlies := Migration.applies_of_run hstored.saved happly
    rw [migrate_run happly]
    cases happlies with
    | failed hleads | unchanged _ _ hleads =>
      exact ⟨gs, h.withStore (hstored.of_tables hleads.saved hleads.tables)⟩
    | written _ _ hleads =>
      refine ⟨gs ++ [g], h.grow (hstored.append hleads.saved hleads.tables)
        (load_readable (load_of_readGrammar hread)) ?_ ?_⟩
      · rintro k ⟨⟩
        rfl
      · simp [hphase]
  · exact ⟨gs, h⟩

theorem number (h : Paired gs s) : Paired gs s.number := by
  rw [Shared.number]
  split
  · rename_i g crossed st hphase hst
    have hstored := h.stored hst
    rcases hversion : Store.version.run st with ⟨r, st₁⟩
    obtain ⟨hkeeps, hv⟩ := Migration.version_spec hversion
    have hstored₁ : Stored st₁ gs :=
      hstored.of_tables (hkeeps.saved.trans hstored.saved) hkeeps.tables
    rw [readVersion_run hversion]
    cases r with
    | error e =>
      exact ⟨⟨st₁, rfl, hstored₁⟩, h.readable, h.reader, h.pending, fun _ _ hne => absurd rfl hne,
        nofun, nofun⟩
    | ok v =>
      refine ⟨⟨st₁, rfl, hstored₁⟩, h.readable, h.reader, h.pending,
        fun hphase => absurd rfl (hphase g crossed), nofun, ?_⟩
      rintro k ⟨⟩
      -- no other commit came in between, so the latest version is that of the update
      have hlast := h.committed g hphase
      obtain rfl := hv v rfl
      change IsVersion gs st.latest g
      rw [hstored.latest]
      exact Migration.isVersion_length hlast (.refl g)
  · exact h

theorem use (h : Paired gs s) : Paired gs s.use := by
  rw [Shared.use]
  split
  · rename_i g crossed hphase
    obtain ⟨st, hst, hstored⟩ := h.store
    refine ⟨⟨st, hst, hstored⟩, h.readable, h.reader, h.pending, ?_, nofun, nofun⟩
    rintro - rfl -
    exact h.numbered g hphase
  · exact h

theorem active (h : Paired gs s) : Paired gs s.active := by
  rw [Shared.active]
  split
  · rename_i st hst
    have hstored := h.stored hst
    rcases hactive : s.reader.active.run st with ⟨r, st₁⟩
    have hkeeps := (Reader.active_spec hactive).1
    have hstored₁ : Stored st₁ gs :=
      hstored.of_tables (hkeeps.saved.trans hstored.saved) hkeeps.tables
    rcases r with f | ⟨g, v, reader⟩
    · exact h.withStore hstored₁
    · obtain ⟨-, hversion, hreader⟩ :=
        Reader.isVersion_of_active hstored h.readable h.reader hactive
      refine ⟨⟨st₁, rfl, hstored₁⟩, h.readable, hreader, ?_, h.settled, h.committed, h.numbered⟩
      simpa [or_imp, forall_and] using ⟨fun g v hp => h.pending (g, v) hp, hversion⟩
  · exact h

theorem install (h : Paired gs s) (i : Nat) : Paired gs (s.install i) := by
  rw [Shared.install]
  split
  · rename_i g v hphase hi
    obtain ⟨st, hst, hstored⟩ := h.store
    have hversion : IsVersion gs v g := h.pending (g, v) (List.mem_of_getElem? hi)
    have hpending : ∀ p ∈ s.pending.eraseIdx i, IsVersion gs p.2 p.1 := fun p hp =>
      h.pending p (List.mem_of_mem_eraseIdx hp)
    have hsync : ((sync (some (.ok (g, v)))).run s.service).2 = Service.install g v s.service := rfl
    rw [hsync, Service.install]
    by_cases heq : v = s.service.version
    · rw [if_pos heq]
      refine ⟨⟨st, hst, hstored⟩, h.readable, h.reader, hpending, fun hphase hcrossed => ?_,
        h.committed, h.numbered⟩
      exact h.settled hphase (by simpa [heq] using hcrossed)
    · rw [if_neg heq]
      exact ⟨⟨st, hst, hstored⟩, h.readable, h.reader, hpending, fun _ _ _ => hversion,
        by simp [hphase], by simp [hphase]⟩
  · exact h

theorem other (h : Paired gs s) (w : Store.Wording) (text description sourceFile : Text) :
    ∃ gs', Paired gs' (s.other w text description sourceFile) := by
  rw [Shared.other]
  split
  · rename_i st g hst hload
    have hstored := h.stored hst
    rcases happly : (Migration.apply w g description sourceFile).run st with ⟨r, st₁⟩
    cases Migration.applies_of_run hstored.saved happly with
    | failed hleads | unchanged _ _ hleads =>
      exact ⟨gs, h.withStore (hstored.of_tables hleads.saved hleads.tables)⟩
    | written _ _ hleads =>
      refine ⟨gs ++ [g], h.grow (hstored.append hleads.saved hleads.tables)
        (load_readable hload) ?_ ?_⟩
      · cases s.phase <;> simp [Phase.cross]
      · cases s.phase <;> simp [Phase.cross]
  · exact ⟨gs, h⟩

theorem next (h : Paired gs s) (m : Move) : ∃ gs', Paired gs' (s.next m) := by
  cases m with
  | commit text description => exact h.commit text description
  | number => exact ⟨gs, h.number⟩
  | use => exact ⟨gs, h.use⟩
  | active => exact ⟨gs, h.active⟩
  | install i => exact ⟨gs, h.install i⟩
  | other w text description sourceFile => exact h.other w text description sourceFile

theorem after : ∀ {s : Shared} {gs : List Grammar} (ms : List Move), Paired gs s →
    ∃ gs', Paired gs' (s.after ms)
  | _, gs, [], h => ⟨gs, h⟩
  | _, _, m :: ms, h => by
    obtain ⟨gs', h'⟩ := h.next m
    exact h'.after ms

end Paired

theorem Deployment.Fresh.paired {d : Deployment} (hd : d.Fresh) {st : Store}
    (hst : d.service.store = some st) : Paired [] d.shared := by
  obtain ⟨hsaved, hrules, hversions⟩ := hd.store st hst
  have hkept : d.shared.reader.kept = none := hd.kept
  refine ⟨⟨st, hst, hsaved, by rw [hversions]; rfl, hrules⟩, nofun, fun g v h => ?_, nofun,
    fun _ _ hne => absurd hd.version hne, nofun, nofun⟩
  rw [hkept] at h
  cases h

theorem Paired.alike_last {gs : List Grammar} {s : Shared} {st : Store} (h : Paired gs s)
    (hst : s.service.store = some st) (hidle : s.phase = .idle) (hcrossed : s.crossed = false)
    (hversion : s.service.version = st.latest) (hlatest : st.latest ≠ 0) :
    ∃ k, gs.getLast? = some k ∧ s.service.grammar.Alike k := by
  have hv := h.settled (by simp [hidle]) hcrossed (hversion ▸ hlatest)
  rw [hversion, (h.stored hst).latest] at hv
  exact hv.of_length

/-- **A service that has the newest version in use has its grammar in use**, whatever steps of its
    own and of other processes came before in whatever order, as long as no update is on its way.
    The store holds the rows of the grammar in use, and what can be read from it says the same;
    unless another process committed a grammar between the commit of the update that put the grammar
    into use and its reading of the version. -/
theorem stored_in_use (start : Deployment) (hstart : start.Fresh) (st₀ : Store)
    (hstore : start.service.store = some st₀) (ms : List Move) (s : Shared)
    (hs : start.shared.after ms = s) (st : Store) (hst : s.service.store = some st)
    (hidle : s.phase = .idle) (hversion : s.service.version = st.latest) (hlatest : st.latest ≠ 0)
    (hcrossed : s.crossed = false) :
    st.tables.rules = s.service.grammar.toRows ∧
      ∀ g, ofRows st.storedRules = .ok (some g) → g.Alike s.service.grammar := by
  obtain ⟨gs, hpaired⟩ := (hstart.paired hstore).after ms
  rw [hs] at hpaired
  obtain ⟨k, hlast, halike⟩ := hpaired.alike_last hst hidle hcrossed hversion hlatest
  refine ⟨by rw [(hpaired.stored hst).rules, hlast, halike.toRows]; rfl, fun g hrows => ?_⟩
  obtain ⟨k', hlast', halike'⟩ := (hpaired.stored hst).alike_of_ofRows hpaired.readable hrows
  cases hlast.symm.trans hlast'
  exact halike'.trans halike.symm

theorem fresh_storing (plan : Store.Plan) : Deployment.Fresh ⟨storing plan, {}⟩ := by
  refine ⟨rfl, rfl, ?_⟩
  rintro st ⟨⟩
  exact ⟨rfl, rfl, rfl⟩

/-- A synchronisation reads while an update is on its way, and installs its answer only after another
    process has migrated and a second synchronisation has read. -/
def woven : Shared := (Deployment.shared ⟨storing [], {}⟩).after
  [.commit "<program> -> b" [], .active, .number, .use, .other .bare "<program> -> c" [] [], .active,
    .install 0, .install 0]

theorem stored_in_use_woven : ∃ st, woven.service.store = some st ∧ woven.service.version = 2 ∧
    st.tables.rules = woven.service.grammar.toRows := by
  have hsome : woven.service.store.isSome := by decide +kernel
  obtain ⟨st, hst⟩ := Option.isSome_iff_exists.1 hsome
  have hlatest : woven.service.store.map Store.latest = some 2 := by decide +kernel
  rw [hst] at hlatest
  have hlatest : st.latest = 2 := Option.some.inj hlatest
  have hversion : woven.service.version = 2 := by decide +kernel
  refine ⟨st, hst, hversion, ?_⟩
  exact (stored_in_use _ (fresh_storing []) _ rfl _ woven rfl st hst (by decide +kernel)
    (by rw [hversion, hlatest]) (by rw [hlatest]; decide) (by decide +kernel)).1

/-- Another process commits a grammar between the commit of an update and its reading of the version,
    and a synchronisation follows. -/
def crossing : Shared := (Deployment.shared ⟨storing [], {}⟩).after
  [.commit "<program> -> b" [], .other .bare "<program> -> c" [] [], .number, .use, .active, .install 0]

/-- Then the newest version is in use, but not its grammar, and the synchronisation mends nothing. -/
theorem crossing_not_mended : ¬ ∀ (start : Deployment), start.Fresh → ∀ st₀,
    start.service.store = some st₀ → ∀ (ms : List Move) (s : Shared), start.shared.after ms = s →
    ∀ st, s.service.store = some st → s.phase = .idle → s.pending = [] →
    s.service.version = st.latest → st.latest ≠ 0 →
    st.tables.rules = s.service.grammar.toRows := by
  intro hall
  have hsome : crossing.service.store.isSome := by decide +kernel
  obtain ⟨st, hst⟩ := Option.isSome_iff_exists.1 hsome
  have hlatest : crossing.service.store.map Store.latest = some 2 := by decide +kernel
  have hrules : crossing.service.store.map (fun st => st.tables.rules) ≠
      some crossing.service.grammar.toRows := by decide +kernel
  have hversion : crossing.service.version = 2 := by decide +kernel
  rw [hst] at hlatest hrules
  have hlatest : st.latest = 2 := Option.some.inj hlatest
  exact hrules (congrArg some (hall _ (fresh_storing []) _ rfl _ crossing rfl st hst
    (by decide +kernel) (by decide +kernel) (by rw [hversion, hlatest]) (by rw [hlatest]; decide)))

end JavaToCpp.Service
