/-
  The cache does not change what is answered.
-/
import JavaToCpp.Proofs.Chart.Renumber
import JavaToCpp.Proofs.Service.Update
import JavaToCpp.Proofs.Text.Percent
import JavaToCpp.Service.Submit

namespace JavaToCpp

open List Grammar

/-! ## Digests -/

namespace Text

theorem ofHex?_hex (t : Text) : ofHex? (hex t) = some t := by
  induction t with
  | nil => rfl
  | cons b t ih =>
    have hcons : hex (b :: t) = hexDigit (b.toNat / 16) :: hexDigit b.toNat :: hex t := rfl
    have hb : UInt8.ofNat (b.toNat / 16 % 16 * 16 + b.toNat % 16) = b := by
      have hlt := b.toNat_lt
      rw [Nat.mod_eq_of_lt (by omega : b.toNat / 16 < 16), Nat.div_add_mod', UInt8.ofNat_toNat]
    rw [hcons, ofHex?, hexValue?_hexDigit, hexValue?_hexDigit, ih]
    simp only [bind, Option.bind_some, pure, hb]

theorem hex_injective {t u : Text} (h : hex t = hex u) : t = u := by
  have hread := congrArg ofHex? h
  rw [ofHex?_hex, ofHex?_hex] at hread
  exact Option.some.inj hread

end Text

/-! ## Outcomes -/

theorem Pipeline.run_eq {g h : Grammar} (hg : g.WellFormed) (hh : h.WellFormed)
    (hgh : g.SameRules h) (checked : Bool) (source : Text) :
    Pipeline.run g checked source = Pipeline.run h checked source := by
  have htokens (g : Grammar) (ts : List Token) : (Chart.ofTokens g ts).tokens = ts := rfl
  unfold Pipeline.run chart
  cases tokens source with
  | error e => simp only [Except.map, bind, Except.bind]
  | ok ts =>
    obtain ⟨hsets, hsize, hrejection, htree⟩ := Chart.answers_eq hg hh hgh ts
    simp only [Except.map, bind, Except.bind, treeOf, hsets, hsize, hrejection, htree, htokens]

namespace Service

variable {g : Grammar} {key source : Text} {checked cached : Bool} {o : Outcome} {f : Pipeline.Fault}
  {jobs : List Job} {c : Call}

/-- **The outcome of a run depends on the rule text of the grammar only.** -/
theorem Outcome.run_eq {h : Grammar} (hg : Loaded g) (hh : Loaded h)
    (hrender : g.render = h.render) (source : Text) (checked : Bool) :
    Outcome.run g source checked = Outcome.run h source checked := by
  obtain ⟨text, hg⟩ := hg
  obtain ⟨text', hh⟩ := hh
  have halike : g.Alike h :=
    alike_of_render (load_readable hg) (load_readable hh) hrender
  rw [Outcome.run, Outcome.run,
    Pipeline.run_eq (load_wellFormed hg) (load_wellFormed hh) halike.sameRules]

variable {s p : Service} {now : Timestamp} {sub : Submission} {fresh : Uuid}

theorem outcome_of_some (hget : s.cache.get? now key = some o) :
    (outcome now key source checked).run s = (.ok (o.reread, true), s) := by
  rw [outcome, run_get_bind, hget]
  rfl

theorem outcome_of_ok
    (hget : s.cache.get? now key = none) (hrun : Outcome.run s.grammar source checked = .ok o) :
    (outcome now key source checked).run s =
      (.ok (o.reread, false), { s with cache := s.cache.set now key o }) := by
  rw [outcome, run_get_bind, hget]
  simp only [hrun]
  rw [run_lift_bind]
  rfl

theorem outcome_of_error
    (hget : s.cache.get? now key = none) (hrun : Outcome.run s.grammar source checked = .error f) :
    (outcome now key source checked).run s = (.error f, s) := by
  rw [outcome, run_get_bind, hget]
  simp only [hrun]
  rw [run_lift_bind]

/-! ## Calls -/

inductive Call where
  | submit (fresh : Uuid) (now : Timestamp) (sub : Submission)
  | update (text description : Text)
  /-- a synchronisation, with what the source of grammars answers if there is one -/
  | sync (active : Option (Except SourceFailure (Grammar × Int)))

def Call.after (s : Service) : Call → Service
  | submit fresh now sub => ((Service.submit fresh now sub).run s).2
  | update text description => ((Service.update text description).run s).2
  | sync active => ((Service.sync active).run s).2

def after (s : Service) : List Call → Service
  | [] => s
  | c :: cs => after (c.after s) cs

def cleared (s : Service) : Service := { s with cache := { s.cache with entries := [] } }

/-- The service after some calls, when its cache is emptied before each of them. -/
def plainAfter (s : Service) : List Call → Service
  | [] => s
  | c :: cs => plainAfter (c.after s.cleared) cs

/-- What the outcome of a run depends on. -/
structure Job where
  grammar : Text
  source : Text
  checked : Bool
deriving DecidableEq

def Job.identity (j : Job) : Text := Service.identity j.grammar j.source j.checked

def Job.digest (j : Job) : Text := Service.digest j.grammar j.source j.checked

def job (s : Service) (sub : Submission) : Job := ⟨s.grammar.render, sub.source, sub.checked⟩

/-- The run whose identity a call hashes. -/
def Call.hashed (s : Service) : Call → List Job
  | submit _ _ sub => if (examine s.maxBytes sub).isOk then [s.job sub] else []
  | update _ _ => []
  | sync _ => []

def hashed (s : Service) : List Call → List Job
  | [] => []
  | c :: cs => c.hashed s ++ hashed (c.after s) cs

/-! ## What the cache holds -/

/-- What the cache holds are outcomes of the runs. -/
structure Sound (jobs : List Job) (s : Service) : Prop where
  grammar : Loaded s.grammar
  entries : ∀ e ∈ s.cache.entries, ∃ g source checked,
    Loaded g ∧ ⟨g.render, source, checked⟩ ∈ jobs ∧
    e.1 = cacheKey (digest g.render source checked) ∧ Outcome.run g source checked = .ok e.2.value

/-- Runs with one digest are one run. -/
def Apart (jobs : List Job) : Prop := ∀ a ∈ jobs, ∀ b ∈ jobs, a.digest = b.digest → a = b

theorem mem_of_get? {α : Type} {c : Cache α} {v : α} (h : c.get? now key = some v) :
    ∃ e ∈ c.entries, e.1 = key ∧ e.2.value = v := by
  obtain ⟨e, he, rfl⟩ := Option.map_eq_some_iff.1 h
  have he := (Option.filter_eq_some_iff.1 he).1
  exact ⟨e, mem_of_find?_eq_some he, by simpa using find?_some he, rfl⟩

theorem Sound.get? (hs : Sound jobs s) (hapart : ∀ j ∈ jobs, j.digest = (s.job sub).digest → j = s.job sub)
    (h : s.cache.get? now (cacheKey (s.job sub).digest) = some o) :
    Outcome.run s.grammar sub.source sub.checked = .ok o := by
  obtain ⟨e, he, hkey, rfl⟩ := mem_of_get? h
  obtain ⟨g, source, checked, hg, hmem, hkey', hrun⟩ := hs.entries e he
  have hdigest : digest g.render source checked = (s.job sub).digest :=
    append_cancel_left (hkey'.symm.trans hkey)
  have hjob : (⟨g.render, source, checked⟩ : Job) = s.job sub :=
    hapart _ hmem hdigest
  obtain ⟨hrender, rfl, rfl⟩ :
      g.render = s.grammar.render ∧ source = sub.source ∧ checked = sub.checked := by
    simpa [job] using hjob
  rw [← hrun]
  exact Outcome.run_eq hs.grammar hg hrender.symm _ _

/-- The services have the same grammar, version, bound and store, and their archives take records or
    refuse them alike. -/
structure Alongside (s p : Service) : Prop where
  grammar : p.grammar = s.grammar
  version : p.version = s.version
  maxBytes : p.maxBytes = s.maxBytes
  store : p.store = s.store
  createFault : p.archive.createFault = s.archive.createFault

/-- What is answered to a submission: as without a cache, with a note whether the outcome was in the
    cache. -/
def answer (s : Service) (fresh : Uuid) (now : Timestamp) (sub : Submission) (cached : Bool) :
    Except SubmitError Record :=
  match examine s.maxBytes sub with
  | .error e => .error e
  | .ok () =>
    match Outcome.run s.grammar sub.source sub.checked with
    | .error f => .error (.faulty f)
    | .ok o =>
      match s.archive.createFault with
      | some message => .error (.unrecorded message)
      | none => .ok ((recordOf sub (s.job sub).digest o.reread cached).completed fresh now)

theorem answer_eq (h : Alongside s p) (cached : Bool) :
    answer p fresh now sub cached = answer s fresh now sub cached := by
  rw [answer, answer, job, job, h.maxBytes, h.grammar, h.createFault]

theorem answer_of_error {e : SubmitError} (h : examine s.maxBytes sub = .error e) :
    answer s fresh now sub cached = .error e := by
  rw [answer, h]

theorem answer_of_fault (h : examine s.maxBytes sub = .ok ())
    (hrun : Outcome.run s.grammar sub.source sub.checked = .error f) :
    answer s fresh now sub cached = .error (.faulty f) := by
  rw [answer, h, hrun]

theorem answer_of_ok (h : examine s.maxBytes sub = .ok ())
    (hrun : Outcome.run s.grammar sub.source sub.checked = .ok o) :
    answer s fresh now sub cached =
      match s.archive.createFault with
      | some message => .error (.unrecorded message)
      | none => .ok ((recordOf sub (s.job sub).digest o.reread cached).completed fresh now) := by
  rw [answer, h, hrun]

theorem keep_run (s : Service) (r : Record) : (do keep r; return r : Action SubmitError Record).run s =
      match s.archive.createFault with
      | some message => (.error (.unrecorded message), s)
      | none =>
        (.ok r, { s with archive := { s.archive with memory := s.archive.memory.create r } }) := by
  rw [run_bind, keep, run_get_bind]
  cases s.archive.createFault with
  | some message => rfl
  | none => rfl

theorem submit_of_error {e : SubmitError} (h : examine s.maxBytes sub = .error e) :
    (submit fresh now sub).run s = (.error e, s) := by
  rw [submit, run_get_bind, run_lift_bind, h]

theorem submit_of_fault {s₁ : Service} (h : examine s.maxBytes sub = .ok ())
    (hrun : (outcome now (cacheKey (s.job sub).digest) sub.source sub.checked).run s =
      (.error f, s₁)) :
    (submit fresh now sub).run s = (.error (.faulty f), s₁) := by
  have hdigest : digest s.grammar.render sub.source sub.checked = (s.job sub).digest := rfl
  rw [submit, run_get_bind, run_lift_bind, h]
  simp only [hdigest]
  rw [run_bind, run_adapt, hrun]
  rfl

theorem submit_of_outcome {s₁ : Service} (h : examine s.maxBytes sub = .ok ())
    (hrun : (outcome now (cacheKey (s.job sub).digest) sub.source sub.checked).run s =
      (.ok (o, cached), s₁)) :
    (submit fresh now sub).run s =
      let r := (recordOf sub (s.job sub).digest o cached).completed fresh now
      (do keep r; return r : Action SubmitError Record).run s₁ := by
  have hdigest : digest s.grammar.render sub.source sub.checked = (s.job sub).digest := rfl
  rw [submit, run_get_bind, run_lift_bind, h]
  simp only [hdigest]
  rw [run_bind, run_adapt, hrun]
  rfl

/-- **All that a submission changes** is the cache, by the outcome of its run, and the memory, by a
    record. -/
theorem exists_after_submit (s : Service) (fresh : Uuid) (now : Timestamp) (sub : Submission) :
    ∃ cache archive, (Call.submit fresh now sub).after s = { s with cache, archive } ∧
      (cache = s.cache ∨ ∃ o, examine s.maxBytes sub = .ok () ∧
        Outcome.run s.grammar sub.source sub.checked = .ok o ∧
        cache = s.cache.set now (cacheKey (s.job sub).digest) o) ∧
      (archive = s.archive ∨ ∃ r : Record, r.id = fresh ∧
        archive = { s.archive with memory := s.archive.memory.create r }) := by
  rw [Call.after]
  rcases ok_or_error (examine s.maxBytes sub) with ⟨_, hexamine⟩ | ⟨e, hexamine⟩
  · obtain ⟨r, cache, houtcome, hcache⟩ : ∃ r cache,
        (outcome now (cacheKey (s.job sub).digest) sub.source sub.checked).run s = (r, { s with cache }) ∧
        (cache = s.cache ∨ ∃ o, examine s.maxBytes sub = .ok () ∧
          Outcome.run s.grammar sub.source sub.checked = .ok o ∧
          cache = s.cache.set now (cacheKey (s.job sub).digest) o) := by
      cases hget : s.cache.get? now (cacheKey (s.job sub).digest) with
      | some o => exact ⟨_, s.cache, outcome_of_some hget, .inl rfl⟩
      | none =>
        rcases ok_or_error (Outcome.run s.grammar sub.source sub.checked) with ⟨o, hrun⟩ | ⟨f, hrun⟩
        · exact ⟨_, _, outcome_of_ok hget hrun, .inr ⟨o, hexamine, hrun, rfl⟩⟩
        · exact ⟨_, s.cache, outcome_of_error hget hrun, .inl rfl⟩
    rcases r with f | ⟨o, cached⟩
    · rw [submit_of_fault hexamine houtcome]
      exact ⟨cache, s.archive, rfl, hcache, .inl rfl⟩
    · rw [submit_of_outcome hexamine houtcome]
      simp only
      rw [keep_run]
      split
      · exact ⟨cache, s.archive, rfl, hcache, .inl rfl⟩
      · exact ⟨cache, _, rfl, hcache, .inr ⟨_, rfl, rfl⟩⟩
  · rw [submit_of_error hexamine]
    exact ⟨s.cache, s.archive, rfl, .inl rfl, .inl rfl⟩

theorem Alongside.refl (s : Service) : Alongside s s := ⟨rfl, rfl, rfl, rfl, rfl⟩

theorem Alongside.trans {q : Service} (h : Alongside s p) (h' : Alongside p q) : Alongside s q where
  grammar := h'.grammar.trans h.grammar
  version := h'.version.trans h.version
  maxBytes := h'.maxBytes.trans h.maxBytes
  store := h'.store.trans h.store
  createFault := h'.createFault.trans h.createFault

theorem Alongside.symm (h : Alongside s p) : Alongside p s :=
  ⟨h.grammar.symm, h.version.symm, h.maxBytes.symm, h.store.symm, h.createFault.symm⟩

theorem alongside_submit (s : Service) (fresh : Uuid) (now : Timestamp) (sub : Submission) :
    Alongside s ((Call.submit fresh now sub).after s) := by
  obtain ⟨cache, archive, hafter, -, harchive⟩ := exists_after_submit s fresh now sub
  rw [hafter]
  rcases harchive with rfl | ⟨r, -, rfl⟩
  · exact ⟨rfl, rfl, rfl, rfl, rfl⟩
  · exact ⟨rfl, rfl, rfl, rfl, rfl⟩

theorem Sound.mono {jobs' : List Job} (hs : Sound jobs s) (h : jobs ⊆ jobs') : Sound jobs' s where
  grammar := hs.grammar
  entries e he := by
    obtain ⟨g, source, checked, hg, hmem, hrest⟩ := hs.entries e he
    exact ⟨g, source, checked, hg, h hmem, hrest⟩

theorem Sound.set (hs : Sound jobs s) (hrun : Outcome.run s.grammar sub.source sub.checked = .ok o) :
    Sound (jobs ++ [s.job sub])
      { s with cache := s.cache.set now (cacheKey (s.job sub).digest) o } where
  grammar := hs.grammar
  entries e he := by
    rcases mem_cons.1 he with rfl | he
    · exact ⟨s.grammar, sub.source, sub.checked, hs.grammar,
        mem_append_right _ mem_cons_self, rfl, hrun⟩
    · exact (hs.mono (subset_append_left _ _)).entries e (mem_of_mem_filter he)

def hit (s : Service) (now : Timestamp) (sub : Submission) : Bool :=
  (s.cache.get? now (cacheKey (s.job sub).digest)).isSome

/-- The cache after a submission whose run has this outcome. -/
def noted (s : Service) (now : Timestamp) (sub : Submission) (o : Outcome) : Cache Outcome :=
  if s.hit now sub then s.cache else s.cache.set now (cacheKey (s.job sub).digest) o

theorem outcome_of_run (hrun : Outcome.run s.grammar sub.source sub.checked = .ok o)
    (hget : ∀ o' ∈ s.cache.get? now (cacheKey (s.job sub).digest), o' = o) :
    (outcome now (cacheKey (s.job sub).digest) sub.source sub.checked).run s =
      (.ok (o.reread, s.hit now sub), { s with cache := s.noted now sub o }) := by
  rw [noted, hit]
  cases hcached : s.cache.get? now (cacheKey (s.job sub).digest) with
  | some o' =>
    obtain rfl := hget o' hcached
    exact outcome_of_some hcached
  | none => exact outcome_of_ok hcached hrun

theorem sound_submit (hs : Sound jobs s) (hapart : Apart (jobs ++ (Call.submit fresh now sub).hashed s)) :
    ((submit fresh now sub).run s).1 = answer s fresh now sub (s.hit now sub) := by
  rcases ok_or_error (examine s.maxBytes sub) with ⟨_, hexamine⟩ | ⟨e, hexamine⟩
  · have hhashed : (Call.submit fresh now sub).hashed s = [s.job sub] := by
      rw [Call.hashed, hexamine]
      rfl
    have hget : ∀ o ∈ s.cache.get? now (cacheKey (s.job sub).digest),
        Outcome.run s.grammar sub.source sub.checked = .ok o := by
      rw [hhashed] at hapart
      exact fun o => hs.get? fun j hj => hapart j (mem_append_left _ hj) _ (by simp)
    rcases ok_or_error (Outcome.run s.grammar sub.source sub.checked) with ⟨o, hrun⟩ | ⟨f, hrun⟩
    · have houtcome := outcome_of_run hrun fun o' ho' => Except.ok.inj ((hget o' ho').symm.trans hrun)
      rw [submit_of_outcome hexamine houtcome, answer_of_ok hexamine hrun]
      simp only
      rw [keep_run]
      cases s.archive.createFault with
      | some message => rfl
      | none => rfl
    · have hmiss : s.cache.get? now (cacheKey (s.job sub).digest) = none := by
        refine Option.eq_none_iff_forall_not_mem.2 fun o ho => ?_
        cases hrun.symm.trans (hget o ho)
      rw [submit_of_fault hexamine (outcome_of_error hmiss hrun), answer_of_fault hexamine hrun]
  · rw [submit_of_error hexamine, answer_of_error hexamine]

/-! ## Changes of the grammar -/

/-- The action changes the grammar, the version and the store only, whatever the cache and the
    archive are, and the grammar in use is the old one or was read from a text. -/
def Frames {ε α : Type} (a : Action ε α) (s : Service) : Prop :=
  ∃ (r : Except ε α) (g : Grammar) (version : Int) (store : Option Store),
    (g = s.grammar ∨ Loaded g) ∧ ∀ cache archive, a.run { s with cache, archive } =
      (r, { s with cache, archive, grammar := g, version, store })

theorem frames_updateCounted (s : Service) (hg : Loaded g) : Frames (updateCounted g) s := by
  cases hdiff : (Diff.between (some s.grammar) (some g)).isEmpty with
  | true =>
    exact ⟨.ok ⟨s.version, _, _⟩, s.grammar, s.version, s.store, .inl rfl,
      fun cache archive => updateCounted_of_empty (s := { s with cache, archive }) hdiff⟩
  | false =>
    exact ⟨.ok ⟨s.version + 1, (Diff.between (some s.grammar) (some g)).describe, true⟩, g,
      s.version + 1, s.store, .inr hg,
      fun cache archive => updateCounted_of_nonempty (s := { s with cache, archive }) hdiff⟩

theorem frames_updateStored (s : Service) (st : Store) (hg : Loaded g)
    (description : Text) : Frames (updateStored st g description) s := by
  rcases happly : (Migration.apply wording g description "api").run st with ⟨f | _ | diff, st₁⟩
  · exact ⟨_, s.grammar, s.version, _, .inl rfl, fun _ _ => updateStored_of_error happly _⟩
  · exact ⟨.ok ⟨s.version, _, _⟩, s.grammar, s.version, some st₁, .inl rfl,
      fun cache archive => updateStored_of_none happly { s with cache, archive }⟩
  · rcases hversion : Store.version.run st₁ with ⟨e | v, st₂⟩
    · exact ⟨_, s.grammar, 0, _, .inl rfl, fun _ _ => updateStored_of_lost happly hversion _⟩
    · exact ⟨_, g, v, _, .inr hg, fun _ _ => updateStored_of_ok happly hversion _⟩

theorem frames_update (s : Service) (text description : Text) : Frames (update text description) s := by
  rcases ok_or_error (readGrammar text) with ⟨g, hread⟩ | ⟨e, hread⟩
  · have hg : Loaded g := ⟨text, load_of_readGrammar hread⟩
    cases hstore : s.store with
    | some st =>
      obtain ⟨r, g', version, store, hg', hrun⟩ := frames_updateStored s st hg description
      refine ⟨r, g', version, store, hg', fun cache archive => ?_⟩
      rw [update_of_some (s := { s with cache, archive }) hread hstore, hrun]
    | none =>
      obtain ⟨r, g', version, store, hg', hrun⟩ := frames_updateCounted s hg
      refine ⟨r, g', version, store, hg', fun cache archive => ?_⟩
      rw [update_of_none (s := { s with cache, archive }) hread hstore, hrun]
  · exact ⟨.error e, s.grammar, s.version, s.store, .inl rfl, fun _ _ => update_of_error hread⟩

theorem frames_sync (s : Service) {active : Option (Except SourceFailure (Grammar × Int))}
    (hactive : ∀ g version, active = some (.ok (g, version)) → Loaded g) : Frames (sync active) s := by
  match active with
  | some (.ok (g, version)) =>
    have hrun (cache : Cache Outcome) (archive : Archive) : (sync (some (.ok (g, version)))).run
        { s with cache, archive } = (.ok (), install g version { s with cache, archive }) := rfl
    by_cases hversion : version = s.version
    · refine ⟨.ok (), s.grammar, s.version, s.store, .inl rfl, fun cache archive => ?_⟩
      rw [hrun, install, if_pos hversion]
    · refine ⟨.ok (), g, version, s.store, .inr (hactive g version rfl), fun cache archive => ?_⟩
      rw [hrun, install, if_neg hversion]
  | none | some (.error .none) =>
    exact ⟨.ok (), s.grammar, s.version, s.store, .inl rfl, fun _ _ => rfl⟩
  | some (.error (.invalid e)) =>
    exact ⟨.error (.invalid e), s.grammar, s.version, s.store, .inl rfl, fun _ _ => rfl⟩
  | some (.error (.failed message)) =>
    exact ⟨.error (.failed message), s.grammar, s.version, s.store, .inl rfl, fun _ _ => rfl⟩

theorem Frames.alongside {ε α : Type} {a : Action ε α} (h : Frames a s) (hp : Alongside s p) :
    Alongside (a.run s).2 (a.run p).2 := by
  obtain ⟨r, g, version, store, -, hrun⟩ := h
  have heq : p = { s with cache := p.cache, archive := p.archive } := by
    obtain ⟨hgrammar, hversion, hmaxBytes, hstore, -⟩ := hp
    rw [← hgrammar, ← hversion, ← hmaxBytes, ← hstore]
  rw [show a.run s = _ from hrun s.cache s.archive, heq, hrun]
  exact ⟨rfl, rfl, rfl, rfl, hp.createFault⟩

/-! ## Sequences of calls -/

/-- A grammar that a source gives to the service was read from a text. -/
def Call.Supplied : Call → Prop
  | sync (some (.ok (g, _))) => Loaded g
  | _ => True

theorem alongside_cleared (h : Alongside s p) : Alongside s p.cleared :=
  ⟨h.grammar, h.version, h.maxBytes, h.store, h.createFault⟩

theorem Sound.cleared (hs : Sound jobs s) (h : Alongside s p) : Sound [] p.cleared :=
  ⟨h.grammar ▸ hs.grammar, nofun⟩

theorem eq_of_mem_hashed {j : Job} (h : j ∈ (Call.submit fresh now sub).hashed s) : j = s.job sub := by
  rw [Call.hashed] at h
  split at h
  · exact mem_singleton.1 h
  · cases h

theorem apart_hashed (s : Service) (fresh : Uuid) (now : Timestamp) (sub : Submission) :
    Apart ([] ++ (Call.submit fresh now sub).hashed s) := by
  intro a ha b hb _
  rw [nil_append] at ha hb
  rw [eq_of_mem_hashed ha, eq_of_mem_hashed hb]

theorem Call.Supplied.frames {active : Option (Except SourceFailure (Grammar × Int))}
    (h : (Call.sync active).Supplied) (s : Service) : Frames (Service.sync active) s :=
  frames_sync s fun g version hactive => by
    subst hactive
    exact h

theorem frames_call (hc : c.Supplied) (s : Service) :
    (∃ fresh now sub, c = .submit fresh now sub) ∨ c.hashed s = [] ∧
      ∃ (g : Grammar) (version : Int) (store : Option Store), (g = s.grammar ∨ Loaded g) ∧
        c.after s = { s with grammar := g, version, store } := by
  have hafter {ε α : Type} {a : Action ε α} (h : Frames a s) :
      ∃ (g : Grammar) (version : Int) (store : Option Store), (g = s.grammar ∨ Loaded g) ∧
        (a.run s).2 = { s with grammar := g, version, store } := by
    obtain ⟨r, g, version, store, hg, hrun⟩ := h
    refine ⟨g, version, store, hg, ?_⟩
    rw [show a.run s = _ from hrun s.cache s.archive]
  cases c with
  | submit fresh now sub => exact .inl ⟨fresh, now, sub, rfl⟩
  | update text description => exact .inr ⟨rfl, hafter (frames_update s text description)⟩
  | sync active => exact .inr ⟨rfl, hafter (hc.frames s)⟩

theorem sound_call (hc : c.Supplied) (hs : Sound jobs s) : Sound (jobs ++ c.hashed s) (c.after s) := by
  rcases frames_call hc s with ⟨fresh, now, sub, rfl⟩ | ⟨hhashed, g, version, store, hg, hafter⟩
  · obtain ⟨cache, archive, hafter, hcache, -⟩ := exists_after_submit s fresh now sub
    rw [hafter]
    rcases hcache with rfl | ⟨o, hexamine, hrun, rfl⟩
    · exact ⟨hs.grammar, (hs.mono (subset_append_left _ _)).entries⟩
    · have hhashed : (Call.submit fresh now sub).hashed s = [s.job sub] := by
        rw [Call.hashed, hexamine]
        rfl
      rw [hhashed]
      exact ⟨hs.grammar, (hs.set hrun).entries⟩
  · rw [hhashed, append_nil, hafter]
    refine ⟨?_, hs.entries⟩
    rcases hg with rfl | hg
    · exact hs.grammar
    · exact hg

theorem sound_after {cs : List Call} (hcs : ∀ c ∈ cs, c.Supplied) (hs : Sound jobs s) :
    Sound (jobs ++ hashed s cs) (after s cs) := by
  induction cs generalizing s jobs with
  | nil => simpa [hashed, after] using hs
  | cons c cs ih =>
    obtain ⟨hc, hcs⟩ := forall_mem_cons.1 hcs
    rw [hashed, ← append_assoc]
    exact ih hcs (sound_call hc hs)

theorem alongside_call (hc : c.Supplied) (hp : Alongside s p) :
    Alongside (c.after s) (c.after p.cleared) := by
  have hcleared := alongside_cleared hp
  cases c with
  | submit fresh now sub =>
    exact (alongside_submit s fresh now sub).symm.trans
      (hcleared.trans (alongside_submit p.cleared fresh now sub))
  | update text description => exact (frames_update s text description).alongside hcleared
  | sync active => exact (hc.frames s).alongside hcleared

theorem alongside_after {cs : List Call} (hcs : ∀ c ∈ cs, c.Supplied) (hp : Alongside s p) :
    Alongside (after s cs) (plainAfter p cs) := by
  induction cs generalizing s p with
  | nil => exact hp
  | cons c cs ih =>
    obtain ⟨hc, hcs⟩ := forall_mem_cons.1 hcs
    exact ih hcs (alongside_call hc hp)

/-- The answers are the same error, or the same record up to the note whether the outcome was in the
    cache. -/
inductive Agree (cached : Bool) : Except SubmitError Record → Except SubmitError Record → Prop
  | refused {e : SubmitError} : Agree cached (.error e) (.error e)
  | recorded {r : Record} {stats : Json.Map} :
      r.stats = some (Json.put "cached" (.bool false) stats) →
      Agree cached (.ok { r with stats := some (Json.put "cached" (.bool cached) stats) }) (.ok r)

theorem agree_answer (s : Service) (fresh : Uuid) (now : Timestamp) (sub : Submission)
    (cached : Bool) : Agree cached (answer s fresh now sub cached) (answer s fresh now sub false) := by
  rcases ok_or_error (examine s.maxBytes sub) with ⟨_, hexamine⟩ | ⟨e, hexamine⟩
  · rcases ok_or_error (Outcome.run s.grammar sub.source sub.checked) with ⟨o, hrun⟩ | ⟨f, hrun⟩
    · rw [answer_of_ok hexamine hrun, answer_of_ok hexamine hrun]
      cases s.archive.createFault with
      | some message => exact .refused
      | none =>
        have hstats : ((recordOf sub (s.job sub).digest o.reread false).completed fresh now).stats =
            some (Json.put "cached" (.bool false) o.reread.stats) := rfl
        exact .recorded hstats
    · rw [answer_of_fault hexamine hrun, answer_of_fault hexamine hrun]
      exact .refused
  · rw [answer_of_error hexamine, answer_of_error hexamine]
    exact .refused

theorem hashed_append : ∀ (s : Service) (cs : List Call) (c : Call),
    hashed s (cs ++ [c]) = hashed s cs ++ c.hashed (after s cs)
  | s, [], c => by simp [hashed, after]
  | s, c' :: cs, c => by
    rw [cons_append, hashed, hashed_append, hashed, after, append_assoc]

/-- **The cached answers are the plain ones.** If the hash tells the identities of the runs apart,
    and the identities tell the runs apart, then after any calls a submission is answered as it is
    when the cache is emptied before every call: with the same error, or with the same record but
    for the note whether its outcome was in the cache, which is about this submission alone. -/
theorem cached_answers_plain (s : Service) (hempty : s.cache.entries = [])
    (hgrammar : Loaded s.grammar) (done : List Call) (hdone : ∀ c ∈ done, c.Supplied)
    (fresh : Uuid) (now : Timestamp) (sub : Submission)
    (hhash : ∀ a ∈ hashed s (done ++ [.submit fresh now sub]),
      ∀ b ∈ hashed s (done ++ [.submit fresh now sub]),
        Hash.Blake2b.digest a.identity = Hash.Blake2b.digest b.identity → a.identity = b.identity)
    (hidentity : ∀ a ∈ hashed s (done ++ [.submit fresh now sub]),
      ∀ b ∈ hashed s (done ++ [.submit fresh now sub]), a.identity = b.identity → a = b) :
    Agree ((after s done).hit now sub) ((submit fresh now sub).run (after s done)).1
      ((submit fresh now sub).run (plainAfter s done).cleared).1 := by
  have hapart : Apart (hashed s (done ++ [.submit fresh now sub])) := fun a ha b hb hdigest =>
    hidentity a ha b hb (hhash a ha b hb (Text.hex_injective hdigest))
  rw [hashed_append] at hapart
  have hsound : Sound [] s := ⟨hgrammar, by simp [hempty]⟩
  have hs : Sound ([] ++ hashed s done) (after s done) := sound_after hdone hsound
  have hp := alongside_after hdone (.refl s)
  have hplain := sound_submit (hs.cleared hp) (apart_hashed _ fresh now sub)
  have hmiss : (plainAfter s done).cleared.hit now sub = false := rfl
  rw [hmiss, answer_eq (alongside_cleared hp)] at hplain
  rw [hplain, sound_submit hs hapart]
  exact agree_answer _ _ _ _ _

/-- Two alternatives of the start symbol, with the rules of another symbol between them. -/
def scattered : Grammar := .ofAlternatives
  [("<program>", ["A"]), ("A", ["num"]), ("<program>", ["B"]), ("B", ["num"])]

/-- The same with the alternatives side by side. -/
def gathered : Grammar := .ofAlternatives
  [("<program>", ["A"]), ("<program>", ["B"]), ("A", ["num"]), ("B", ["num"])]

theorem load_scattered : Loaded scattered :=
  ⟨"<program> -> A\nA -> num\n<program> -> B\nB -> num\n", by decide +kernel⟩

theorem load_gathered : Loaded gathered :=
  ⟨"<program> -> A | B\nA -> num\nB -> num\n", by decide +kernel⟩

def sample : Service :=
  { grammar := scattered, cache := { span := 0 }, archive := { memory := {} } }

def numeral : Submission := { source := "1" }

/-- A source is submitted, and the gathered grammar, with the same rule text, is put into use. -/
def sampleCalls : List Call :=
  [.submit Uuid.nil Timestamp.zero numeral, .sync (some (.ok (gathered, 1)))]

theorem after_sampleCalls : (after sample sampleCalls).grammar = gathered := by
  have halong := alongside_submit sample Uuid.nil Timestamp.zero numeral
  have hinstall : after sample sampleCalls =
      install gathered 1 ((Call.submit Uuid.nil Timestamp.zero numeral).after sample) := rfl
  have hversion : (1 : Int) ≠ sample.version := by decide
  rw [hinstall, install, halong.version, if_neg hversion]

theorem cached_answers_plain_sample : Loaded sample.grammar ∧ sample.grammar ≠ gathered ∧
    Agree ((after sample sampleCalls).hit Timestamp.zero numeral)
      ((submit Uuid.nil Timestamp.zero numeral).run (after sample sampleCalls)).1
      ((submit Uuid.nil Timestamp.zero numeral).run (plainAfter sample sampleCalls).cleared).1 := by
  have hjobs : ∀ j ∈ hashed sample (sampleCalls ++ [.submit Uuid.nil Timestamp.zero numeral]),
      j = sample.job numeral := by
    intro j hj
    rw [hashed_append] at hj
    rcases mem_append.1 hj with hj | hj
    · have hcalls : hashed sample sampleCalls =
          (Call.submit Uuid.nil Timestamp.zero numeral).hashed sample ++ [] := rfl
      rw [hcalls, append_nil] at hj
      exact eq_of_mem_hashed hj
    · rw [eq_of_mem_hashed hj, job, after_sampleCalls]
      decide +kernel
  refine ⟨load_scattered, by decide, cached_answers_plain sample rfl load_scattered sampleCalls ?_
    Uuid.nil Timestamp.zero numeral ?_ ?_⟩
  · simp [sampleCalls, Call.Supplied, load_gathered]
  · intro a ha b hb _
    rw [hjobs a ha, hjobs b hb]
  · intro a ha b hb _
    rw [hjobs a ha, hjobs b hb]

end Service

end JavaToCpp
