/-
  Submissions that overlap.

  A submission computes its digest with the grammar in use, asks the cache, runs on a miss with the
  grammar that is in use then, stores the outcome and is recorded.  Between any two of these steps
  other submissions take theirs, and the grammar is swapped.
-/
import JavaToCpp.Proofs.Pipeline.Total
import JavaToCpp.Proofs.Service.Cached

namespace JavaToCpp.Service

open List Java.Label

/-! ## Steps -/

/-- How far a submission has come. -/
inductive Progress where
  /-- its digest is computed -/
  | keyed
  /-- the cache does not have its outcome -/
  | missed
  /-- it has run -/
  | ran (o : Outcome)
  /-- its outcome is in the cache, from before or from itself -/
  | found (o : Outcome) (cached : Bool)
  | answered (r : Except SubmitError Record)

structure Flight where
  sub : Submission
  digest : Text
  progress : Progress

inductive Leg where
  | look (now : Timestamp)
  | run
  | store (now : Timestamp)
  | record (fresh : Uuid) (now : Timestamp)

namespace Flight

/-- The first step of a submission: it is examined, and its digest is computed. -/
def start (s : Service) (sub : Submission) : Flight where
  sub
  digest := Service.digest s.grammar.render sub.source sub.checked
  progress :=
    match examine s.maxBytes sub with
    | .ok () => .keyed
    | .error e => .answered (.error e)

def advance (f : Flight) (p : Progress) : Flight := { f with progress := p }

/-- The same submission after it has run. -/
def settle (f : Flight) : Except Pipeline.Fault Outcome → Flight
  | .ok o => f.advance (.ran o)
  | .error e => f.advance (.answered (.error (.faulty e)))

/-- A step of a submission, and the service after it.  A step that is not its next one changes
    nothing. -/
def next (s : Service) (f : Flight) (m : Leg) : Service × Flight :=
  match f.progress, m with
  | .keyed, .look now =>
    match s.cache.get? now (cacheKey f.digest) with
    | some o => (s, f.advance (.found o.reread true))
    | none => (s, f.advance .missed)
  | .missed, .run => (s, f.settle (Outcome.run s.grammar f.sub.source f.sub.checked))
  | .ran o, .store now =>
    ({ s with cache := s.cache.set now (cacheKey f.digest) o }, f.advance (.found o.reread false))
  | .found o cached, .record fresh now =>
    let r := (recordOf f.sub f.digest o cached).completed fresh now
    let answer := (do keep r; return r : Service.Action SubmitError Record).run s
    (answer.2, f.advance (.answered answer.1))
  | _, _ => (s, f)

end Flight

/-- The service with the submissions on their way. -/
structure Traffic where
  service : Service
  flights : List Flight := []

inductive Act where
  | start (sub : Submission)
  /-- the `i`-th submission takes a step -/
  | leg (i : Nat) (m : Leg)
  | swap (g : Grammar)
  | cleanup (now : Timestamp)

namespace Traffic

def next (t : Traffic) : Act → Traffic
  | .start sub => { t with flights := t.flights ++ [.start t.service sub] }
  | .leg i m =>
    match t.flights[i]? with
    | some f => ⟨(f.next t.service m).1, t.flights.set i (f.next t.service m).2⟩
    | none => t
  | .swap g => { t with service := ((setGrammar g).run t.service).2 }
  | .cleanup now => { t with service := { t.service with cache := t.service.cache.cleanup now } }

def after (t : Traffic) (acts : List Act) : Traffic := acts.foldl next t

end Traffic

/-! ## The steps in a row -/

def inRow (sub : Submission) (fresh : Uuid) (now : Timestamp) (i : Nat) : List Act :=
  [.start sub, .leg i (.look now), .leg i .run, .leg i (.store now), .leg i (.record fresh now)]

variable {s : Service} {sub : Submission} {fresh : Uuid} {now : Timestamp} {f : Flight} {t : Traffic}

theorem next_last (s : Service) (fs : List Flight) (f : Flight) (m : Leg) :
    Traffic.next ⟨s, fs ++ [f]⟩ (.leg fs.length m) =
      ⟨(f.next s m).1, fs ++ [(f.next s m).2]⟩ := by
  simp [Traffic.next]

section Legs

variable {d : Text} {o : Outcome}

theorem next_found (h : s.cache.get? now (cacheKey d) = some o) :
    Flight.next s ⟨sub, d, .keyed⟩ (.look now) = (s, ⟨sub, d, .found o.reread true⟩) := by
  simp only [Flight.next, Flight.advance, h]

theorem next_missed (h : s.cache.get? now (cacheKey d) = none) :
    Flight.next s ⟨sub, d, .keyed⟩ (.look now) = (s, ⟨sub, d, .missed⟩) := by
  simp only [Flight.next, Flight.advance, h]

theorem next_run {r : Except Pipeline.Fault Outcome}
    (h : Outcome.run s.grammar sub.source sub.checked = r) :
    Flight.next s ⟨sub, d, .missed⟩ .run = (s, Flight.settle ⟨sub, d, .missed⟩ r) := by
  subst h
  rfl

theorem next_store (s : Service) (now : Timestamp) : Flight.next s ⟨sub, d, .ran o⟩ (.store now) =
      ({ s with cache := s.cache.set now (cacheKey d) o }, ⟨sub, d, .found o.reread false⟩) :=
  rfl

theorem next_record (s : Service) (cached : Bool) (fresh : Uuid) (now : Timestamp) :
    Flight.next s ⟨sub, d, .found o cached⟩ (.record fresh now) =
      let r := (recordOf sub d o cached).completed fresh now
      let answer := (do keep r; return r : Action SubmitError Record).run s
      (answer.2, ⟨sub, d, .answered answer.1⟩) :=
  rfl

theorem next_answered (s : Service) (r : Except SubmitError Record) (m : Leg) :
    Flight.next s ⟨sub, d, .answered r⟩ m = (s, ⟨sub, d, .answered r⟩) :=
  rfl

theorem next_found_run (s : Service) (cached : Bool) :
    Flight.next s ⟨sub, d, .found o cached⟩ .run = (s, ⟨sub, d, .found o cached⟩) :=
  rfl

theorem next_found_store (s : Service) (cached : Bool) (now : Timestamp) :
    Flight.next s ⟨sub, d, .found o cached⟩ (.store now) = (s, ⟨sub, d, .found o cached⟩) :=
  rfl

end Legs

/-- **The steps of a submission in a row** are `submit`, with the same answer and the same service
    after it. -/
theorem submit_eq (t : Traffic) (sub : Submission) (fresh : Uuid) (now : Timestamp) :
    t.after (inRow sub fresh now t.flights.length) =
      ⟨((submit fresh now sub).run t.service).2, t.flights ++
        [(Flight.start t.service sub).advance (.answered ((submit fresh now sub).run t.service).1)]⟩ := by
  obtain ⟨s, fs⟩ := t
  have hnext : Traffic.next ⟨s, fs⟩ (.start sub) = ⟨s, fs ++ [Flight.start s sub]⟩ := by
    rw [Traffic.next]
  have hdigest : digest s.grammar.render sub.source sub.checked = (s.job sub).digest := by
    rw [job, Job.digest]
  simp only [Traffic.after, inRow, foldl_cons, foldl_nil, hnext, next_last]
  rcases ok_or_error (examine s.maxBytes sub) with ⟨_, hexamine⟩ | ⟨e, hexamine⟩
  · have hstart : Flight.start s sub = ⟨sub, (s.job sub).digest, .keyed⟩ := by
      rw [Flight.start, hexamine, hdigest]
    rw [hstart]
    cases hget : s.cache.get? now (cacheKey (s.job sub).digest) with
    | some o =>
      rw [submit_of_outcome hexamine (outcome_of_some hget), next_found hget]
      simp only [next_found_run, next_found_store, next_record, Flight.advance]
    | none =>
      rw [next_missed hget]
      rcases ok_or_error (Outcome.run s.grammar sub.source sub.checked) with ⟨o, hrun⟩ | ⟨f, hrun⟩
      · rw [submit_of_outcome hexamine (outcome_of_ok hget hrun), next_run hrun]
        simp only [Flight.settle, Flight.advance, next_store, next_record]
      · rw [submit_of_fault hexamine (outcome_of_error hget hrun), next_run hrun]
        simp only [Flight.settle, Flight.advance, next_answered]
  · have hstart : Flight.start s sub = ⟨sub, (s.job sub).digest, .answered (.error e)⟩ := by
      rw [Flight.start, hexamine, hdigest]
    rw [hstart, submit_of_error hexamine]
    simp only [Flight.advance, next_answered]

/-! ## Where entries come from -/

/-- What a step of a submission can do: it changes nothing of the submission but its progress, it
    runs with the grammar in use, and it stores what the submission ran to. -/
structure Flies (s : Service) (f : Flight) (m : Leg) (s' : Service) (f' : Flight) : Prop where
  sub : f'.sub = f.sub
  digest : f'.digest = f.digest
  grammar : s'.grammar = s.grammar
  ran : ∀ o, f'.progress = .ran o → f.progress = .ran o ∨
    m = .run ∧ Outcome.run s.grammar f.sub.source f.sub.checked = .ok o
  stored : ∀ e ∈ s'.cache.entries, e ∈ s.cache.entries ∨
    f.progress = .ran e.2.value ∧ e.1 = cacheKey f.digest

theorem flies_still (s : Service) (f : Flight) (m : Leg) : Flies s f m s f :=
  ⟨rfl, rfl, rfl, fun _ h => .inl h, fun _ h => .inl h⟩

theorem flies_advance (s : Service) (f : Flight) (m : Leg) {p : Progress} (hp : ∀ o, p ≠ .ran o) :
    Flies s f m s (f.advance p) :=
  ⟨rfl, rfl, rfl, fun o h => absurd h (hp o), fun _ h => .inl h⟩

theorem flies_settle (s : Service) (f : Flight) {r : Except Pipeline.Fault Outcome}
    (hr : Outcome.run s.grammar f.sub.source f.sub.checked = r) : Flies s f .run s (f.settle r) := by
  cases r with
  | ok o =>
    refine ⟨rfl, rfl, rfl, fun o' ho' => .inr ⟨rfl, ?_⟩, fun _ h => .inl h⟩
    obtain rfl : o = o' := by simpa [Flight.settle, Flight.advance] using ho'
    exact hr
  | error e => exact flies_advance s f _ (by simp)

theorem keep_frames (s : Service) (r : Record) :
    ((do keep r; return r : Action SubmitError Record).run s).2.grammar = s.grammar ∧
      ((do keep r; return r : Action SubmitError Record).run s).2.cache = s.cache := by
  rw [keep_run]
  cases s.archive.createFault <;> exact ⟨rfl, rfl⟩

theorem flies_next (s : Service) (f : Flight) (m : Leg) : Flies s f m (f.next s m).1 (f.next s m).2 := by
  unfold Flight.next
  split
  · split
    · exact flies_advance s f _ (by simp)
    · exact flies_advance s f _ (by simp)
  · exact flies_settle s f rfl
  · rename_i o now hp
    refine ⟨rfl, rfl, rfl, fun o' ho' => by simp [Flight.advance] at ho', fun e he => ?_⟩
    rcases mem_cons.1 he with rfl | he
    · exact .inr ⟨hp, rfl⟩
    · exact .inl (mem_of_mem_filter he)
  · rename_i o cached fresh now hp
    obtain ⟨hgrammar, hcache⟩ :=
      keep_frames s ((recordOf f.sub f.digest o cached).completed fresh now)
    refine ⟨rfl, rfl, hgrammar, fun o' ho' => by simp [Flight.advance] at ho', fun e he => .inl ?_⟩
    rwa [hcache] at he
  · exact flies_still s f _

namespace Traffic

variable {start : Traffic} {acts : List Act} {a : Act} {d : Text} {o : Outcome} {k k' : Nat}

/-- The grammar in use before the `k`-th step. -/
def grammarAt (start : Traffic) (acts : List Act) (k : Nat) : Grammar :=
  (start.after (acts.take k)).service.grammar

theorem after_snoc (start : Traffic) (acts : List Act) (a : Act) :
    start.after (acts ++ [a]) = (start.after acts).next a :=
  foldl_concat next start a acts

/-- The `k`-th step starts the submission, and computes the digest. -/
structure Started (start : Traffic) (acts : List Act) (sub : Submission) (d : Text) (k : Nat) :
    Prop where
  act : acts[k]? = some (.start sub)
  digest : d = Service.digest (start.grammarAt acts k).render sub.source sub.checked

/-- The submission starts with the `k`-th step and runs in the `k'`-th. -/
structure Ran (start : Traffic) (acts : List Act) (sub : Submission) (d : Text) (o : Outcome)
    (k k' : Nat) : Prop where
  started : start.Started acts sub d k
  later : k < k'
  act : ∃ i, acts[k']? = some (.leg i .run)
  outcome : Outcome.run (start.grammarAt acts k') sub.source sub.checked = .ok o

theorem grammarAt_snoc (hk : k ≤ acts.length) :
    start.grammarAt (acts ++ [a]) k = start.grammarAt acts k := by
  rw [grammarAt, grammarAt, take_append_of_le_length hk]

theorem Started.lt (h : start.Started acts sub d k) : k < acts.length :=
  (List.getElem?_eq_some_iff.1 h.act).1

theorem Started.snoc (h : start.Started acts sub d k) : start.Started (acts ++ [a]) sub d k where
  act := by rw [getElem?_append_left h.lt, h.act]
  digest := by rw [grammarAt_snoc h.lt.le, h.digest]

theorem Ran.snoc (h : start.Ran acts sub d o k k') : start.Ran (acts ++ [a]) sub d o k k' := by
  obtain ⟨i, hi⟩ := h.act
  have hlt : k' < acts.length := (List.getElem?_eq_some_iff.1 hi).1
  refine ⟨h.started.snoc, h.later, ⟨i, by rw [getElem?_append_left hlt, hi]⟩, ?_⟩
  rw [grammarAt_snoc hlt.le, h.outcome]

/-- What the submissions and the cache hold comes from steps taken before. -/
structure Explained (start : Traffic) (acts : List Act) (t : Traffic) : Prop where
  started : ∀ f ∈ t.flights, ∃ k, start.Started acts f.sub f.digest k
  ran : ∀ f ∈ t.flights, ∀ o, f.progress = .ran o → ∃ k k', start.Ran acts f.sub f.digest o k k'
  stored : ∀ e ∈ t.service.cache.entries,
    ∃ sub d k k', e.1 = cacheKey d ∧ start.Ran acts sub d e.2.value k k'

theorem Explained.snoc (h : start.Explained acts t) : start.Explained (acts ++ [a]) t where
  started f hf := (h.started f hf).imp fun _ hk => hk.snoc
  ran f hf o ho := by
    obtain ⟨k, k', hran⟩ := h.ran f hf o ho
    exact ⟨k, k', hran.snoc⟩
  stored e he := by
    obtain ⟨sub, d, k, k', hkey, hran⟩ := h.stored e he
    exact ⟨sub, d, k, k', hkey, hran.snoc⟩

theorem Explained.next (h : start.Explained acts (start.after acts)) (a : Act) :
    start.Explained (acts ++ [a]) ((start.after acts).next a) := by
  have hlast : start.grammarAt (acts ++ [a]) acts.length = (start.after acts).service.grammar := by
    rw [grammarAt, take_left]
  have hact : (acts ++ [a])[acts.length]? = some a := by simp
  cases a with
  | start sub =>
    refine ⟨fun f hf => ?_, fun f hf o ho => ?_, h.snoc.stored⟩
    · rcases mem_append.1 hf with hf | hf
      · exact h.snoc.started f hf
      · obtain rfl := mem_singleton.1 hf
        exact ⟨acts.length, hact, by rw [hlast, Flight.start]⟩
    · rcases mem_append.1 hf with hf | hf
      · exact h.snoc.ran f hf o ho
      · obtain rfl := mem_singleton.1 hf
        rw [Flight.start] at ho
        simp only at ho
        split at ho <;> cases ho
  | leg i m =>
    rw [Traffic.next]
    cases hi : (start.after acts).flights[i]? with
    | none => exact h.snoc
    | some f =>
      have hf : f ∈ (start.after acts).flights := mem_of_getElem? hi
      have hflies := flies_next (start.after acts).service f m
      refine ⟨fun f' hf' => ?_, fun f' hf' o ho => ?_, fun e he => ?_⟩
      · rcases mem_or_eq_of_mem_set hf' with hf' | rfl
        · exact h.snoc.started f' hf'
        · rw [hflies.sub, hflies.digest]
          exact h.snoc.started f hf
      · rcases mem_or_eq_of_mem_set hf' with hf' | rfl
        · exact h.snoc.ran f' hf' o ho
        · rw [hflies.sub, hflies.digest]
          rcases hflies.ran o ho with ho | ⟨rfl, hrun⟩
          · exact h.snoc.ran f hf o ho
          · obtain ⟨k, hk⟩ := h.started f hf
            exact ⟨k, acts.length, hk.snoc, hk.lt, ⟨i, hact⟩, by rw [hlast, hrun]⟩
      · rcases hflies.stored e he with he | ⟨ho, hkey⟩
        · exact h.snoc.stored e he
        · obtain ⟨k, k', hran⟩ := h.snoc.ran f hf _ ho
          exact ⟨f.sub, f.digest, k, k', hkey, hran⟩
  | swap g => exact ⟨h.snoc.started, h.snoc.ran, h.snoc.stored⟩
  | cleanup now =>
    exact ⟨h.snoc.started, h.snoc.ran, fun e he => h.snoc.stored e (mem_of_mem_filter he)⟩

/-- **After any steps everything can be explained**, if nothing was there before. -/
theorem explained_after (hflights : start.flights = []) (hcache : start.service.cache.entries = [])
    (acts : List Act) : start.Explained acts (start.after acts) := by
  induction acts using reverseRecOn with
  | nil => exact ⟨by simp [after, hflights], by simp [after, hflights], by simp [after, hcache]⟩
  | append_singleton acts a ih =>
    rw [after_snoc]
    exact ih.next a

/-! ## The grammar in use -/

theorem after_append (start : Traffic) (acts more : List Act) :
    start.after (acts ++ more) = (start.after acts).after more :=
  foldl_append

theorem grammar_next (t : Traffic) (ha : ∀ g, a ≠ .swap g) :
    (t.next a).service.grammar = t.service.grammar := by
  cases a with
  | start sub => rfl
  | leg i m =>
    rw [Traffic.next]
    cases t.flights[i]? with
    | none => rfl
    | some f => exact (flies_next t.service f m).grammar
  | swap g => exact absurd rfl (ha g)
  | cleanup now => rfl

theorem grammar_after (t : Traffic) (h : ∀ g, .swap g ∉ acts) :
    (t.after acts).service.grammar = t.service.grammar := by
  induction acts generalizing t with
  | nil => rfl
  | cons a acts ih =>
    have ha (g : Grammar) : a ≠ .swap g := by
      rintro rfl
      exact h g mem_cons_self
    calc ((t.next a).after acts).service.grammar
        = (t.next a).service.grammar := ih _ fun g hg => h g (mem_cons_of_mem _ hg)
      _ = t.service.grammar := grammar_next t ha

theorem grammarAt_eq (hk : k ≤ k') (h : ∀ g, .swap g ∉ (acts.take k').drop k) :
    start.grammarAt acts k' = start.grammarAt acts k := by
  have hsplit : acts.take k' = acts.take k ++ (acts.take k').drop k := by
    conv_lhs => rw [← take_append_drop k (acts.take k'), take_take, Nat.min_eq_left hk]
  rw [grammarAt, hsplit, after_append, grammar_after _ h]
  rfl

theorem loaded_after (hstart : Loaded start.service.grammar) (h : ∀ g, .swap g ∈ acts → Loaded g) :
    Loaded (start.after acts).service.grammar := by
  induction acts using reverseRecOn with
  | nil => exact hstart
  | append_singleton acts a ih =>
    rw [after_snoc]
    by_cases ha : ∃ g, a = .swap g
    · obtain ⟨g, rfl⟩ := ha
      exact h g (by simp)
    · rw [grammar_next _ fun g hg => ha ⟨g, hg⟩]
      exact ih fun g hg => h g (mem_append_left _ hg)

theorem loaded_grammarAt (hstart : Loaded start.service.grammar)
    (h : ∀ g, .swap g ∈ acts → Loaded g) (k : Nat) : Loaded (start.grammarAt acts k) :=
  loaded_after hstart fun g hg => h g (mem_of_mem_take hg)

/-! ## A submission alone -/

variable {g : Grammar} {source : Text} {gs : List Grammar}

theorem run_of_product {checked : Bool} {p : Pipeline.Product} (h : Pipeline.run g checked source = .ok p) :
    Outcome.run g source checked = .ok (.ofProduct p) := by
  rw [Outcome.run, h]

theorem run_of_report {checked : Bool} {f : Pipeline.Fault}
    {r : Pipeline.Report} (h : Pipeline.run g checked source = .error f) (hr : f.report? = some r) :
    Outcome.run g source checked = .ok (.ofReport f r) := by
  rw [Outcome.run, h]
  simp only [hr]

/-- A submission with swaps before its run. -/
def swapped (sub : Submission) (gs : List Grammar) : List Act :=
  [.start sub, .leg 0 (.look 0)] ++ gs.map .swap ++ [.leg 0 .run, .leg 0 (.store 0)]

theorem start_swapped {sub' : Submission} {k : Nat}
    (h : (swapped sub gs)[k]? = some (.start sub')) : k = 0 ∧ sub = sub' := by
  rcases k with - | k
  · simpa [swapped] using h
  · have hmem : .start sub' ∈ .leg 0 (.look 0) :: (gs.map Act.swap ++ [.leg 0 .run, .leg 0 (.store 0)]) :=
      mem_of_getElem? h
    simp at hmem

theorem run_swapped {i k : Nat} (h : (swapped sub gs)[k]? = some (.leg i .run)) : k = gs.length + 2 := by
  rcases k with - | - | k
  · simp [swapped] at h
  · simp [swapped] at h
  · have h : (gs.map Act.swap ++ [.leg 0 .run, .leg 0 (.store 0)])[k]? = some (.leg i .run) := h
    rcases Nat.lt_trichotomy k gs.length with hk | rfl | hk
    · simp [getElem?_append_left, hk] at h
    · rfl
    · obtain ⟨j, rfl⟩ := Nat.exists_eq_add_of_lt hk
      rw [getElem?_append_right (by simp; omega)] at h
      cases j <;> simp [Nat.add_assoc] at h

theorem after_swaps (s : Service) (fs : List Flight) (gs : List Grammar) :
    after ⟨s, fs⟩ (gs.map .swap) = ⟨{ s with grammar := gs.getLastD s.grammar }, fs⟩ := by
  induction gs generalizing s with
  | nil => rfl
  | cons g gs ih =>
    rw [getLastD_cons]
    exact ih { s with grammar := g }

theorem cache_swapped {o : Outcome} (hexamine : examine s.maxBytes sub = .ok ())
    (hget : s.cache.get? 0 (cacheKey (s.job sub).digest) = none)
    (hrun : Outcome.run (gs.getLastD s.grammar) sub.source sub.checked = .ok o) :
    (after ⟨s, []⟩ (swapped sub gs)).service.cache =
      s.cache.set 0 (cacheKey (s.job sub).digest) o := by
  have hstart : Traffic.next ⟨s, []⟩ (.start sub) =
      ⟨s, [⟨sub, (s.job sub).digest, .keyed⟩]⟩ := by
    rw [Traffic.next, Flight.start, hexamine, job, Job.digest]
    rfl
  have hleg (s : Service) (f : Flight) (m : Leg) :
      Traffic.next ⟨s, [f]⟩ (.leg 0 m) = ⟨(f.next s m).1, [(f.next s m).2]⟩ :=
    next_last s [] f m
  have hlook : after ⟨s, []⟩ [.start sub, .leg 0 (.look 0)] =
      ⟨s, [⟨sub, (s.job sub).digest, .missed⟩]⟩ := by
    simp only [after, foldl_cons, foldl_nil, hstart, hleg, next_missed hget]
  have hran : Flight.next { s with grammar := gs.getLastD s.grammar }
      ⟨sub, (s.job sub).digest, .missed⟩ .run =
      ({ s with grammar := gs.getLastD s.grammar }, ⟨sub, (s.job sub).digest, .ran o⟩) := by
    rw [next_run hrun]
    rfl
  rw [swapped, after_append, after_append, hlook, after_swaps]
  simp only [after, foldl_cons, foldl_nil, hleg, hran, next_store]

def whileSource : Submission := { source := "while", check := some false }

theorem faults_whileSource : whileSource.faults = [] := by
  rw [Submission.faults, if_neg (by simp [whileSource, Text.glyphs]), if_neg (by decide)]
  rfl

def unused (g : Grammar) : Traffic where
  service := { grammar := g, cache := { span := 0 }, archive := { memory := {} } }

theorem entries_unused (g : Grammar) (gs : List Grammar) {o : Outcome}
    (hrun : Outcome.run (gs.getLastD g) whileSource.source whileSource.checked = .ok o) :
    ((unused g).after (swapped whileSource gs)).service.cache.entries =
      [(cacheKey (digest g.render whileSource.source whileSource.checked), ⟨o, Timestamp.zero⟩)] := by
  have hexamine : examine (unused g).service.maxBytes whileSource = .ok () := by
    rw [examine, faults_whileSource]
    rfl
  have hget : (unused g).service.cache.get? 0
      (cacheKey ((unused g).service.job whileSource).digest) = none := rfl
  have hcache : ((unused g).after (swapped whileSource gs)).service.cache =
      (unused g).service.cache.set 0 (cacheKey ((unused g).service.job whileSource).digest) o :=
    cache_swapped hexamine hget hrun
  rw [hcache]
  rfl

/-- The grammar whose programs are single tokens of the category. -/
def sole (category : Text) : Grammar := .ofAlternatives [(program, [category])]

/-- A name that begins with the bytes that mark a check. -/
def marked : Text := "\x00\x01x"

/-- The grammar of the word `while`, with a symbol between.  Its text is that of a grammar whose
    programs are tokens of the category `marked`, the mark of a check and the beginning of a source. -/
def blended : Grammar := .ofAlternatives [(program, [marked]), (marked, ["while"])]

/-- The source that the text of this grammar goes on with. -/
def blendedSource : Text := "x -> while\n\x00\x00while"

/-- The categories of the grammars that are put into use. -/
def soles : List Text := ["while", "if", marked]

theorem read_sole :
    ∀ category ∈ soles, readGrammar ("<program> -> " ++ category) = .ok (sole category) := by
  decide +kernel

theorem read_blended : readGrammar "<program> -> \x00\x01x\n\x00\x01x -> while" = .ok blended := by
  decide +kernel

theorem loaded_sole {category : Text} (h : category ∈ soles) : Loaded (sole category) :=
  ⟨_, load_of_readGrammar (read_sole category h)⟩

theorem loaded_while : Loaded (sole "while") := loaded_sole (by simp [soles])

theorem loaded_if : Loaded (sole "if") := loaded_sole (by simp [soles])

theorem loaded_marked : Loaded (sole marked) := loaded_sole (by simp [soles])

theorem loaded_blended : Loaded blended := ⟨_, load_of_readGrammar read_blended⟩

def whileToken : Token := ⟨"while", "while", 1, 1⟩

theorem tokenize_whileSource : Java.tokenize whileSource.source = .ok [whileToken] :=
  Java.tokenize_while

theorem exists_run {text : Text} (h : readGrammar text = .ok g)
    (hg : Pipeline.Suffices g) (hwhile : g.Derives g.start [whileToken.category]) : ∃ o,
    Outcome.run g whileSource.source whileSource.checked = .ok o ∧ o.errorStage = [] := by
  obtain ⟨p, hrun⟩ := Pipeline.exists_product h hg tokenize_whileSource hwhile
  exact ⟨.ofProduct p, run_of_product hrun, rfl⟩

theorem exists_run_while : ∃ o,
    Outcome.run (sole "while") whileSource.source whileSource.checked = .ok o ∧ o.errorStage = [] :=
  exists_run (read_sole "while" (by simp [soles])) (by decide) (.tag (by decide))

theorem exists_run_blended : ∃ o,
    Outcome.run blended whileSource.source whileSource.checked = .ok o ∧ o.errorStage = [] := by
  refine exists_run read_blended (by decide) ?_
  have hmarked : blended.Derives marked [whileToken.category] := .tag (by decide)
  exact @Grammar.Derives.rule blended ⟨1, program, [marked]⟩ [_] (by decide) (by decide)
    (by decide) (.cons hmarked .nil)

theorem exists_failure {category : Text} (checked : Bool) (hcategory : category ∈ soles)
    (hnone : ∀ ts, Java.tokenize source = .ok ts → ∀ k ∈ ts, k.category ≠ category) : ∃ o,
    Outcome.run (sole category) source checked = .ok o ∧ o.errorStage ≠ [] := by
  obtain ⟨text, hload⟩ := loaded_sole hcategory
  have hwf := Grammar.load_wellFormed hload
  have hchecks : ∀ category ∈ soles, (sole category).isTag (sole category).start ∧
      ∀ r ∈ (sole category).rules, ¬ (r.lhs = Chart.top ∨ Chart.top ∈ r.rhs) := by
    decide
  obtain ⟨htag, hfree⟩ := hchecks category hcategory
  cases htokens : Java.tokenize source with
  | error e =>
    exact ⟨_, run_of_report (Pipeline.run_of_lexical htokens) rfl,
      (by decide : Pipeline.Stage.lexical.name ≠ [])⟩
  | ok ts =>
    cases hrejection : (Chart.ofTokens (sole category) ts).rejection? with
    | some r =>
      exact ⟨_, run_of_report (Pipeline.run_of_rejection htokens hrejection) rfl,
        (by decide : Pipeline.Stage.grammatical.name ≠ [])⟩
    | none =>
      obtain ⟨t, -, ht, rfl⟩ := Chart.parses_of_accepted hwf hfree hrejection
      obtain ⟨k, rfl, haccepts⟩ := ht.exists_token htag
      obtain ⟨-, r, hr, hrhs⟩ := Grammar.accepts_iff.1 haccepts
      obtain rfl : r = ⟨1, program, [category]⟩ :=
        mem_singleton.1 (Grammar.mem_rulesOf.1 hr).1
      have hsame : category = k.category := by simpa using hrhs
      exact absurd hsame.symm (hnone _ htokens k (by simp [Tree.tokens, Tree.tokensOf]))

theorem exists_run_if : ∃ o,
    Outcome.run (sole "if") whileSource.source whileSource.checked = .ok o ∧ o.errorStage ≠ [] := by
  refine exists_failure _ (by simp [soles]) fun ts hts k hk => ?_
  cases tokenize_whileSource.symm.trans hts
  obtain rfl : k = whileToken := by simpa using hk
  decide

theorem exists_run_marked (source : Text) (checked : Bool) : ∃ o,
    Outcome.run (sole marked) source checked = .ok o ∧ o.errorStage ≠ [] := by
  have hrules : ∀ r ∈ Java.rules, r.category ≠ marked := by decide
  refine exists_failure _ (by simp [soles]) fun ts hts k hk => ?_
  obtain ⟨r, hr, hcategory⟩ := Java.exists_rule_of_tokenize hts k hk
  exact hcategory ▸ hrules r hr

/-! ## Entries -/

/-- **What overlapping submissions leave in the cache.**  The steps of a submission in a row are
    `submit`.  In any order of steps, an entry has the digest of a submission under the grammar in use
    when it started, and its outcome under the grammar in use when it ran.  These are one grammar
    if no swap falls between.  If they have one text, the entry is the outcome of every run with its
    digest, as far as digests tell runs apart. -/
theorem entry_of_acts (start : Traffic) : (∀ (sub : Submission) (fresh : Uuid) (now : Timestamp),
      start.after (inRow sub fresh now start.flights.length) =
        ⟨((submit fresh now sub).run start.service).2,
          start.flights ++ [(Flight.start start.service sub).advance
            (.answered ((submit fresh now sub).run start.service).1)]⟩) ∧
    (start.flights = [] → start.service.cache.entries = [] →
      Loaded start.service.grammar → ∀ acts : List Act, (∀ g, .swap g ∈ acts → Loaded g) →
      ∀ e ∈ (start.after acts).service.cache.entries, ∃ sub k k' i, k < k' ∧
        acts[k]? = some (.start sub) ∧ acts[k']? = some (.leg i .run) ∧
        e.1 = cacheKey (digest (start.grammarAt acts k).render sub.source sub.checked) ∧
        Outcome.run (start.grammarAt acts k') sub.source sub.checked = .ok e.2.value ∧
        ((∀ g, .swap g ∉ (acts.take k').drop k) →
          start.grammarAt acts k' = start.grammarAt acts k) ∧
        ((start.grammarAt acts k').render = (start.grammarAt acts k).render →
          ∀ g source checked, Loaded g → e.1 = cacheKey (digest g.render source checked) →
            Apart [⟨g.render, source, checked⟩,
              ⟨(start.grammarAt acts k).render, sub.source, sub.checked⟩] →
            Outcome.run g source checked = .ok e.2.value)) := by
  refine ⟨submit_eq start, fun hflights hcache hgrammar acts hswaps e he => ?_⟩
  obtain ⟨sub, d, k, k', hkey, hran⟩ := (explained_after hflights hcache acts).stored e he
  obtain ⟨i, hact⟩ := hran.act
  rw [hran.started.digest] at hkey
  refine ⟨sub, k, k', i, hran.later, hran.started.act, hact, hkey, hran.outcome,
    grammarAt_eq hran.later.le, fun htext g source checked hg hkey' hapart => ?_⟩
  have hdigest : digest g.render source checked =
      digest (start.grammarAt acts k).render sub.source sub.checked :=
    append_cancel_left (hkey'.symm.trans hkey)
  have hjob := hapart _ mem_cons_self _ (mem_cons_of_mem _ mem_cons_self) hdigest
  obtain ⟨hrender, rfl, rfl⟩ : g.render = (start.grammarAt acts k).render ∧ source = sub.source ∧
      checked = sub.checked := by simpa using hjob
  rw [← hran.outcome]
  exact Outcome.run_eq hg (loaded_grammarAt hgrammar hswaps k') (hrender.trans htext.symm) _ _

theorem entry_of_acts_while :
    (∃ e ∈ ((unused (sole "while")).after (swapped whileSource [sole "if"])).service.cache.entries,
      e.1 = cacheKey (digest (sole "while").render whileSource.source whileSource.checked) ∧
      Outcome.run (sole "if") whileSource.source whileSource.checked = .ok e.2.value) ∧
    ∃ e ∈ ((unused (sole "while")).after (swapped whileSource [])).service.cache.entries,
      e.1 = cacheKey (digest (sole "while").render whileSource.source whileSource.checked) ∧
      Outcome.run (sole "while") whileSource.source whileSource.checked = .ok e.2.value := by
  constructor
  · obtain ⟨o, hif, -⟩ := exists_run_if
    have hentries := entries_unused (sole "while") [sole "if"] hif
    refine ⟨_, hentries ▸ mem_cons_self, ?_⟩
    have hswaps (g : Grammar) (hg : .swap g ∈ swapped whileSource [sole "if"]) : Loaded g := by
      obtain rfl : g = sole "if" := by simpa [swapped] using hg
      exact loaded_if
    obtain ⟨sub, k, k', i, -, hstart, hrun, hkey, houtcome, -⟩ :=
      (entry_of_acts (unused (sole "while"))).2 rfl rfl loaded_while _ hswaps _
        (hentries ▸ mem_cons_self)
    obtain ⟨rfl, rfl⟩ := start_swapped hstart
    obtain rfl := run_swapped hrun
    exact ⟨hkey, houtcome⟩
  · obtain ⟨o, hwhile, -⟩ := exists_run_while
    have hentries := entries_unused (sole "while") [] hwhile
    refine ⟨_, hentries ▸ mem_cons_self, rfl, ?_⟩
    obtain ⟨sub, k, k', i, -, hstart, -, -, -, hsame, hone⟩ :=
      (entry_of_acts (unused (sole "while"))).2 rfl rfl loaded_while (swapped whileSource [])
        (fun g hg => by simp [swapped] at hg) _ (hentries ▸ mem_cons_self)
    obtain ⟨rfl, rfl⟩ := start_swapped hstart
    have hnone (g : Grammar) : .swap g ∉ ((swapped whileSource []).take k').drop 0 := fun hg => by
      simpa [swapped] using mem_of_mem_take (mem_of_mem_drop hg)
    refine hone (by rw [hsame hnone]) (sole "while") _ _ loaded_while rfl fun a ha b hb _ => ?_
    simp only [mem_cons, not_mem_nil, or_false] at ha hb
    rw [ha.elim id id, hb.elim id id]

/-- Every entry of the cache is the outcome of each run with its digest. -/
def Filed (t : Traffic) : Prop :=
  ∀ e ∈ t.service.cache.entries, ∀ g source checked, Loaded g →
    e.1 = cacheKey (digest g.render source checked) → Outcome.run g source checked = .ok e.2.value

/-- A swap between the digest and the run leaves an outcome under the new grammar with the digest of
    the old one. -/
theorem not_filed_swapped : ¬ Filed ((unused (sole "while")).after (swapped whileSource [sole "if"])) := by
  intro hfiled
  obtain ⟨o, hwhile, hstage⟩ := exists_run_while
  obtain ⟨o', hif, hstage'⟩ := exists_run_if
  rw [Filed, entries_unused (sole "while") [sole "if"] hif] at hfiled
  have hentry := hfiled _ mem_cons_self _ _ _ loaded_while rfl
  cases hwhile.symm.trans hentry
  exact hstage' hstage

/-- Without a swap, the digest of a run may be that of another one, which ends with an error. -/
theorem not_filed_blended : ¬ Filed ((unused blended).after (swapped whileSource [])) := by
  intro hfiled
  obtain ⟨o, hwhile, hstage⟩ := exists_run_blended
  have hidentity : identity blended.render whileSource.source whileSource.checked =
      identity (sole marked).render blendedSource true := by
    decide
  obtain ⟨o', hrun, hstage'⟩ := exists_run_marked blendedSource true
  rw [Filed, entries_unused blended [] hwhile] at hfiled
  have hentry := hfiled _ mem_cons_self (sole marked) blendedSource true loaded_marked
    (by rw [digest, hidentity, digest])
  cases hrun.symm.trans hentry
  exact hstage' hstage

/-- **An entry need not be the outcome of the runs with its digest**: not with a swap between the
    digest and the run, and not without swaps either. -/
theorem entries_misfiled : (¬ ∀ start : Traffic, start.flights = [] → start.service.cache.entries = [] →
      Loaded start.service.grammar → ∀ acts : List Act, (∀ g, .swap g ∈ acts → Loaded g) →
      Filed (start.after acts)) ∧
    ¬ ∀ start : Traffic, start.flights = [] → start.service.cache.entries = [] →
      Loaded start.service.grammar → ∀ acts : List Act, (∀ g, .swap g ∉ acts) →
      Filed (start.after acts) := by
  constructor
  · intro hall
    refine not_filed_swapped (hall _ rfl rfl loaded_while _ fun g hg => ?_)
    obtain rfl : g = sole "if" := by simpa [swapped] using hg
    exact loaded_if
  · intro hall
    exact not_filed_blended (hall _ rfl rfl loaded_blended _ fun g => by simp [swapped])

end Traffic

end JavaToCpp.Service
