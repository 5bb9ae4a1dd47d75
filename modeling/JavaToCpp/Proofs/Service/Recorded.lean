/-
  Records and the outputs of runs.
-/
import JavaToCpp.Proofs.Json.RoundTrip
import JavaToCpp.Proofs.Pipeline.Encoding
import JavaToCpp.Proofs.Service.Submissions

namespace JavaToCpp

open List Text Java.Label

/-! ## Outcomes in JSON -/

namespace Service.Outcome

/-- **The outcome of a run that went well comes back from JSON as `reread` has it.** -/
theorem copy?_ofProduct (p : Pipeline.Product) : (ofProduct p).copy? = some (ofProduct p).reread := by
  have hascii : ∀ t ∈ fields ++ (["sets", "states", "tokens", Record.success, []] : List Text),
      toUtf8 t = t := by
    intro t ht
    have hall : (fields ++ (["sets", "states", "tokens", Record.success, []] : List Text)).all
        (·.all (· < 0x80)) := by
      decide
    exact toUtf8_eq_self (isUtf8_of_ascii (all_eq_true.1 hall t ht))
  have hproper : Json.Proper 0 (ofProduct p).toJson := by
    have hzero : Json.Number (ofInt 0) := Json.number_decimal 0
    simp [toJson, ofProduct, statsOf, Json.Proper, Json.ProperMembers, Json.int, Json.nat, Json.maxDepth, hzero,
      Json.number_decimal]
  have hrecoded : Json.recoded (ofProduct p).toJson = (ofProduct p).reread.toJson := by
    simp only [fields, cons_append, nil_append, forall_mem_cons] at hascii
    simp only [toJson, ofProduct, reread, statsOf, Json.recoded, Json.recodedMembers, Json.int, Json.nat, hascii]
  rw [copy?, Json.read_write hproper, hrecoded]
  rfl

end Service.Outcome

/-! ## Records in memory -/

namespace Record.Memory

/-- The memory holds the record, no record before it has its identifier, and at most `n` records are
    behind it. -/
def Held (n : Nat) (r : Record) (m : Memory) : Prop :=
  ∃ older newer, m.records = older ++ r :: newer ∧ newer.length ≤ n ∧ ∀ x ∈ older, x.id ≠ r.id

def Room (n : Nat) (m : Memory) : Prop := m.bound ≤ 0 ∨ (n : Int) ≤ m.bound

variable {m : Memory} {r : Record} {n : Nat}

theorem Held.mono {k : Nat} (h : Held n r m) (hk : n ≤ k) : Held k r m := by
  obtain ⟨older, newer, hrecords, hlength, holder⟩ := h
  exact ⟨older, newer, hrecords, hlength.trans hk, holder⟩

theorem find?_of_held (h : Held n r m) : m.find? r.id = some r := by
  obtain ⟨older, newer, hrecords, -, holder⟩ := h
  rw [find?, hrecords, find?_append, find?_eq_none.2 (by simpa using holder)]
  simp

theorem exists_trim_append {bound : Int} {older newer : List Record}
    (h : bound ≤ 0 ∨ (newer.length : Int) ≤ bound) :
    ∃ older', older' ⊆ older ∧ trim bound (older ++ newer) = older' ++ newer := by
  rw [trim]
  split
  · refine ⟨older.drop ((older ++ newer).length - bound.toNat), drop_subset _ _, ?_⟩
    refine drop_append_of_le_length ?_
    rw [length_append]
    omega
  · exact ⟨older, Subset.refl older, rfl⟩

theorem Held.create (h : Held n r m) (hroom : m.Room (n + 2)) (r' : Record) :
    Held (n + 1) r (m.create r') := by
  obtain ⟨older, newer, hrecords, hlength, holder⟩ := h
  obtain ⟨older', hsub, htrim⟩ : ∃ older', older' ⊆ older ∧
      trim m.bound (older ++ (r :: newer ++ [r'])) = older' ++ (r :: newer ++ [r']) := by
    refine exists_trim_append (hroom.imp_right fun hroom => ?_)
    simp only [length_append, length_cons, length_nil]
    omega
  refine ⟨older', newer ++ [r'], ?_, by simpa using hlength, fun x hx => holder x (hsub hx)⟩
  rw [Memory.create, hrecords, append_assoc]
  exact htrim

theorem held_create (h : ∀ x ∈ m.records, x.id ≠ r.id) : Held 0 r (m.create r) := by
  obtain ⟨older, hsub, htrim⟩ : ∃ older, older ⊆ m.records ∧
      trim m.bound (m.records ++ [r]) = older ++ [r] :=
    exists_trim_append (by simp; omega)
  exact ⟨older, [], htrim, Nat.le_refl 0, fun x hx => h x (hsub hx)⟩

end Record.Memory

namespace Service

variable {s : Service} {now : Timestamp} {sub : Submission} {fresh : Uuid}

/-! ## Records that are found again -/

def Call.isSubmission : Call → Bool
  | submit _ _ _ => true
  | _ => false

def submissions (cs : List Call) : Nat := cs.countP Call.isSubmission

/-- Records are given out, and one of them is held with at most `n` others behind it. -/
structure Holds (n : Nat) (r : Record) (s : Service) : Prop where
  findFault : s.archive.findFault = none
  held : s.archive.memory.Held n r

variable {n : Nat} {r : Record}

theorem lookup_of_holds (h : Holds n r s) : lookup s r.id = .ok r := by
  rw [lookup, h.findFault, Record.Memory.find?_of_held h.held]

theorem holds_call {c : Call} (hc : c.Supplied) (h : Holds n r s)
    (hroom : s.archive.memory.Room (n + submissions [c] + 1)) :
    Holds (n + submissions [c]) r (c.after s) ∧
      (c.after s).archive.memory.bound = s.archive.memory.bound := by
  have hheld : s.archive.memory.Held (n + submissions [c]) r := h.held.mono (Nat.le_add_right n _)
  rcases frames_call hc s with ⟨fresh, now, sub, rfl⟩ | ⟨-, g, version, store, -, hafter⟩
  · obtain ⟨cache, archive, hafter, -, harchive⟩ := exists_after_submit s fresh now sub
    rw [hafter]
    rcases harchive with rfl | ⟨r', -, rfl⟩
    · exact ⟨⟨h.findFault, hheld⟩, rfl⟩
    · exact ⟨⟨h.findFault, h.held.create hroom r'⟩, rfl⟩
  · rw [hafter]
    exact ⟨⟨h.findFault, hheld⟩, rfl⟩

theorem holds_after {cs : List Call} (hcs : ∀ c ∈ cs, c.Supplied) (h : Holds n r s)
    (hroom : s.archive.memory.Room (n + submissions cs + 1)) :
    Holds (n + submissions cs) r (after s cs) := by
  -- a submission puts one record behind `r`, so the room for all of them is enough for the first
  induction cs generalizing s n with
  | nil => exact h
  | cons c cs ih =>
    obtain ⟨hc, hcs⟩ := forall_mem_cons.1 hcs
    have hcount : submissions (c :: cs) = submissions [c] + submissions cs := by
      rw [submissions, submissions, submissions, ← countP_append, singleton_append]
    rw [hcount, ← Nat.add_assoc] at hroom ⊢
    obtain ⟨hholds, hbound⟩ := holds_call hc h (hroom.imp_right (by omega))
    refine ih hcs hholds ?_
    rwa [Record.Memory.Room, hbound]

/-! ## Submissions -/

/-- The record of a submission whose run has this outcome. -/
def recordFor (s : Service) (fresh : Uuid) (now : Timestamp) (sub : Submission) (o : Outcome) : Record :=
  (recordOf sub (s.job sub).digest o.reread (s.hit now sub)).completed fresh now

def recorded (s : Service) (fresh : Uuid) (now : Timestamp) (sub : Submission) (o : Outcome) : Service :=
  let memory := s.archive.memory.create (s.recordFor fresh now sub o)
  { s with cache := s.noted now sub o, archive := { s.archive with memory } }

theorem submit_of_run {o : Outcome} (fresh : Uuid) (now : Timestamp)
    (hexamine : examine s.maxBytes sub = .ok ())
    (hrun : Outcome.run s.grammar sub.source sub.checked = .ok o)
    (hcreate : s.archive.createFault = none)
    (hget : ∀ o' ∈ s.cache.get? now (cacheKey (s.job sub).digest), o' = o) :
    (submit fresh now sub).run s = (.ok (s.recordFor fresh now sub o), s.recorded fresh now sub o) := by
  rw [submit_of_outcome hexamine (outcome_of_run hrun hget)]
  simp only
  rw [keep_run]
  simp only [hcreate, recorded, recordFor]

theorem holds_recorded {o : Outcome} (hfind : s.archive.findFault = none)
    (hfresh : ∀ x ∈ s.archive.memory.records, x.id ≠ fresh) :
    Holds 0 (s.recordFor fresh now sub o) (s.recorded fresh now sub o) :=
  ⟨hfind, Record.Memory.held_create hfresh⟩

/-- **The output in a record** is the output of the run as it comes back from JSON, if no other run
    asked for before has its digest: with replacement characters for the bytes that are not UTF-8.
    So it is the output of the run if and only if that is UTF-8, as it is for every source in UTF-8.
    The same record is found again after any calls that the memory has room for. -/
theorem record_of_product (s : Service) (hempty : s.cache.entries = []) (hgrammar : Loaded s.grammar)
    (done : List Call) (hdone : ∀ c ∈ done, c.Supplied) (fresh : Uuid) (now : Timestamp)
    (sub : Submission) (p : Pipeline.Product)
    (hapart : (after s done).hit now sub → ∀ j ∈ hashed s done,
      j.digest = ((after s done).job sub).digest → j = (after s done).job sub)
    (hexamine : examine (after s done).maxBytes sub = .ok ())
    (hcreate : (after s done).archive.createFault = none)
    (hfind : (after s done).archive.findFault = none)
    (hfresh : ∀ x ∈ (after s done).archive.memory.records, x.id ≠ fresh)
    (hrun : Pipeline.run (after s done).grammar sub.checked sub.source = .ok p) :
    ∃ o r s', (Outcome.ofProduct p).copy? = some o ∧
      (submit fresh now sub).run (after s done) = (.ok r, s') ∧ r.output = o.output ∧
      r.output = toUtf8 p.output ∧ (r.output = p.output ↔ isUtf8 p.output) ∧
      (isUtf8 sub.source → r.output = p.output) ∧
      ∀ more : List Call, (∀ c ∈ more, c.Supplied) →
        (after s done).archive.memory.Room (submissions more + 1) →
          lookup (after s' more) r.id = .ok r := by
  have hsound : Sound ([] ++ hashed s done) (after s done) :=
    sound_after hdone ⟨hgrammar, by simp [hempty]⟩
  have houtcome := Traffic.run_of_product hrun
  have hget : ∀ o ∈ (after s done).cache.get? now (cacheKey ((after s done).job sub).digest),
      o = .ofProduct p := by
    intro o ho
    have hhit : (after s done).hit now sub := by
      rw [hit, ho]
      rfl
    have hsame := hsound.get? (hapart hhit) ho
    rw [houtcome] at hsame
    exact (Except.ok.inj hsame).symm
  have hsubmit := submit_of_run fresh now hexamine houtcome hcreate hget
  refine ⟨_, _, _, Outcome.copy?_ofProduct p, hsubmit, rfl, rfl, toUtf8_eq_self_iff, ?_, ?_⟩
  · intro hsource
    obtain ⟨text, hload⟩ := hsound.grammar
    exact toUtf8_eq_self (Pipeline.isUtf8_output (Grammar.load_wellFormed hload) hrun hsource)
  · intro more hmore hroom
    rw [← Nat.zero_add (submissions more)] at hroom
    exact lookup_of_holds (holds_after hmore (holds_recorded hfind hfresh) hroom)

/-- A service without calls under the grammar of the word `while`. -/
def whileService : Service := (Traffic.unused (Traffic.sole "while")).service

def whileCalls : List Call := [.submit Uuid.nil Timestamp.zero Traffic.whileSource]

theorem exists_after_whileCalls : ∃ p, Pipeline.run whileService.grammar false "while" = .ok p ∧
    after whileService whileCalls =
      whileService.recorded Uuid.nil Timestamp.zero Traffic.whileSource (.ofProduct p) := by
  have hexamine : examine whileService.maxBytes Traffic.whileSource = .ok () := by
    rw [examine, Traffic.faults_whileSource]
    rfl
  obtain ⟨p, hrun⟩ : ∃ p, Pipeline.run whileService.grammar false "while" = .ok p :=
    Pipeline.exists_product (Traffic.read_sole "while" (by simp [Traffic.soles])) (by decide)
      Traffic.tokenize_whileSource (.tag (by decide))
  have hsubmit := submit_of_run Uuid.nil Timestamp.zero hexamine (Traffic.run_of_product hrun) rfl
    (by simp [whileService, Traffic.unused, Cache.get?])
  refine ⟨p, hrun, ?_⟩
  rw [whileCalls, after, after, Call.after, hsubmit]

/-- The source `while` submitted again: the outcome is in the cache. -/
theorem record_of_product_while :
    (after whileService whileCalls).hit Timestamp.zero Traffic.whileSource ∧ ∃ p o r s',
      Pipeline.run (after whileService whileCalls).grammar false "while" = .ok p ∧
      (Outcome.ofProduct p).copy? = some o ∧
      (submit ⟨replicate 16 1⟩ Timestamp.zero Traffic.whileSource).run
        (after whileService whileCalls) = (.ok r, s') ∧
      r.output = o.output ∧ r.output = p.output ∧ lookup s' r.id = .ok r := by
  obtain ⟨p, hrun, hafter⟩ := exists_after_whileCalls
  have hmiss : whileService.hit Timestamp.zero Traffic.whileSource = false := rfl
  have hhit : (after whileService whileCalls).hit Timestamp.zero Traffic.whileSource := by
    have hcache : (after whileService whileCalls).cache = whileService.cache.set Timestamp.zero
        (cacheKey (whileService.job Traffic.whileSource).digest) (.ofProduct p) := by
      rw [hafter, recorded, noted, hmiss]
      rfl
    have hjob : (after whileService whileCalls).job Traffic.whileSource =
        whileService.job Traffic.whileSource := by
      rw [hafter]
      rfl
    rw [hit, hjob, hcache]
    simp [Cache.get?, Cache.set, Cache.Entry.expired, whileService, Traffic.unused]
  have hcalls : ∀ c ∈ whileCalls, c.Supplied := by simp [whileCalls, Call.Supplied]
  have hjobs : ∀ j ∈ hashed whileService whileCalls,
      j = (after whileService whileCalls).job Traffic.whileSource := by
    intro j hj
    have hcalls : hashed whileService whileCalls =
        (Call.submit Uuid.nil Timestamp.zero Traffic.whileSource).hashed whileService ++ [] := rfl
    rw [hcalls, append_nil] at hj
    rw [eq_of_mem_hashed hj, hafter]
    rfl
  have hexamine : examine (after whileService whileCalls).maxBytes Traffic.whileSource = .ok () := by
    rw [hafter, examine, Traffic.faults_whileSource]
    rfl
  have hfresh : ∀ x ∈ (after whileService whileCalls).archive.memory.records,
      x.id ≠ ⟨replicate 16 1⟩ := by
    rw [hafter]
    intro x hx
    obtain rfl := mem_singleton.1 hx
    exact (by decide : Uuid.nil ≠ ⟨replicate 16 1⟩)
  have hfaults : (after whileService whileCalls).archive.createFault = none ∧
      (after whileService whileCalls).archive.findFault = none := by
    rw [hafter]
    exact ⟨rfl, rfl⟩
  have hagain : Pipeline.run (after whileService whileCalls).grammar false "while" = .ok p := by
    rw [hafter]
    exact hrun
  obtain ⟨o, r, s', hcopy, hsubmit, ho, -, -, houtput, hlookup⟩ :=
    record_of_product whileService rfl Traffic.loaded_while whileCalls hcalls ⟨replicate 16 1⟩
      Timestamp.zero Traffic.whileSource p (fun _ j hj _ => hjobs j hj) hexamine hfaults.1 hfaults.2
      hfresh hagain
  refine ⟨hhit, p, o, r, s', hagain, hcopy, hsubmit, ho, ?_, hlookup [] (by simp) ?_⟩
  · exact houtput (isUtf8_of_ascii (by decide))
  · rw [hafter]
    exact .inl (Int.le_refl 0)

/-- A grammar of programs whose main function is a single character. -/
def letters : Grammar := .ofAlternatives
  [(program, [classBody]), (classBody, [member]),
    (member, [mainFunc]), (mainFunc, [codeBlock]),
    (codeBlock, ["char_literal"])]

def brokenLetter : Text := [39, 0xFF, 39]

def letterTree : Tree :=
  .branch program [.branch classBody [.branch member
    [.branch mainFunc [.branch codeBlock
      [.leaf ⟨"char_literal", brokenLetter, 1, 1⟩]]]]]

theorem letterTree_parses : letters.Parses program letterTree := by
  have hstep (n : Nat) (l l' : Symbol) {c : Tree} (hr : ⟨n, l, [l']⟩ ∈ letters.rules)
      (htag : letters.isTag l = false) (hc : letters.Parses l' c) :
      letters.Parses l (.branch l [c]) :=
    @Grammar.Parses.rule letters ⟨n, l, [l']⟩ [c] hr htag (.cons hc .nil)
  refine hstep 1 program classBody (by decide) (by decide) ?_
  refine hstep 2 classBody member (by decide) (by decide) ?_
  refine hstep 3 member mainFunc (by decide) (by decide) ?_
  refine hstep 4 mainFunc codeBlock (by decide) (by decide) ?_
  exact .tag (by decide)

theorem read_letters : readGrammar letters.render = .ok letters := by decide +kernel

def letterHead : Text := "#include <iostream>\n\nvoid main(int argc, char *argv[])'"

theorem exists_run_brokenLetter : ∃ p, Pipeline.run letters false brokenLetter = .ok p ∧
    p.output = letterHead ++ [0xFF, 39, 10] := by
  have hwf := Grammar.load_wellFormed (load_of_readGrammar read_letters)
  have hfree : ∀ r ∈ letters.rules, ¬ r.Mentions Chart.top := by
    unfold Grammar.Rule.Mentions
    decide
  have hdet : letters.determinate (fun _ => []) 10 = true := by decide
  have htokens : Java.tokenize brokenLetter = .ok [⟨"char_literal", brokenLetter, 1, 1⟩] :=
    Java.tokenize_of_mem (by simp [Java.firstMatches, brokenLetter]) (by decide) (by decide +kernel)
  have htree : (Chart.ofTokens letters [⟨"char_literal", brokenLetter, 1, 1⟩]).tree? = some letterTree := by
    refine (Chart.tree?_eq_some hwf hfree (Grammar.unambiguous_of_determinate hwf hdet)).2 ⟨?_, ?_⟩
    · exact Pipeline.start_of_readGrammar read_letters ▸ letterTree_parses
    · decide
  have hrejection : (Chart.ofTokens letters [⟨"char_literal", brokenLetter, 1, 1⟩]).rejection? = none := by
    refine (Chart.rejection?_eq_none hwf).2 ?_
    obtain ⟨s, hs, -⟩ := Option.bind_eq_some_iff.1 htree
    rw [hs]
    rfl
  have hgenerate : Cpp.generate letterTree = .ok (letterHead ++ [0xFF, 39, 10]) := by decide +kernel
  rw [Pipeline.run_of_tree htokens hrejection htree, Pipeline.generate, hgenerate]
  exact ⟨_, rfl, rfl⟩

/-- **A character that is not UTF-8 is replaced in the record.** -/
theorem letter_replaced : Loaded letters ∧ ∃ p r s',
    Pipeline.run letters false brokenLetter = .ok p ∧
    (submit Uuid.nil Timestamp.zero { source := brokenLetter, check := some false }).run
      (Traffic.unused letters).service = (.ok r, s') ∧ lookup s' r.id = .ok r ∧
    p.output = letterHead ++ [0xFF, 39, 10] ∧ r.output = letterHead ++ [0xEF, 0xBF, 0xBD, 39, 10] := by
  obtain ⟨p, hrun, hp⟩ := exists_run_brokenLetter
  have hfaults : Submission.faults { source := brokenLetter, check := some false } = [] := by
    rw [Submission.faults, if_neg (by simp [glyphs]), if_neg (by decide)]
    rfl
  have hexamine : examine (Traffic.unused letters).service.maxBytes
      { source := brokenLetter, check := some false } = .ok () := by
    rw [examine, hfaults]
    rfl
  have hsubmit := submit_of_run Uuid.nil Timestamp.zero hexamine (Traffic.run_of_product hrun) rfl
    (by simp [Traffic.unused, Cache.get?])
  refine ⟨⟨_, load_of_readGrammar read_letters⟩, p, _, _, hrun, hsubmit, ?_, hp, ?_⟩
  · exact lookup_of_holds (holds_recorded rfl (by simp [Traffic.unused]))
  · have hhead : isUtf8 letterHead := isUtf8_of_ascii (by decide)
    have hletter : toUtf8 [0xFF, 39, 10] = [0xEF, 0xBF, 0xBD, 39, 10] := by
      have hundecodable : undecodable 0xFF [39, 10] := by decide
      have hrest : toUtf8 [39, 10] = [39, 10] := toUtf8_eq_self (isUtf8_of_ascii (by decide))
      have hdrop : ([39, 10] : Text).drop (decodeHead 0xFF [39, 10]).2 = [39, 10] := by decide
      rw [toUtf8_cons, if_pos hundecodable, hdrop, hrest]
      decide
    have houtput : toUtf8 p.output = letterHead ++ [0xEF, 0xBF, 0xBD, 39, 10] := by
      rw [hp, toUtf8, glyphs_append_of_isUtf8 hhead, flatMap_append, ← toUtf8,
        ← toUtf8, toUtf8_eq_self hhead, hletter]
    exact houtput

end Service

end JavaToCpp
