/-
  Submitted sources.

  A submission is checked for what it must have, run unless the cache has its outcome, and
  recorded.
-/
import JavaToCpp.Pipeline.File
import JavaToCpp.Service.Basic
import JavaToCpp.Service.Digest

namespace JavaToCpp.Service

structure Submission where
  sourceName : Text := []
  source : Text := []
  /-- whether to check; a submission that does not say is checked -/
  check : Option Bool := none
  requestId : Text := []
  clientAddress : Text := []
  userAgent : Text := []
deriving Repr, Inhabited

def Submission.checked (s : Submission) : Bool := s.check.getD true

structure FieldFault where
  field : Text
  rule : Text
deriving DecidableEq, Repr

def FieldFault.message (f : FieldFault) : Text :=
  "Key: 'TranslateInput." ++ f.field ++ "' Error:Field validation for '" ++ f.field ++
    "' failed on the '" ++ f.rule ++ "' tag"

def maxName : Nat := 255

def Submission.faults (s : Submission) : List FieldFault :=
  (if maxName < (Text.glyphs s.sourceName).length then [⟨"SourceName", "max"⟩] else []) ++
    (if s.source.isEmpty then [⟨"Source", "required"⟩] else [])

inductive SubmitError where
  | invalid (faults : List FieldFault)
  | unsupported (name : Text)
  | tooLarge (size : Nat) (limit : Int)
  | faulty (f : Pipeline.Fault)
  | unrecorded (message : Text)
deriving Repr

def SubmitError.message : SubmitError → Text
  | invalid faults => "invalid input: " ++ Text.join "\n" (faults.map FieldFault.message)
  | unsupported name => "unsupported file type: " ++ name
  | tooLarge size limit =>
    "source too large: " ++ Text.decimal size ++ " bytes exceeds " ++ Text.ofInt limit
  | faulty f => "translating source: " ++ f.describe
  | unrecorded message => "storing translation: " ++ message

def examine (maxBytes : Int) (s : Submission) : Except SubmitError Unit :=
  if !s.faults.isEmpty then .error (.invalid s.faults)
  else if !s.sourceName.isEmpty && !Pipeline.isSource s.sourceName then
    .error (.unsupported s.sourceName)
  else if 0 < maxBytes && maxBytes < s.source.length then
    .error (.tooLarge s.source.length maxBytes)
  else .ok ()

def cacheKey (digest : Text) : Text := "translation:" ++ digest

/-- The outcome of a run, from the cache if it has it, and whether it had. -/
def outcome (now : Timestamp) (key source : Text) (checked : Bool) :
    Action Pipeline.Fault (Outcome × Bool) := do
  let s ← get
  match s.cache.get? now key with
  | some o => return (o.reread, true)
  | none =>
    let o ← Outcome.run s.grammar source checked
    set { s with cache := s.cache.set now key o }
    return (o.reread, false)

def recordOf (s : Submission) (digest : Text) (o : Outcome) (cached : Bool) : Record :=
  { sourceName := s.sourceName, source := s.source, digest, output := o.output,
    checked := s.checked, status := o.status, errorStage := o.errorStage,
    errorKind := o.errorKind, errorLine := o.errorLine, errorMessage := o.errorMessage,
    stats := some (Json.put "cached" (.bool cached) o.stats), requestId := s.requestId,
    clientAddress := s.clientAddress, userAgent := s.userAgent }

def keep (r : Record) : Action SubmitError Unit := do
  let s ← get
  match s.archive.createFault with
  | some message => throw (.unrecorded message)
  | none => set { s with archive := { s.archive with memory := s.archive.memory.create r } }

def submit (fresh : Uuid) (now : Timestamp) (sub : Submission) : Action SubmitError Record := do
  let s ← get
  examine s.maxBytes sub
  let d := digest s.grammar.render sub.source sub.checked
  let (o, cached) ← ExceptT.adapt .faulty (outcome now (cacheKey d) sub.source sub.checked)
  let r := (recordOf sub d o cached).completed fresh now
  keep r
  return r

inductive LookupError where
  | missing
  | failed (message : Text)
deriving Repr

def LookupError.message : LookupError → Text
  | missing => "not found"
  | failed message => "getting translation: " ++ message

def lookup (s : Service) (id : Uuid) : Except LookupError Record :=
  match s.archive.findFault with
  | some message => .error (.failed message)
  | none =>
    match s.archive.memory.find? id with
    | some r => .ok r
    | none => .error .missing

inductive ListError where
  | failed (message : Text)
  /-- the offset is below zero -/
  | outOfRange
deriving Repr

def ListError.message : ListError → Text
  | failed message => "listing translations: " ++ message
  | outOfRange => "listing translations: offset out of range"

def list (s : Service) (q : Query) : Except ListError (List Record × Nat) :=
  match s.archive.queryFault with
  | some message => .error (.failed message)
  | none =>
    match s.archive.memory.query? q with
    | some page => .ok page
    | none => .error .outOfRange

end JavaToCpp.Service
