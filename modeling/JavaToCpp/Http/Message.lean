/-
  Requests and responses.
-/
import JavaToCpp.Http.Multipart
import JavaToCpp.Json.Fields
import JavaToCpp.Number.Word
import JavaToCpp.Service.Submit
import JavaToCpp.Text.Literal

namespace JavaToCpp.Http

structure Request where
  method : Text
  target : Target
  headers : List (Text × Text) := []
  body : Text := []
  clientAddress : Text := []
deriving Repr

structure Response where
  status : Nat
  contentType : Text
  body : Text
deriving DecidableEq, Repr

/-- The value of a header, empty without it; its name is found in any case. -/
def Request.header (r : Request) (name : String) : Text :=
  ((r.headers.find? fun h => Text.lower h.1 == Text.lower name).map Prod.snd).getD []

namespace Response

def json (status : Nat) (v : Json) : Response := ⟨status, "application/json", v.write ++ "\n"⟩

def error (status : Nat) (message : Text) : Response :=
  json status (.object [("ok", .bool false), ("error", .string message)])

def errorWithCode (status : Nat) (code message : Text) : Response :=
  json status (.object [("ok", .bool false), ("error", .string message), ("error_code", .string code)])

def notFound : Response := ⟨404, "text/plain; charset=utf-8", "404 page not found\n"⟩

def wrongMethod : Response := ⟨405, [], []⟩

end Response

/-! ## Bodies -/

inductive BodyFault where
  | tooLarge
  | unsupported
  | invalid
deriving DecidableEq, Repr

/-- How many bytes of a body are read for sources of a given size: there is room for what is
    around a source.  Without a bound on sources there is none on bodies; one that does not fit a
    word leaves no room. -/
def bodyLimit (maxBytes : Int) : Option Nat :=
  if 0 < maxBytes then some (toWord (2 * maxBytes + 65536)).toNat else none

/-- A body as far as it is read, and whether there is more. -/
def readable (limit : Option Nat) (body : Text) : Text × Bool :=
  match limit with
  | none => (body, false)
  | some n => (body.take n, !(body.drop n).isEmpty)

def isContainer : Json → Bool
  | .object _ => true
  | .array _ => true
  | _ => false

/-- The first JSON value of a body.  If the body goes on beyond what is read, a value has to be
    seen to end. -/
def readJson (limit : Option Nat) (body : Text) : Except BodyFault Json :=
  let (seen, more) := readable limit body
  match Json.readFirst seen with
  | .ok (v, rest) => if more && rest.isEmpty && !isContainer v then .error .tooLarge else .ok v
  | .error .incomplete => .error (if more then .tooLarge else .invalid)
  | .error .malformed => .error .invalid

def submissionFields : List Text := ["source_name", "source", "check"]

def readSubmissionField (s : Service.Submission) (field : Text) (v : Json) :
    Option Service.Submission :=
  if field = Text.ofString "source_name" then
    (Json.readText s.sourceName v).map fun sourceName => { s with sourceName }
  else if field = Text.ofString "source" then
    (Json.readText s.source v).map fun source => { s with source }
  else (Json.readFlag v).map fun check => { s with check }

def submissionOfJson (v : Json) : Except BodyFault Service.Submission :=
  match Json.readFields submissionFields {} readSubmissionField v with
  | some s => .ok s
  | none => .error .invalid

def uploadField : Text := "upload"

def readCheck (t : Text) : Except BodyFault (Option Bool) :=
  if t.isEmpty then .ok none
  else
    match Text.toBool? t with
    | some b => .ok (some b)
    | none => .error .invalid

/-- The submission in a form.  Values in the query of the request come before those in the body. -/
def submissionOfForm (query : Text) (m : Multipart) : Except BodyFault Service.Submission :=
  if !Form.isProper query then .error .invalid
  else
    match m.files.find? fun f => f.field == uploadField with
    | none => .error .invalid
    | some f =>
      if Pipeline.isSource f.name then do
        let check ← readCheck ((Form.ofQuery query ++ m.values).first "check")
        return { sourceName := f.name, source := f.content, check }
      else .error .unsupported

def formType? (r : Request) : Option MediaType :=
  (MediaType.parse? (r.header "Content-Type")).filter fun m => m.name == Text.ofString "multipart/form-data"

def readSubmission (limit : Option Nat) (r : Request) : Except BodyFault Service.Submission :=
  match formType? r with
  | none => do submissionOfJson (← readJson limit r.body)
  | some m =>
    match m.get? "boundary" with
    | none => .error .invalid
    | some boundary =>
      let (seen, more) := readable limit r.body
      match Multipart.read boundary more seen with
      | .ok form => submissionOfForm r.target.query form
      | .error .incomplete => .error (if more then .tooLarge else .invalid)
      | .error .malformed => .error .invalid

end JavaToCpp.Http
