/-
  The service over HTTP.

  Sources are submitted to `/api/translations`, where records are listed and looked up.  The
  grammar is at `/api/grammar`; replacing it takes an access token with the right scope.
-/
import JavaToCpp.Access.Token
import JavaToCpp.Http.Message
import JavaToCpp.Service.Grammar

namespace JavaToCpp.Http

/-! ## Routes -/

inductive Route where
  | submit
  | list
  | lookup (id : Text)
  | showGrammar
  | updateGrammar
deriving DecidableEq, Repr

inductive RouteFault where
  | nowhere
  | wrongMethod
deriving DecidableEq, Repr

def knownMethods : List String := [
  "CONNECT", "DELETE", "GET", "HEAD", "OPTIONS", "PATCH", "POST", "PUT", "TRACE"]

def routesAt (path : Text) : List (String × Route) :=
  if path = Text.ofString "/api/translations" || path = Text.ofString "/api/translations/" then
    [("POST", .submit), ("GET", .list)]
  else if path = Text.ofString "/api/grammar" then
    [("GET", .showGrammar), ("PUT", .updateGrammar)]
  else
    match Text.stripPrefix? "/api/translations/" path with
    | some id => if id.contains (Text.byte '/') then [] else [("GET", .lookup id)]
    | none => []

def route? (method path : Text) : Except RouteFault Route :=
  if !knownMethods.any (fun m => Text.ofString m == method) then .error .wrongMethod
  else if (routesAt path).isEmpty then .error .nowhere
  else
    match (routesAt path).find? fun r => Text.ofString r.1 == method with
    | some r => .ok r.2
    | none => .error .wrongMethod

/-! ## Records as JSON -/

/-- A member for a text, none for an empty one. -/
def unlessEmpty (name : String) (t : Text) : List (Text × Json) :=
  if t.isEmpty then [] else [(Text.ofString name, .string t)]

/-- A member for a number, none for 0. -/
def unlessZero (name : String) (n : Int) : List (Text × Json) :=
  if n = 0 then [] else [(Text.ofString name, .int n)]

def member (name : String) (v : Json) : List (Text × Json) := [(Text.ofString name, v)]

def recordJson (r : Record) : Json :=
  .object (member "id" (.string r.id.toText) ++ member "source_name" (.string r.sourceName) ++
    member "source" (.string r.source) ++ member "source_digest" (.string r.digest) ++
    member "output" (.string r.output) ++ member "checked" (.bool r.checked) ++
    member "status" (.string r.status) ++ unlessEmpty "error_stage" r.errorStage ++
    unlessEmpty "error_kind" r.errorKind ++ unlessZero "error_line" r.errorLine ++
    unlessEmpty "error_message" r.errorMessage ++
    member "stats" ((r.stats.map .object).getD .null) ++
    member "request_id" (.string r.requestId) ++ member "client_ip" (.string r.clientAddress) ++
    member "user_agent" (.string r.userAgent) ++
    member "created_at" (.string (Timestamp.toText r.created)) ++
    member "updated_at" (.string (Timestamp.toText r.updated)))

def numberedLines (output : Text) : List Json :=
  if output.isEmpty then []
  else
    ((Text.stripSuffix "\n" output).splitOnP (· == Text.newline)).zipIdx.map fun (l, i) =>
      .object [("index", .nat (i + 1)), ("line", .string l)]

/-- What is shown beside a record: its lines, or the fault that ended the run. -/
def recordDetails (r : Record) : List (Text × Json) :=
  if r.succeeded then
    if (numberedLines r.output).isEmpty then [] else member "lines" (.array (numberedLines r.output))
  else
    member "stage_error" (.object (member "stage" (.string r.errorStage) ++
      unlessEmpty "kind" r.errorKind ++ member "line" (.int r.errorLine) ++
      member "message" (.string r.errorMessage)))

def recordResponse (status : Nat) (r : Record) : Response :=
  .json status (.object (member "ok" (.bool r.succeeded) ++ member "translation" (recordJson r) ++
    recordDetails r))

/-! ## Handlers -/

abbrev Handler := StateM Service (Option Response)

def submit (fresh : Uuid) (now : Timestamp) (r : Request) : Handler := do
  match readSubmission (bodyLimit (← get).maxBytes) r with
  | .error .tooLarge => return some (.error 413 "Request body too large")
  | .error .unsupported => return some (.error 415 "unsupported file type")
  | .error .invalid => return some (.error 400 "Invalid request payload")
  | .ok sub =>
    let sub := { sub with clientAddress := r.clientAddress, userAgent := r.header "User-Agent" }
    match ← (Service.submit fresh now sub).run with
    | .ok record => return some (recordResponse (if record.succeeded then 201 else 422) record)
    | .error (.invalid f) => return some (.error 400 (Service.SubmitError.invalid f).message)
    | .error (.unsupported n) => return some (.error 415 (Service.SubmitError.unsupported n).message)
    | .error (.tooLarge n l) => return some (.error 413 (Service.SubmitError.tooLarge n l).message)
    | .error (.faulty .missing) => return none
    | .error _ => return some (.error 500 "Internal server error")

/-- A number of a form, 0 if it is not one or too small. -/
def countOf (f : Form) (name : String) (least : Int) : Int :=
  ((Text.toInt? (f.first name)).filter fun n => least ≤ n).getD 0

def boundOf (f : Form) (name : String) : Option Timestamp :=
  (Timestamp.parse? (f.first name)).bind Query.bound

def queryOf (f : Form) : Query :=
  { status := f.first "status", stage := f.first "stage", name := f.first "source_name"
    digest := f.first "digest", start := boundOf f "start_time", stop := boundOf f "end_time"
    limit := countOf f "limit" 1, offset := countOf f "offset" 0 }

def list (r : Request) : Handler := do
  match (← get).list (queryOf (Form.ofQuery r.target.query)) with
  | .ok (records, total) =>
    return some (.json 200 (.object [("ok", .bool true),
      ("translations", .array (records.map recordJson)), ("total", .nat total)]))
  | .error _ => return some (.error 500 "Failed to retrieve translations")

def lookup (id : Text) : Handler := do
  match Uuid.parse? id with
  | none => return some (.error 400 "Invalid translation ID format")
  | some id =>
    match (← get).lookup id with
    | .ok record => return some (recordResponse 200 record)
    | .error .missing => return some (.error 404 "Translation not found")
    | .error _ => return some (.error 500 "Failed to retrieve translation")

def showGrammar : Handler := do
  let c := (← get).current
  return some (.json 200 (.object [("ok", .bool true), ("version", .int c.version),
    ("start", .string c.start), ("nonterminals", .array (c.nonterminals.map .string)),
    ("text", .string c.text)]))

def authenticate (secret : Text) (now : Timestamp) (header : Text) : Except Response Text :=
  if header.isEmpty then .error (.error 401 "No authorization header")
  else
    match Text.cut? " " header with
    | none => .error (.error 401 "Invalid authorization header")
    | some (kind, token) =>
      if Text.lower kind != Text.ofString "bearer" || token.isEmpty then
        .error (.error 401 "Invalid authorization header")
      else
        match Access.authorize secret now token Access.grammarAdmin with
        | .ok claims => .ok claims.subject
        | .error (.invalid _) => .error (.error 401 "Invalid token")
        | .error (.noScope _) => .error (.error 403 "Insufficient scope")

structure GrammarUpdate where
  text : Text := []
  description : Text := []

def readUpdateField (u : GrammarUpdate) (field : Text) (v : Json) : Option GrammarUpdate :=
  if field = Text.ofString "text" then (Json.readText u.text v).map fun text => { u with text }
  else (Json.readText u.description v).map fun description => { u with description }

def readUpdate (body : Text) : Option GrammarUpdate :=
  (readJson none body).toOption.bind
    (Json.readFields ["text", "description"] {} readUpdateField)

def updateGrammar (subject : Text) (r : Request) : Handler := do
  match readUpdate r.body with
  | none => return some (.error 400 "Invalid request payload")
  | some u =>
    let description := if u.description.isEmpty then "updated by " ++ subject else u.description
    match ← (Service.update u.text description).run with
    | .ok a =>
      return some (.json 200 (.object [("ok", .bool true), ("version", .int a.version),
        ("diff", .string a.diff), ("changed", .bool a.changed)]))
    | .error .empty => return some (.error 400 "Grammar text is required")
    | .error (.invalid e) =>
      return some (.errorWithCode 400 "invalid_grammar" (Service.UpdateError.invalid e).message)
    | .error .noStart =>
      return some (.errorWithCode 400 "invalid_grammar" Service.UpdateError.noStart.message)
    | .error _ => return some (.error 500 "Internal server error")

def handle (secret : Text) (fresh : Uuid) (now : Timestamp) (r : Request) : Handler :=
  match route? r.method r.target.route with
  | .error .nowhere => return some .notFound
  | .error .wrongMethod => return some .wrongMethod
  | .ok .submit => submit fresh now r
  | .ok .list => list r
  | .ok (.lookup id) => lookup id
  | .ok .showGrammar => showGrammar
  | .ok .updateGrammar =>
    match authenticate secret now (r.header "Authorization") with
    | .ok subject => updateGrammar subject r
    | .error response => return some response

end JavaToCpp.Http
