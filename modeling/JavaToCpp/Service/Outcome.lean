/-
  Outcomes of runs.

  An outcome is what a record keeps of a run.  A fault that a stage reports is an outcome too;
  only other faults are errors.  Outcomes are kept as JSON, so bytes that are not UTF-8 do not
  survive.
-/
import JavaToCpp.Json.Fields
import JavaToCpp.Pipeline.Basic
import JavaToCpp.Record.Basic
import JavaToCpp.Text.Literal

namespace JavaToCpp.Service

structure Outcome where
  output : Text := []
  status : Text
  errorStage : Text := []
  errorKind : Text := []
  errorLine : Int := 0
  errorMessage : Text := []
  stats : Json.Map := []
deriving Repr

namespace Outcome

def statsOf (p : Pipeline.Product) : Json.Map :=
  [("sets", .nat p.sets), ("states", .nat p.states), ("tokens", .nat p.tokens)]

def ofProduct (p : Pipeline.Product) : Outcome :=
  { output := p.output, status := Record.success, stats := statsOf p }

def ofReport (f : Pipeline.Fault) (r : Pipeline.Report) : Outcome :=
  { status := Record.failed, errorStage := r.stage.name, errorKind := r.kind,
    errorLine := r.line, errorMessage := f.describe }

/-- The outcome of a run; an error if it ended in a fault that no stage reports. -/
def run (g : Grammar) (source : Text) (checked : Bool) : Except Pipeline.Fault Outcome :=
  match Pipeline.run g checked source with
  | .ok p => .ok (ofProduct p)
  | .error f =>
    match f.report? with
    | some r => .ok (ofReport f r)
    | none => .error f

/-! ## Outcomes in JSON -/

def fields : List Text :=
  ["output", "status", "error_stage", "error_kind", "error_line", "error_message", "stats"]

def toJson (o : Outcome) : Json :=
  .object [("output", .string o.output), ("status", .string o.status),
    ("error_stage", .string o.errorStage), ("error_kind", .string o.errorKind),
    ("error_line", .int o.errorLine), ("error_message", .string o.errorMessage),
    ("stats", .object o.stats)]

/-- The line of an error; a null leaves the one before. -/
def readLine (before : Int) : Json → Option Int
  | .null => some before
  | .number literal => Text.toInt? literal
  | _ => none

/-- The numbers of a run; a null has none. -/
def readStats : Json → Option Json.Map
  | .null => some []
  | .object members => some members
  | _ => none

def readField (o : Outcome) (field : Text) (v : Json) : Option Outcome :=
  if field = Text.ofString "output" then (Json.readText o.output v).map ({ o with output := · })
  else if field = Text.ofString "status" then (Json.readText o.status v).map ({ o with status := · })
  else if field = Text.ofString "error_stage" then
    (Json.readText o.errorStage v).map ({ o with errorStage := · })
  else if field = Text.ofString "error_kind" then
    (Json.readText o.errorKind v).map ({ o with errorKind := · })
  else if field = Text.ofString "error_line" then
    (readLine o.errorLine v).map ({ o with errorLine := · })
  else if field = Text.ofString "error_message" then
    (Json.readText o.errorMessage v).map ({ o with errorMessage := · })
  else (readStats v).map ({ o with stats := · })

def ofJson? (v : Json) : Option Outcome := Json.readFields fields { status := [] } readField v

/-- The outcome written as JSON and read again. -/
def copy? (o : Outcome) : Option Outcome := (Json.read (Json.write o.toJson)).toOption.bind ofJson?

/-- What comes back of an outcome that is kept. -/
def reread (o : Outcome) : Outcome :=
  { o with
    output := Text.toUtf8 o.output
    errorKind := Text.toUtf8 o.errorKind
    errorMessage := Text.toUtf8 o.errorMessage }

end Outcome

end JavaToCpp.Service
