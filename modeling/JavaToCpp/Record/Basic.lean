/-
  Records of runs.

  A record keeps the source of a run with what came out of it: the output, or the stage, kind,
  line and text of the fault.  A query asks for the records that have given values and lie between
  two points in time, newest first, one page of them.
-/
import JavaToCpp.Json.Map
import JavaToCpp.Record.Uuid
import JavaToCpp.Time.Timestamp

namespace JavaToCpp

structure Record where
  id : Uuid := Uuid.nil
  sourceName : Text := []
  source : Text := []
  digest : Text := []
  output : Text := []
  checked : Bool := false
  status : Text := []
  errorStage : Text := []
  errorKind : Text := []
  errorLine : Int := 0
  errorMessage : Text := []
  stats : Option Json.Map := none
  requestId : Text := []
  clientAddress : Text := []
  userAgent : Text := []
  created : Timestamp := Timestamp.zero
  updated : Timestamp := Timestamp.zero
deriving Repr, Inhabited

namespace Record

def success : Text := "success"

def failed : Text := "failed"

def succeeded (r : Record) : Bool := r.status == success

/-- The record as it is stored: with an identifier, a time of creation and one of change. -/
def completed (r : Record) (fresh : Uuid) (now : Timestamp) : Record :=
  { r with
    id := if r.id = Uuid.nil then fresh else r.id
    created := if r.created = Timestamp.zero then now else r.created
    updated := now }

end Record

/-- What records are asked for; an empty text asks for nothing. -/
structure Query where
  status : Text := []
  stage : Text := []
  name : Text := []
  digest : Text := []
  start : Option Timestamp := none
  stop : Option Timestamp := none
  limit : Int := 0
  offset : Int := 0
deriving DecidableEq, Repr, Inhabited

namespace Query

/-- A bound, unless it is the point that stands for no time. -/
def bound (t : Timestamp) : Option Timestamp := if t = Timestamp.zero then none else some t

def defaultLimit : Nat := 100

def pageSize (q : Query) : Nat := if 0 < q.limit then q.limit.toNat else defaultLimit

def agrees (wanted value : Text) : Bool := wanted.isEmpty || wanted == value

def admits (q : Query) (r : Record) : Bool :=
  agrees q.status r.status && agrees q.stage r.errorStage && agrees q.name r.sourceName &&
    agrees q.digest r.digest && q.start.all (· ≤ r.created) && q.stop.all (r.created ≤ ·)

def matching (q : Query) (records : List Record) : List Record :=
  (records.filter q.admits).mergeSort fun a b => b.created ≤ a.created

def page (q : Query) (offset : Nat) (records : List Record) : List Record × Nat :=
  let found := q.matching records
  ((found.drop offset).take q.pageSize, found.length)

end Query

end JavaToCpp
