/-
  Requests and their answers on the wire.

  A handler sends a status, texts, and may crash.  Every exchange is logged; a crash is logged and
  answered with an internal error, as far as the answer has not begun.  A handler can also abort,
  which leaves the answer as it is and is passed on.
-/
import JavaToCpp.Log.Line

namespace JavaToCpp.Server

structure Writer where
  /-- the content type that is to be sent -/
  contentType : Text := []
  /-- the status and the content type that were sent -/
  sent : Option (Int × Text) := none
  /-- the status that is noted for the log -/
  noted : Option Int := none
  body : Text := []
deriving Repr, Inhabited

inductive Ending where
  | done
  | crash (message : Text)
  | abort
deriving DecidableEq, Repr

/-- What a handler does: it sends a status unless it is 0, then texts, and ends. -/
structure Handler where
  status : Int
  writes : List Text
  ending : Ending
deriving Repr

namespace Writer

/-- Whether a status only informs, so that another one follows. -/
def informs (status : Int) : Bool := 100 ≤ status && status ≤ 199 && status != 101

/-- Sends a status unless one was sent; a status without three digits is a crash. -/
def send (w : Writer) (status : Int) : Writer × Ending :=
  if w.sent.isSome then (w, .done)
  else if status < 100 || 999 < status then
    (w, .crash ("invalid WriteHeader code " ++ Text.ofInt status))
  else ({ w with sent := some (status, w.contentType) }, .done)

def start (w : Writer) (status : Int) : Writer × Ending :=
  if informs status then w.send status
  else if w.noted.isSome then (w, .done)
  else { w with noted := some status }.send status

/-- Sends a text, after a status of success if there is none. -/
def write (w : Writer) (t : Text) : Writer :=
  let w := (w.start 200).1
  let w := (w.send 200).1
  { w with body := w.body ++ t }

end Writer

def Handler.run (h : Handler) (w : Writer) : Writer × Ending :=
  let (w, ending) := if h.status = 0 then (w, .done) else w.start h.status
  match ending with
  | .done => (h.writes.foldl Writer.write w, h.ending)
  | ending => (w, ending)

def internalError : Text :=
  Json.write (.object [("ok", .bool false), ("error", .string "internal error")])

def recover (w : Writer) : Writer :=
  let w := { w with contentType := "application/json" }
  (w.start 500).1.write internalError

def crashLine (message : Text) : LogLine :=
  { level := .error, message := "panic recovered", fields := [("panic", .string message)] }

def exchangeLine (method path : Text) (w : Writer) : LogLine :=
  let status := w.noted.getD 0
  { level := if 500 ≤ status then .error else .info
    message := "request completed"
    fields := [("method", .string method), ("path", .string path), ("status", .int status),
      ("size", .nat w.body.length)] }

/-- The answer of a handler, none if it aborts, and the log after it. -/
def serve (log : Log) (method path : Text) (h : Handler) : Option Writer × Log :=
  let (w, ending) := h.run {}
  match ending with
  | .done => (some w, log.add (exchangeLine method path w))
  | .abort => (none, log.add (exchangeLine method path w))
  | .crash message =>
    let w := recover w
    (some w, (log.add (crashLine message)).add (exchangeLine method path w))

end JavaToCpp.Server
