/-
  Starting the server.

  The server reads its grammar, then sets up the database, if there is one, and loads the grammar
  that is stored there, and then listens.  The first step that fails ends it.
-/
import JavaToCpp.Log.Line
import JavaToCpp.Migration.Reader
import JavaToCpp.Pipeline.File
import JavaToCpp.Record.Table
import JavaToCpp.Server.Address
import JavaToCpp.Service.Grammar
import JavaToCpp.Settings.Basic

namespace JavaToCpp.Server

structure Database where
  store : Except Text Store
  /-- why there are no connections that read the grammar, if there are none -/
  readerFault : Option Text

inductive StartFault where
  | grammar (f : Pipeline.GrammarFailure)
  | connect (message : Text)
  | records (f : Record.Table.Failure)
  | schema (e : Store.Event)
  | reader (message : Text)
  | sync (e : Service.SyncError)
  | listen (f : AddressFault)
deriving Repr

def wording : Store.Wording := .coded

def StartFault.message : StartFault → Text
  | grammar f => "creating translator: " ++ f.message
  | connect message => "setting up database: connecting to database: " ++ message
  | records f => f.message wording
  | schema e => "initializing grammar schema: " ++ wording.describe e
  | reader message => "opening grammar store: failed to create connection pool: " ++ message
  | sync e => "loading stored grammar: " ++ e.message
  | listen f => "server error: " ++ f.message

def memoryBound : Nat := 1000

def memoryLine : LogLine :=
  { level := .warn, message := "database disabled, translation history is kept in memory"
    fields := [("limit", .nat memoryBound)] }

def listenLine (s : Settings) : LogLine :=
  { level := .info, message := "server starting"
    fields := [("port", .string s.serverPort), ("database", .bool s.database.enabled)] }

def syncLine (version : Int) : LogLine :=
  { level := .info, message := "grammar synced", fields := [("version", .int version)] }

def sourceFailure : Migration.Reader.Failure → Service.SourceFailure
  | .none => .none
  | f => .failed (f.message wording)

def prepare (readerFault : Option Text) :
    Store.Action StartFault (Except Service.SourceFailure (Grammar × Int)) := do
  ExceptT.adapt .records Record.Table.prepare
  ExceptT.adapt .schema Migration.prepare
  match readerFault with
  | some message => throw (.reader message)
  | none => fun s =>
    let (r, s) := (({} : Migration.Reader).active).run s
    (.ok ((r.map fun (g, v, _) => (g, v)).mapError sourceFailure), s)

def setUp (db : Database) : Except StartFault (Option Int) × Option Store :=
  match db.store with
  | .error message => (.error (.connect message), none)
  | .ok store =>
    let (r, store) := (prepare db.readerFault).run store
    (r.bind fun
      | .ok (_, version) => .ok (if version = 0 then none else some version)
      | .error .none => .ok none
      | .error (.invalid e) => .error (.sync (.invalid e))
      | .error (.failed message) => .error (.sync (.failed message)), some store)

def listen (s : Settings) (log : Log) : Except StartFault Unit × Log :=
  (match fault? s.serverPort with
    | some f => .error (.listen f)
    | none => .ok (), log.add (listenLine s))

/-- Starts a server: the failure, if there is one before requests are served, the log, and the store
    if there is a connection to it. -/
def start (s : Settings) (d : Directory) (db : Database) :
    Except StartFault Unit × Log × Option Store :=
  let log : Log := { threshold := Level.ofSetting s.logLevel }
  match Pipeline.grammarAt d s.grammarPath with
  | .error f => (.error (.grammar f), log, none)
  | .ok _ =>
    if s.database.enabled then
      match setUp db with
      | (.error f, store) => (.error f, log, store)
      | (.ok version, store) =>
        let log := (version.map fun v => log.add (syncLine v)).getD log
        let (r, log) := listen s log
        (r, log, store)
    else
      let (r, log) := listen s (log.add memoryLine)
      (r, log, none)

end JavaToCpp.Server
