/-
  Running commands.

  A command reads its source from a file or from the standard input, takes the grammar from a file
  or the one that is built in, and prints what a stage gives.  The commands on versions of the
  grammar work on a store.
-/
import JavaToCpp.Access.Token
import JavaToCpp.Command.Complete
import JavaToCpp.Migration.Basic
import JavaToCpp.Pipeline.File
import JavaToCpp.Settings.Connection

namespace JavaToCpp.Command

structure Timings where
  lex : Text
  parse : Text
  check : Text
  generate : Text
deriving Repr

structure Setting where
  settings : Settings
  input : Text := []
  now : Timestamp
  timings : Timings
  /-- the store that a connection text leads to, or why there is none -/
  connect : Text → Except Text Store

structure World where
  out : Text := []
  err : Text := []
  directory : Directory := {}
  /-- the store after a connection to it -/
  store : Option Store := none
deriving Repr

inductive Failure where
  | fault (f : Pipeline.Fault)
  | message (t : Text)
deriving Repr

def Failure.describe : Failure → Text
  | fault f =>
    match f.report? with
    | some r => r.stage.name ++ " error in line " ++ Text.ofInt r.line ++ ": " ++ r.message
    | none => "error: " ++ f.describe
  | message t => "error: " ++ t

abbrev Action := ExceptT Failure (StateM World)

def print (t : Text) : Action Unit := modify fun w => { w with out := w.out ++ t }

def printError (t : Text) : Action Unit := modify fun w => { w with err := w.err ++ t }

def printLine (t : Text) : Action Unit := print (t ++ "\n")

def orFail {ε α : Type} (message : ε → Text) : Except ε α → Action α
  | .ok a => return a
  | .error e => throw (.message (message e))

def orFault {α : Type} : Except Pipeline.Fault α → Action α
  | .ok a => return a
  | .error f => throw (.fault f)

structure Call where
  setting : Setting
  parsed : Parsed

namespace Call

variable (c : Call)

/-- The path of the grammar, empty for the one that is built in. -/
def grammarPath : Text := c.parsed.text (.grammar c.setting.settings.grammarPath)

def isVerbose : Bool := c.parsed.isOn .verbose

def file : Text := c.parsed.rest.head?.getD []

def source : Action Text := do
  if c.file = [Text.byte '-'] then return c.setting.input
  orFail Pipeline.SourceFailure.message (Pipeline.sourceAt (← get).directory c.file)

def grammar : Action Grammar := do
  orFail Pipeline.GrammarFailure.message (Pipeline.grammarAt (← get).directory c.grammarPath)

/-! ## Stages -/

def tokenLine (t : Token) : Text :=
  Text.padLeft 4 (Text.ofInt t.line) ++ "  " ++ Text.padRight 18 t.category ++ " " ++ t.text ++ "\n"

def tokens : Action Unit := do
  let source ← c.source
  let _ ← c.grammar
  let ts ← orFault (Pipeline.tokens source)
  print (ts.flatMap tokenLine)
  if c.isVerbose then printLine (Text.decimal ts.length ++ " tokens")

def tree : Action Unit := do
  let source ← c.source
  let t ← orFault (Pipeline.parse (← c.grammar) source)
  print (← orFault (t.outline.mapError fun _ => Pipeline.Fault.missing))

def chartLine (chart : Chart) : Text :=
  Text.decimal chart.tokens.length ++ " tokens, " ++ Text.decimal chart.sets.length ++ " sets, " ++
    Text.decimal chart.size ++ " states"

/-- Prints the chart of a source, also of one that is rejected. -/
def chart : Action Unit := do
  let source ← c.source
  let chart ← orFault (Pipeline.chart (← c.grammar) source)
  print chart.describe
  printLine (chartLine chart)
  let _ ← orFault (Pipeline.treeOf chart)

def check : Action Unit := do
  let source ← c.source
  orFault (Pipeline.check (← c.grammar) source)
  printLine "OK"

def productLine (p : Pipeline.Product) : Text :=
  let t := c.setting.timings
  "tokens=" ++ Text.decimal p.tokens ++ " states=" ++ Text.decimal p.states ++ " lex=" ++ t.lex ++
    " parse=" ++ t.parse ++ " check=" ++ t.check ++ " generate=" ++ t.generate ++ "\n"

def writeFile (path content : Text) : Action Unit := do
  let w ← get
  let d ← orFail (fun (f : Directory.Failure) => "failed to write output: " ++ f.message)
    (w.directory.write path content)
  set { w with directory := d }

def transpile : Action Unit := do
  let source ← c.source
  let p ← orFault (Pipeline.run (← c.grammar) (!c.parsed.isOn .noCheck) source)
  if c.isVerbose then printError (c.productLine p)
  let output := c.parsed.text .output
  if output.isEmpty then print p.output
  else if output = c.file then throw (.message "output would overwrite the source file")
  else
    writeFile output p.output
    printLine ("Wrote " ++ output)

/-! ## Versions of the grammar -/

def showGrammar : Action Unit := do
  let g ← c.grammar
  print g.render
  if c.isVerbose then
    print ("\n# " ++ Text.decimal g.nonterminals.length ++ " nonterminals, " ++
      Text.decimal g.terminals.length ++ " terminals\n")

/-- The connection text that is given, or that of the settings if they have a database. -/
def connection : Text :=
  let given := c.parsed.text .db
  if given.isEmpty && c.setting.settings.database.enabled then c.setting.settings.database.url
  else given

def connect : Action Unit := do
  if c.connection.isEmpty then throw (.message "database connection string is required (--db)")
  let store ← orFail (fun message => "failed to connect to database: " ++ message)
    (c.setting.connect c.connection)
  modify fun w => { w with store := some store }

def wording : Store.Wording := .tagged

def onStore {ε α : Type} (message : ε → Text) (a : Store.Action ε α) : Action α := do
  let w ← get
  let (r, store) := a.run (w.store.getD {})
  set { w with store := some store }
  orFail message r

def diffGrammar : Action Unit := do
  let g ← c.grammar
  c.connect
  let current ← onStore
    (fun (e : Migration.LoadFailure) => "failed to load current grammar: " ++ e.message wording)
    Migration.load
  printLine (Grammar.Diff.between current (some g)).describe

def grammarSource : Text :=
  if c.grammarPath.isEmpty then "embedded" else Path.base c.grammarPath

def description : Text :=
  let given := c.parsed.text .description
  if given.isEmpty then
    "Migration from " ++ c.grammarSource ++ " at " ++
      Timestamp.toText (c.setting.now.fdiv Duration.second * Duration.second)
  else given

def latestVersion : Action Int :=
  onStore (fun e => "failed to get current version: " ++ wording.describe e) Store.version

def migrateGrammar : Action Unit := do
  let g ← c.grammar
  c.connect
  onStore (fun e => "failed to initialize schema: " ++ wording.describe e) Migration.prepare
  let diff ← onStore
    (fun (f : Migration.Failure) => "failed to apply migration: " ++ f.message wording)
    (Migration.apply wording g c.description c.grammarSource)
  match diff with
  | none => printLine Migration.noChanges
  | some diff =>
    printLine "Migration applied successfully"
    if c.isVerbose then print ("\nChanges:\n" ++ diff ++ "\n")
    printLine ("Current version: " ++ Text.ofInt (← latestVersion))

def versionLines (v : Store.Version) : Text :=
  "Version " ++ Text.ofInt v.number ++ " (applied " ++ Timestamp.toText v.applied ++ ")\n  Source: " ++
    v.sourceFile ++ "\n  Description: " ++ v.description ++ "\n\n"

/-- Prints the latest version, and all of them if more is to be printed. -/
def showVersion : Action Unit := do
  c.connect
  printLine ("Current grammar version: " ++ Text.ofInt (← latestVersion))
  if c.isVerbose then
    let versions ← onStore (fun (f : Migration.ListFailure) => f.message wording) Migration.versions
    print ("\nVersion history:\n----------------\n" ++ versions.flatMap versionLines)

/-! ## Tokens of access -/

def mint : Action Unit := do
  let s := c.setting.settings
  let given := (Duration.parse (c.parsed.text .expiry)).toOption.getD 0
  let span := if given ≤ 0 then s.tokenSpan else given
  printLine (Access.Token.issue s.secret span c.setting.now (c.parsed.text .subject)
    [Access.grammarAdmin])

end Call

/-! ## Commands -/

def actions : List (List Text × (Call → Action Unit)) := [
  (["tokens"], Call.tokens), (["tree"], Call.tree), (["chart"], Call.chart),
  (["check"], Call.check), (["translate"], Call.transpile), (["token"], Call.mint),
  (["grammar", "show"], Call.showGrammar), (["grammar", "diff"], Call.diffGrammar),
  (["grammar", "migrate"], Call.migrateGrammar), (["grammar", "version"], Call.showVersion)]

def topics (args : List Text) : Text :=
  "[" ++ Text.join " " (args.map Text.backquoted) ++ "]"

def helpOn (globals : List Flag) (args : List Text) : Action Unit :=
  match find globals args with
  | .ok (s, _) => print (help globals s)
  | .error _ => print ("Unknown help topic " ++ topics args ++ "\n" ++ usage globals false root)

def checkArity (s : Spec) (args : List Text) : Action Unit :=
  match s.arity, args with
  | .none, name :: _ => throw (.message (unknownCommand name s))
  | .one, args =>
    if args.length = 1 then return ()
    else throw (.message ("accepts 1 arg(s), received " ++ Text.decimal args.length))
  | _, _ => return ()

def runSpec (setting : Setting) (globals : List Flag) (s : Spec) (args : List Text) :
    Action Unit := do
  let helpFlag := helpFlag s.name
  let parsed ← orFail FlagError.message (parse (s.flags ++ globals ++ [helpFlag]) args)
  if parsed.isOn helpFlag || !s.runs then print (help globals s)
  else
    checkArity s parsed.rest
    match actions.find? fun a => a.1 == s.path with
    | some (_, action) => action ⟨setting, parsed⟩
    | none => helpOn globals parsed.rest

def call? (setting : Setting) (args : List Text) : Option (Spec × Call) := do
  let globals := globalFlags setting.settings.grammarPath
  let (s, rest) ← (find globals args).toOption
  let parsed ← (parse (s.flags ++ globals ++ [helpFlag s.name]) rest).toOption
  return (s, ⟨setting, parsed⟩)

def Call.paths (c : Call) : List Text :=
  [c.file, c.grammarPath, c.parsed.text .output].filter fun p => !p.isEmpty

def completionRequests : List (Text × Bool) := [("__complete", true), ("__completeNoDesc", false)]

def completionRequest? (globals : List Flag) (args : List Text) : Option (List Text × Bool) := do
  let flags := root.flags ++ globals
  let name ← (plain flags (args.length + 1) args).head?
  let (_, described) ← completionRequests.find? fun r => r.1 == name
  return (without flags name (args.length + 1) args, described)

def printCompletion (globals : List Flag) (described : Bool) (args : List Text) : Action Unit := do
  if args.isEmpty then throw (.message "requires at least 1 arg(s), only received 0")
  let c := complete globals args
  print (c.render described)
  printError c.note

def execute (setting : Setting) (args : List Text) : Action Unit := do
  let globals := globalFlags setting.settings.grammarPath
  match completionRequest? globals args with
  | some (args, described) => printCompletion globals described args
  | none =>
    let (s, rest) ← orFail id (find globals args)
    runSpec setting globals s rest

def run (setting : Setting) (args : List Text) (w : World) : Bool × World :=
  match (execute setting args).run w with
  | (.ok _, w) => (true, w)
  | (.error f, w) => (false, { w with err := w.err ++ f.describe ++ "\n" })

end JavaToCpp.Command
