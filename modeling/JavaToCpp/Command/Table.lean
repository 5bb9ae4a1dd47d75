/-
  The commands.

  Commands are found by their paths: the command `grammar show` is below the command `grammar`,
  which is below the program itself.  Before a command is found it is not known which arguments
  are values of its flags, so arguments are passed over as the flags known so far suggest.
-/
import JavaToCpp.Command.Flag

namespace JavaToCpp.Command

inductive Arity where
  | any
  | none
  | one
deriving DecidableEq, Repr

structure Spec where
  /-- the names on the way from the program -/
  path : List Text
  /-- its name with its arguments -/
  use : Text
  short : Text
  long : Text := []
  flags : List Flag := []
  arity : Arity := .any
  /-- whether it does something by itself -/
  runs : Bool := true
  /-- whether its use is shown with its flags -/
  showsFlags : Bool := true
deriving Repr

def program : Text := "transpile"

namespace Flag

def db : Flag := ⟨"db", some (Text.byte 'd'), .text, "Database connection string", []⟩

def grammar (default : Text) : Flag :=
  ⟨"grammar", some (Text.byte 'g'), .text, "Grammar file overriding the embedded grammar", default⟩

def verbose : Flag := ⟨"verbose", some (Text.byte 'v'), .switch, "Enable verbose output", "false"⟩

def output : Flag := ⟨"output", some (Text.byte 'o'), .text, "Write the C++ program to a file", []⟩

def noCheck : Flag := ⟨"no-check", none, .switch, "Skip the semantic checks", "false"⟩

def description : Flag :=
  ⟨"description", none, .text, "Description recorded with the version", []⟩

def subject : Flag := ⟨"subject", none, .text, "Token subject", "admin"⟩

def expiry : Flag :=
  ⟨"expiry", none, .duration, "Token lifetime (defaults to JWT_EXPIRY)", "0s"⟩

def noDescriptions : Flag :=
  ⟨"no-descriptions", none, .switch, "disable completion descriptions", "false"⟩

end Flag

/-- The flags that all commands have; the path of the grammar comes from the settings. -/
def globalFlags (grammarPath : Text) : List Flag := [.grammar grammarPath, .db, .verbose]

def completion (shell long : Text) : Spec :=
  { path := ["completion", shell], use := shell
    short := "Generate the autocompletion script for " ++ shell
    long, flags := [.noDescriptions], arity := .none
    showsFlags := shell != Text.ofString "bash" }

def bashText : Text := Text.join "\n" [
  "Generate the autocompletion script for the bash shell.",
  "",
  "This script depends on the 'bash-completion' package.",
  "If it is not installed already, you can install it via your OS's package manager.",
  "",
  "To load completions in your current shell session:",
  "",
  "\tsource <(transpile completion bash)",
  "",
  "To load completions for every new session, execute once:",
  "",
  "#### Linux:",
  "",
  "\ttranspile completion bash > /etc/bash_completion.d/transpile",
  "",
  "#### macOS:",
  "",
  "\ttranspile completion bash > $(brew --prefix)/etc/bash_completion.d/transpile",
  "",
  "You will need to start a new shell for this setup to take effect."]

def fishText : Text := Text.join "\n" [
  "Generate the autocompletion script for the fish shell.",
  "",
  "To load completions in your current shell session:",
  "",
  "\ttranspile completion fish | source",
  "",
  "To load completions for every new session, execute once:",
  "",
  "\ttranspile completion fish > ~/.config/fish/completions/transpile.fish",
  "",
  "You will need to start a new shell for this setup to take effect."]

def powershellText : Text := Text.join "\n" [
  "Generate the autocompletion script for powershell.",
  "",
  "To load completions in your current shell session:",
  "",
  "\ttranspile completion powershell | Out-String | Invoke-Expression",
  "",
  "To load completions for every new session, add the output of the above command",
  "to your powershell profile."]

def zshText : Text := Text.join "\n" [
  "Generate the autocompletion script for the zsh shell.",
  "",
  "If shell completion is not already enabled in your environment you will need",
  "to enable it.  You can execute the following once:",
  "",
  "\techo \"autoload -U compinit; compinit\" >> ~/.zshrc",
  "",
  "To load completions in your current shell session:",
  "",
  "\tsource <(transpile completion zsh)",
  "",
  "To load completions for every new session, execute once:",
  "",
  "#### Linux:",
  "",
  "\ttranspile completion zsh > \"$\x7bfpath[1]\x7d/_transpile\"",
  "",
  "#### macOS:",
  "",
  "\ttranspile completion zsh > $(brew --prefix)/share/zsh/site-functions/_transpile",
  "",
  "You will need to start a new shell for this setup to take effect."]

def table : List Spec := [
  { path := [], use := program, short := "Translate a Java subset to C++",
    long := "transpile lexes, parses, checks and translates single-class Java programs into C++, and manages the grammar used by the parser.",
    runs := false },
  { path := ["tokens"], use := "tokens [file]", short := "Print the tokens of a source file",
    arity := .one },
  { path := ["tree"], use := "tree [file]", short := "Print the parse tree of a source file",
    arity := .one },
  { path := ["chart"], use := "chart [file]", short := "Dump the Earley chart of a source file",
    long := "Dump every Earley state set built while recognizing a source file. The chart is printed even when recognition fails.",
    arity := .one },
  { path := ["check"], use := "check [file]", short := "Run the semantic checks on a source file",
    arity := .one },
  { path := ["translate"], use := "translate [file]", short := "Translate a source file to C++",
    flags := [.output, .noCheck], arity := .one },
  { path := ["grammar"], use := "grammar", short := "Inspect and version the parser grammar",
    runs := false },
  { path := ["grammar", "show"], use := "show", short := "Print the active grammar",
    arity := .none },
  { path := ["grammar", "diff"], use := "diff",
    short := "Show differences between the active grammar and the database", arity := .none },
  { path := ["grammar", "migrate"], use := "migrate",
    short := "Store the active grammar as a new version", flags := [.description],
    arity := .none },
  { path := ["grammar", "version"], use := "version", short := "Show the stored grammar version",
    arity := .none },
  { path := ["token"], use := "token",
    short := "Mint a grammar administration token for the API",
    long := "Mint a JWT carrying the grammar:admin scope, signed with JWT_SECRET.",
    flags := [.subject, .expiry], arity := .none },
  { path := ["help"], use := "help [command]", short := "Help about any command",
    long := "Help provides help for any command in the application.\nSimply type transpile help [path to command] for full details." },
  { path := ["completion"], use := "completion",
    short := "Generate the autocompletion script for the specified shell",
    long := "Generate the autocompletion script for transpile for the specified shell.\nSee each sub-command's help for details on how to use the generated script.",
    arity := .none, runs := false },
  completion "bash" bashText, completion "fish" fishText,
  completion "powershell" powershellText, completion "zsh" zshText]

def root : Spec :=
  (table.head?).getD { path := [], use := program, short := [], runs := false }

namespace Spec

def name (s : Spec) : Text := (s.path.getLast?).getD program

def fullName (s : Spec) : Text := Text.join " " (program :: s.path)

def children (s : Spec) : List Spec :=
  table.filter fun c => c.path.length == s.path.length + 1 && s.path.isPrefixOf c.path

def child? (s : Spec) (name : Text) : Option Spec := s.children.find? fun c => c.name == name

end Spec

/-! ## Finding -/

/-- Whether an argument is a flag whose value is the next argument, by the flags that are known. -/
def takesNext (flags : List Flag) (arg : Text) : Bool :=
  let isSwitch (f : Option Flag) : Bool := (f.map fun f => f.kind == .switch).getD false
  !arg.contains (Text.byte '=') &&
    match arg with
    | 45 :: 45 :: name => !isSwitch (named? flags name)
    | [45, b] => !isSwitch (lettered? flags b)
    | _ => false

/-- The arguments that are neither flags nor values of flags.  If a flag wants a value and at most
    one argument is left, there are no more. -/
def plain (flags : List Flag) : (fuel : Nat) → List Text → List Text
  | 0, _ => []
  | _, [] => []
  | fuel + 1, arg :: args =>
    if arg = [45, 45] then []
    else if takesNext flags arg then
      if args.length ≤ 1 then [] else plain flags fuel (args.drop 1)
    else if arg.isEmpty || arg.head? == some 45 then plain flags fuel args
    else arg :: plain flags fuel args

def without (flags : List Flag) (name : Text) : (fuel : Nat) → List Text → List Text
  | 0, args => args
  | _, [] => []
  | fuel + 1, arg :: args =>
    if arg = [45, 45] then arg :: args
    else if takesNext flags arg then
      match args with
      | [] => [arg]
      | v :: args => arg :: v :: without flags name fuel args
    else if arg.head? != some 45 && arg = name then args
    else arg :: without flags name fuel args

def findFrom (globals : List Flag) : (fuel : Nat) → Spec → List Text → Spec × List Text
  | 0, s, args => (s, args)
  | fuel + 1, s, args =>
    let flags := s.flags ++ globals
    match plain flags (args.length + 1) args with
    | [] => (s, args)
    | name :: _ =>
      match s.child? name with
      | none => (s, args)
      | some c => findFrom globals fuel c (without flags name (args.length + 1) args)

/-! ## Suggestions -/

/-- One row of the table of distances: from the row above, for a further letter. -/
def distanceRow (b : UInt8) : (left : Nat) → (above : List Nat) → Text → List Nat
  | _, _, [] => []
  | left, d :: up :: above, c :: t =>
    let here := if b == c then d else 1 + min (min left up) d
    here :: distanceRow b here (up :: above) t
  | _, _, _ => []

def distanceRows (t : Text) : (row : List Nat) → Text → List Nat
  | row, [] => row
  | row, b :: s =>
    let first := row.head?.getD 0 + 1
    distanceRows t (first :: distanceRow b first row t) s

/-- How many letters have to be added, removed or replaced to make one text of another. -/
def distance (s t : Text) : Nat :=
  (distanceRows t (List.range (t.length + 1)) s).getLast?.getD 0

def suggestions (name : Text) : List Text :=
  let names := (root.children.map Spec.name).filter (· != Text.ofString "help")
  names.filter fun n =>
    distance (Text.lower name) n ≤ 2 || Text.startsWith (Text.lower name) n

def suggestionLine (name : Text) : Text := "\t" ++ name ++ "\n"

def suggestionText (name : Text) : Text :=
  match suggestions name with
  | [] => []
  | names => "\n\nDid you mean this?\n" ++ names.flatMap suggestionLine

def unknownCommand (name : Text) (s : Spec) : Text :=
  "unknown command " ++ Text.quoted name ++ " for " ++ Text.quoted s.fullName

def find (globals : List Flag) (args : List Text) : Except Text (Spec × List Text) :=
  let (s, rest) := findFrom globals (args.length + 1) root args
  if s.path.isEmpty then
    match plain (s.flags ++ globals) (rest.length + 1) rest with
    | [] => .ok (s, rest)
    | name :: _ => .error (unknownCommand name s ++ suggestionText name)
  else .ok (s, rest)

/-! ## Help -/

def Spec.useLine (s : Spec) : Text :=
  Text.join " " ((if s.path.isEmpty then [] else [Text.join " " (program :: s.path.dropLast)]) ++
    s.use :: (if s.showsFlags then [Text.ofString "[flags]"] else []))

def nameWidth : Nat := 11

def entryLine (width : Nat) (entry : Text × Text) : Text :=
  "\n  " ++ Text.padRight width entry.1 ++ " " ++ entry.2

def childLines (s : Spec) : Text :=
  let entries := s.children.map fun c => (c.name, c.short)
  let width := (entries.map fun e => e.1.length).foldl max nameWidth
  (entries.mergeSort fun a b => Text.le a.1 b.1).flatMap (entryLine width)

/-- A part of a text that is there under a condition. -/
def part (there : Bool) (text : Text) : Text := if there then text else []

/-- The text on how a command is used.  The flag for help is there if it is known. -/
def usage (globals : List Flag) (withHelp : Bool) (s : Spec) : Text :=
  let own := s.flags ++ (if withHelp then [helpFlag s.name] else [])
  let isRoot := s.path.isEmpty
  let flags := if isRoot then own ++ globals else own
  let hasChildren := !s.children.isEmpty
  "Usage:" ++
    part s.runs ("\n  " ++ s.useLine) ++
    part hasChildren ("\n  " ++ s.fullName ++ " [command]") ++
    part hasChildren ("\n\nAvailable Commands:" ++ childLines s) ++
    part (!flags.isEmpty) ("\n\nFlags:\n" ++ usages flags) ++
    part (!isRoot) ("\n\nGlobal Flags:\n" ++ usages globals) ++
    part hasChildren
      ("\n\nUse \"" ++ s.fullName ++ " [command] --help\" for more information about a command.") ++
    "\n"

def help (globals : List Flag) (s : Spec) : Text :=
  (if s.long.isEmpty then s.short else s.long) ++ "\n\n" ++ usage globals true s

end JavaToCpp.Command
