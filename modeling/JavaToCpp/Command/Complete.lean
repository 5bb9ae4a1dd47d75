/-
  What a shell can offer to complete an argument.

  A shell asks with the arguments so far, of which the last one is not finished.  After a hyphen
  the flags that are not given yet are offered, and otherwise the commands below the command that
  the arguments name.  A directive says whether the shell offers files as well.
-/
import JavaToCpp.Command.Table
import JavaToCpp.Text.Blank

namespace JavaToCpp.Command

inductive Directive where
  | files
  | nothing
deriving DecidableEq, Repr

namespace Directive

def number : Directive → Nat
  | files => 0
  | nothing => 4

def name : Directive → Text
  | files => "ShellCompDirectiveDefault"
  | nothing => "ShellCompDirectiveNoFileComp"

end Directive

/-- What can stand for an unfinished argument: words with their descriptions. -/
structure Completion where
  words : List (Text × Text) := []
  directive : Directive := .files
deriving DecidableEq, Repr

structure Unfinished where
  /-- the flag whose value the argument is -/
  flag? : Option Flag := none
  /-- the arguments before it, without the flag -/
  before : List Text
  /-- the beginning of the argument, or of the value -/
  start : Text
  /-- whether it is the value of a flag that does not exist -/
  astray : Bool := false
deriving Repr

def flagOf? (flags : List Flag) : Text → Option Flag
  | [b] => lettered? flags b
  | name => named? flags name

def isFlag : Text → Bool
  | 45 :: 45 :: t => !t.isEmpty
  | 45 :: _ :: _ => true
  | _ => false

/-- The name of a flag behind its hyphens; of several letters the last one. -/
def flagName (arg : Text) : Text :=
  if Text.startsWith "--" arg then arg.drop 2 else arg.getLast?.toList

/-- The flag before an unfinished argument whose value it may be. -/
def flagBefore? (before : List Text) : Option Text :=
  before.getLast?.bind fun arg =>
    if isFlag arg && !arg.contains (Text.byte '=') then some (flagName arg) else none

/-- The argument as the value of a flag of a name.  With `joined` they stand in one argument. -/
def valueOf (flags : List Flag) (before : List Text) (arg start : Text) (joined : Bool)
    (name : Text) : Unfinished :=
  match flagOf? flags name with
  | none => { before, start := arg, astray := true }
  | some f =>
    if joined then { flag? := some f, before, start }
    else if f.kind = .switch then { before, start }
    else { flag? := some f, before := before.dropLast, start }

/-- The value of the flag before an unfinished argument, if there is such a flag, or the argument
    itself. -/
def afterFlag (flags : List Flag) (before : List Text) (arg start : Text) (joined : Bool) :
    Unfinished :=
  match flagBefore? before with
  | none => { before, start }
  | some name =>
    if name.isEmpty then { before := before.dropLast, start }
    else
      match valueOf flags before arg start joined name with
      | u => if joined && u.flag?.isSome then { u with before := before.dropLast } else u

def unfinished (flags : List Flag) (before : List Text) (arg : Text) : Unfinished :=
  if arg.head? == some 45 then
    match Text.cut? "=" arg with
    | none => { before, start := arg }
    | some (front, value) =>
      let name := flagName front
      if name.isEmpty then afterFlag flags before arg value true
      else valueOf flags before arg value true name
  else afterFlag flags before arg arg false

def flagWords (start : Text) (f : Flag) : List (Text × Text) :=
  let long : Text := "--" ++ f.name
  let words := long :: (f.short.map fun b => [45, b]).toList
  (words.filter (Text.startsWith start)).map fun w => (w, f.usage)

def offered (globals : List Flag) (s : Spec) : List Flag :=
  let byName (fs : List Flag) := fs.mergeSort fun a b => Text.le a.name b.name
  let own := s.flags ++ [helpFlag s.name]
  if s.path.isEmpty then byName (own ++ globals) else byName globals ++ byName own

def childWords (start : Text) (s : Spec) : List (Text × Text) :=
  let named := (s.children.map fun c => (c.name, c.short)).filter fun c => Text.startsWith start c.1
  named.mergeSort fun a b => Text.le a.1 b.1

/-- What the arguments of a command itself can be, none if they can be files. -/
def argumentWords? (globals : List Flag) (s : Spec) (args : List Text) (start : Text) :
    Option (List (Text × Text)) :=
  if s.path = [Text.ofString "help"] then
    match find globals args with
    | .ok (topic, _) => some (childWords start topic)
    | .error _ => some []
  else if s.path.head? = some (Text.ofString "completion") then some []
  else none

def completeArgument (globals : List Flag) (s : Spec) (args : List Text) (start : Text) : Completion :=
  let below := args.isEmpty && !s.children.isEmpty
  let words := if below then childWords start s else []
  match argumentWords? globals s args start with
  | some more => ⟨words ++ more, .nothing⟩
  | none => ⟨words, if below then .nothing else .files⟩

/-- Whether no flags are read any more after arguments that give `p`: there two more hyphens count
    as an argument. -/
def isClosed (flags : List Flag) (args : List Text) (p : Parsed) : Bool :=
  match parse flags (args ++ [[45, 45]]) with
  | .ok q => decide (p.rest.length < q.rest.length)
  | .error _ => false

def completeIn (globals : List Flag) (s : Spec) (before : List Text) (arg : Text) : Completion :=
  let flags := s.flags ++ globals ++ [helpFlag s.name]
  let u := unfinished flags before arg
  match parse flags u.before with
  | .error _ => {}
  | .ok p =>
    let closed := isClosed flags u.before p
    if u.astray && !closed then {}
    else if p.values.any fun v => v.1 == Text.ofString "help" then ⟨[], .nothing⟩
    else if u.flag?.isSome then
      if closed then
        match argumentWords? globals s p.rest u.start with
        | some words => ⟨words, .nothing⟩
        | none => {}
      else {}
    else if u.start.head? == some 45 && !u.start.contains (Text.byte '=') && !closed then
      let left := (offered globals s).filter fun f => !p.values.any fun v => v.1 == f.name
      ⟨left.flatMap (flagWords u.start), .nothing⟩
    else completeArgument globals s p.rest u.start

def complete (globals : List Flag) (args : List Text) : Completion :=
  match find globals args.dropLast with
  | .ok (s, before) => completeIn globals s before (args.getLast?.getD [])
  | .error _ => {}

def wordLine (described : Bool) (word : Text × Text) : Text :=
  Text.strip (if described then word.1 ++ "\t" ++ word.2 else word.1) ++ "\n"

def Completion.render (described : Bool) (c : Completion) : Text :=
  c.words.flatMap (wordLine described) ++ ":" ++ Text.decimal c.directive.number ++ "\n"

def Completion.note (c : Completion) : Text :=
  "Completion ended with directive: " ++ c.directive.name ++ "\n"

end JavaToCpp.Command
