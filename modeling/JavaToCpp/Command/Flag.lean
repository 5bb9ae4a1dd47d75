/-
  Flags of commands.

  A flag has a name of several letters after two hyphens, and can have one of one letter after one
  hyphen.  Its value follows an equals sign or is the next argument; a switch needs no value.  Two
  hyphens alone end the flags.
-/
import JavaToCpp.Text.Literal
import JavaToCpp.Text.Quoted
import JavaToCpp.Time.Duration

namespace JavaToCpp.Command

inductive FlagKind where
  | text
  | switch
  | duration
deriving DecidableEq, Repr

structure Flag where
  name : Text
  short : Option UInt8 := none
  kind : FlagKind
  usage : Text
  /-- the value without the flag -/
  default : Text := []
deriving DecidableEq, Repr

def helpFlag (command : Text) : Flag :=
  ⟨"help", some (Text.byte 'h'), .switch, "help for " ++ command, "false"⟩

inductive FlagError where
  | badSyntax (arg : Text)
  | unknown (name : Text)
  | unknownShort (letter : UInt8) (letters : Text)
  | noValue (arg : Text)
  | noValueShort (letter : UInt8) (letters : Text)
  | badValue (flag : Flag) (value reason : Text)
deriving DecidableEq, Repr

def Flag.describe (f : Flag) : Text :=
  match f.short with
  | some b => "-" ++ [b] ++ ", --" ++ f.name
  | none => "--" ++ f.name

def FlagError.message : FlagError → Text
  | badSyntax arg => "bad flag syntax: " ++ arg
  | unknown name => "unknown flag: --" ++ name
  | unknownShort b letters =>
    "unknown shorthand flag: " ++ Text.quotedRune b.toNat ++ " in -" ++ letters
  | noValue arg => "flag needs an argument: " ++ arg
  | noValueShort b letters =>
    "flag needs an argument: " ++ Text.quotedRune b.toNat ++ " in -" ++ letters
  | badValue f value reason =>
    "invalid argument " ++ Text.quoted value ++ " for " ++ Text.quoted f.describe ++ " flag: " ++ reason

/-! ## Parsing -/

structure Parsed where
  values : List (Text × Text) := []
  rest : List Text := []
deriving DecidableEq, Repr

def Flag.check (f : Flag) (value : Text) : Except FlagError Unit :=
  match f.kind with
  | .text => .ok ()
  | .switch =>
    if (Text.toBool? value).isSome then .ok ()
    else .error (.badValue f value
      ("strconv.ParseBool: parsing " ++ Text.quoted value ++ ": invalid syntax"))
  | .duration =>
    match Duration.parse value with
    | .ok _ => .ok ()
    | .error e => .error (.badValue f value e.message)

def Parsed.put (p : Parsed) (f : Flag) (value : Text) : Except FlagError Parsed := do
  f.check value
  return { p with values := p.values ++ [(f.name, value)] }

def named? (flags : List Flag) (name : Text) : Option Flag := flags.find? fun f => f.name == name

def lettered? (flags : List Flag) (b : UInt8) : Option Flag := flags.find? fun f => f.short == some b

/-- Reads the flag of an argument after two hyphens; gives the arguments that are left. -/
def parseLong (flags : List Flag) (p : Parsed) (arg : Text) (args : List Text) :
    Except FlagError (Parsed × List Text) :=
  let body := arg.drop 2
  if body.isEmpty || body.head? == some (Text.byte '-') || body.head? == some (Text.byte '=') then
    .error (.badSyntax arg)
  else
    let (name, value?) : Text × Option Text := match Text.cut? "=" body with
      | some (n, v) => (n, some v)
      | none => (body, none)
    match named? flags name with
    | none => .error (.unknown name)
    | some f =>
      match value?, f.kind, args with
      | some v, _, args => do return (← p.put f v, args)
      | none, .switch, args => do return (← p.put f "true", args)
      | none, _, v :: args => do return (← p.put f v, args)
      | none, _, [] => .error (.noValue arg)

/-- Reads the flags of letters after one hyphen; gives the arguments that are left. -/
def parseShort (flags : List Flag) (p : Parsed) (args : List Text) :
    (letters : Text) → Except FlagError (Parsed × List Text)
  | [] => .ok (p, args)
  | b :: letters =>
    match lettered? flags b with
    | none => .error (.unknownShort b (b :: letters))
    | some f =>
      match letters, f.kind, args with
      | 61 :: v :: vs, _, args => do return (← p.put f (v :: vs), args)
      | letters, .switch, args => do parseShort flags (← p.put f "true") args letters
      | v :: vs, _, args => do return (← p.put f (v :: vs), args)
      | [], _, v :: args => do return (← p.put f v, args)
      | [], _, [] => .error (.noValueShort b [b])

/-- Tells flags from the other arguments; `fuel` bounds their number. -/
def parseAll (flags : List Flag) : (fuel : Nat) → Parsed → List Text → Except FlagError Parsed
  | 0, p, _ => .ok p
  | _, p, [] => .ok p
  | fuel + 1, p, arg :: args =>
    match arg with
    | [45, 45] => .ok { p with rest := p.rest ++ args }
    | 45 :: 45 :: _ => do
      let (p, args) ← parseLong flags p arg args
      parseAll flags fuel p args
    | 45 :: b :: letters => do
      let (p, args) ← parseShort flags p args (b :: letters)
      parseAll flags fuel p args
    | _ => parseAll flags fuel { p with rest := p.rest ++ [arg] } args

def parse (flags : List Flag) (args : List Text) : Except FlagError Parsed :=
  parseAll flags (args.length + 1) {} args

def Parsed.text (p : Parsed) (f : Flag) : Text :=
  ((p.values.reverse.find? fun v => v.1 == f.name).map Prod.snd).getD f.default

def Parsed.isOn (p : Parsed) (f : Flag) : Bool := (Text.toBool? (p.text f)).getD false

/-! ## Usage -/

def FlagKind.word : FlagKind → Text
  | text => " string"
  | switch => []
  | duration => " duration"

def Flag.front (f : Flag) : Text :=
  let names : Text := match f.short with
    | some b => "  -" ++ [b] ++ ", --" ++ f.name
    | none => "      --" ++ f.name
  names ++ f.kind.word

/-- The value without the flag, if it says something. -/
def Flag.shownDefault (f : Flag) : Text :=
  match f.kind with
  | .text => if f.default.isEmpty then [] else " (default " ++ Text.quoted f.default ++ ")"
  | .switch => if f.default = Text.ofString "false" then [] else " (default " ++ f.default ++ ")"
  | .duration => if f.default = Text.ofString "0s" then [] else " (default " ++ f.default ++ ")"

def usages (flags : List Flag) : Text :=
  let flags := flags.mergeSort fun a b => Text.le a.name b.name
  let width := (flags.map fun f => f.front.length).foldl max 0
  Text.join "\n" (flags.map fun f => Text.padRight width f.front ++ "   " ++ f.usage ++ f.shownDefault)

end JavaToCpp.Command
