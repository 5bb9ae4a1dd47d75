/-
  Forms with files.

  The body of such a form is a sequence of parts, each after a line with the boundary, and ends
  with a line that has two more hyphens.  A part has headers, of which its disposition names the
  field and a file has a file name, and a content.  The first boundary line shows how lines end.
-/
import JavaToCpp.Directory.Basic
import JavaToCpp.Http.MediaType
import JavaToCpp.Http.Target
import JavaToCpp.Text.QuotedPrintable

namespace JavaToCpp.Http

structure FormFile where
  field : Text
  name : Text
  content : Text
deriving DecidableEq, Repr

structure Multipart where
  values : Form := []
  files : List FormFile := []
deriving DecidableEq, Repr

namespace Multipart

inductive Fault where
  /-- it ends too early -/
  | incomplete
  | malformed
deriving DecidableEq, Repr

/-! ## Lines -/

/-- A line with its end and what follows it, none without an end. -/
def line? (t : Text) : Option (Text × Text) :=
  (Text.cut? "\n" t).map fun (l, rest) => (l ++ [Text.newline], rest)

def maxLine : Nat := 4096

def isGap (b : UInt8) : Bool := b == Text.blank || b == 9

/-- How lines end if a line is that of a boundary.  The first one can end in a line feed alone, and
    then all others do. -/
def delimiter? (boundary ending : Text) (first : Bool) (line : Text) : Option Text := do
  let rest := (← Text.stripPrefix? ("--" ++ boundary) line).dropWhile isGap
  let ending := if first && rest = [Text.newline] then rest else ending
  if rest = ending then some ending else none

def isLast (boundary ending line : Text) : Bool :=
  match Text.stripPrefix? ("--" ++ boundary ++ "--") line with
  | some rest =>
    let rest := rest.dropWhile isGap
    rest.isEmpty || rest == ending
  | none => false

/-- How lines end and what follows the line of the next boundary, none after the last one.  Before
    the first boundary other lines are passed over; after a part only its end may stand there.
    `more` says that the body goes on beyond the text, so that nothing ends with it. -/
def next (boundary ending : Text) (first more : Bool) :
    (fuel : Nat) → (separated : Bool) → Text → Except Fault (Option (Text × Text))
  | 0, _, _ => .error .incomplete
  | fuel + 1, separated, t =>
    match line? t with
    | none =>
      if maxLine < t.length then .error .malformed
      else if !more && isLast boundary ending t then .ok none
      else .error .incomplete
    | some (l, rest) =>
      if maxLine < l.length then .error .malformed
      else
        match delimiter? boundary ending first l with
        | some ending => .ok (some (ending, rest))
        | none =>
          if isLast boundary ending l then .ok none
          else if separated then .error .malformed
          else if first then next boundary ending first more fuel false rest
          else if l = ending then next boundary ending first more fuel true rest
          else .error .malformed

/-! ## Headers -/

/-- A line without its end. -/
def bare (l : Text) : Text := Text.stripSuffix "\r" (Text.stripSuffix "\n" l)

/-- The line of a header without its end, and what follows it; none at the end of the body. -/
def headerLine? (t : Text) : Option (Text × Text) :=
  if t.isEmpty then none
  else
    match line? t with
    | some (l, rest) => some (bare l, rest)
    | none => some (t, [])

def isValueByte (b : UInt8) : Bool := b == 9 || (32 ≤ b && b != 127)

/-- Whether a byte can be part of the name of a header.  A name with a blank is let through; it is
    none that a part is asked for. -/
def isNameByte (b : UInt8) : Bool :=
  Text.isLetter b || Text.isDigit b || Text.oneOf "!#$%&'*+-.^_`|~ " b

def header? (l : Text) : Option (Text × Text) := do
  let (name, value) ← Text.cut? ":" l
  if !name.isEmpty && name.all isNameByte && value.all isValueByte then
    some (Text.lower name, value.dropWhile isGap)
  else none

/-- Adds a line to the headers, the latest first: a line after a blank continues the one before,
    and any other line has a colon. -/
def addLine (found : List Text) (l : Text) : Option (List Text) :=
  if (l.head?.map isGap).getD false then
    match found with
    | [] => none
    | h :: hs => some ((h ++ Text.blank :: Text.trim isGap l) :: hs)
  else if l.contains (Text.byte ':') then some (Text.trim isGap l :: found)
  else none

/-- The lines up to an empty one, the latest first, and what follows it, none if the body ends
    before it. -/
def headerLines :
    (fuel : Nat) → (found : List Text) → Text → Except Fault (List Text × Option Text)
  | 0, found, _ => .ok (found, none)
  | fuel + 1, found, t =>
    match headerLine? t with
    | none => .ok (found, none)
    | some (l, rest) =>
      if l.isEmpty then .ok (found, some rest)
      else
        match addLine found l with
        | some found => headerLines fuel found rest
        | none => .error .malformed

/-- The headers of a part, up to a number of them, and what follows them, none if the body ends
    before. -/
def headers (room : Nat) (t : Text) : Except Fault (Option (List (Text × Text) × Text)) := do
  let (lines, rest?) ← headerLines (t.length + 1) [] t
  match lines.reverse.mapM header? with
  | some hs => if room < hs.length then throw .malformed else return rest?.map fun rest => (hs, rest)
  | none => throw .malformed

def value (hs : List (Text × Text)) (name : String) : Text :=
  ((hs.find? fun h => h.1 == Text.ofString name).map Prod.snd).getD []

/-! ## Parts -/

def closes : Text → Bool
  | [] => true
  | [b] => Text.oneOf " \t\r\n" b
  | a :: b :: _ => Text.oneOf " \t\r\n" a || (a == Text.byte '-' && b == Text.byte '-')

def closedBy (mark t : Text) : Bool := ((Text.stripPrefix? mark t).map closes).getD false

def content (boundary ending t : Text) : Except Fault (Text × Text) :=
  if closedBy ("--" ++ boundary) t then .ok ([], t)
  else
    match Text.placeFrom? (closedBy (ending ++ "--" ++ boundary)) 0 t with
    | some n => .ok (t.take n, t.drop n)
    | none => .error .incomplete

inductive Role where
  /-- nothing, without a name -/
  | none
  | value (field : Text)
  | file (field name : Text)
deriving DecidableEq, Repr

/-- What the disposition of a part makes of it.  A file has no folder. -/
def role (hs : List (Text × Text)) : Role :=
  match MediaType.parse? (value hs "content-disposition") with
  | none => .none
  | some d =>
    let name := (d.get? "name").getD []
    let file := (d.get? "filename").getD []
    if d.name != Text.ofString "form-data" || name.isEmpty then .none
    else if file.isEmpty then .value name
    else .file name (Path.base file)

def decoded (hs : List (Text × Text)) (body : Text) : Except Fault Text :=
  if Text.lower (value hs "content-transfer-encoding") = Text.ofString "quoted-printable" then
    match Text.QuotedPrintable.decode? body with
    | some t => .ok t
    | none => .error .malformed
  else .ok body

def add (m : Multipart) (hs : List (Text × Text)) (body : Text) : Except Fault Multipart :=
  match role hs with
  | .none => .ok m
  | .value field => do return { m with values := m.values ++ [(field, ← decoded hs body)] }
  | .file field name => do return { m with files := m.files ++ [⟨field, name, ← decoded hs body⟩] }

def maxParts : Nat := 1000

/-- The most headers of the files of a form and of a part after them. -/
def maxHeaders : Nat := 10000

/-- How many headers are left after a part: those of files are kept. -/
def roomAfter (room : Nat) (hs : List (Text × Text)) : Nat :=
  match role hs with
  | .file _ _ => room - hs.length
  | _ => room

/-- Reads the parts of a body, as many as are `left`, with `room` for headers.  A body that ends
    inside of the headers of a part ends before the part. -/
def readParts (boundary : Text) (more : Bool) :
    (left room : Nat) → (ending : Text) → (first : Bool) → Multipart → Text → Except Fault Multipart
  | left, room, ending, first, m, t => do
    match ← next boundary ending first more (t.length + 1) false t with
    | none => return m
    | some (ending, t) =>
      match ← headers room t with
      | none => if more then throw .incomplete else return m
      | some (hs, t) =>
        match left with
        | 0 => throw .malformed
        | left + 1 =>
          let (body, t) ← content boundary ending t
          readParts boundary more left (roomAfter room hs) ending false (← m.add hs body) t

/-- The form of a body.  `more` says that the body goes on beyond the text. -/
def read (boundary : Text) (more : Bool) (body : Text) : Except Fault Multipart :=
  if boundary.isEmpty then .error .malformed
  else readParts boundary more maxParts maxHeaders "\r\n" true {} body

/-! ## Writing -/

def escaped (t : Text) : Text :=
  t.flatMap fun b => if b == 34 || b == 92 then [92, b] else [b]

def part (boundary disposition more body : Text) : Text :=
  "--" ++ boundary ++ "\r\nContent-Disposition: form-data; " ++ disposition ++ "\r\n" ++ more ++
    "\r\n" ++ body ++ "\r\n"

def writeValue (boundary : Text) (v : Text × Text) : Text :=
  part boundary ("name=\"" ++ escaped v.1 ++ "\"") [] v.2

def writeFile (boundary : Text) (f : FormFile) : Text :=
  part boundary ("name=\"" ++ escaped f.field ++ "\"; filename=\"" ++ escaped f.name ++ "\"")
    "Content-Type: application/octet-stream\r\n" f.content

def write (boundary : Text) (m : Multipart) : Text :=
  m.values.flatMap (writeValue boundary) ++ m.files.flatMap (writeFile boundary) ++ "--" ++
    boundary ++ "--\r\n"

end Multipart

end JavaToCpp.Http
