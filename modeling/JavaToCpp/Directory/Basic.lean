/-
  Files.

  A directory holds files by their paths; a directory inside of it exists if a file is in it.
  Paths are relative and are walked part by part.
-/
import JavaToCpp.Text.Basic

namespace JavaToCpp

abbrev Path := List Text

namespace Path

def ofText (t : Text) : Path := t.splitOnP (· == Text.byte '/')

def lastPart (t : Text) : Text := ((ofText t).getLast?).getD []

/-- The end of the last part from its last point on, empty without a point. -/
def extension (t : Text) : Text :=
  let tail := (lastPart t).reverse.takeWhile (· != Text.byte '.')
  if tail.length = (lastPart t).length then [] else Text.byte '.' :: tail.reverse

/-- The last part that is not empty, as a name to show: `.` for no path, `/` for the root. -/
def base (t : Text) : Text :=
  if t.isEmpty then "."
  else (((ofText t).filter fun p => !p.isEmpty).getLast?).getD "/"

def root : Path := [[]]

/-- Whether a path leads to the directory that paths start from, or one above it. -/
def isAbove (p : Path) : Bool := p.all (· == Text.ofString "..")

def step (here : Path) (part : Text) : Path :=
  if part.isEmpty || part = Text.ofString "." then here
  else if part = Text.ofString ".." then
    if here.isAbove then here ++ [part] else if here = root then root else here.dropLast
  else here ++ [part]

def start (t : Text) : Path := if t.head? == some (Text.byte '/') then root else []

def place (t : Text) : Path := (ofText t).foldl step (start t)

end Path

/-- Files by the parts of their paths, and directories that there are without a file in them. -/
structure Directory where
  files : List (Path × Text) := []
  folders : List Path := []
deriving DecidableEq, Repr, Inhabited

namespace Directory

inductive Cause where
  | missing
  | isDirectory
  | notDirectory
deriving DecidableEq, Repr

def Cause.describe : Cause → Text
  | missing => "no such file or directory"
  | isDirectory => "is a directory"
  | notDirectory => "not a directory"

structure Failure where
  call : Text
  path : Text
  cause : Cause
deriving DecidableEq, Repr

def Failure.message (f : Failure) : Text := f.call ++ " " ++ f.path ++ ": " ++ f.cause.describe

def get? (d : Directory) (p : Path) : Option Text := (d.files.find? fun f => f.1 == p).map Prod.snd

def isDirectory (d : Directory) (p : Path) : Bool :=
  p.isAbove || p == Path.root || (d.files.any fun f => p.isPrefixOf f.1 && f.1 != p) ||
    d.folders.any fun f => p.isPrefixOf f

def walk (d : Directory) (here : Path) : Path → Except Cause Path
  | [] => .ok here
  | part :: parts =>
    if d.isDirectory here then
      walk d (here.step part) parts
    else if (d.get? here).isSome then .error .notDirectory
    else .error .missing

/-- The place that a path leads to; no path leads nowhere. -/
def locate (d : Directory) (path : Text) : Except Cause Path :=
  if path.isEmpty then .error .missing else walk d (Path.start path) (Path.ofText path)

def read (d : Directory) (path : Text) : Except Failure Text :=
  match d.locate path with
  | .error c => .error ⟨"open", path, c⟩
  | .ok p =>
    match d.get? p with
    | some content => .ok content
    | none => .error <| if d.isDirectory p then ⟨"read", path, .isDirectory⟩ else ⟨"open", path, .missing⟩

def put (d : Directory) (p : Path) (content : Text) : Directory :=
  { d with files := d.files.filter (fun f => f.1 != p) ++ [(p, content)] }

/-- Whether a path ends like that of a directory, but there is nothing yet where it leads to. -/
def namesNewFolder (d : Directory) (path : Text) : Bool :=
  match d.locate (Text.trimRight (· == Text.byte '/') path) with
  | .ok p =>
    path.getLast? == some (Text.byte '/') && d.isDirectory p.dropLast && (d.get? p).isNone &&
      !d.isDirectory p
  | .error _ => false

def write (d : Directory) (path content : Text) : Except Failure Directory :=
  match d.locate path with
  | .error c => .error ⟨"open", path, if d.namesNewFolder path then .isDirectory else c⟩
  | .ok p =>
    if d.isDirectory p then .error ⟨"open", path, .isDirectory⟩
    else if d.isDirectory p.dropLast then .ok (d.put p content)
    else .error ⟨"open", path, .missing⟩

def ofFiles (files : List (Text × Text)) : Directory :=
  files.foldl (fun d (path, content) => d.put (Path.ofText path) content) {}

def since (d before : Directory) : List (Path × Text) :=
  d.files.filter fun f => before.get? f.1 != some f.2

end Directory

end JavaToCpp
