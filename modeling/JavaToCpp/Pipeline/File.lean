/-
  Runs on files.

  Sources are files whose names end in `.java`, in letters of any case.  The grammar is the
  built-in one or comes from a file.
-/
import JavaToCpp.Directory.Basic
import JavaToCpp.Pipeline.Basic

namespace JavaToCpp.Pipeline

def sourceExtension : Text := ".java"

def isSource (name : Text) : Bool := Text.lower (Path.extension name) == sourceExtension

inductive GrammarFailure where
  | unreadable (f : Directory.Failure)
  | invalid (e : Grammar.LoadError)
deriving Repr

def GrammarFailure.message : GrammarFailure → Text
  | unreadable f => "failed to load grammar: failed to read grammar file: " ++ f.message
  | invalid e => "failed to load grammar: " ++ e.message

/-- The grammar in the file at a path, the built-in one for no path. -/
def grammarAt (d : Directory) (path : Text) : Except GrammarFailure Grammar :=
  if path.isEmpty then .ok Java.grammar
  else do
    let t ← (d.read path).mapError .unreadable
    (Grammar.load t).mapError .invalid

inductive SourceFailure where
  | unsupported (path : Text)
  | unreadable (f : Directory.Failure)
deriving DecidableEq, Repr

def SourceFailure.message : SourceFailure → Text
  | unsupported path => "unsupported source file: " ++ path
  | unreadable f => "failed to read source: " ++ f.message

def sourceAt (d : Directory) (path : Text) : Except SourceFailure Text :=
  if isSource path then (d.read path).mapError .unreadable else .error (.unsupported path)

inductive FileFault where
  | source (f : SourceFailure)
  | fault (f : Fault)
deriving Repr

def runFile (g : Grammar) (d : Directory) (path : Text) : Except FileFault Product := do
  let source ← (sourceAt d path).mapError .source
  (run g true source).mapError .fault

end JavaToCpp.Pipeline
