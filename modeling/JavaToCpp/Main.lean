/-
  The command line.

  Reads the environment, the standard input and the files that the arguments name, runs the command
  on them, and prints and writes what comes out.
-/
import JavaToCpp.Command.Run
import JavaToCpp.Settings.Keywords
import Std.Time.DateTime.Timestamp

namespace JavaToCpp.Command

def readSettings : IO Settings := do
  let found ← Settings.sources.filterMapM fun name => do
    return (← IO.getEnv name).map fun value => (Text.ofString name, Text.ofString value)
  return Settings.ofEnvironment found

partial def readInput (stream : IO.FS.Stream) (found : ByteArray) : IO ByteArray := do
  let bytes ← stream.read 65536
  if bytes.isEmpty then return found else readInput stream (found ++ bytes)

def folderOf (path : Text) : Text := path.take (path.length - (Path.lastPart path).length)

def isThere (path : Text) : IO Bool :=
  try
    let _ ← IO.FS.Handle.mk (Text.toString path) .read
    return true
  catch _ => return false

def addFolder (d : Directory) (path : Text) : IO Directory := do
  if ← isThere path then return { d with folders := Path.place path :: d.folders } else return d

/-- Adds what there is at a path, a file or a directory, and the directory that it is in. -/
def addPath (d : Directory) (path : Text) : IO Directory := do
  let d ← addFolder d (folderOf path)
  try
    let content ← IO.FS.readBinFile (Text.toString path)
    return d.put (Path.place path) content.toList
  catch _ => addFolder d path

def timed {α : Type} (f : Unit → α) : IO (α × Text) := do
  let start ← IO.monoNanosNow
  let a ← IO.lazyPure f
  let stop ← IO.monoNanosNow
  return (a, Duration.toText (stop - start))

def measure (g : Grammar) (checked : Bool) (source : Text) : IO Timings := do
  let none_ := Duration.toText 0
  match ← timed fun _ => Pipeline.tokens source with
  | (.error _, lex) => return ⟨lex, none_, none_, none_⟩
  | (.ok ts, lex) =>
    match ← timed fun _ => Pipeline.treeOf (Chart.ofTokens g ts) with
    | (.error _, parse) => return ⟨lex, parse, none_, none_⟩
    | (.ok t, parse) =>
      let check ← if checked then Prod.snd <$> timed fun _ => Pipeline.checkTree t else pure none_
      let (_, generate) ← timed fun _ => Pipeline.generate t
      return ⟨lex, parse, check, generate⟩

def timingsOf (c : Call) (w : World) : IO Timings := do
  match (c.source.run w).1, (c.grammar.run w).1 with
  | .ok source, .ok g => measure g (!c.parsed.isOn .noCheck) source
  | _, _ => return c.setting.timings

/-- Databases are out of reach; a connection text is still read. -/
def unreachable (connection : Text) : Except Text Store :=
  match Keywords.read connection with
  | .error f => .error f.message
  | .ok _ => .error "no database client"

end JavaToCpp.Command

open JavaToCpp JavaToCpp.Command in
def main (args : List String) : IO UInt32 := do
  let settings ← readSettings
  let now := (← Std.Time.Timestamp.now).toNanosecondsSinceUnixEpoch.val
  let stdout ← IO.getStdout
  let stderr ← IO.getStderr
  let setting : Setting := { settings, now, timings := ⟨"0s", "0s", "0s", "0s"⟩, connect := unreachable }
  let args := args.map Text.ofString
  let call := (call? setting args).map Prod.snd
  let directory ← ((call.map Call.paths).getD []).foldlM addPath {}
  let input ← if (call.map Call.file) == some (Text.ofString "-") then
      ByteArray.toList <$> readInput (← IO.getStdin) .empty
    else pure []
  let world : World := { directory }
  let setting := { setting with input }
  let timings ← match call with
    | some c => if c.isVerbose then timingsOf { c with setting } world else pure setting.timings
    | none => pure setting.timings
  let (ok, after) := run { setting with timings } args world
  stdout.write (ByteArray.mk after.out.toArray)
  stderr.write (ByteArray.mk after.err.toArray)
  for (path, content) in after.directory.since directory do
    IO.FS.writeBinFile (Text.toString (Text.join "/" path)) (ByteArray.mk content.toArray)
  return if ok then 0 else 1
