/-
  Log lines.
-/
import JavaToCpp.Json.Basic
import JavaToCpp.Log.Level

namespace JavaToCpp

/-- A log line: how much it matters, what it says, and values by their names. -/
structure LogLine where
  level : Level
  message : Text
  fields : List (Text × Json) := []
deriving Repr

structure Log where
  threshold : Level
  lines : List LogLine := []
deriving Repr

namespace Log

def add (log : Log) (line : LogLine) : Log :=
  if log.threshold ≤ line.level then { log with lines := log.lines ++ [line] } else log

end Log

def LogLine.toJson (line : LogLine) : Json :=
  .object ([(Text.ofString "level", .string line.level.name),
    (Text.ofString "msg", .string line.message)] ++ line.fields)

end JavaToCpp
