/-
  The stored grammar in use.

  A reader asks the store for the latest version and reads the rules only if the version has moved
  since the last time.
-/
import JavaToCpp.Migration.Basic

namespace JavaToCpp.Migration

open Store (Action Event Wording)

structure Reader where
  kept : Option (Grammar × Int) := none
deriving Inhabited

namespace Reader

inductive Failure where
  | version (e : Event)
  | none
  | rules (e : Event)
  | invalid (e : Grammar.LoadError)
deriving Repr

def Failure.message (w : Wording) : Failure → Text
  | version e => "failed to query grammar version: " ++ w.describe e
  | none => "no grammar stored"
  | rules e => "failed to read grammar rules: " ++ w.describe e
  | invalid e => "stored grammar is invalid: " ++ e.message

def version : Action Failure Int := ExceptT.adapt .version Store.version

def fetch : Action Failure Grammar := do
  match Grammar.ofRows (← ExceptT.adapt .rules Store.rules) with
  | .ok (some g) => return g
  | .ok .none => throw .none
  | .error e => throw (.invalid e)

def active (r : Reader) : Action Failure (Grammar × Int × Reader) := do
  let v ← version
  if v = 0 then throw .none
  match r.kept with
  | some (g, kept) =>
    if kept = v then return (g, v, r)
    else
      let g ← fetch
      return (g, v, ⟨some (g, v)⟩)
  | .none =>
    let g ← fetch
    return (g, v, ⟨some (g, v)⟩)

end Reader

end JavaToCpp.Migration
