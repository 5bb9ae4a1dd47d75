/-
  Violations of the rules of the language.

  A violation has a cause and a line.  `kindName` is the short name of a kind of cause, by the
  number under which it is listed; `message` is the wording.
-/
import JavaToCpp.Typing.ValueType

namespace JavaToCpp

namespace Violation

inductive Cause where
  | funcMultipleDecl (name : Text)
  | idKeyword (name : Text)
  | returnNotExists (name : Text)
  | unreachableCode
  | varNoDecl (name : Text)
  | booleanOpAssign
  | booleanIncrement
  | varNoInit (name : Text)
  | funcVoidReturn (name : Text)
  | varMultipleDecl (name : Text)
  | booleanVarMathExpr (name : Text)
  | booleanMathExpr
  | typesNotFit (got want : ValueType)
  | funcNoDecl (name : Text)
  | funcParamsMismatch (name : Text)
  | funcAmbiguous (name : Text)
  | voidValue (name : Text)
  | returnMissingValue (name : Text)
  | entryPointMissing
deriving DecidableEq, Repr

/-- The short names of the kinds, numbered from 1. -/
def kindNames : List String := [
  "func_multiple_decl", "id_keyword", "return_not_exists", "unreachable_code", "var_no_decl",
  "boolean_op_assign", "boolean_increment", "var_no_init", "func_void_return",
  "var_multiple_decl", "boolean_var_math_expr", "boolean_math_expr", "types_not_fit",
  "func_no_decl", "func_params_mismatch", "func_ambiguous", "void_value", "return_missing_value",
  "entry_point_missing"]

def kindName (n : Int) : Text :=
  match (if n < 1 then none else kindNames[n.toNat - 1]?) with
  | some s => s
  | none => "kind(" ++ Text.ofInt n ++ ")"

namespace Cause

def number : Cause → Nat
  | funcMultipleDecl _ => 1
  | idKeyword _ => 2
  | returnNotExists _ => 3
  | unreachableCode => 4
  | varNoDecl _ => 5
  | booleanOpAssign => 6
  | booleanIncrement => 7
  | varNoInit _ => 8
  | funcVoidReturn _ => 9
  | varMultipleDecl _ => 10
  | booleanVarMathExpr _ => 11
  | booleanMathExpr => 12
  | typesNotFit _ _ => 13
  | funcNoDecl _ => 14
  | funcParamsMismatch _ => 15
  | funcAmbiguous _ => 16
  | voidValue _ => 17
  | returnMissingValue _ => 18
  | entryPointMissing => 19

def kind (c : Cause) : Text := kindName c.number

def message : Cause → Text
  | funcMultipleDecl name => "function " ++ name ++ " already declared"
  | idKeyword name => "identifier keyword used " ++ name
  | returnNotExists name => "missing expression with return for function " ++ name
  | unreachableCode => "unreachable code snippet"
  | varNoDecl name => "variable " ++ name ++ " is not declared"
  | booleanOpAssign => "assignment with operation is not allowed for type boolean"
  | booleanIncrement => "increment and decrement is invalid for type boolean"
  | varNoInit name => "variable " ++ name ++ " is not initialized"
  | funcVoidReturn name => "function " ++ name ++ " cannot return values"
  | varMultipleDecl name => "variable " ++ name ++ " is already declared"
  | booleanVarMathExpr name =>
    "boolean type variable " ++ name ++ " cannot participate in a mathematical expression"
  | booleanMathExpr => "boolean value cannot participate in a mathematical expression"
  | typesNotFit got want =>
    "return value " ++ got.name ++ " does not match the required type " ++ want.name
  | funcNoDecl name => "function " ++ name ++ " is not declared"
  | funcParamsMismatch name => "parameters do not match the function " ++ name
  | funcAmbiguous name => "call of function " ++ name ++ " is ambiguous"
  | voidValue name => "function " ++ name ++ " does not return a value"
  | returnMissingValue name => "function " ++ name ++ " must return a value"
  | entryPointMissing => "entry point main is not declared"

end Cause

end Violation

structure Violation where
  line : Int
  cause : Violation.Cause
deriving DecidableEq, Repr

def Violation.describe (v : Violation) : Text :=
  "semantic error in line " ++ Text.ofInt v.line ++ ": " ++ v.cause.message

end JavaToCpp
