/-
  The words of the Java subset.

  `rules` is the table of token rules in order of priority: keywords come before identifiers and
  longer operators before their beginnings.  `isReserved` holds of the names that a program may
  not declare, because Java or C++ reserves them or the generated program relies on them.
-/
import JavaToCpp.Token.Scan

namespace JavaToCpp.Java

def rule (category pattern : String) : Token.Rule :=
  { category := Text.ofString category, pattern := Text.ofString pattern }

def skipping (category pattern : String) : Token.Rule :=
  { rule category pattern with skip := true }

def rules : List Token.Rule := [
  skipping "comment" "//[^\\n]*",
  skipping "comment" "/\\*(?s:.*?)\\*/",
  rule "main_args" "\\bString\\s*\\[\\s*\\]\\s*[_a-zA-Z]\\w*\\b",
  rule "void" "\\bvoid\\b",
  rule "type_hint" "\\b(?:int|boolean|float|double|char)\\b",
  rule "increment" "\\+\\+|--",
  rule "op_assign" "\\+=|-=|\\*=|/=|%=",
  rule "compare" "==|!=|<=|>=|<|>",
  rule "boolean_operator" "&&|\\|\\|",
  rule "boolean_not" "!",
  rule "math_operator" "[+\\-*/%]",
  rule "number_float" "\\d+\\.\\d+",
  rule "number_int" "\\d+",
  rule "char_literal" "'(?:\\\\.|[^'\\\\\\n])'",
  rule "assign" "=",
  rule "boolean_value" "\\b(?:true|false)\\b",
  rule "if" "\\bif\\b",
  rule "else" "\\belse\\b",
  rule "for" "\\bfor\\b",
  rule "while" "\\bwhile\\b",
  rule "do" "\\bdo\\b",
  rule "return" "\\breturn\\b",
  rule "max" "\\bMath\\.max\\b",
  rule "min" "\\bMath\\.min\\b",
  rule "print" "\\bSystem\\.out\\.println\\b",
  rule "static" "\\bstatic\\b",
  rule "class" "\\bclass\\b",
  rule "public" "\\bpublic\\b",
  rule "main" "\\b(?:Main|main)\\b",
  rule "lbracket" "\\(",
  rule "rbracket" "\\)",
  rule "lbracket_curly" "\\\x7b",
  rule "rbracket_curly" "\\\x7d",
  rule "semicolon" ";",
  rule "comma" ",",
  rule "id" "\\b[_a-zA-Z]\\w*\\b"]

def lexicon : Except Token.Table.Error Token.Table := Token.Table.compile rules

/-- The tokens of a source.  The rules are in order and match no empty text, so that there are
    tokens or an error. -/
def tokenize (source : Text) : Except Token.Error (List Token) :=
  match lexicon with
  | .ok table => (table.tokenize source).getD (.ok [])
  | .error _ => .ok []

def javaWords : List String := [
  "abstract", "assert", "boolean", "break", "byte", "case", "catch", "char", "class", "const",
  "continue", "default", "do", "double", "else", "enum", "extends", "final", "finally", "float",
  "for", "goto", "if", "implements", "import", "instanceof", "int", "interface", "long",
  "native", "new", "package", "private", "protected", "public", "return", "short", "static",
  "strictfp", "super", "switch", "synchronized", "this", "throw", "throws", "transient", "try",
  "void", "volatile", "while", "true", "false", "null", "var", "record", "yield"]

def cppWords : List String := [
  "alignas", "alignof", "and", "and_eq", "asm", "auto", "bitand", "bitor", "bool", "char8_t",
  "char16_t", "char32_t", "compl", "concept", "consteval", "constexpr", "constinit",
  "const_cast", "co_await", "co_return", "co_yield", "decltype", "delete", "dynamic_cast",
  "explicit", "export", "extern", "friend", "inline", "mutable", "namespace", "noexcept", "not",
  "not_eq", "nullptr", "operator", "or", "or_eq", "register", "reinterpret_cast", "requires",
  "signed", "sizeof", "static_assert", "static_cast", "struct", "template", "thread_local",
  "typedef", "typeid", "typename", "union", "unsigned", "using", "virtual", "wchar_t", "xor",
  "xor_eq"]

def outputWords : List String := ["std", "argc", "argv"]

def reserved : List Text := (javaWords ++ cppWords ++ outputWords).map Text.ofString

def isReserved (name : Text) : Bool := reserved.contains name

end JavaToCpp.Java
