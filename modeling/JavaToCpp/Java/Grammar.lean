/-
  The grammar of the Java subset.

  Every terminal is a token category and is reached through a tag.  `grammar` is the grammar that
  `grammarText` loads to; `Label` names the nonterminals that the later stages look at.
-/
import JavaToCpp.Grammar.Load

namespace JavaToCpp.Java

def structure_ : List (String × List String) := [
  ("<program>", ["<public> <class> <name> <lbracket_curly> <class_body> <rbracket_curly>"]),
  ("<class_body>", ["<member>", "<member> <class_body>"]),
  ("<member>", ["<func_declaration>", "<main_func>"]),
  ("<main_func>", [
    "<public> <static> <void> <main> <lbracket> <main_args> <rbracket> <code_block>"]),
  ("<func_declaration>", [
    "<public> <static> <func_return_type> <name> <lbracket> <func_params> <rbracket> <code_block>",
    "<public> <static> <func_return_type> <name> <lbracket> <rbracket> <code_block>"]),
  ("<func_params>", ["<param>", "<param> <comma> <func_params>"]),
  ("<param>", ["<type> <id>"]),
  ("<code_block>", [
    "<lbracket_curly> <instructions> <rbracket_curly>",
    "<lbracket_curly> <rbracket_curly>"]),
  ("<instructions>", ["<instruction>", "<instruction> <instructions>"]),
  ("<instruction>", [
    "<var_decl> <semicolon>",
    "<assignment> <semicolon>",
    "<func_call> <semicolon>",
    "<func_return> <semicolon>",
    "<if_statement>",
    "<for_loop>",
    "<while_loop>",
    "<do_while>",
    "<code_block>"]),
  ("<var_decl>", ["<type> <id>", "<type> <id> <assign> <expr>"]),
  ("<assignment>", [
    "<id> <assign> <expr>",
    "<id> <op_assign> <expr>",
    "<id> <increment>",
    "<increment> <id>"]),
  ("<func_return>", ["<return> <expr>", "<return>"]),
  ("<if_statement>", [
    "<if> <lbracket> <expr> <rbracket> <code_block>",
    "<if> <lbracket> <expr> <rbracket> <code_block> <else> <code_block>",
    "<if> <lbracket> <expr> <rbracket> <code_block> <else> <if_statement>"]),
  ("<for_loop>", [
    "<for> <lbracket> <for_init> <semicolon> <expr> <semicolon> <for_step> <rbracket> <code_block>"]),
  ("<for_init>", ["<var_decl>", "<assignment>"]),
  ("<for_step>", ["<assignment>"]),
  ("<while_loop>", ["<while> <lbracket> <expr> <rbracket> <code_block>"]),
  ("<do_while>", ["<do> <code_block> <while> <lbracket> <expr> <rbracket> <semicolon>"]),
  ("<expr>", ["<disjunction>"]),
  ("<disjunction>", ["<relation>", "<relation> <boolean_operator> <disjunction>"]),
  ("<relation>", ["<math_expr>", "<math_expr> <compare> <math_expr>"]),
  ("<math_expr>", ["<term>", "<term> <math_operator> <math_expr>"]),
  ("<term>", ["<operand>", "<boolean_not> <term>", "<lbracket> <expr> <rbracket>"]),
  ("<operand>", ["<number>", "<char_literal>", "<boolean_value>", "<id>", "<func_call>"]),
  ("<func_call>", [
    "<name> <lbracket> <call_args> <rbracket>",
    "<name> <lbracket> <rbracket>",
    "<print> <lbracket> <call_args> <rbracket>",
    "<max> <lbracket> <call_args> <rbracket>",
    "<min> <lbracket> <call_args> <rbracket>"]),
  ("<call_args>", ["<expr>", "<expr> <comma> <call_args>"])]

def tags : List (String × List String) := [
  ("<public>", ["public"]),
  ("<static>", ["static"]),
  ("<class>", ["class"]),
  ("<main>", ["main"]),
  ("<main_args>", ["main_args"]),
  ("<name>", ["id", "main"]),
  ("<type>", ["type_hint"]),
  ("<void>", ["void"]),
  ("<func_return_type>", ["type_hint", "void"]),
  ("<id>", ["id"]),
  ("<number>", ["number_int", "number_float"]),
  ("<char_literal>", ["char_literal"]),
  ("<boolean_value>", ["boolean_value"]),
  ("<lbracket>", ["lbracket"]),
  ("<rbracket>", ["rbracket"]),
  ("<lbracket_curly>", ["lbracket_curly"]),
  ("<rbracket_curly>", ["rbracket_curly"]),
  ("<semicolon>", ["semicolon"]),
  ("<comma>", ["comma"]),
  ("<assign>", ["assign"]),
  ("<op_assign>", ["op_assign"]),
  ("<increment>", ["increment"]),
  ("<math_operator>", ["math_operator"]),
  ("<compare>", ["compare"]),
  ("<boolean_operator>", ["boolean_operator"]),
  ("<boolean_not>", ["boolean_not"]),
  ("<if>", ["if"]),
  ("<else>", ["else"]),
  ("<for>", ["for"]),
  ("<while>", ["while"]),
  ("<do>", ["do"]),
  ("<return>", ["return"]),
  ("<print>", ["print"]),
  ("<max>", ["max"]),
  ("<min>", ["min"])]

def ruleLine (name : String) (alternatives : List String) : Text :=
  Text.ofString name ++ " -> " ++ Text.join " | " (alternatives.map Text.ofString) ++ "\n"

def grammarText : Text :=
  (structure_ ++ tags).flatMap fun (name, alternatives) => ruleLine name alternatives

def grammar : Grammar := (Grammar.load grammarText).toOption.getD ⟨[]⟩

namespace Label

def program : Symbol := "<program>"
def classBody : Symbol := "<class_body>"
def member : Symbol := "<member>"
def mainFunc : Symbol := "<main_func>"
def funcDeclaration : Symbol := "<func_declaration>"
def funcParams : Symbol := "<func_params>"
def param : Symbol := "<param>"
def codeBlock : Symbol := "<code_block>"
def instructions : Symbol := "<instructions>"
def instruction : Symbol := "<instruction>"
def varDecl : Symbol := "<var_decl>"
def assignment : Symbol := "<assignment>"
def funcReturn : Symbol := "<func_return>"
def ifStatement : Symbol := "<if_statement>"
def forLoop : Symbol := "<for_loop>"
def forInit : Symbol := "<for_init>"
def forStep : Symbol := "<for_step>"
def whileLoop : Symbol := "<while_loop>"
def doWhile : Symbol := "<do_while>"
def expr : Symbol := "<expr>"
def disjunction : Symbol := "<disjunction>"
def relation : Symbol := "<relation>"
def mathExpr : Symbol := "<math_expr>"
def term : Symbol := "<term>"
def operand : Symbol := "<operand>"
def funcCall : Symbol := "<func_call>"
def callArgs : Symbol := "<call_args>"
def name : Symbol := "<name>"
def type : Symbol := "<type>"
def funcReturnType : Symbol := "<func_return_type>"
def id : Symbol := "<id>"
def assign : Symbol := "<assign>"
def opAssign : Symbol := "<op_assign>"
def increment : Symbol := "<increment>"
def booleanNot : Symbol := "<boolean_not>"
def else_ : Symbol := "<else>"
def print : Symbol := "<print>"
def max : Symbol := "<max>"
def min : Symbol := "<min>"

end Label

end JavaToCpp.Java
