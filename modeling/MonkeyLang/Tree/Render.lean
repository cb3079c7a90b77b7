import MonkeyLang.Text.Separated
import MonkeyLang.Tree.Basic
/-!
# Syntax trees as code

The canonical text of a tree. Operators are fully parenthesised, with one
blank around those that have two operands, so that the text of `a + b * c`
is `(a + (b * c))`. Statements follow each other directly; only `let` and
`return` end in a semicolon, and the blocks of an `if` or a function are
written without braces.
-/

namespace MonkeyLang

mutual

/-- The canonical text of an expression. -/
def Expr.render : Expr → String
  | .ident name => name
  | .int value => toString value
  | .bool value => toString value
  | .string value => "\"" ++ value ++ "\""
  | .array elements => "[" ++ commaSeparated (Expr.renderAll elements) ++ "]"
  | .hash pairs => "\x7b" ++ commaSeparated (Expr.renderPairs pairs) ++ "\x7d"
  | .unary op operand => "(" ++ op.symbol ++ operand.render ++ ")"
  | .binary op left right => "(" ++ left.render ++ " " ++ op.symbol ++ " " ++ right.render ++ ")"
  | .cond condition consequence none =>
    "if" ++ condition.render ++ " " ++ Stmt.renderAll consequence
  | .cond condition consequence (some alternative) =>
    "if" ++ condition.render ++ " " ++ Stmt.renderAll consequence ++
      "else " ++ Stmt.renderAll alternative
  | .function parameters body =>
    "fn(" ++ commaSeparated parameters ++ ") " ++ Stmt.renderAll body
  | .call callee arguments =>
    callee.render ++ "(" ++ commaSeparated (Expr.renderAll arguments) ++ ")"
  | .index left position => "(" ++ left.render ++ "[" ++ position.render ++ "])"

/-- The canonical text of each expression. -/
def Expr.renderAll : List Expr → List String
  | [] => []
  | e :: es => e.render :: Expr.renderAll es

/-- The canonical text of each pair, with a colon between its two sides. -/
def Expr.renderPairs : List (Expr × Expr) → List String
  | [] => []
  | (key, value) :: pairs => (key.render ++ ": " ++ value.render) :: Expr.renderPairs pairs

/-- The canonical text of a statement. -/
def Stmt.render : Stmt → String
  | .bind name value => "let " ++ name ++ " = " ++ value.render ++ ";"
  | .ret value => "return " ++ value.render ++ ";"
  | .expr value => value.render
  | .block body => Stmt.renderAll body

/-- The canonical text of a block: that of its statements, one after the
other. -/
def Stmt.renderAll : List Stmt → String
  | [] => ""
  | s :: ss => s.render ++ Stmt.renderAll ss

end

/-- The canonical text of a program. -/
def Program.render (program : Program) : String := Stmt.renderAll program.statements

end MonkeyLang
