import MonkeyLang.Tree.Operator
/-!
# Syntax trees

Expressions, statements and programs. A block is the list of its
statements; a program is a block that stands for a whole text. The trees
are wider than what a text can spell: a literal may be negative, a name may
be any string, and a block may stand as a statement of its own.
-/

namespace MonkeyLang

mutual

/-- An expression. -/
inductive Expr where
  | ident (name : String)
  | int (value : Int64)
  | bool (value : Bool)
  | string (value : String)
  | array (elements : List Expr)
  | hash (pairs : List (Expr × Expr))
  | unary (op : UnaryOp) (operand : Expr)
  | binary (op : BinaryOp) (left right : Expr)
  /-- `if` with its condition, the block taken when it holds and perhaps
  one for when not. -/
  | cond (condition : Expr) (consequence : List Stmt) (alternative : Option (List Stmt))
  | function (parameters : List String) (body : List Stmt)
  | call (callee : Expr) (arguments : List Expr)
  | index (left position : Expr)

/-- A statement. -/
inductive Stmt where
  /-- `let` with the name it binds. -/
  | bind (name : String) (value : Expr)
  /-- `return` with the value it hands back. -/
  | ret (value : Expr)
  | expr (value : Expr)
  | block (body : List Stmt)

end

/-- The statements of a whole text. -/
structure Program where
  statements : List Stmt

/-- Is the statement a `let`? -/
def Stmt.isBind : Stmt → Bool
  | .bind _ _ => true
  | _ => false

end MonkeyLang
