import MonkeyLang.Parser.Basic
import MonkeyLang.Text.Decimal
import MonkeyLang.Tree.Basic
/-!
# Expressions and statements

How tightly each operator binds, and the parsers for expressions and
statements that follow from it. An operator takes the operand on its left
as soon as it binds more tightly than the operator before that operand, so
operators of equal strength group to the left.

Every expression is read by the parser for expressions one level down;
`expr` has 256 levels, and the one below the last refuses whatever it is
given.
-/

namespace MonkeyLang

/-- How tightly an operator binds, from the loosest to the tightest. -/
inductive Precedence where
  | lowest
  | equality
  | order
  | sum
  | product
  | unary
  | call
  | index
  deriving DecidableEq, Repr

namespace Precedence

/-- The place of a precedence in the order. -/
def rank : Precedence → Nat
  | .lowest => 0
  | .equality => 1
  | .order => 2
  | .sum => 3
  | .product => 4
  | .unary => 5
  | .call => 6
  | .index => 7

instance : LT Precedence := ⟨fun a b => a.rank < b.rank⟩

instance (a b : Precedence) : Decidable (a < b) := inferInstanceAs (Decidable (a.rank < b.rank))

/-- How tightly a token binds that stands behind an operand. -/
def ofKind : TokenKind → Precedence
  | .eq | .notEq => .equality
  | .lt | .gt => .order
  | .plus | .minus => .sum
  | .asterisk | .slash => .product
  | .lparen => .call
  | .lbracket => .index
  | _ => .lowest

/-- What binds more tightly than something else is not the end of the
input. -/
theorem ne_eof_of_lt_ofKind {floor : Precedence} {kind : TokenKind} (h : floor < ofKind kind) :
    kind ≠ .eof := by
  rintro rfl
  exact Nat.not_lt_zero _ h

end Precedence

namespace Parser

variable {σ : Type} [TokenSource σ]

/-- A parser for expressions, given how tightly the operator before the
expression binds. -/
abbrev ExprParser (σ : Type) [TokenSource σ] : Type := Precedence → Parser σ Expr

/-- The whole expression that begins with the token that follows. -/
def nextExpr (inner : ExprParser σ) : Parser σ Expr := do
  advance
  inner .lowest

/-- The identifier that follows. -/
def name : Parser σ String := do
  expect .ident
  return (← current).literal

/-! ## Statements -/

/-- A statement, with the semicolon that may end it. -/
def statement (inner : ExprParser σ) : Parser σ Stmt := do
  match (← current).kind with
  | .letWord =>
    let name ← name
    expect .assign
    let value ← nextExpr inner
    skip .semicolon
    return .bind name value
  | .returnWord =>
    let value ← nextExpr inner
    skip .semicolon
    return .ret value
  | _ =>
    let value ← inner .lowest
    skip .semicolon
    return .expr value

/-- The block whose opening brace follows. -/
def block (inner : ExprParser σ) : Parser σ (List Stmt) := do
  expect .lbrace
  advance
  blockBody (statement inner)

/-! ## What an expression begins with -/

/-- A key and its value, with a colon between them. -/
def pair (inner : ExprParser σ) : Parser σ (Expr × Expr) := do
  let key ← nextExpr inner
  expect .colon
  let value ← nextExpr inner
  return (key, value)

/-- The parameters of a function, with the parentheses around them. -/
def parameters : Parser σ (List String) := do
  expect .lparen
  listed .rparen name

/-- The block behind `else`, if there is one. -/
def alternative (inner : ExprParser σ) : Parser σ (Option (List Stmt)) := do
  if (← upcoming) = .elseWord then
    advance
    return some (← block inner)
  else return none

/-- The number that a literal stands for. -/
def integer (literal : String) : Parser σ Expr :=
  match Decimal.read? literal.toList with
  | some value => return .int value
  | none => fail (.badInteger literal)

/-- The operand that begins with the token under consideration. -/
def operand (inner : ExprParser σ) : Parser σ Expr := do
  let token ← current
  match token.kind with
  | .ident => return .ident token.literal
  | .int => integer token.literal
  | .string => return .string token.literal
  | .trueWord => return .bool true
  | .falseWord => return .bool false
  | .lparen =>
    let e ← nextExpr inner
    expect .rparen
    return e
  | .lbracket => return .array (← listed .rbracket (nextExpr inner))
  | .lbrace =>
    let pairs ← separatedUntil .rbrace (pair inner)
    expect .rbrace
    return .hash pairs
  | .ifWord =>
    expect .lparen
    let condition ← nextExpr inner
    expect .rparen
    let consequence ← block inner
    return .cond condition consequence (← alternative inner)
  | .fnWord =>
    let parameters ← parameters
    return .function parameters (← block inner)
  | .illegal => fail (.illegalToken token.literal)
  | kind =>
    match UnaryOp.ofKind? kind with
    | some op =>
      advance
      return .unary op (← inner .unary)
    | none => fail (.noExpression kind)

/-! ## What follows an operand -/

/-- What the token under consideration makes of the operand before it: a
call, an index, or the left side of an operator. -/
def applied (inner : ExprParser σ) (left : Expr) : Parser σ Expr := do
  let kind := (← current).kind
  match kind with
  | .lparen => return .call left (← listed .rparen (nextExpr inner))
  | .lbracket =>
    let position ← nextExpr inner
    expect .rbracket
    return .index left position
  | kind =>
    match BinaryOp.ofKind? kind with
    | some op =>
      advance
      return .binary op left (← inner (.ofKind kind))
    | none => return left

/-- Takes up what follows an operand for as long as it binds more tightly
than `floor`. -/
def extended (inner : ExprParser σ) (floor : Precedence) (left : Expr) (c : Cursor σ) :
    Ahead c Expr :=
  if _ : floor < .ofKind c.upcoming.kind then
    ((applied inner left c.advance).bind fun e d _ => extended inner floor e d).afterAdvance
  else Ahead.pure left c
termination_by c.left
decreasing_by
  have := c.left_advance_le
  have := c.left_ne_zero_of_upcoming (Precedence.ne_eof_of_lt_ofKind ‹_›)
  omega

/-- An expression of at most `levels` levels of nesting. -/
def expr : (levels : Nat) → ExprParser σ
  | 0, _ => fail .nestingTooDeep
  | levels + 1, floor => do
    let left ← operand (expr levels)
    extended (expr levels) floor left

end Parser

end MonkeyLang
