import MonkeyLang.Token
/-!
# Syntax errors

The causes for which a parse gives up on a statement, each with its message.
-/

namespace MonkeyLang

/-- Expressions nested more deeply than this are refused. -/
def nestingLimit : Nat := 256

/-- Why a statement could not be read. -/
inductive SyntaxError where
  /-- One kind of token was needed where another one followed. -/
  | unexpected (wanted found : TokenKind)
  /-- An expression was needed where a token stood that begins none. -/
  | noExpression (found : TokenKind)
  /-- The literal of a number is none, or does not fit into a word. -/
  | badInteger (literal : String)
  /-- An expression was needed where an illegal token stood. -/
  | illegalToken (literal : String)
  /-- The expression is nested more deeply than `nestingLimit`. -/
  | nestingTooDeep
  deriving DecidableEq, Repr

/-- The text of a syntax error. -/
def SyntaxError.message : SyntaxError → String
  | .unexpected wanted found =>
    "expected next token to be " ++ wanted.name ++ ", got " ++ found.name ++ " instead"
  | .noExpression found => "no prefix parse function for " ++ found.name ++ " found"
  | .badInteger literal => "could not parse " ++ literal ++ " as integer"
  | .illegalToken literal => "illegal token '" ++ literal ++ "'"
  | .nestingTooDeep =>
    "expression nested too deeply (limit " ++ toString nestingLimit ++ ")"

end MonkeyLang
