/-!
# Tokens

The vocabulary of the language: the kinds of token, the name each kind has
in a message, and the words that are reserved. A token is a kind together
with the characters that spelled it.
-/

namespace MonkeyLang

/-- What a token is, apart from how it was spelled. -/
inductive TokenKind where
  | illegal
  | eof
  | ident
  | int
  | string
  | assign
  | plus
  | minus
  | bang
  | asterisk
  | slash
  | lt
  | gt
  | eq
  | notEq
  | comma
  | semicolon
  | colon
  | lparen
  | rparen
  | lbrace
  | rbrace
  | lbracket
  | rbracket
  | fnWord
  | letWord
  | trueWord
  | falseWord
  | ifWord
  | elseWord
  | returnWord
  deriving DecidableEq, Repr

namespace TokenKind

/-- The name of a kind in messages: the symbol itself where there is one,
else a word in capitals. -/
def name : TokenKind → String
  | .illegal => "ILLEGAL"
  | .eof => "EOF"
  | .ident => "IDENT"
  | .int => "INT"
  | .string => "STRING"
  | .assign => "="
  | .plus => "+"
  | .minus => "-"
  | .bang => "!"
  | .asterisk => "*"
  | .slash => "/"
  | .lt => "<"
  | .gt => ">"
  | .eq => "=="
  | .notEq => "!="
  | .comma => ","
  | .semicolon => ";"
  | .colon => ":"
  | .lparen => "("
  | .rparen => ")"
  | .lbrace => "\x7b"
  | .rbrace => "\x7d"
  | .lbracket => "["
  | .rbracket => "]"
  | .fnWord => "FUNCTION"
  | .letWord => "LET"
  | .trueWord => "TRUE"
  | .falseWord => "FALSE"
  | .ifWord => "IF"
  | .elseWord => "ELSE"
  | .returnWord => "RETURN"

/-- The kind of a word: its own if the word is reserved, else an
identifier. -/
def ofWord : String → TokenKind
  | "fn" => .fnWord
  | "let" => .letWord
  | "true" => .trueWord
  | "false" => .falseWord
  | "if" => .ifWord
  | "else" => .elseWord
  | "return" => .returnWord
  | _ => .ident

/-- The kind of a symbol that is one character long, if there is one. -/
def ofSymbol? : Char → Option TokenKind
  | '=' => some .assign
  | '+' => some .plus
  | '-' => some .minus
  | '!' => some .bang
  | '*' => some .asterisk
  | '/' => some .slash
  | '<' => some .lt
  | '>' => some .gt
  | ',' => some .comma
  | ';' => some .semicolon
  | ':' => some .colon
  | '(' => some .lparen
  | ')' => some .rparen
  | '{' => some .lbrace
  | '}' => some .rbrace
  | '[' => some .lbracket
  | ']' => some .rbracket
  | _ => none

end TokenKind

/-- A kind and the characters that spelled it. The kind decides; a literal
says more only for identifiers, numbers, strings and illegal characters. -/
structure Token where
  kind : TokenKind
  literal : String
  deriving DecidableEq, Repr

namespace Token

/-- The token that stands for the end of the input. -/
def endOfInput : Token := ⟨.eof, ""⟩

end Token

end MonkeyLang
