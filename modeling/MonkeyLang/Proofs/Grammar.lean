import MonkeyLang.Proofs.Numeral
import MonkeyLang.Token
import MonkeyLang.Tree.Basic
/-!
# The grammar

Which lists of tokens are which trees. Expressions come in layers, one
inside the other: equality around order around sums around products around
unary operators around applications; operators of one layer group to the
left. Every rule for a kind of phrase is given once, for any grammar
`inner` of the expressions that stand inside a phrase of that kind.
`Expression` closes the circle: an expression nested at most `n + 1` deep
is made of expressions nested at most `n` deep.

Only the kinds of tokens count, apart from the literals of names, numerals
and strings.
-/

namespace MonkeyLang

namespace Grammar

/-- The layers of expressions, from the loosest operators to the tightest. -/
inductive Layer where
  | equality
  | order
  | sum
  | product
  | unary
  | application
  deriving DecidableEq, Repr

/-- The next layer further in. -/
def Layer.tighter : Layer → Layer
  | .equality => .order
  | .order => .sum
  | .sum => .product
  | .product => .unary
  | .unary => .application
  | .application => .application

/-- The layer of an operator between two operands. -/
def layerOf : BinaryOp → Layer
  | .eq | .ne => .equality
  | .lt | .gt => .order
  | .add | .sub => .sum
  | .mul | .div => .product

/-- The tokens that go on with an expression that could end before them. -/
def continuing : List TokenKind :=
  [.plus, .minus, .asterisk, .slash, .lt, .gt, .eq, .notEq, .lparen, .lbracket]

/-- Nothing that follows goes on with an expression. -/
def Apart (rest : List Token) : Prop := ∀ t ∈ rest.head?, t.kind ∉ continuing

variable {α : Type}

/-- Items with a comma between each two. -/
inductive Separated (item : List Token → α → Prop) : List Token → List α → Prop
  | last {ts : List Token} {a : α} : item ts a → Separated item ts [a]
  | more {ts us : List Token} {a : α} {as : List α} {comma : Token} :
    item ts a → comma.kind = .comma → Separated item us as →
      Separated item (ts ++ comma :: us) (a :: as)

/-- Items with commas between them, or none. -/
inductive Listed (item : List Token → α → Prop) : List Token → List α → Prop
  | none : Listed item [] []
  | some {ts : List Token} {as : List α} : Separated item ts as → Listed item ts as

/-- A name. -/
inductive Name : List Token → String → Prop
  | mk {t : Token} : t.kind = .ident → Name [t] t.literal

/-! ## What is made of expressions -/

section

variable (inner : Layer → List Token → Expr → Prop)

/-- A key and its value. -/
inductive Pair : List Token → Expr × Expr → Prop
  | mk {ts us : List Token} {key value : Expr} {colon : Token} :
    inner .equality ts key → colon.kind = .colon → inner .equality us value →
      Pair (ts ++ colon :: us) (key, value)

/-- The pairs of a hash: unlike items elsewhere, the last may be followed
by a comma, too. -/
inductive Pairs : List Token → List (Expr × Expr) → Prop
  | listed {ts : List Token} {pairs : List (Expr × Expr)} :
    Listed (Pair inner) ts pairs → Pairs ts pairs
  | trailing {ts : List Token} {pairs : List (Expr × Expr)} {comma : Token} :
    Separated (Pair inner) ts pairs → comma.kind = .comma → Pairs (ts ++ [comma]) pairs

/-- A statement, without the semicolon that may end it. -/
inductive Statement : List Token → Stmt → Prop
  | bind {ts : List Token} {e : Expr} {word name assign : Token} :
    word.kind = .letWord → name.kind = .ident → assign.kind = .assign → inner .equality ts e →
      Statement (word :: name :: assign :: ts) (.bind name.literal e)
  | ret {ts : List Token} {e : Expr} {word : Token} :
    word.kind = .returnWord → inner .equality ts e → Statement (word :: ts) (.ret e)
  | expr {ts : List Token} {e : Expr} : inner .equality ts e → Statement ts (.expr e)

/-- The statements of a block or a program. A statement without a semicolon
is followed by nothing that would go on with it. -/
inductive Body : List Token → List Stmt → Prop
  | nil : Body [] []
  | ended {ts us : List Token} {s : Stmt} {ss : List Stmt} {semicolon : Token} :
    Statement inner ts s → semicolon.kind = .semicolon → Body us ss →
      Body (ts ++ semicolon :: us) (s :: ss)
  | unended {ts us : List Token} {s : Stmt} {ss : List Stmt} :
    Statement inner ts s → Apart us → Body us ss → Body (ts ++ us) (s :: ss)

/-- A block with its braces. -/
inductive Block : List Token → List Stmt → Prop
  | mk {ts : List Token} {ss : List Stmt} {left right : Token} :
    left.kind = .lbrace → Body inner ts ss → right.kind = .rbrace →
      Block (left :: (ts ++ [right])) ss

/-- What stands behind the first block of a conditional. -/
inductive Alternative : List Token → Option (List Stmt) → Prop
  | none : Alternative [] none
  | some {ts : List Token} {ss : List Stmt} {word : Token} :
    word.kind = .elseWord → Block inner ts ss → Alternative (word :: ts) (some ss)

/-- An expression that no operator is needed for. -/
inductive Primary : List Token → Expr → Prop
  | ident {t : Token} : t.kind = .ident → Primary [t] (.ident t.literal)
  | int {t : Token} {n : Int64} :
    t.kind = .int → Decimal.Spells t.literal.toList n → Primary [t] (.int n)
  | string {t : Token} : t.kind = .string → Primary [t] (.string t.literal)
  | trueWord {t : Token} : t.kind = .trueWord → Primary [t] (.bool true)
  | falseWord {t : Token} : t.kind = .falseWord → Primary [t] (.bool false)
  | group {ts : List Token} {e : Expr} {left right : Token} :
    left.kind = .lparen → inner .equality ts e → right.kind = .rparen →
      Primary (left :: (ts ++ [right])) e
  | array {ts : List Token} {es : List Expr} {left right : Token} :
    left.kind = .lbracket → Listed (inner .equality) ts es → right.kind = .rbracket →
      Primary (left :: (ts ++ [right])) (.array es)
  | hash {ts : List Token} {pairs : List (Expr × Expr)} {left right : Token} :
    left.kind = .lbrace → Pairs inner ts pairs → right.kind = .rbrace →
      Primary (left :: (ts ++ [right])) (.hash pairs)
  | cond {ts us vs : List Token} {e : Expr} {body : List Stmt} {other : Option (List Stmt)}
    {word left right : Token} :
    word.kind = .ifWord → left.kind = .lparen → inner .equality ts e → right.kind = .rparen →
      Block inner us body → Alternative inner vs other →
      Primary (word :: left :: (ts ++ right :: (us ++ vs))) (.cond e body other)
  | function {ts us : List Token} {names : List String} {body : List Stmt}
    {word left right : Token} :
    word.kind = .fnWord → left.kind = .lparen → Listed Name ts names → right.kind = .rparen →
      Block inner us body → Primary (word :: left :: (ts ++ right :: us)) (.function names body)

/-- The expressions of each layer. -/
inductive Layered : Layer → List Token → Expr → Prop
  | primary {ts : List Token} {e : Expr} : Primary inner ts e → Layered .application ts e
  | call {ts us : List Token} {e : Expr} {arguments : List Expr} {left right : Token} :
    Layered .application ts e → left.kind = .lparen → Listed (inner .equality) us arguments →
      right.kind = .rparen →
      Layered .application (ts ++ left :: (us ++ [right])) (.call e arguments)
  | index {ts us : List Token} {e position : Expr} {left right : Token} :
    Layered .application ts e → left.kind = .lbracket → inner .equality us position →
      right.kind = .rbracket →
      Layered .application (ts ++ left :: (us ++ [right])) (.index e position)
  | unary {ts : List Token} {e : Expr} {op : UnaryOp} {t : Token} :
    t.kind = op.kind → inner .unary ts e → Layered .unary (t :: ts) (.unary op e)
  | binary {ts us : List Token} {e e' : Expr} {op : BinaryOp} {t : Token} :
    Layered (layerOf op) ts e → t.kind = op.kind → inner (layerOf op).tighter us e' →
      Layered (layerOf op) (ts ++ t :: us) (.binary op e e')
  | tighter {layer : Layer} {ts : List Token} {e : Expr} :
    Layered layer.tighter ts e → Layered layer ts e

end

/-- The expressions of each layer that are nested at most `n` deep. -/
def Expression : (n : Nat) → Layer → List Token → Expr → Prop
  | 0 => fun _ _ _ => False
  | n + 1 => Layered (Expression n)

/-- The programs whose expressions are nested at most `n` deep. -/
def Derives (n : Nat) (ts : List Token) (p : Program) : Prop :=
  Body (Expression n) ts p.statements

end Grammar

end MonkeyLang
