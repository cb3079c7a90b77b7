import MonkeyLang.Proofs.Parser.Judgment
/-!
# Relations that the ways to build a parser respect

A property of parsers, or a relation between the parsers over two sources,
that every way to build a parser respects wherever it is started is a
`Congruence`. It is a judgment that says nothing of places, and so the
parsers for expressions and statements are in it (`Congruence.expr`).
-/

namespace MonkeyLang

namespace Parser

variable {σ τ : Type} [TokenSource σ] [TokenSource τ] {α β : Type}

/-- A relation between the parsers over two sources that is kept by the
primitive parsers, by going on after a parser, by making up for a failure,
and by the loops. -/
structure Congruence (σ τ : Type) [TokenSource σ] [TokenSource τ] where
  rel : ∀ {α : Type}, Parser σ α → Parser τ α → Prop
  pure : ∀ {α : Type} (a : α), rel (pure a) (pure a)
  fail : ∀ {α : Type} (e : SyntaxError), rel (fail e : Parser σ α) (fail e)
  bind : ∀ {α β : Type} {p : Parser σ α} {q : Parser τ α} {f : α → Parser σ β}
    {g : α → Parser τ β}, rel p q → (∀ a, rel (f a) (g a)) → rel (p >>= f) (q >>= g)
  current : rel current current
  upcoming : rel upcoming upcoming
  advance : rel advance advance
  separated : ∀ {α : Type} {p : Parser σ α} {q : Parser τ α},
    rel p q → rel (separated p) (separated q)
  separatedUntil : ∀ {α : Type} {p : Parser σ α} {q : Parser τ α} (close : TokenKind),
    rel p q → rel (separatedUntil close p) (separatedUntil close q)
  blockBody : ∀ {α : Type} {p : Parser σ α} {q : Parser τ α},
    rel p q → rel (blockBody p) (blockBody q)
  extended : ∀ {inner : ExprParser σ} {inner' : ExprParser τ} (floor : Precedence),
    (∀ left, rel (applied inner left) (applied inner' left)) →
      ∀ left, rel (extended inner floor left) (extended inner' floor left)

namespace Congruence

variable (R : Congruence σ τ)

/-- Where a parser may be started does not matter to a congruence. -/
def judgment : Judgment σ τ where
  holds _ _ _ _ p q := R.rel p q
  succ h := h
  weaken _ _ h := h
  done := R.pure
  fail := R.fail
  bind := R.bind
  current _ h := R.bind R.current h
  upcoming _ h := R.bind R.upcoming h
  advance _ := R.advance
  separated := R.separated
  separatedUntil := R.separatedUntil
  blockBody := R.blockBody
  extended := R.extended

section

variable {inner : ExprParser σ} {inner' : ExprParser τ}
  (h : ∀ floor, R.rel (inner floor) (inner' floor))

include h

theorem statement : R.rel (statement inner) (statement inner') :=
  R.judgment.statement (n := 0) h

theorem block : R.rel (block inner) (block inner') :=
  R.judgment.block (n := 0) (s := Window.inside) h fun _ _ h => h

end

/-- **The parser for expressions is in every congruence.** -/
theorem expr (n : Nat) (floor : Precedence) : R.rel (expr n floor) (expr n floor) :=
  R.judgment.expr n floor

theorem topStatement : R.rel topStatement topStatement :=
  R.judgment.topStatement

end Congruence

end Parser

end MonkeyLang
