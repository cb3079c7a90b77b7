import MonkeyLang.Parser.Cursor
import MonkeyLang.Parser.Error
/-!
# Parsers

A parser starts at a cursor and ends at one, with a node or without. Errors
are recorded rather than thrown: what a failed parser consumed stays
consumed, and what it recorded stays recorded. Along with the errors a
parse counts the statements that it dropped.

No parser moves backwards: the bound on the type of a parser says that it
ends with no more left than there was where it started. So a loop that
takes a token in every round comes to an end, whatever parser it runs in
between.
-/

namespace MonkeyLang

/-- How a parser ended: its node if it succeeded, the errors it recorded,
the number of statements it dropped, and the place it reached. -/
structure Parsed (σ α : Type) where
  node? : Option α
  errors : List SyntaxError
  dropped : Nat
  cursor : Cursor σ

variable {σ : Type} [TokenSource σ] {α β : Type}

/-- The ways in which a parser that starts at `c` may end. -/
def Ahead (c : Cursor σ) (α : Type) : Type :=
  { r : Parsed σ α // r.cursor.left ≤ c.left }

namespace Ahead

/-- Success at the starting place. -/
def pure (a : α) (c : Cursor σ) : Ahead c α := ⟨⟨some a, [], 0, c⟩, Nat.le_refl _⟩

/-- Failure at the starting place, for the given cause. -/
def fail (e : SyntaxError) (c : Cursor σ) : Ahead c α := ⟨⟨none, [e], 0, c⟩, Nat.le_refl _⟩

/-- After a success, goes on from the place reached; after a failure, ends
there. -/
def bind {c : Cursor σ} (r : Ahead c α)
    (next : α → (d : Cursor σ) → d.left ≤ c.left → Ahead d β) : Ahead c β :=
  match r with
  | ⟨⟨some a, errors, dropped, d⟩, h⟩ =>
    let s := next a d h
    ⟨⟨s.val.node?, errors ++ s.val.errors, dropped + s.val.dropped, s.val.cursor⟩,
      Nat.le_trans s.property h⟩
  | ⟨⟨none, errors, dropped, d⟩, h⟩ => ⟨⟨none, errors, dropped, d⟩, h⟩

/-- What starts one token further on also starts here. -/
def afterAdvance {c : Cursor σ} (r : Ahead c.advance α) : Ahead c α :=
  ⟨r.val, Nat.le_trans r.property c.left_advance_le_left⟩

/-- The same end with another node. -/
def map {c : Cursor σ} (f : α → β) (r : Ahead c α) : Ahead c β :=
  ⟨⟨r.val.node?.map f, r.val.errors, r.val.dropped, r.val.cursor⟩, r.property⟩

end Ahead

/-- A parser for nodes of type `α`. -/
def Parser (σ : Type) [TokenSource σ] (α : Type) : Type := (c : Cursor σ) → Ahead c α

namespace Parser

instance : Monad (Parser σ) where
  pure a := Ahead.pure a
  bind p f := fun c => (p c).bind fun a d _ => f a d

/-- Ends without a node, for the given cause. -/
def fail (e : SyntaxError) : Parser σ α := Ahead.fail e

/-- The token under consideration. -/
def current : Parser σ Token := fun c => Ahead.pure c.current c

/-- The kind of the token that follows. -/
def upcoming : Parser σ TokenKind := fun c => Ahead.pure c.upcoming.kind c

/-- Moves on by one token. -/
def advance : Parser σ Unit := fun c => (Ahead.pure () c.advance).afterAdvance

/-- Moves on to the token that follows, if it is of the wanted kind. -/
def expect (wanted : TokenKind) : Parser σ Unit := do
  let found ← upcoming
  if found = wanted then advance else fail (.unexpected wanted found)

/-- Moves on to the token that follows only if it is of the given kind. -/
def skip (kind : TokenKind) : Parser σ Unit := do
  if (← upcoming) = kind then advance

/-- Runs a parser for a statement; one that fails is dropped, and the parse
goes on. -/
def attempt (p : Parser σ α) : Parser σ (Option α) := fun c =>
  match p c with
  | ⟨⟨some a, errors, dropped, d⟩, h⟩ => ⟨⟨some (some a), errors, dropped, d⟩, h⟩
  | ⟨⟨none, errors, dropped, d⟩, h⟩ => ⟨⟨some none, errors, dropped + 1, d⟩, h⟩

/-! ## Loops -/

/-- Items with commas between them. -/
def separated (item : Parser σ α) (c : Cursor σ) : Ahead c (List α) :=
  (item c).bind fun a d _ =>
    if _ : d.upcoming.kind = .comma then
      ((separated item d.advance).map (a :: ·)).afterAdvance
    else Ahead.pure [a] d
termination_by c.left
decreasing_by
  have := d.left_advance_le
  have := d.left_ne_zero_of_upcoming (by simp_all)
  omega

/-- Items with commas between them, or none, and the closing token behind
them. -/
def listed (close : TokenKind) (item : Parser σ α) : Parser σ (List α) := do
  if (← upcoming) = close then
    advance
    return []
  else
    let items ← separated item
    expect close
    return items

/-- Items up to a closing token, each but the last followed by a comma; the
last may be, too. -/
def separatedUntil (close : TokenKind) (item : Parser σ α) (c : Cursor σ) : Ahead c (List α) :=
  if c.upcoming.kind = close then Ahead.pure [] c
  else
    (item c).bind fun a d _ =>
      if d.upcoming.kind = close then Ahead.pure [a] d
      else if _ : d.upcoming.kind = .comma then
        ((separatedUntil close item d.advance).map (a :: ·)).afterAdvance
      else Ahead.fail (.unexpected .comma d.upcoming.kind) d
termination_by c.left
decreasing_by
  have := d.left_advance_le
  have := d.left_ne_zero_of_upcoming (by simp_all)
  omega

/-- The statements of a block, from the first one up to the closing brace.
A statement that cannot be read is dropped; a block that is not closed
fails. -/
def blockBody (statement : Parser σ α) (c : Cursor σ) : Ahead c (List α) :=
  if c.current.kind = .rbrace then Ahead.pure [] c
  else if _ : c.current.kind = .eof then Ahead.fail (.unexpected .rbrace .eof) c
  else
    (attempt statement c).bind fun s? d _ =>
      ((blockBody statement d.advance).map (s?.toList ++ ·)).afterAdvance
termination_by c.left
decreasing_by
  have := d.left_advance_le
  have := c.left_ne_zero_of_current ‹_›
  omega

end Parser

end MonkeyLang
