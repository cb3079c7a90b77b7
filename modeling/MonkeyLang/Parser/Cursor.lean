import MonkeyLang.Token.Source
/-!
# Cursors

The place that a parse has reached: the token under consideration, the one
that follows, and the source of all others. `left` bounds the steps from
which a parse can still learn something; `left_advance_le` says that every
step lowers it, and `left_ne_zero_of_current` and
`left_ne_zero_of_upcoming` that it is positive as long as one of the two
tokens is not the end of the input.
-/

namespace MonkeyLang

/-- The token under consideration and the one after it, over the source of
the rest. -/
structure Cursor (σ : Type) where
  current : Token
  upcoming : Token
  source : σ

namespace Cursor

variable {σ : Type} [TokenSource σ]

/-- The cursor one token further on. -/
def advance (c : Cursor σ) : Cursor σ :=
  let (token, source) := TokenSource.next c.source
  ⟨c.upcoming, token, source⟩

/-- The cursor at the first token of a source. -/
def start (source : σ) : Cursor σ :=
  let (first, source) := TokenSource.next source
  let (second, source) := TokenSource.next source
  ⟨first, second, source⟩

/-- A bound on the steps until both tokens are the end of the input for
ever. -/
def left (c : Cursor σ) : Nat :=
  if TokenSource.remaining c.source ≠ 0 then TokenSource.remaining c.source + 2
  else if c.upcoming.kind ≠ .eof then 2
  else if c.current.kind ≠ .eof then 1
  else 0

/-- Every step lowers what is left, as long as there is some. -/
theorem left_advance_le (c : Cursor σ) : c.advance.left ≤ c.left - 1 := by
  have hle := TokenSource.remaining_next_le c.source
  have hend := TokenSource.kind_next_of_remaining_eq_zero c.source
  simp only [left, advance]
  by_cases hr : TokenSource.remaining c.source = 0
  · have h0 : TokenSource.remaining (TokenSource.next c.source).2 = 0 := by omega
    simp only [hr, h0, hend hr]
    grind
  · grind

theorem left_advance_le_left (c : Cursor σ) : c.advance.left ≤ c.left :=
  Nat.le_trans c.left_advance_le (Nat.sub_le _ _)

/-- There is something left as long as one of the tokens in sight is not
the end of the input. -/
theorem left_ne_zero_of_current {c : Cursor σ} (h : c.current.kind ≠ .eof) : c.left ≠ 0 := by
  unfold left
  grind

theorem left_ne_zero_of_upcoming {c : Cursor σ} (h : c.upcoming.kind ≠ .eof) : c.left ≠ 0 := by
  unfold left
  grind

end Cursor

end MonkeyLang
