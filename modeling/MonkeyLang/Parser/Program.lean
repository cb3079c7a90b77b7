import MonkeyLang.Parser.Expression
import MonkeyLang.Token.Scan
/-!
# Programs

A parse reads a whole program, whatever it is given. A statement that
cannot be read is dropped and its remains are skipped: up to the semicolon
that ends it, or to where the next token can only begin a statement. So the
reading of a text is the program that was left over, together with the
errors in the order in which they were met.
-/

namespace MonkeyLang

variable {σ : Type} [TokenSource σ]

namespace Cursor

/-- Skips the remains of a statement: up to its semicolon, to the end of
the input, or to just before a word that begins a statement. -/
def skipStatement (c : Cursor σ) : Cursor σ :=
  if c.current.kind = .semicolon ∨ c.upcoming.kind = .letWord ∨ c.upcoming.kind = .returnWord then
    c
  else if _ : c.current.kind = .eof then c
  else skipStatement c.advance
termination_by c.left
decreasing_by
  have := c.left_advance_le
  have := c.left_ne_zero_of_current ‹_›
  omega

theorem left_skipStatement_le (c : Cursor σ) : c.skipStatement.left ≤ c.left := by
  fun_induction skipStatement c with
  | case1 => exact Nat.le_refl _
  | case2 => exact Nat.le_refl _
  | case3 c _ _ ih => exact Nat.le_trans ih c.left_advance_le_left

end Cursor

/-- What a parse made of its input: the statements it could read, the
errors it recorded, the number of statements it dropped, at the top and in
blocks, and the place it reached. -/
structure Reading (σ : Type) where
  statements : List Stmt
  errors : List SyntaxError
  dropped : Nat
  cursor : Cursor σ

namespace Reading

/-- The program that could be read. -/
def program (r : Reading σ) : Program := ⟨r.statements⟩

/-- The texts of the errors. -/
def messages (r : Reading σ) : List String := r.errors.map SyntaxError.message

end Reading

/-- A statement of a program, its expressions being nested at most as
deeply as the limit says. -/
def Parser.topStatement : Parser σ Stmt := statement (expr nestingLimit)

/-- Reads statements from a cursor up to the end of the input. -/
def readFrom (c : Cursor σ) : Reading σ :=
  if _ : c.current.kind = .eof then ⟨[], [], 0, c⟩
  else
    let ⟨step, _⟩ := Parser.topStatement c
    match step.node? with
    | some s =>
      let rest := readFrom step.cursor.advance
      ⟨s :: rest.statements, step.errors ++ rest.errors, step.dropped + rest.dropped, rest.cursor⟩
    | none =>
      let rest := readFrom step.cursor.skipStatement.advance
      ⟨rest.statements, step.errors ++ rest.errors, step.dropped + 1 + rest.dropped, rest.cursor⟩
termination_by c.left
decreasing_by
  all_goals
    have := c.left_ne_zero_of_current ‹_›
    have := step.cursor.left_advance_le
    have := step.cursor.skipStatement.left_advance_le
    have := step.cursor.left_skipStatement_le
    omega

/-- Reads the program that a source supplies. -/
def read (source : σ) : Reading σ := readFrom (.start source)

/-- Reads the program that is written in a text. -/
def readText (text : String) : Reading (List Char) := read text.toList

end MonkeyLang
