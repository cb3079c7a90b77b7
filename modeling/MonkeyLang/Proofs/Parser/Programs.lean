import MonkeyLang.Parser.Program
/-!
# Reading statement by statement

A program is read by one parser for statements, over and over. `readWith`
leaves that parser open, and reading is what it is with the parser for
statements of a program (`readWith_topStatement`). So what is shown of a
single statement carries over to programs by induction along the statements
(`readWith_statements`), with one equation for what a statement adds
(`readWith_eq`).
-/

namespace MonkeyLang

variable {σ : Type} [TokenSource σ] {c : Cursor σ}

namespace Cursor

/-- At the end of the input there is nothing to skip. -/
theorem skipStatement_of_eof (h : c.current.kind = .eof) : c.skipStatement = c := by
  rw [skipStatement, dif_pos h, ite_self]

/-- Skipping makes steps from tokens that are not the end of the input. -/
theorem skipStatement_steps {motive : Cursor σ → Prop} (h : motive c)
    (hstep : ∀ d, motive d → d.current.kind ≠ .eof → motive d.advance) :
    motive c.skipStatement := by
  fun_induction skipStatement c with
  | case1 => exact h
  | case2 => exact h
  | case3 c _ heof ih => exact ih (hstep c h heof)

end Cursor

/-- Where reading goes on after a statement: one token behind it, or one token
behind what is skipped of it. -/
def Parsed.resume (r : Parsed σ Stmt) : Cursor σ :=
  match r.node? with
  | some _ => r.cursor.advance
  | none => r.cursor.skipStatement.advance

theorem Parsed.left_resume_le (r : Parsed σ Stmt) : r.resume.left ≤ r.cursor.left - 1 := by
  have hadvance := r.cursor.left_advance_le
  have hskipped := r.cursor.skipStatement.left_advance_le
  have hskip := r.cursor.left_skipStatement_le
  unfold resume
  split <;> omega

/-- What a statement, which may be dropped, adds to the reading behind it. -/
def Parsed.before (first : Parsed σ Stmt) (rest : Reading σ) : Reading σ :=
  ⟨first.node?.toList ++ rest.statements, first.errors ++ rest.errors,
    first.dropped + first.node?.elim 1 (fun _ => 0) + rest.dropped, rest.cursor⟩

variable (item : Parser σ Stmt)

/-- Reads statements with a given parser up to the end of the input. -/
def readWith (c : Cursor σ) : Reading σ :=
  if _ : c.current.kind = .eof then ⟨[], [], 0, c⟩
  else (item c).val.before (readWith (item c).val.resume)
termination_by c.left
decreasing_by
  have hresume := (item c).val.left_resume_le
  have hitem := (item c).property
  have hleft := c.left_ne_zero_of_current ‹_›
  omega

/-- At the end of the input reading ends. -/
theorem readWith_of_eof (h : c.current.kind = .eof) : readWith item c = ⟨[], [], 0, c⟩ := by
  rw [readWith, dif_pos h]

/-- Anywhere else there is a statement, which may be dropped. -/
theorem readWith_eq (heof : c.current.kind ≠ .eof) :
    readWith item c = (item c).val.before (readWith item (item c).val.resume) := by
  rw [readWith, dif_neg heof]

/-- The statements of a program, one by one. -/
theorem readWith_statements {motive : Cursor σ → Prop}
    (ended : ∀ c, c.current.kind = .eof → motive c)
    (statement : ∀ c, c.current.kind ≠ .eof → motive (item c).val.resume → motive c)
    (c : Cursor σ) : motive c := by
  fun_induction readWith item c with
  | case1 c heof => exact ended c heof
  | case2 c heof ih => exact statement c heof ih

/-- **Reading takes the parser for statements of a program.** -/
theorem readWith_topStatement (c : Cursor σ) : readWith Parser.topStatement c = readFrom c := by
  induction c using readWith_statements (Parser.topStatement (σ := σ)) with
  | ended c heof => rw [readWith_of_eof _ heof, readFrom, dif_pos heof]
  | statement c heof ih =>
    rw [readWith_eq _ heof, ih, readFrom.eq_def c, dif_neg heof]
    unfold Parsed.resume Parsed.before
    rcases Parser.topStatement c with ⟨⟨_ | s, errors, dropped, d⟩, hle⟩ <;> rfl

end MonkeyLang
