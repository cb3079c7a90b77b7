import MonkeyLang.Parser.Program
/-!
# Parses without errors

`Ahead.Yields` says that a parse succeeded, recorded nothing and dropped
nothing. Read as a relation between where a parse starts, its node and
where it ends, it composes: a sequence of parsers yields what its parts
yield one after the other (`Parser.yields_bind_iff`), and each primitive
parser has its equation.

Over a list of tokens a cursor is the list of the tokens from the current
one on, so the steps of a parse are steps down a list
(`Cursor.advance_start`).
-/

namespace MonkeyLang

variable {σ : Type} [TokenSource σ] {α β : Type}

/-- The parse ended with the node `a` at `d`, and had nothing to record on
the way. -/
def Ahead.Yields {c : Cursor σ} (r : Ahead c α) (a : α) (d : Cursor σ) : Prop :=
  r.val = ⟨some a, [], 0, d⟩

namespace Ahead

variable {c d : Cursor σ} {a : α} {b : β}

theorem yields_pure_iff {x : α} : (Ahead.pure x c).Yields a d ↔ x = a ∧ c = d := by
  simp [Yields, Ahead.pure]

theorem not_yields_fail {e : SyntaxError} : ¬ (Ahead.fail e c : Ahead c α).Yields a d := by
  simp [Yields, Ahead.fail]

/-- **A sequence yields what its parts yield in turn.** -/
theorem yields_bind_iff {r : Ahead c α}
    {next : α → (d : Cursor σ) → d.left ≤ c.left → Ahead d β} :
    (r.bind next).Yields b d ↔ ∃ a e h, r.Yields a e ∧ (next a e h).Yields b d := by
  obtain ⟨⟨node?, errors, dropped, e⟩, h⟩ := r
  cases node? with
  | none => simp [Yields, Ahead.bind]
  | some a =>
    simp only [Yields, Ahead.bind, Parsed.mk.injEq, List.append_eq_nil_iff, Nat.add_eq_zero_iff]
    constructor
    · rintro ⟨hnode, ⟨rfl, hnext⟩, ⟨rfl, hdrop⟩, hend⟩
      exact ⟨a, e, h, ⟨rfl, rfl, rfl, rfl⟩, by rw [← hnode, ← hnext, ← hdrop, ← hend]⟩
    · rintro ⟨a', e', h', ⟨hnode, rfl, rfl, rfl⟩, hnext⟩
      obtain rfl := Option.some.inj hnode
      exact ⟨by rw [hnext], ⟨rfl, by rw [hnext]⟩, ⟨rfl, by rw [hnext]⟩, by rw [hnext]⟩

theorem yields_map_iff {f : α → β} {r : Ahead c α} :
    (r.map f).Yields b d ↔ ∃ a, r.Yields a d ∧ f a = b := by
  obtain ⟨⟨node?, errors, dropped, e⟩, h⟩ := r
  cases node? with
  | none => simp [Yields, Ahead.map]
  | some a =>
    simp only [Yields, Ahead.map, Option.map_some, Parsed.mk.injEq, Option.some.injEq]
    constructor
    · rintro ⟨hnode, hrest⟩
      exact ⟨a, ⟨rfl, hrest⟩, hnode⟩
    · rintro ⟨a', ⟨rfl, hrest⟩, hnode⟩
      exact ⟨hnode, hrest⟩

theorem yields_afterAdvance_iff {r : Ahead c.advance α} :
    r.afterAdvance.Yields a d ↔ r.Yields a d := Iff.rfl

/-- What goes on after a success goes on from what it yielded. -/
theorem val_bind_of_yields {r : Ahead c α}
    {next : α → (d : Cursor σ) → d.left ≤ c.left → Ahead d β} {e : Cursor σ}
    (h : r.Yields a e) : ∃ hle, (r.bind next).val = (next a e hle).val := by
  obtain ⟨⟨node?, errors, dropped, e'⟩, hle⟩ := r
  simp only [Yields, Parsed.mk.injEq] at h
  obtain ⟨rfl, rfl, rfl, rfl⟩ := h
  exact ⟨hle, by simp [Ahead.bind]⟩

end Ahead

namespace Parser

variable {c d : Cursor σ} {a : α} {b : β} {u : Unit}

theorem yields_pure_iff {x : α} : ((pure x : Parser σ α) c).Yields a d ↔ x = a ∧ c = d :=
  Ahead.yields_pure_iff

theorem not_yields_fail {e : SyntaxError} : ¬ ((fail e : Parser σ α) c).Yields a d :=
  Ahead.not_yields_fail

theorem yields_bind_iff {p : Parser σ α} {f : α → Parser σ β} :
    ((p >>= f) c).Yields b d ↔ ∃ a e, (p c).Yields a e ∧ (f a e).Yields b d := by
  refine Ahead.yields_bind_iff.trans ⟨?_, ?_⟩
  · rintro ⟨a, e, -, h⟩
    exact ⟨a, e, h⟩
  · rintro ⟨a, e, hp, hf⟩
    refine ⟨a, e, ?_, hp, hf⟩
    have hle := (p c).property
    rwa [hp] at hle

/-- The same, for a loop in the place of the first parser. -/
theorem yields_loop_bind_iff {p : (c : Cursor σ) → Ahead c α} {f : α → Parser σ β} :
    (((p : Parser σ α) >>= f) c).Yields b d ↔ ∃ a e, (p c).Yields a e ∧ (f a e).Yields b d :=
  yields_bind_iff

theorem val_bind_of_yields {p : Parser σ α} {f : α → Parser σ β} {e : Cursor σ}
    (h : (p c).Yields a e) : ((p >>= f) c).val = (f a e).val :=
  (Ahead.val_bind_of_yields h).2

theorem yields_ite_iff {P : Prop} [Decidable P] {p q : Parser σ α} :
    ((if P then p else q) c).Yields a d ↔ if P then (p c).Yields a d else (q c).Yields a d := by
  split <;> rfl

/-- Names the parser that was run, so that its definition can be taken
apart. -/
theorem exists_eq_of_yields {p : Parser σ α} (h : (p c).Yields a d) :
    ∃ q, p = q ∧ (q c).Yields a d := ⟨p, rfl, h⟩

theorem yields_current_iff {t : Token} : (current c).Yields t d ↔ c.current = t ∧ c = d :=
  Ahead.yields_pure_iff

theorem yields_upcoming_iff {k : TokenKind} :
    (upcoming c).Yields k d ↔ c.upcoming.kind = k ∧ c = d := Ahead.yields_pure_iff

theorem yields_advance_iff : (advance c).Yields u d ↔ c.advance = d := by
  refine Ahead.yields_afterAdvance_iff.trans (Ahead.yields_pure_iff.trans ?_)
  simp

theorem yields_expect_iff {k : TokenKind} :
    (expect k c).Yields u d ↔ c.upcoming.kind = k ∧ c.advance = d := by
  simp only [expect, yields_bind_iff, yields_upcoming_iff, yields_ite_iff, yields_advance_iff,
    not_yields_fail]
  grind

theorem yields_skip_iff {k : TokenKind} :
    (skip k c).Yields u d ↔ (if c.upcoming.kind = k then c.advance else c) = d := by
  simp only [skip, yields_bind_iff, yields_upcoming_iff, yields_ite_iff, yields_advance_iff,
    yields_pure_iff]
  grind

/-- An attempt that drops nothing is a success. -/
theorem yields_attempt_iff {p : Parser σ α} {s? : Option α} :
    (attempt p c).Yields s? d ↔ ∃ a, s? = some a ∧ (p c).Yields a d := by
  unfold attempt
  split
  · next x errors dropped e hle heq =>
    simp only [Ahead.Yields, heq, Parsed.mk.injEq, Option.some.injEq]
    grind
  · next errors dropped e hle heq => simp [Ahead.Yields, heq]

/-! ## Loops -/

theorem yields_separated_iff {item : Parser σ α} {as : List α} :
    (separated item c).Yields as d ↔ ∃ a e, (item c).Yields a e ∧
      if e.upcoming.kind = .comma then
        ∃ rest, (separated item e.advance).Yields rest d ∧ a :: rest = as
      else [a] = as ∧ e = d := by
  rw [separated, Ahead.yields_bind_iff]
  refine exists_congr fun a => exists_congr fun e => ⟨?_, ?_⟩
  · rintro ⟨-, hitem, h⟩
    refine ⟨hitem, ?_⟩
    split at h
    · next hc =>
      rw [if_pos hc]
      exact Ahead.yields_map_iff.1 (Ahead.yields_afterAdvance_iff.1 h)
    · next hc =>
      rw [if_neg hc]
      exact Ahead.yields_pure_iff.1 h
  · rintro ⟨hitem, h⟩
    have hle := (item c).property
    rw [hitem] at hle
    refine ⟨hle, hitem, ?_⟩
    split at h
    · next hc =>
      rw [dif_pos hc]
      exact Ahead.yields_afterAdvance_iff.2 (Ahead.yields_map_iff.2 h)
    · next hc =>
      rw [dif_neg hc]
      exact Ahead.yields_pure_iff.2 h

theorem yields_listed_iff {close : TokenKind} {item : Parser σ α} {as : List α} :
    (listed close item c).Yields as d ↔
      if c.upcoming.kind = close then [] = as ∧ c.advance = d
      else ∃ e, (separated item c).Yields as e ∧ e.upcoming.kind = close ∧ e.advance = d := by
  simp only [listed, yields_bind_iff, yields_loop_bind_iff, yields_upcoming_iff, yields_ite_iff,
    yields_advance_iff, yields_pure_iff, yields_expect_iff]
  grind

theorem yields_separatedUntil_iff {close : TokenKind} {item : Parser σ α} {as : List α} :
    (separatedUntil close item c).Yields as d ↔
      if c.upcoming.kind = close then [] = as ∧ c = d
      else ∃ a e, (item c).Yields a e ∧
        if e.upcoming.kind = close then [a] = as ∧ e = d
        else e.upcoming.kind = .comma ∧
          ∃ rest, (separatedUntil close item e.advance).Yields rest d ∧ a :: rest = as := by
  rw [separatedUntil]
  split
  · exact Ahead.yields_pure_iff
  rw [Ahead.yields_bind_iff]
  refine exists_congr fun a => exists_congr fun e => ⟨?_, ?_⟩
  · rintro ⟨-, hitem, h⟩
    refine ⟨hitem, ?_⟩
    split at h
    · next hc =>
      rw [if_pos hc]
      exact Ahead.yields_pure_iff.1 h
    · next hc =>
      rw [if_neg hc]
      split at h
      · next hcomma =>
        exact ⟨hcomma, Ahead.yields_map_iff.1 (Ahead.yields_afterAdvance_iff.1 h)⟩
      · exact absurd h Ahead.not_yields_fail
  · rintro ⟨hitem, h⟩
    have hle := (item c).property
    rw [hitem] at hle
    refine ⟨hle, hitem, ?_⟩
    split at h
    · next hc =>
      rw [if_pos hc]
      exact Ahead.yields_pure_iff.2 h
    · next hc =>
      rw [if_neg hc, dif_pos h.1]
      exact Ahead.yields_afterAdvance_iff.2 (Ahead.yields_map_iff.2 h.2)

theorem yields_blockBody_iff {statement : Parser σ α} {as : List α} :
    (blockBody statement c).Yields as d ↔
      if c.current.kind = .rbrace then [] = as ∧ c = d
      else c.current.kind ≠ .eof ∧ ∃ a e, (statement c).Yields a e ∧
        ∃ rest, (blockBody statement e.advance).Yields rest d ∧ a :: rest = as := by
  rw [blockBody]
  split
  · exact Ahead.yields_pure_iff
  split
  · next heof => simp [heof, Ahead.not_yields_fail]
  · next heof =>
    simp only [Ahead.yields_bind_iff, Ahead.yields_afterAdvance_iff, Ahead.yields_map_iff,
      yields_attempt_iff, ne_eq, heof, not_false_eq_true, true_and]
    constructor
    · rintro ⟨-, e, -, ⟨a, rfl, ha⟩, rest, hrest, h⟩
      exact ⟨a, e, ha, rest, hrest, h⟩
    · rintro ⟨a, e, ha, rest, hrest, h⟩
      have hle := (statement c).property
      rw [ha] at hle
      exact ⟨some a, e, hle, ⟨a, rfl, ha⟩, rest, hrest, h⟩

/-- The loop over what follows an operand. -/
theorem yields_extended_iff {inner : ExprParser σ} {floor : Precedence} {left e : Expr} :
    (extended inner floor left c).Yields e d ↔
      if floor < .ofKind c.upcoming.kind then
        ∃ e' c', (applied inner left c.advance).Yields e' c' ∧
          (extended inner floor e' c').Yields e d
      else left = e ∧ c = d := by
  rw [extended]
  split
  · refine Ahead.yields_afterAdvance_iff.trans (Ahead.yields_bind_iff.trans ?_)
    refine exists_congr fun e' => exists_congr fun c' => ⟨?_, ?_⟩
    · rintro ⟨-, h⟩
      exact h
    · rintro ⟨happly, h⟩
      have hle := (applied inner left c.advance).property
      rw [happly] at hle
      exact ⟨hle, happly, h⟩
  · exact Ahead.yields_pure_iff

end Parser

/-! ## Steps down a list of tokens -/

namespace Cursor

/-- The cursor at the first of some tokens looks at it. -/
@[simp] theorem current_start (ts : List Token) :
    (start ts).current = ts.headD .endOfInput := by
  cases ts <;> rfl

/-- And it looks ahead to the second. -/
@[simp] theorem upcoming_start (ts : List Token) :
    (start ts).upcoming = ts.tail.headD .endOfInput := by
  rcases ts with - | ⟨t, - | ⟨u, ts⟩⟩ <;> rfl

/-- **A step is a step down the list.** -/
@[simp] theorem advance_start (ts : List Token) : (start ts).advance = start ts.tail := by
  rcases ts with - | ⟨t, - | ⟨u, ts⟩⟩ <;> rfl

end Cursor

/-! ## Programs -/

section Programs

variable {c d : Cursor σ} {errors : List SyntaxError} {dropped : Nat}

/-- A reading that has come to the end of the input. -/
theorem readFrom_start_nil : readFrom (.start ([] : List Token)) = ⟨[], [], 0, .start []⟩ := by
  rw [readFrom, dif_pos (by rfl)]

/-- A reading that could read its first statement. -/
theorem readFrom_of_some {s : Stmt} (heof : c.current.kind ≠ .eof)
    (h : (Parser.topStatement c).val = ⟨some s, errors, dropped, d⟩) :
    (readFrom c).statements = s :: (readFrom d.advance).statements ∧
      (readFrom c).errors = errors ++ (readFrom d.advance).errors := by
  rw [readFrom, dif_neg heof]
  revert h
  rcases Parser.topStatement c with ⟨_, hle⟩
  rintro rfl
  exact ⟨rfl, rfl⟩

/-- A reading that had to drop its first statement. -/
theorem readFrom_of_none (heof : c.current.kind ≠ .eof)
    (h : (Parser.topStatement c).val = ⟨none, errors, dropped, d⟩) :
    (readFrom c).statements = (readFrom d.skipStatement.advance).statements ∧
      (readFrom c).errors = errors ++ (readFrom d.skipStatement.advance).errors := by
  rw [readFrom, dif_neg heof]
  revert h
  rcases Parser.topStatement c with ⟨_, hle⟩
  rintro rfl
  exact ⟨rfl, rfl⟩

end Programs

end MonkeyLang
