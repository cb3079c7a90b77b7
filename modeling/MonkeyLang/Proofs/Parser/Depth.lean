import MonkeyLang.Proofs.Parser.Completeness
/-!
# What is nested too deeply

`Ahead.TooDeep` says that a parse failed and that it recorded that an
expression was nested too deeply. Such a failure goes all the way out:
nothing goes on after it, so whatever was being read around the expression
fails in the same way. The lemmas say this of each place in which a parser
may meet an expression; in a list it is the first such item that decides,
since the items before it are read (`separated_tooDeep`).
-/

namespace MonkeyLang

open Grammar

variable {σ : Type} [TokenSource σ] {α β : Type}

/-- The parse failed, and on the way out recorded that an expression was
nested too deeply. -/
structure Ahead.TooDeep {c : Cursor σ} (r : Ahead c α) : Prop where
  failed : r.val.node? = none
  recorded : .nestingTooDeep ∈ r.val.errors

namespace Ahead

variable {c : Cursor σ}

/-- Where a parse was started does not matter to such a failure. -/
theorem TooDeep.of_val_eq {d : Cursor σ} {r : Ahead c α} {q : Ahead d α} (h : q.TooDeep)
    (heq : r.val = q.val) : r.TooDeep :=
  ⟨heq ▸ h.failed, heq ▸ h.recorded⟩

/-- Nothing goes on after such a failure. -/
theorem TooDeep.bind {r : Ahead c α} (h : r.TooDeep)
    {next : α → (d : Cursor σ) → d.left ≤ c.left → Ahead d β} : (r.bind next).TooDeep := by
  obtain ⟨⟨node?, errors, dropped, d⟩, hle⟩ := r
  obtain ⟨hnode, herrors⟩ := h
  obtain rfl : node? = none := hnode
  exact ⟨rfl, herrors⟩

/-- What fails behind a success fails as a whole. -/
theorem Yields.bind_tooDeep {r : Ahead c α} {a : α} {d : Cursor σ} (h : r.Yields a d)
    {next : α → (d : Cursor σ) → d.left ≤ c.left → Ahead d β}
    (hnext : ∀ hle, (next a d hle).TooDeep) : (r.bind next).TooDeep := by
  obtain ⟨hle, hval⟩ := val_bind_of_yields h
  exact (hnext hle).of_val_eq hval

theorem TooDeep.map {r : Ahead c α} (h : r.TooDeep) (f : α → β) : (r.map f).TooDeep :=
  ⟨by rw [Ahead.map, h.failed, Option.map_none], h.recorded⟩

theorem TooDeep.afterAdvance {r : Ahead c.advance α} (h : r.TooDeep) : r.afterAdvance.TooDeep :=
  ⟨h.failed, h.recorded⟩

end Ahead

namespace Parser

section Steps

variable {c d : Cursor σ} {p : Parser σ α} {f : α → Parser σ β}

theorem tooDeep_bind (h : (p c).TooDeep) : ((p >>= f) c).TooDeep := Ahead.TooDeep.bind h

theorem tooDeep_bind_of_yields {a : α} (h : (p c).Yields a d) (hf : (f a d).TooDeep) :
    ((p >>= f) c).TooDeep :=
  hf.of_val_eq (val_bind_of_yields h)

/-- The token under consideration is looked at first. -/
theorem tooDeep_current {f : Token → Parser σ β} (h : (f c.current c).TooDeep) :
    ((current >>= f) c).TooDeep :=
  tooDeep_bind_of_yields (yields_current_iff.2 ⟨rfl, rfl⟩) h

/-- The token under consideration is passed over. -/
theorem tooDeep_advance {f : Unit → Parser (List Token) β} {t : Token} {ts : List Token}
    (h : (f () (.start ts)).TooDeep) : ((advance >>= f) (.start (t :: ts))).TooDeep :=
  tooDeep_bind_of_yields (yields_advance_iff.2 (Cursor.advance_start _)) h

end Steps

/-! ## Loops -/

section Loops

variable {c d : Cursor σ} {item : Parser σ α} {a : α} {close : TokenKind}

/-- An item that fails so ends the loop. -/
theorem separated_tooDeep (h : (item c).TooDeep) : (separated item c).TooDeep := by
  rw [separated]
  exact h.bind

/-- What comes after an item counts once the item is read. -/
theorem separated_tooDeep_of_yields (h : (item c).Yields a d) (hcomma : d.upcoming.kind = .comma)
    (hrest : (separated item d.advance).TooDeep) : (separated item c).TooDeep := by
  rw [separated]
  refine h.bind_tooDeep fun hle => ?_
  rw [dif_pos hcomma]
  exact (hrest.map _).afterAdvance

/-- Where the list does not end at once, the first item counts. -/
theorem listed_tooDeep (hclose : c.upcoming.kind ≠ close) (h : (separated item c).TooDeep) :
    (listed close item c).TooDeep := by
  refine tooDeep_bind_of_yields (yields_upcoming_iff.2 ⟨rfl, rfl⟩) ?_
  rw [if_neg hclose]
  exact Ahead.TooDeep.bind h

theorem separatedUntil_tooDeep (hclose : c.upcoming.kind ≠ close) (h : (item c).TooDeep) :
    (separatedUntil close item c).TooDeep := by
  rw [separatedUntil, if_neg hclose]
  exact h.bind

theorem separatedUntil_tooDeep_of_yields (hclose : c.upcoming.kind ≠ close)
    (h : (item c).Yields a d) (hne : close ≠ .comma) (hcomma : d.upcoming.kind = .comma)
    (hrest : (separatedUntil close item d.advance).TooDeep) :
    (separatedUntil close item c).TooDeep := by
  rw [separatedUntil, if_neg hclose]
  refine h.bind_tooDeep fun hle => ?_
  rw [if_neg (hcomma ▸ hne.symm), dif_pos hcomma]
  exact (hrest.map _).afterAdvance

end Loops

/-! ## Expressions -/

section Expressions

variable {inner : ExprParser (List Token)} {t u last : Token} {ts : List Token}

theorem nextExpr_tooDeep (h : (inner .lowest (.start ts)).TooDeep) :
    (nextExpr inner (.start (t :: ts))).TooDeep :=
  tooDeep_advance h

/-- Behind a parenthesis an expression counts, and so behind the other
tokens that an operand begins with. -/
theorem operand_group_tooDeep (hk : t.kind = .lparen) (h : (inner .lowest (.start ts)).TooDeep) :
    (operand inner (.start (t :: ts))).TooDeep := by
  refine tooDeep_current ?_
  rw [Cursor.current_start, List.headD_cons, hk]
  exact tooDeep_bind (nextExpr_tooDeep h)

theorem operand_array_tooDeep (hk : t.kind = .lbracket)
    (h : (listed .rbracket (nextExpr inner) (.start (t :: ts))).TooDeep) :
    (operand inner (.start (t :: ts))).TooDeep := by
  refine tooDeep_current ?_
  rw [Cursor.current_start, List.headD_cons, hk]
  exact tooDeep_bind h

theorem operand_hash_tooDeep (hk : t.kind = .lbrace)
    (h : (separatedUntil .rbrace (pair inner) (.start (t :: ts))).TooDeep) :
    (operand inner (.start (t :: ts))).TooDeep := by
  refine tooDeep_current ?_
  rw [Cursor.current_start, List.headD_cons, hk]
  exact Ahead.TooDeep.bind h

theorem operand_unary_tooDeep {op : UnaryOp} (hk : t.kind = op.kind)
    (h : (inner .unary (.start ts)).TooDeep) : (operand inner (.start (t :: ts))).TooDeep := by
  refine tooDeep_current ?_
  rw [Cursor.current_start, List.headD_cons, hk]
  cases op with
  | not => exact tooDeep_advance (tooDeep_bind h)
  | negate => exact tooDeep_advance (tooDeep_bind h)

/-- Behind an operand the arguments count, the index or the right side of
the operator. -/
theorem applied_call_tooDeep {left : Expr} (hk : t.kind = .lparen)
    (h : (listed .rparen (nextExpr inner) (.start (t :: ts))).TooDeep) :
    (applied inner left (.start (t :: ts))).TooDeep := by
  refine tooDeep_current ?_
  rw [Cursor.current_start, List.headD_cons, hk]
  exact tooDeep_bind h

theorem applied_index_tooDeep {left : Expr} (hk : t.kind = .lbracket)
    (h : (inner .lowest (.start ts)).TooDeep) :
    (applied inner left (.start (t :: ts))).TooDeep := by
  refine tooDeep_current ?_
  rw [Cursor.current_start, List.headD_cons, hk]
  exact tooDeep_bind (nextExpr_tooDeep h)

theorem applied_binary_tooDeep {left : Expr} {op : BinaryOp} (hk : t.kind = op.kind)
    (h : (inner (.ofKind op.kind) (.start ts)).TooDeep) :
    (applied inner left (.start (t :: ts))).TooDeep := by
  refine tooDeep_current ?_
  rw [Cursor.current_start, List.headD_cons, hk]
  have happlied : ((do
      advance
      return .binary op left (← inner (.ofKind op.kind)) : Parser (List Token) Expr)
      (.start (t :: ts))).TooDeep :=
    tooDeep_advance (tooDeep_bind h)
  cases op <;> exact happlied

/-- What is applied counts if it is taken up. -/
theorem extended_tooDeep {floor : Precedence} {left : Expr} (hlt : floor < .ofKind t.kind)
    (h : (applied inner left (.start (t :: ts))).TooDeep) :
    (extended inner floor left (.start (last :: t :: ts))).TooDeep := by
  rw [extended, dif_pos (by simpa using hlt)]
  have hadvance : (Cursor.start (last :: t :: ts)).advance = .start (t :: ts) :=
    Cursor.advance_start _
  rw [← hadvance] at h
  exact h.bind.afterAdvance

end Expressions

end Parser

end MonkeyLang
