import MonkeyLang.Proofs.Parser.Congruence
import MonkeyLang.Proofs.Parser.Yields
/-!
# Errors and dropped statements

A parser that fails has recorded one error more than the statements it
dropped in the blocks it went through, and a parser that succeeds exactly
as many. The lemmas say this of every way to build a parser, and so it
holds of the parsers for expressions and statements (`balance`). A parse
that recorded nothing is therefore one that yields a node
(`Ahead.Balanced.exists_yields`), and a whole program has one error for
each statement that was dropped (`failures_reported_once`).
-/

namespace MonkeyLang

variable {σ : Type} [TokenSource σ] {α β : Type}

/-- There is one error for each statement that was dropped, and one for the
failure, if it is one. -/
def Ahead.Balanced {c : Cursor σ} (r : Ahead c α) : Prop :=
  r.val.errors.length = r.val.dropped + r.val.node?.elim 1 fun _ => 0

namespace Ahead

variable {c : Cursor σ}

theorem balanced_pure (a : α) : (Ahead.pure a c).Balanced := rfl

theorem balanced_fail (e : SyntaxError) : (Ahead.fail e c : Ahead c α).Balanced := rfl

/-- The errors of two parses add up, and so do the statements dropped. -/
theorem Balanced.bind {r : Ahead c α} {next : α → (d : Cursor σ) → d.left ≤ c.left → Ahead d β}
    (hr : r.Balanced) (hnext : ∀ a d h, (next a d h).Balanced) : (r.bind next).Balanced := by
  obtain ⟨⟨node?, errors, dropped, d⟩, h⟩ := r
  cases node? with
  | none => exact hr
  | some a =>
    have hs := hnext a d h
    simp only [Balanced, Option.elim_some, Nat.add_zero] at hr hs
    simp only [Balanced, Ahead.bind, List.length_append]
    omega

theorem Balanced.map {r : Ahead c α} (h : r.Balanced) (f : α → β) : (r.map f).Balanced := by
  obtain ⟨⟨node?, errors, dropped, d⟩, hle⟩ := r
  cases node? <;> exact h

/-- **Without an error there is a node**, and nothing was dropped. -/
theorem Balanced.exists_yields {r : Ahead c α} (h : r.Balanced) (herrors : r.val.errors = []) :
    ∃ a d, r.Yields a d := by
  obtain ⟨⟨node?, errors, dropped, d⟩, hle⟩ := r
  obtain rfl : errors = [] := herrors
  cases node? with
  | none => simp [Balanced] at h
  | some a =>
    obtain rfl : dropped = 0 := by simpa [Balanced] using h.symm
    exact ⟨a, d, rfl⟩

end Ahead

namespace Parser

/-- A parser for which errors and dropped statements are in balance
wherever it starts. -/
def Balanced (p : Parser σ α) : Prop := ∀ c, (p c).Balanced

theorem balanced_pure (a : α) : (pure a : Parser σ α).Balanced := fun _ => rfl

theorem balanced_fail (e : SyntaxError) : (fail e : Parser σ α).Balanced := fun _ => rfl

theorem Balanced.bind {p : Parser σ α} {f : α → Parser σ β} (hp : p.Balanced)
    (hf : ∀ a, (f a).Balanced) : (p >>= f).Balanced :=
  fun c => (hp c).bind fun a d _ => hf a d

theorem balanced_advance : (advance (σ := σ)).Balanced := fun _ => rfl

/-- An attempt counts the failure that it makes up for. -/
theorem Balanced.attempt {p : Parser σ α} (hp : p.Balanced) : (attempt p).Balanced := by
  intro c
  have h := hp c
  unfold Parser.attempt
  split
  · next heq => simpa [Ahead.Balanced, heq] using h
  · next heq => simpa [Ahead.Balanced, heq] using h

/-! ## Loops -/

theorem Balanced.separated {item : Parser σ α} (h : item.Balanced) :
    Balanced (separated item) := by
  intro c
  fun_induction Parser.separated item c with
  | case1 c ih =>
    refine (h c).bind fun a d hle => ?_
    split
    · next hcomma => exact (ih d hle hcomma).map _
    · exact Ahead.balanced_pure _

theorem Balanced.separatedUntil {item : Parser σ α} (h : item.Balanced) (close : TokenKind) :
    Balanced (separatedUntil close item) := by
  intro c
  fun_induction Parser.separatedUntil close item c with
  | case1 c _ => exact Ahead.balanced_pure _
  | case2 c _ ih =>
    refine (h c).bind fun a d hle => ?_
    split
    · exact Ahead.balanced_pure _
    split
    · next hcomma => exact (ih d hle hcomma).map _
    · exact Ahead.balanced_fail _

/-- A block drops the statements that fail, each with its own error, and
goes on. -/
theorem Balanced.blockBody {statement : Parser σ α} (h : statement.Balanced) :
    Balanced (blockBody statement) := by
  intro c
  fun_induction Parser.blockBody statement c with
  | case1 c _ => exact Ahead.balanced_pure _
  | case2 c _ _ => exact Ahead.balanced_fail _
  | case3 c _ _ ih => exact (h.attempt c).bind fun s? d hle => (ih d hle).map _

/-- By induction on the rounds of the loop. -/
theorem Balanced.extended {inner : ExprParser σ} (h : ∀ left, (applied inner left).Balanced)
    (floor : Precedence) (left : Expr) : Balanced (extended inner floor left) := by
  intro c
  fun_induction Parser.extended inner floor left c with
  | case1 left c _ ih => exact (h left c.advance).bind fun e d hle => ih e d hle
  | case2 left c _ => exact Ahead.balanced_pure _

/-! ## Statements and expressions -/

/-- Every way to build a parser keeps the balance. -/
def balance : Congruence σ σ where
  rel p _ := p.Balanced
  pure := balanced_pure
  fail := balanced_fail
  bind := Balanced.bind
  current _ := rfl
  upcoming _ := rfl
  advance := balanced_advance
  separated := Balanced.separated
  separatedUntil close h := h.separatedUntil close
  blockBody := Balanced.blockBody
  extended floor h left := Balanced.extended h floor left

/-- **The parser for statements keeps the balance.** -/
theorem balanced_topStatement : (topStatement (σ := σ)).Balanced := balance.topStatement

end Parser

/-! ## Programs -/

/-- At the top a statement that fails is dropped like one in a block. -/
theorem length_errors_readFrom (c : Cursor σ) :
    (readFrom c).errors.length = (readFrom c).dropped := by
  fun_induction readFrom c with
  | case1 => rfl
  | case2 c _ step _ heq s hnode _ ih =>
    have hstep : (Parser.topStatement c).Balanced := Parser.balanced_topStatement c
    simp only [Ahead.Balanced, heq, hnode, Option.elim_some, Nat.add_zero] at hstep
    rw [List.length_append, hstep, ih]
  | case3 c _ step _ heq hnode _ ih =>
    have hstep : (Parser.topStatement c).Balanced := Parser.balanced_topStatement c
    simp only [Ahead.Balanced, heq, hnode, Option.elim_none] at hstep
    rw [List.length_append, hstep, ih]

namespace Precedence

/-- What binds at all behind an operand opens arguments or an index, or is
an operator. -/
theorem lowest_lt_ofKind_iff {kind : TokenKind} :
    .lowest < ofKind kind ↔
      kind = .lparen ∨ kind = .lbracket ∨ ∃ op : BinaryOp, kind = op.kind := by
  constructor
  · intro h
    cases kind with
    | lparen => exact .inl rfl
    | lbracket => exact .inr (.inl rfl)
    | plus => exact .inr (.inr ⟨.add, rfl⟩)
    | minus => exact .inr (.inr ⟨.sub, rfl⟩)
    | asterisk => exact .inr (.inr ⟨.mul, rfl⟩)
    | slash => exact .inr (.inr ⟨.div, rfl⟩)
    | lt => exact .inr (.inr ⟨.lt, rfl⟩)
    | gt => exact .inr (.inr ⟨.gt, rfl⟩)
    | eq => exact .inr (.inr ⟨.eq, rfl⟩)
    | notEq => exact .inr (.inr ⟨.ne, rfl⟩)
    | _ => exact absurd h (by decide)
  · rintro (rfl | rfl | ⟨op, rfl⟩)
    · decide
    · decide
    · cases op <;> decide

end Precedence

open MonkeyLang.Parser in
/-- **Every failure is reported once.** A reading has one error for each
statement that was dropped, at the top or in a block. A statement, an
expression or a block that fails, at any level of nesting, has one error
more than it has statements dropped inside it, and one that succeeds has as
many. What is taken up in front of an operand or behind it as an operator
is one, so that no look-up of an operator fails. -/
theorem failures_reported_once :
    (∀ source : σ, (read source).errors.length = (read source).dropped) ∧
    (∀ levels (c : Cursor σ),
      (statement (expr levels) c).Balanced ∧ (∀ floor, (expr levels floor c).Balanced) ∧
      (block (expr levels) c).Balanced ∧ (blockBody (statement (expr levels)) c).Balanced) ∧
    (∀ kind, (kind = .bang ∨ kind = .minus) ↔ ∃ op, UnaryOp.ofKind? kind = some op) ∧
    ∀ kind, .lowest < Precedence.ofKind kind ↔
      kind = .lparen ∨ kind = .lbracket ∨ ∃ op, BinaryOp.ofKind? kind = some op := by
  refine ⟨fun _ => length_errors_readFrom _, fun levels c => ?_, fun kind => ?_, fun kind => ?_⟩
  · have hexpr := balance.expr (σ := σ) levels
    have hstatement := balance.statement hexpr
    exact ⟨hstatement c, fun floor => hexpr floor c, balance.block hexpr c,
      balance.blockBody hstatement c⟩
  · simp only [UnaryOp.ofKind?_eq_some_iff]
    constructor
    · rintro (rfl | rfl)
      · exact ⟨.not, rfl⟩
      · exact ⟨.negate, rfl⟩
    · rintro ⟨_ | _, rfl⟩
      · exact .inl rfl
      · exact .inr rfl
  · simp only [BinaryOp.ofKind?_eq_some_iff]
    exact Precedence.lowest_lt_ofKind_iff

end MonkeyLang
