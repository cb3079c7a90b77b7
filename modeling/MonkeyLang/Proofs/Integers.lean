import MonkeyLang.Proofs.Eval.Keeps
/-!
# Code that computes integers

Expressions made of integer literals, arithmetic, comparisons and
conditionals, each operand of the sort that its operator wants. What such
code is to compute is said over the integers (`IntCode.value?` and
`BoolCode.value?`): a result of arithmetic is reduced to 64 bits
(`wrap`), and there is no value where something is divided by zero.

Nothing else can go wrong, and no store matters (`integer_code_computes`,
the main statement). Where nothing is divided and nothing compared, it is
the same to reduce once at the end (`RingCode.value?_code`).
-/

namespace MonkeyLang

/-! ## The code -/

/-- The operators that make an integer of two. -/
inductive ArithOp where
  | add
  | sub
  | mul
  | div

/-- The operators that compare two integers. -/
inductive RelationOp where
  | lt
  | gt
  | eq
  | ne

/-- The operators that compare two booleans. -/
inductive EqualityOp where
  | eq
  | ne

mutual

/-- Code for an integer. -/
inductive IntCode where
  | literal (value : Int64)
  | negate (operand : IntCode)
  | arith (op : ArithOp) (left right : IntCode)
  | cond (condition : BoolCode) (consequence alternative : IntCode)

/-- Code for a boolean. -/
inductive BoolCode where
  | literal (value : Bool)
  | relation (op : RelationOp) (left right : IntCode)
  | equality (op : EqualityOp) (left right : BoolCode)
  | not (operand : BoolCode)
  | notInt (operand : IntCode)

end

/-- The operator as it stands in an expression. -/
def ArithOp.binary : ArithOp → BinaryOp
  | .add => .add
  | .sub => .sub
  | .mul => .mul
  | .div => .div

/-- The operator as it stands in an expression. -/
def RelationOp.binary : RelationOp → BinaryOp
  | .lt => .lt
  | .gt => .gt
  | .eq => .eq
  | .ne => .ne

/-- The operator as it stands in an expression. -/
def EqualityOp.binary : EqualityOp → BinaryOp
  | .eq => .eq
  | .ne => .ne

mutual

/-- The code as an expression. The blocks of a conditional are an expression
each. -/
def IntCode.expr : IntCode → Expr
  | .literal n => .int n
  | .negate a => .unary .negate a.expr
  | .arith op a b => .binary op.binary a.expr b.expr
  | .cond c a b => .cond c.expr [.expr a.expr] (some [.expr b.expr])

/-- The code as an expression. -/
def BoolCode.expr : BoolCode → Expr
  | .literal b => .bool b
  | .relation op a b => .binary op.binary a.expr b.expr
  | .equality op p q => .binary op.binary p.expr q.expr
  | .not p => .unary .not p.expr
  | .notInt a => .unary .not a.expr

end

/-! ## What it is to compute -/

/-- The integer between `-2 ^ 63` and `2 ^ 63 - 1` that differs by a multiple
of `2 ^ 64`, which is `Int64.size`. -/
def wrap (n : Int) : Int := n.bmod Int64.size

/-- The result of an operator, unless it divides by zero. A quotient is cut
off towards zero; the only one that is too large stays the least integer. -/
def ArithOp.result? : ArithOp → Int → Int → Option Int
  | .add, m, n => some (wrap (m + n))
  | .sub, m, n => some (wrap (m - n))
  | .mul, m, n => some (wrap (m * n))
  | .div, m, n =>
    if n = 0 then none
    else if m = Int64.minValue.toInt ∧ n = -1 then some m
    else some (m.tdiv n)

/-- Does a relation hold between two integers? -/
def RelationOp.holds : RelationOp → Int → Int → Bool
  | .lt, m, n => decide (m < n)
  | .gt, m, n => decide (n < m)
  | .eq, m, n => decide (m = n)
  | .ne, m, n => decide (m ≠ n)

/-- Are two booleans equal, or are they different? -/
def EqualityOp.holds : EqualityOp → Bool → Bool → Bool
  | .eq, p, q => decide (p = q)
  | .ne, p, q => decide (p ≠ q)

mutual

/-- The value of the code, from left to right and of a conditional in the
chosen block only. It is missing if something is divided by zero. -/
def IntCode.value? : IntCode → Option Int
  | .literal n => some n.toInt
  | .negate a => a.value?.bind fun m => some (wrap (-m))
  | .arith op a b => a.value?.bind fun m => b.value?.bind fun n => op.result? m n
  | .cond c a b => c.value?.bind fun holds => if holds then a.value? else b.value?

/-- The value of the code, missing if something is divided by zero. An
integer counts as true, also zero. -/
def BoolCode.value? : BoolCode → Option Bool
  | .literal b => some b
  | .relation op a b => a.value?.bind fun m => b.value?.bind fun n => some (op.holds m n)
  | .equality op p q => p.value?.bind fun b => q.value?.bind fun c => some (op.holds b c)
  | .not p => p.value?.bind fun b => some !b
  | .notInt a => a.value?.bind fun _ => some false

end

/-! ## What the operators make of values -/

/-- The value is the integer. -/
def Value.IsInt (v : Value) (n : Int) : Prop := ∃ m : Int64, m.toInt = n ∧ v = .int m

/-- The value is the boolean. -/
def Value.IsBool (v : Value) (b : Bool) : Prop := v = .bool b

/-- The result of an operation is the wanted one, read in some way, or that
it divides by zero where none is wanted. -/
def Shows {ε α : Type} (divides : ε) (reads : Value → α → Prop) (result : Except ε Value) :
    Option α → Prop
  | some a => ∃ v, result = .ok v ∧ reads v a
  | none => result = .error divides

/-- What an operator makes of two words is what it makes of the integers,
reduced; only a division by zero fails. -/
theorem ArithOp.shows_apply (op : ArithOp) (m n : Int64) :
    Shows .divisionByZero Value.IsInt (op.binary.apply (.int m) (.int n))
      (op.result? m.toInt n.toInt) := by
  cases op with
  | add => exact ⟨_, rfl, _, Int64.toInt_add m n, rfl⟩
  | sub => exact ⟨_, rfl, _, Int64.toInt_sub m n, rfl⟩
  | mul => exact ⟨_, rfl, _, Int64.toInt_mul m n, rfl⟩
  | div =>
    have hzero : n.toInt = 0 ↔ n = 0 := by rw [← Int64.toInt_zero, Int64.toInt_inj]
    have hleast : m.toInt = Int64.minValue.toInt ↔ m = .minValue := Int64.toInt_inj
    have hminus : n.toInt = -1 ↔ n = -1 := by
      rw [← Int64.toInt_inj]
      rfl
    simp only [ArithOp.result?, hzero, hleast, hminus, ArithOp.binary, BinaryOp.apply,
      BinaryOp.applyInt]
    by_cases hn : n = 0
    · rw [if_pos hn, if_pos hn]
      rfl
    rw [if_neg hn, if_neg hn]
    by_cases hlarge : m = .minValue ∧ n = -1
    · rw [if_pos hlarge]
      obtain ⟨rfl, rfl⟩ := hlarge
      exact ⟨_, rfl, _, congrArg Int64.toInt Int64.minValue_div_neg_one, rfl⟩
    · rw [if_neg hlarge]
      refine ⟨_, rfl, _, ?_, rfl⟩
      rcases Decidable.not_and_iff_not_or_not.1 hlarge with hm | hn
      · exact Int64.toInt_div_of_ne_left m n hm
      · exact Int64.toInt_div_of_ne_right m n hn

/-- Words are compared as the integers that they are. -/
theorem RelationOp.apply_int (op : RelationOp) (m n : Int64) :
    op.binary.apply (.int m) (.int n) = .ok (.bool (op.holds m.toInt n.toInt)) := by
  have heq : (m == n) = decide (m.toInt = n.toInt) := by
    rw [Bool.eq_iff_iff, beq_iff_eq, decide_eq_true_iff, Int64.toInt_inj]
  have hne : (m != n) = decide (m.toInt ≠ n.toInt) := by
    rw [bne, heq, decide_not]
  cases op with
  | lt => simp only [binary, holds, BinaryOp.apply, BinaryOp.applyInt, Int64.lt_iff_toInt_lt]
  | gt => simp only [binary, holds, BinaryOp.apply, BinaryOp.applyInt, Int64.lt_iff_toInt_lt]
  | eq => rw [binary, holds, BinaryOp.apply, BinaryOp.applyInt, heq]
  | ne => rw [binary, holds, BinaryOp.apply, BinaryOp.applyInt, hne]

theorem EqualityOp.apply_bool (op : EqualityOp) (b c : Bool) :
    op.binary.apply (.bool b) (.bool c) = .ok (.bool (op.holds b c)) := by
  cases op <;> cases b <;> cases c <;> rfl

/-! ## Computing it -/

/-- An evaluation leaves the store as it is, and comes to what is wanted, or
to a division by zero if nothing is. -/
def Eval.Computes {α : Type} (x : Eval Unwind Value) (reads : Value → α → Prop)
    (wanted : Option α) : Prop :=
  ∀ s, ∃ result, x s = some (result, s) ∧ Shows (.failed .divisionByZero) reads result wanted

namespace Eval.Computes

variable {α β : Type} {reads : Value → α → Prop} {reads' : Value → β → Prop}

theorem pure {v : Value} {a : α} (h : reads v a) :
    Computes (Pure.pure v) reads (some a) :=
  fun _ => ⟨_, rfl, v, rfl, h⟩

theorem bind {x : Eval Unwind Value} {f : Value → Eval Unwind Value} {wanted : Option α}
    {wanted' : α → Option β} (hx : x.Computes reads wanted)
    (hf : ∀ v a, reads v a → (f v).Computes reads' (wanted' a)) :
    (x >>= f).Computes reads' (wanted.bind wanted') := by
  intro s
  obtain ⟨result, hresult, hshows⟩ := hx s
  cases wanted with
  | none =>
    obtain rfl : result = .error (.failed .divisionByZero) := hshows
    exact ⟨_, Eval.bind_of_error hresult, rfl⟩
  | some a =>
    obtain ⟨v, rfl, hreads⟩ := hshows
    obtain ⟨result', hresult', hshows'⟩ := hf v a hreads s
    exact ⟨result', (Eval.bind_of_ok hresult).trans hresult', hshows'⟩

theorem orFail {result : Except EvalError Value} {wanted : Option α}
    (h : Shows .divisionByZero reads result wanted) :
    (Eval.orFail result).Computes reads wanted := by
  intro s
  cases wanted with
  | none =>
    obtain rfl : result = .error .divisionByZero := h
    exact ⟨_, rfl, rfl⟩
  | some a =>
    obtain ⟨v, rfl, hreads⟩ := h
    exact ⟨_, rfl, v, rfl, hreads⟩

end Eval.Computes

section

variable {apply : Applier} {scope : ScopeId}

open Eval (Computes)

/-- The block of a conditional comes to what its expression comes to. -/
theorem Eval.Computes.block {α : Type} {reads : Value → α → Prop} {e : Expr} {wanted : Option α}
    (h : (e.eval apply scope).Computes reads wanted) :
    (Stmt.evalAll apply scope .null [.expr e]).Computes reads wanted := by
  have hlast : (Stmt.evalAll apply scope .null [.expr e]).Computes reads (wanted.bind some) :=
    h.bind fun _ _ hreads => .pure hreads
  rwa [Option.bind_fun_some] at hlast

mutual

/-- **Code for an integer computes its value**, and code for a boolean
likewise, by induction on both. -/
theorem IntCode.computes : ∀ a : IntCode,
    (a.expr.eval apply scope).Computes Value.IsInt a.value?
  | .literal n => by
    rw [IntCode.expr, Expr.eval]
    exact .pure ⟨n, rfl, rfl⟩
  | .negate a => by
    rw [IntCode.expr, Expr.eval, IntCode.value?]
    refine (IntCode.computes a).bind fun v m hv => ?_
    obtain ⟨n, rfl, rfl⟩ := hv
    exact .orFail ⟨_, rfl, _, Int64.toInt_neg n, rfl⟩
  | .arith op a b => by
    rw [IntCode.expr, Expr.eval, IntCode.value?]
    refine (IntCode.computes a).bind fun v m hv => (IntCode.computes b).bind fun w n hw => ?_
    obtain ⟨m, rfl, rfl⟩ := hv
    obtain ⟨n, rfl, rfl⟩ := hw
    exact .orFail (op.shows_apply m n)
  | .cond c a b => by
    rw [IntCode.expr, Expr.eval, IntCode.value?]
    refine (BoolCode.computes c).bind fun v holds hv => ?_
    obtain rfl : v = .bool holds := hv
    cases holds with
    | true => exact (IntCode.computes a).block
    | false => exact (IntCode.computes b).block

theorem BoolCode.computes : ∀ p : BoolCode,
    (p.expr.eval apply scope).Computes Value.IsBool p.value?
  | .literal b => by
    rw [BoolCode.expr, Expr.eval]
    exact .pure rfl
  | .relation op a b => by
    rw [BoolCode.expr, Expr.eval, BoolCode.value?]
    refine (IntCode.computes a).bind fun v m hv => (IntCode.computes b).bind fun w n hw => ?_
    obtain ⟨m, rfl, rfl⟩ := hv
    obtain ⟨n, rfl, rfl⟩ := hw
    exact .orFail ⟨_, op.apply_int m n, rfl⟩
  | .equality op p q => by
    rw [BoolCode.expr, Expr.eval, BoolCode.value?]
    refine (BoolCode.computes p).bind fun v b hv => (BoolCode.computes q).bind fun w c hw => ?_
    obtain rfl : v = .bool b := hv
    obtain rfl : w = .bool c := hw
    exact .orFail ⟨_, op.apply_bool b c, rfl⟩
  | .not p => by
    rw [BoolCode.expr, Expr.eval, BoolCode.value?]
    refine (BoolCode.computes p).bind fun v b hv => ?_
    obtain rfl : v = .bool b := hv
    refine .orFail ⟨_, rfl, ?_⟩
    cases b <;> rfl
  | .notInt a => by
    rw [BoolCode.expr, Expr.eval, BoolCode.value?]
    refine (IntCode.computes a).bind fun v m hv => ?_
    obtain ⟨n, rfl, rfl⟩ := hv
    exact .orFail ⟨_, rfl, rfl⟩

end

end

/-! ## Reducing once -/

/-- Code of literals, sums, differences and products. -/
inductive RingCode where
  | literal (value : Int64)
  | negate (operand : RingCode)
  | add (left right : RingCode)
  | sub (left right : RingCode)
  | mul (left right : RingCode)

namespace RingCode

/-- The same as code for an integer. -/
def code : RingCode → IntCode
  | .literal n => .literal n
  | .negate a => .negate a.code
  | .add a b => .arith .add a.code b.code
  | .sub a b => .arith .sub a.code b.code
  | .mul a b => .arith .mul a.code b.code

/-- The value of the code in the integers, with nothing reduced. -/
def exact : RingCode → Int
  | .literal n => n.toInt
  | .negate a => -a.exact
  | .add a b => a.exact + b.exact
  | .sub a b => a.exact - b.exact
  | .mul a b => a.exact * b.exact

/-- Reducing after each operation is reducing once. -/
theorem value?_code (a : RingCode) : a.code.value? = some (wrap a.exact) := by
  induction a with
  | literal n => rw [code, IntCode.value?, exact, wrap, Int64.toInt_bmod_size]
  | negate a iha =>
    rw [code, IntCode.value?, iha, Option.bind_some, exact, wrap, wrap, Int.bmod_neg_bmod]
    rfl
  | add a b iha ihb =>
    rw [code, IntCode.value?, iha, ihb, Option.bind_some, Option.bind_some, ArithOp.result?, exact]
    simp only [wrap, Int.bmod_add_bmod, Int.add_bmod_bmod]
  | sub a b iha ihb =>
    rw [code, IntCode.value?, iha, ihb, Option.bind_some, Option.bind_some, ArithOp.result?, exact]
    simp only [wrap, Int.bmod_sub_bmod, Int.sub_bmod_bmod]
  | mul a b iha ihb =>
    rw [code, IntCode.value?, iha, ihb, Option.bind_some, Option.bind_some, ArithOp.result?, exact]
    simp only [wrap, Int.bmod_mul_bmod, Int.mul_bmod_bmod]

end RingCode

/-! ## Runs of integer code -/

/-- A run of an expression that computes leaves the store, and results in
what is wanted, or in the message of a division by zero. -/
theorem Eval.Computes.run {α : Type} {reads : Value → α → Prop} {e : Expr} {depth : Nat}
    {scope : ScopeId} {wanted : Option α}
    (h : (e.eval (Value.apply depth) scope).Computes reads wanted) (s : Store) :
    ∃ v, e.run depth scope s = some (v, s) ∧
      wanted.elim (v = EvalError.divisionByZero.toValue) (reads v) := by
  obtain ⟨result, hresult, hshows⟩ := h s
  rw [Expr.run, Eval.settle, hresult]
  cases wanted with
  | none =>
    obtain rfl : result = .error (.failed .divisionByZero) := hshows
    exact ⟨_, rfl, rfl⟩
  | some a =>
    obtain ⟨v, rfl, hreads⟩ := hshows
    exact ⟨v, rfl, hreads⟩

/-- **Integer code computes in 64 bits, and fails only where it divides by
zero.** In any scope of any store, code for an integer or a boolean results
in its value, or in the error of a division by zero just if it has none;
the store stays as it is. Code of sums, differences and products results in
its exact value, reduced once. -/
theorem integer_code_computes (depth : Nat) (scope : ScopeId) (s : Store) :
    (∀ a : IntCode, ∃ v, a.expr.run depth scope s = some (v, s) ∧
      match a.value? with
      | some n => ∃ m : Int64, m.toInt = n ∧ v = .int m
      | none => v = EvalError.divisionByZero.toValue) ∧
    (∀ p : BoolCode, ∃ v, p.expr.run depth scope s = some (v, s) ∧
      match p.value? with
      | some b => v = .bool b
      | none => v = EvalError.divisionByZero.toValue) ∧
    ∀ a : RingCode, ∃ m : Int64, m.toInt = wrap a.exact ∧
      a.code.expr.run depth scope s = some (.int m, s) := by
  refine ⟨fun a => ?_, fun p => ?_, fun a => ?_⟩
  · obtain ⟨v, hrun, hv⟩ := (IntCode.computes a).run s
    refine ⟨v, hrun, ?_⟩
    generalize a.value? = wanted at hv ⊢
    cases wanted <;> exact hv
  · obtain ⟨v, hrun, hv⟩ := (BoolCode.computes p).run s
    refine ⟨v, hrun, ?_⟩
    generalize p.value? = wanted at hv ⊢
    cases wanted <;> exact hv
  · have hcomputes : (a.code.expr.eval (Value.apply depth) scope).Computes Value.IsInt
        (some (wrap a.exact)) := a.value?_code ▸ IntCode.computes a.code
    obtain ⟨v, hrun, m, hm, rfl⟩ := hcomputes.run s
    exact ⟨m, hm, hrun⟩

end MonkeyLang
