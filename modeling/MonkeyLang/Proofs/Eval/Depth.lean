import MonkeyLang.Eval.Run
/-!
# More depth changes nothing

How deeply calls may be nested bounds an evaluation only by leaving it
without an end. `Eval.Upto` compares two evaluations of which the one ends
less often, but then as the other does. It is kept by every way of putting
evaluations together, and so an evaluation that ends within some depth ends
in the same way within any greater one (`runBody_upto`).
-/

namespace MonkeyLang

namespace Eval

variable {ε ε' α β : Type}

/-- Wherever the one evaluation ends, the other ends in the same way. -/
def Upto (x y : Eval ε α) : Prop := ∀ s r, x s = some r → y s = some r

namespace Upto

theorem refl (x : Eval ε α) : Upto x x := fun _ _ h => h

/-- What does not end is like anything. -/
theorem exhausted (y : Eval ε α) : Upto exhausted y := fun _ _ h => by cases h

/-- In each store the first evaluation has no end, or both have the same. -/
theorem eq_none_or_eq {x y : Eval ε α} (h : Upto x y) (s : Store) : x s = none ∨ y s = x s := by
  cases hx : x s with
  | none => exact .inl rfl
  | some r => exact .inr (h s r hx)

/-- One evaluation after the other: if the first one ends, both go on from
the same value and in the same store. -/
theorem bind {x y : Eval ε α} {f g : α → Eval ε β} (h : Upto x y) (hfg : ∀ a, Upto (f a) (g a)) :
    Upto (x >>= f) (y >>= g) := by
  intro s r hr
  change Eval.bind x f s = some r at hr
  change Eval.bind y g s = some r
  unfold Eval.bind at hr ⊢
  obtain hx | hx := h.eq_none_or_eq s
  · rw [hx] at hr
    cases hr
  rw [hx]
  generalize x s = outcome at hr ⊢
  obtain _ | ⟨e | a, s'⟩ := outcome
  · cases hr
  · exact hr
  · exact hfg _ s' r hr

theorem mapReason {x y : Eval ε α} (h : Upto x y) (f : ε → ε') :
    Upto (x.mapReason f) (y.mapReason f) := by
  intro s r hr
  unfold Eval.mapReason at hr ⊢
  obtain hx | hx := h.eq_none_or_eq s
  · rw [hx] at hr
    cases hr
  · rwa [hx]

theorem atCall {x y : Eval Unwind Value} (h : Upto x y) : Upto x.atCall y.atCall := by
  intro s r hr
  unfold Eval.atCall at hr ⊢
  obtain hx | hx := h.eq_none_or_eq s
  · rw [hx] at hr
    cases hr
  · rwa [hx]

/-- What has come to rest the one way has come to rest the other way. -/
theorem settle {x y : Eval ε Value} (h : Upto x y) {reason : ε → Value} {s : Store}
    {r : Value × Store} (hr : x.settle reason s = some r) : y.settle reason s = some r := by
  unfold Eval.settle at hr ⊢
  obtain hx | hx := h.eq_none_or_eq s
  · rw [hx] at hr
    cases hr
  · rwa [hx]

end Upto

end Eval

open Eval (Upto)

/-! ## Once over the tree -/

section Tree

variable {apply apply' : Applier} {scope : ScopeId}

mutual

/-- **An expression ends as before if the calls in it do.** -/
theorem Expr.eval_upto (ha : ∀ f vs, Upto (apply f vs) (apply' f vs)) :
    ∀ e : Expr, Upto (e.eval apply scope) (e.eval apply' scope)
  | .int n => by simpa only [Expr.eval] using Upto.refl _
  | .bool b => by simpa only [Expr.eval] using Upto.refl _
  | .string text => by simpa only [Expr.eval] using Upto.refl _
  | .ident name => by simpa only [Expr.eval] using Upto.refl _
  | .array elements => by
    simp only [Expr.eval]
    exact (Expr.evalAll_upto ha elements).bind fun _ => .refl _
  | .hash pairs => by
    simp only [Expr.eval]
    exact (Expr.evalPairs_upto ha pairs).bind fun _ => .refl _
  | .unary op operand => by
    simp only [Expr.eval]
    exact (Expr.eval_upto ha operand).bind fun _ => .refl _
  | .binary op left right => by
    simp only [Expr.eval]
    exact (Expr.eval_upto ha left).bind fun _ => (Expr.eval_upto ha right).bind fun _ => .refl _
  | .cond condition consequence none => by
    simp only [Expr.eval]
    refine (Expr.eval_upto ha condition).bind fun v => ?_
    split
    · exact Stmt.evalAll_upto ha consequence
    · exact .refl _
  | .cond condition consequence (some alternative) => by
    simp only [Expr.eval]
    refine (Expr.eval_upto ha condition).bind fun v => ?_
    split
    · exact Stmt.evalAll_upto ha consequence
    · exact Stmt.evalAll_upto ha alternative
  | .function parameters body => by simpa only [Expr.eval] using Upto.refl _
  | .call callee arguments => by
    simp only [Expr.eval]
    refine (Expr.eval_upto ha callee).bind fun f => ?_
    exact (Expr.evalAll_upto ha arguments).bind fun vs => (ha f vs).mapReason _
  | .index left position => by
    simp only [Expr.eval]
    refine (Expr.eval_upto ha left).bind fun _ => ?_
    exact (Expr.eval_upto ha position).bind fun _ => .refl _

theorem Expr.evalAll_upto (ha : ∀ f vs, Upto (apply f vs) (apply' f vs)) :
    ∀ es : List Expr, Upto (Expr.evalAll apply scope es) (Expr.evalAll apply' scope es)
  | [] => by simpa only [Expr.evalAll] using Upto.refl _
  | e :: es => by
    simp only [Expr.evalAll]
    exact (Expr.eval_upto ha e).bind fun _ => (Expr.evalAll_upto ha es).bind fun _ => .refl _

theorem Expr.evalPairs_upto (ha : ∀ f vs, Upto (apply f vs) (apply' f vs)) :
    ∀ pairs : List (Expr × Expr),
      Upto (Expr.evalPairs apply scope pairs) (Expr.evalPairs apply' scope pairs)
  | [] => by simpa only [Expr.evalPairs] using Upto.refl _
  | (key, value) :: pairs => by
    simp only [Expr.evalPairs]
    refine (Expr.eval_upto ha key).bind fun _ => (Upto.refl _).bind fun _ => ?_
    refine (Expr.eval_upto ha value).bind fun _ => ?_
    exact (Expr.evalPairs_upto ha pairs).bind fun _ => .refl _

/-- And so does a statement. -/
theorem Stmt.eval_upto (ha : ∀ f vs, Upto (apply f vs) (apply' f vs)) :
    ∀ st : Stmt, Upto (st.eval apply scope) (st.eval apply' scope)
  | .bind name value => by
    simp only [Stmt.eval]
    exact (Expr.eval_upto ha value).bind fun _ => .refl _
  | .ret value => by
    simp only [Stmt.eval]
    exact (Expr.eval_upto ha value).bind fun _ => .refl _
  | .expr value => by
    simp only [Stmt.eval]
    exact Expr.eval_upto ha value
  | .block body => by
    simp only [Stmt.eval]
    exact Stmt.evalAll_upto ha body

/-- And so do statements one after the other. -/
theorem Stmt.evalAll_upto (ha : ∀ f vs, Upto (apply f vs) (apply' f vs)) :
    ∀ (body : List Stmt) {last : Value},
      Upto (Stmt.evalAll apply scope last body) (Stmt.evalAll apply' scope last body)
  | [], _ => by simpa only [Stmt.evalAll] using Upto.refl _
  | st :: rest, _ => by
    simp only [Stmt.evalAll]
    exact (Stmt.eval_upto ha st).bind fun _ => Stmt.evalAll_upto ha rest

end

end Tree

/-! ## Once over the depth of calls -/

/-- Applying a value runs one body at most. -/
theorem Value.applyWith_upto {run run' : ScopeId → List Stmt → Eval Unwind Value}
    (h : ∀ scope body, Upto (run scope body) (run' scope body)) (f : Value)
    (arguments : List Value) :
    Upto (Value.applyWith run f arguments) (Value.applyWith run' f arguments) := by
  unfold Value.applyWith
  split
  · unfold Closure.call
    split
    · exact .refl _
    · exact (Upto.refl _).bind fun _ => (Upto.refl _).bind fun _ => (h _ _).atCall
  · exact .refl _
  · exact .refl _

/-- **A body that ends within some depth ends so within any greater one.** -/
theorem runBody_upto {depth depth' : Nat} (hle : depth ≤ depth') (scope : ScopeId)
    (body : List Stmt) : Upto (runBody depth scope body) (runBody depth' scope body) := by
  induction depth generalizing depth' scope body with
  | zero => exact .exhausted _
  | succ depth ih =>
    -- the greater depth has a level to spare for the body, too
    obtain ⟨depth', rfl⟩ := Nat.exists_eq_add_of_le' hle
    have happly := Value.applyWith_upto fun scope body =>
      ih (Nat.le_of_succ_le_succ hle) scope body
    exact Stmt.evalAll_upto happly body

/-- And so does a call. -/
theorem Value.apply_upto {depth depth' : Nat} (hle : depth ≤ depth') (f : Value)
    (arguments : List Value) :
    Upto (Value.apply depth f arguments) (Value.apply depth' f arguments) :=
  Value.applyWith_upto (fun scope body => runBody_upto hle scope body) f arguments

end MonkeyLang
