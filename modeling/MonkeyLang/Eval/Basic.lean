import MonkeyLang.Eval.Error
import MonkeyLang.Store
/-!
# Evaluations

An evaluation works on a store and ends with a value or with the reason why
it stopped early; either way what it did to the store stays done. It may
also not end at all within the depth of calls that it was given, and then
it has no result.
-/

namespace MonkeyLang

/-- Why an evaluation did not go on: a `return` is on its way out to the
call it belongs to, or something went wrong. -/
inductive Unwind where
  | returned (value : Value)
  | failed (error : EvalError)

/-- An evaluation of an `α` that may stop early for a reason in `ε`. -/
def Eval (ε α : Type) : Type := Store → Option (Except ε α × Store)

namespace Eval

variable {ε ε' α β : Type}

/-- After a value, goes on with it in the store that was left; after an
early stop, ends there. -/
def bind (x : Eval ε α) (f : α → Eval ε β) : Eval ε β := fun s =>
  match x s with
  | some (.ok a, s') => f a s'
  | some (.error e, s') => some (.error e, s')
  | none => none

instance : Monad (Eval ε) where
  pure a := fun s => some (.ok a, s)
  bind := bind

/-- Stops early. -/
def stop (reason : ε) : Eval ε α := fun s => some (.error reason, s)

/-- Does not end within the depth of calls that is left. -/
def exhausted : Eval ε α := fun _ => none

/-- A result that does not depend on the store. -/
def ofExcept : Except ε α → Eval ε α
  | .ok a => pure a
  | .error e => stop e

/-- Asks the store. -/
def ask (f : Store → α) : Eval ε α := fun s => some (.ok (f s), s)

/-- Makes something in the store. -/
def create (f : Store → α × Store) : Eval ε α := fun s => some (.ok (f s).1, (f s).2)

/-- Gives the reason of an early stop in other terms. -/
def mapReason (f : ε → ε') (x : Eval ε α) : Eval ε' α := fun s =>
  match x s with
  | some (.ok a, s') => some (.ok a, s')
  | some (.error e, s') => some (.error (f e), s')
  | none => none

/-- The result of an operation that does not touch the store, in the midst
of an evaluation. -/
def orFail (result : Except EvalError α) : Eval Unwind α := (ofExcept result).mapReason .failed

/-- The end of a call: a `return` that reaches it becomes the value of the
call. -/
def atCall (x : Eval Unwind Value) : Eval EvalError Value := fun s =>
  match x s with
  | some (.ok v, s') => some (.ok v, s')
  | some (.error (.returned v), s') => some (.ok v, s')
  | some (.error (.failed e), s') => some (.error e, s')
  | none => none

/-! ## Things that are made -/

/-- Makes an array. -/
def newArray (elements : List Value) : Eval ε Value := do
  return .array (← create Store.newIdentity) elements

/-- Makes a hash. -/
def newHash (pairs : Table HashKey (Value × Value)) : Eval ε Value := do
  return .hash (← create Store.newIdentity) pairs

/-- Makes a function. -/
def newFunction (closure : Closure) : Eval ε Value := do
  return .function (← create Store.newIdentity) closure

/-- Binds a name in a scope. -/
def bindName (scope : ScopeId) (name : String) (value : Value) : Eval ε Unit :=
  create fun s => ((), s.bind scope name value)

/-- Binds names in a scope, one after the other. -/
def bindNames (scope : ScopeId) : List (String × Value) → Eval ε Unit
  | [] => return
  | (name, value) :: rest => do
    bindName scope name value
    bindNames scope rest

end Eval

end MonkeyLang
