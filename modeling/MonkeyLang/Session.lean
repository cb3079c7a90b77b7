import MonkeyLang.Eval.Run
/-!
# Sessions

A session is a store together with the scope in which its programs run, one
after the other.
-/

namespace MonkeyLang

/-- How deeply calls may be nested in a program that runs in earnest. -/
def callLimit : Nat := 10000

/-- A store, and the scope in which programs run. -/
structure Session where
  store : Store
  scope : ScopeId

namespace Session

/-- A session in which nothing is bound yet. -/
def new : Session :=
  let (scope, store) := Store.empty.newScope none
  ⟨store, scope⟩

/-- Runs a program; its result, and the session after it. -/
def run (depth : Nat) (session : Session) (program : Program) : Option (Value × Session) :=
  (program.run depth session.scope session.store).map fun (value, store) =>
    (value, { session with store })

end Session

end MonkeyLang
