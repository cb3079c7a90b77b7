import MonkeyLang.Text.Quoted
import MonkeyLang.Text.Separated
import MonkeyLang.Value.Basic
/-!
# Stores

All that outlives the evaluation of an expression: the scopes with their
bindings, and the identities that were given out. A scope is made once and
keeps its outer scope for good; whoever holds its name shares it. The outer
scope of a scope is always an older one, which is why a look-up, going
outwards, comes to an end.
-/

namespace MonkeyLang

/-- The bindings of one scope, and the scope around it. -/
structure Scope where
  bindings : Table String Value
  outer : Option ScopeId

/-- All scopes made so far, from the oldest to the newest, and the number
of identities given out. -/
structure Store where
  scopes : Array Scope
  identities : Nat

namespace Store

/-- The store in which nothing was made yet. -/
def empty : Store := ⟨#[], 0⟩

/-- Makes a scope without bindings, inside another one or on its own. -/
def newScope (s : Store) (outer : Option ScopeId) : ScopeId × Store :=
  (⟨s.scopes.size⟩, { s with scopes := s.scopes.push ⟨.empty, outer⟩ })

/-- Gives out an identity. -/
def newIdentity (s : Store) : Identity × Store :=
  (⟨s.identities⟩, { s with identities := s.identities + 1 })

/-- The scope with a given name. -/
def scope? (s : Store) (id : ScopeId) : Option Scope := s.scopes[id.index]?

/-- Binds a name in a scope itself, whatever the scopes around it bind. -/
def bind (s : Store) (id : ScopeId) (name : String) (value : Value) : Store :=
  { s with
    scopes := s.scopes.modify id.index fun scope =>
      { scope with bindings := scope.bindings.insert name value } }

/-- The value of a name in the nearest scope that binds it, from a scope
outwards. An outer scope is always older than the one it encloses, so going
on only to an older one leaves nothing out. -/
def lookup (s : Store) (id : ScopeId) (name : String) : Option Value :=
  match s.scope? id with
  | none => none
  | some scope =>
    match scope.bindings.get? name, scope.outer with
    | some value, _ => some value
    | none, none => none
    | none, some outer => if outer.index < id.index then lookup s outer name else none
termination_by id.index

/-! ## Scopes as text -/

/-- The names that a scope itself binds, in the order of their characters. -/
def names (s : Store) (id : ScopeId) : List String :=
  match s.scope? id with
  | none => []
  | some scope => scope.bindings.keys.mergeSort (fun a b => decide (a ≤ b))

/-- Is the scope inside another one? -/
def isEnclosed (s : Store) (id : ScopeId) : Bool :=
  ((s.scope? id).bind Scope.outer).isSome

/-- A scope in diagnostic texts: its own names, and whether it is inside
another scope. -/
def describe (s : Store) (id : ScopeId) : String :=
  "Environment \x7b names: [" ++ commaSeparated ((s.names id).map Quoted.encode) ++
    "], enclosed: " ++ toString (s.isEnclosed id) ++ " \x7d"

end Store

end MonkeyLang
