import MonkeyLang.Table
import MonkeyLang.Tree.Basic
/-!
# Values

What an expression evaluates to. Arrays, hashes and functions are told
apart by the act that created them, not by what they hold: each carries the
identity that was given out when it was made, and goes on carrying it
wherever it is bound, passed or stored.

Besides the values that programs compute, a host may hand in a pending
return or an error as a value of its own; these are truthy, are no hash
keys, and equal nothing.
-/

namespace MonkeyLang

/-- Tells one creation of an array, a hash or a function from another. -/
structure Identity where
  number : Nat
  deriving DecidableEq, Repr

/-- Names one scope of a store. -/
structure ScopeId where
  index : Nat
  deriving DecidableEq, Repr

/-- The functions that are bound to a name from the outset. -/
inductive Builtin where
  | len
  | head
  | last
  | tail
  | append
  deriving DecidableEq, Repr

namespace Builtin

/-- The name a builtin is bound to. -/
def name : Builtin → String
  | .len => "len"
  | .head => "head"
  | .last => "last"
  | .tail => "tail"
  | .append => "append"

/-- The builtin that a name is bound to, if it is. -/
def ofName? : String → Option Builtin
  | "len" => some .len
  | "head" => some .head
  | "last" => some .last
  | "tail" => some .tail
  | "append" => some .append
  | _ => none

end Builtin

/-- The content of a hash key. -/
inductive HashKey where
  | int (value : Int64)
  | bool (value : Bool)
  | string (value : String)
  deriving DecidableEq

/-- A function as it was written, and the scope it was made in. -/
structure Closure where
  parameters : List String
  body : List Stmt
  scope : ScopeId

/-- A value. -/
inductive Value where
  | int (value : Int64)
  | bool (value : Bool)
  | string (value : String)
  | null
  | array (id : Identity) (elements : List Value)
  /-- A hash, which has the key and the value of each pair under the
  content of the key. -/
  | hash (id : Identity) (pairs : Table HashKey (Value × Value))
  | function (id : Identity) (closure : Closure)
  | builtin (builtin : Builtin)
  /-- A value on its way out of a `return`. -/
  | returned (value : Value)
  /-- The text of what went wrong. -/
  | error (message : String)

/-- What kind of value a value is. -/
inductive ValueType where
  | integer
  | boolean
  | null
  | string
  | array
  | hash
  | function
  | builtin
  | returnValue
  | error
  deriving DecidableEq, Repr

/-- The name of a type in messages. -/
def ValueType.name : ValueType → String
  | .integer => "INTEGER"
  | .boolean => "BOOLEAN"
  | .null => "NULL"
  | .string => "STRING"
  | .array => "ARRAY"
  | .hash => "HASH"
  | .function => "FUNCTION"
  | .builtin => "BUILTIN"
  | .returnValue => "RETURN_VALUE"
  | .error => "ERROR"

namespace Value

/-- The type of a value. -/
def type : Value → ValueType
  | .int _ => .integer
  | .bool _ => .boolean
  | .string _ => .string
  | .null => .null
  | .array _ _ => .array
  | .hash _ _ => .hash
  | .function _ _ => .function
  | .builtin _ => .builtin
  | .returned _ => .returnValue
  | .error _ => .error

/-- Only `false` and `null` count as false. -/
def isTruthy : Value → Bool
  | .bool false => false
  | .null => false
  | _ => true

/-- Is the value an error? -/
def isError : Value → Bool
  | .error _ => true
  | _ => false

/-- The content under which a hash has a value as key; only integers,
booleans and strings may be keys. -/
def hashKey? : Value → Option HashKey
  | .int value => some (.int value)
  | .bool value => some (.bool value)
  | .string value => some (.string value)
  | _ => none

/-- Whether two values that are neither integers nor strings are the same
one: by what they hold for booleans and builtins, by identity for arrays,
hashes and functions. -/
def identical : Value → Value → Bool
  | .bool a, .bool b => a == b
  | .null, .null => true
  | .array a _, .array b _ => a == b
  | .hash a _, .hash b _ => a == b
  | .function a _, .function b _ => a == b
  | .builtin a, .builtin b => a == b
  | _, _ => false

end Value

end MonkeyLang
