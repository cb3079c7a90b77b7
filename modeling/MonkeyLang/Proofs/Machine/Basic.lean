import MonkeyLang.Eval.Run
import MonkeyLang.Proofs.Scopes
/-!
# A machine that evaluates step by step

An evaluation says how it ends and nothing of what happens on the way. The
machine has a moment for all that: what it is about to do, what waits for
that to be done, and the store. One step does one thing, and what waits is a
list of frames, each of which takes up what the work in front of it comes
to. A call is a frame like any other; a `return` and an error go through the
frames up to it.

The machine knows no depth of calls. It comes to rest where a program ends,
at a moment with a result (`State.result?`).
-/

namespace MonkeyLang

namespace Machine

/-- What the machine is about to do, or has just come to. -/
inductive Control where
  | expr (e : Expr)
  | exprs (es : List Expr)
  | pairs (pairs : List (Expr × Expr))
  | stmt (st : Stmt)
  /-- Statements to come, and what the one before them yielded. -/
  | stmts (last : Value) (body : List Stmt)
  | apply (f : Value) (arguments : List Value)
  | value (v : Value)
  | values (vs : List Value)
  | entries (entries : List (HashKey × (Value × Value)))
  | unwind (reason : Unwind)

/-- What waits for something to be done, named for what that is. -/
inductive Frame where
  | operand (op : UnaryOp)
  | left (op : BinaryOp) (right : Expr)
  | right (op : BinaryOp) (left : Value)
  | condition (consequence : List Stmt) (alternative : Option (List Stmt))
  | callee (arguments : List Expr)
  | arguments (f : Value)
  | indexed (position : Expr)
  | position (indexed : Value)
  /-- The elements of an array. -/
  | array
  /-- The pairs of a hash. -/
  | hash
  | element (rest : List Expr)
  /-- The expressions behind one that has been evaluated. -/
  | elements (first : Value)
  | key (value : Expr) (rest : List (Expr × Expr))
  | keyed (content : HashKey) (key : Value) (rest : List (Expr × Expr))
  /-- The pairs behind one that has been evaluated. -/
  | entries (content : HashKey) (key value : Value)
  | bound (name : String)
  | returned
  /-- One statement in front of others. -/
  | statement (rest : List Stmt)
  /-- The body of a function that was called from a scope. -/
  | call (caller : ScopeId)

/-- Is the frame that of a call? -/
def Frame.isCall : Frame → Bool
  | .call _ => true
  | _ => false

/-- The machine at a moment. -/
structure State where
  control : Control
  frames : List Frame
  scope : ScopeId
  store : Store

/-- What an operation that does not touch the store comes to. -/
def Control.ofExcept : Except EvalError Value → Control
  | .ok v => .value v
  | .error e => .unwind (.failed e)

namespace State

variable (σ : State)

/-- Turns to something else. -/
def turn (control : Control) : State := { σ with control }

/-- Turns to something that a frame waits for. -/
def await (frame : Frame) (control : Control) : State :=
  { σ with control, frames := frame :: σ.frames }

/-- Comes to a value with an identity of its own. -/
def make (value : Identity → Value) : State :=
  { σ with control := .value (value σ.store.newIdentity.1), store := σ.store.newIdentity.2 }

/-- Leaves the body of a function. -/
def leave (caller : ScopeId) (control : Control) : State := { σ with control, scope := caller }

/-- The end of a program, and what it results in. -/
def result? : Option Value :=
  match σ.control, σ.frames with
  | .value v, [] => some v
  | .unwind (.returned v), [] => some v
  | .unwind (.failed e), [] => some e.toValue
  | _, _ => none

end State

/-- Sets about an expression. -/
def State.enterExpr (σ : State) : Expr → State
  | .int n => σ.turn (.value (.int n))
  | .bool b => σ.turn (.value (.bool b))
  | .string text => σ.turn (.value (.string text))
  | .ident name =>
    match σ.store.lookup σ.scope name, Builtin.ofName? name with
    | some v, _ => σ.turn (.value v)
    | none, some b => σ.turn (.value (.builtin b))
    | none, none => σ.turn (.unwind (.failed (.unbound name)))
  | .array elements => σ.await .array (.exprs elements)
  | .hash pairs => σ.await .hash (.pairs pairs)
  | .unary op operand => σ.await (.operand op) (.expr operand)
  | .binary op left right => σ.await (.left op right) (.expr left)
  | .cond condition consequence alternative =>
    σ.await (.condition consequence alternative) (.expr condition)
  | .function parameters body => σ.make (.function · ⟨parameters, body, σ.scope⟩)
  | .call callee arguments => σ.await (.callee arguments) (.expr callee)
  | .index left position => σ.await (.indexed position) (.expr left)

/-- Sets about a statement. -/
def State.enterStmt (σ : State) : Stmt → State
  | .bind name value => σ.await (.bound name) (.expr value)
  | .ret value => σ.await .returned (.expr value)
  | .expr value => σ.turn (.expr value)
  | .block body => σ.turn (.stmts .null body)

/-- Sets about a call. -/
def State.enterCall (σ : State) : Value → List Value → State
  | .function _ closure, arguments =>
    if closure.parameters.length ≠ arguments.length then
      σ.turn (.unwind (.failed (.arity closure.parameters.length arguments.length)))
    else
      let (scope, store) := σ.store.newScope (some closure.scope)
      ⟨.stmts .null closure.body, .call σ.scope :: σ.frames, scope,
        store.bindAll scope (closure.parameters.zip arguments)⟩
  | .builtin b, arguments =>
    match b.apply arguments with
    | .ok (.known v) => σ.turn (.value v)
    | .ok (.newArray elements) => σ.make (.array · elements)
    | .error e => σ.turn (.unwind (.failed e))
  | callee, _ => σ.turn (.unwind (.failed (.notCallable callee.type)))

/-- What a frame that was waiting does with a value; the machine is as it
is without that frame. -/
def State.takeValue (σ : State) (v : Value) : Frame → Option State
  | .operand op => σ.turn (.ofExcept (op.apply v))
  | .left op right => σ.await (.right op v) (.expr right)
  | .right op left => σ.turn (.ofExcept (op.apply left v))
  | .condition consequence alternative =>
    σ.turn (.stmts .null (if v.isTruthy then consequence else alternative.getD []))
  | .callee arguments => σ.await (.arguments v) (.exprs arguments)
  | .indexed position => σ.await (.position v) (.expr position)
  | .position indexed => σ.turn (.ofExcept (indexed.index v))
  | .element rest => σ.await (.elements v) (.exprs rest)
  | .key value rest =>
    match v.hashKey? with
    | some content => σ.await (.keyed content v rest) (.expr value)
    | none => σ.turn (.unwind (.failed (.unhashable v.type)))
  | .keyed content key rest => σ.await (.entries content key v) (.pairs rest)
  | .bound name => some { σ with control := .value .null, store := σ.store.bind σ.scope name v }
  | .returned => σ.turn (.unwind (.returned v))
  | .statement rest => σ.turn (.stmts v rest)
  | .call caller => σ.leave caller (.value v)
  | .arguments _ | .array | .hash | .elements _ | .entries _ _ _ => none

/-- What a frame that was waiting does with some values. -/
def State.takeValues (σ : State) (vs : List Value) : Frame → Option State
  | .arguments f => σ.turn (.apply f vs)
  | .array => σ.make (.array · vs)
  | .elements first => σ.turn (.values (first :: vs))
  | _ => none

/-- What a frame that was waiting does with some entries. -/
def State.takeEntries (σ : State) (entries : List (HashKey × (Value × Value))) :
    Frame → Option State
  | .hash => σ.make (.hash · (.ofList entries))
  | .entries content key value => σ.turn (.entries ((content, key, value) :: entries))
  | _ => none

/-- What a frame that was waiting does when what it waited for has stopped
early: only a call takes that up. -/
def State.takeUnwind (σ : State) : Unwind → Frame → State
  | .returned v, .call caller => σ.leave caller (.value v)
  | .failed e, .call caller => σ.leave caller (.unwind (.failed e))
  | reason, _ => σ.turn (.unwind reason)

/-- **One step.** A machine that has come to rest makes none. -/
def State.step (σ : State) : Option State :=
  match σ.control, σ.frames with
  | .expr e, _ => σ.enterExpr e
  | .exprs [], _ => σ.turn (.values [])
  | .exprs (e :: es), _ => σ.await (.element es) (.expr e)
  | .pairs [], _ => σ.turn (.entries [])
  | .pairs ((key, value) :: rest), _ => σ.await (.key value rest) (.expr key)
  | .stmt st, _ => σ.enterStmt st
  | .stmts last [], _ => σ.turn (.value last)
  | .stmts _ (st :: rest), _ => σ.await (.statement rest) (.stmt st)
  | .apply f arguments, _ => σ.enterCall f arguments
  | .value v, frame :: frames => { σ with frames }.takeValue v frame
  | .values vs, frame :: frames => { σ with frames }.takeValues vs frame
  | .entries entries, frame :: frames => { σ with frames }.takeEntries entries frame
  | .unwind reason, frame :: frames => { σ with frames }.takeUnwind reason frame
  | _, [] => none

/-- A call with the right number of arguments enters the body. -/
theorem State.step_call {closure : Closure} {arguments : List Value}
    (h : closure.parameters.length = arguments.length) (id : Identity) (K : List Frame)
    (scope : ScopeId) (s : Store) :
    State.step ⟨.apply (.function id closure) arguments, K, scope, s⟩ =
      some ⟨.stmts .null closure.body, .call scope :: K, (s.newScope (some closure.scope)).1,
        (s.newScope (some closure.scope)).2.bindAll (s.newScope (some closure.scope)).1
          (closure.parameters.zip arguments)⟩ :=
  congrArg some (if_neg (not_not_intro h))

/-- The machine before a program in a scope. -/
def State.start (p : Program) (scope : ScopeId) (store : Store) : State :=
  ⟨.stmts .null p.statements, [], scope, store⟩

/-- The machine gets from one moment to another in some number of steps. -/
inductive Steps : Nat → State → State → Prop
  | refl (σ : State) : Steps 0 σ σ
  | head {n : Nat} {σ σ₁ σ' : State} :
    σ.step = some σ₁ → Steps n σ₁ σ' → Steps (n + 1) σ σ'

end Machine

end MonkeyLang
