import MonkeyLang.Proofs.Renaming.Basic
/-!
# Evaluation commutes with renaming

What is evaluated does not depend on how things are called. Operators,
indices and builtins ask of a value only what a faithful renaming leaves
alone, and stores that rename one another go on doing so. `Eval.Renames`
compares two evaluations of which the second ends as the first does, with
everything renamed; it is kept by every way of putting evaluations together.

The main statements are `Stmt.evalAll_renames`, once over the tree, and
`Value.apply_renames`, once over the depth of calls.
-/

namespace MonkeyLang

open Eval (mapOutcome)

variable {ρ : Renaming}

/-! ## Operators -/

namespace Value

/-- Renaming makes a number of nothing else. -/
theorem rename_eq_int_iff {v : Value} {n : Int64} : v.rename ρ = .int n ↔ v = .int n := by
  cases v <;> simp [rename]

theorem rename_eq_string_iff {v : Value} {text : String} :
    v.rename ρ = .string text ↔ v = .string text := by
  cases v <;> simp [rename]

theorem elementAt_rename (elements : List Value) (position : Int64) :
    elementAt (elements.map (Value.rename ρ)) position =
      (elementAt elements position).rename ρ := by
  unfold elementAt
  split
  · rfl
  · rw [List.getD_eq_getElem?_getD, List.getD_eq_getElem?_getD, List.getElem?_map]
    cases elements[position.toInt.toNat]? <;> rfl

/-- An index finds the renamed element or value, or fails alike. -/
theorem index_rename (l p : Value) :
    (l.rename ρ).index (p.rename ρ) =
      mapOutcome (Value.rename ρ) (EvalError.rename ρ.name) (l.index p) := by
  cases l with
  | array i elements =>
    rw [rename_array]
    cases p with
    | int position => exact congrArg Except.ok (elementAt_rename elements position)
    | _ => rfl
  | hash i pairs =>
    rw [rename_hash]
    -- the contents of keys are not renamed, so the same entry is found
    have hget (content : HashKey) :
        (pairs.map id (Prod.map (Value.rename ρ) (Value.rename ρ))).get? content =
          (pairs.get? content).map (Prod.map (Value.rename ρ) (Value.rename ρ)) :=
      Table.get?_map Function.injective_id _ pairs content
    simp only [index, hashKey?_rename, type_rename, hget]
    cases p.hashKey? with
    | none => rfl
    | some content =>
      dsimp only
      cases pairs.get? content <;> rfl
  | _ => rfl

end Value

/-- Operators in front of a value ask whether it counts as true or which
number it is, and renaming changes neither. -/
theorem UnaryOp.apply_rename (op : UnaryOp) (v : Value) :
    op.apply (v.rename ρ) =
      mapOutcome (Value.rename ρ) (EvalError.rename ρ.name) (op.apply v) := by
  cases op with
  | not => simp only [UnaryOp.apply, Value.isTruthy_rename]; rfl
  | negate => cases v <;> rfl

namespace BinaryOp

theorem applyInt_rename (op : BinaryOp) (a b : Int64) :
    mapOutcome (Value.rename ρ) (EvalError.rename ρ.name) (op.applyInt a b) =
      op.applyInt a b := by
  cases op with
  | div =>
    change mapOutcome _ _ (if b = 0 then _ else _) = if b = 0 then _ else _
    split <;> rfl
  | _ => rfl

theorem applyString_rename (op : BinaryOp) (a b : String) :
    mapOutcome (Value.rename ρ) (EvalError.rename ρ.name) (op.applyString a b) =
      op.applyString a b := by
  cases op <;> rfl

theorem apply_rename (hρ : ρ.Faithful) (op : BinaryOp) (l r : Value) :
    op.apply (l.rename ρ) (r.rename ρ) =
      mapOutcome (Value.rename ρ) (EvalError.rename ρ.name) (op.apply l r) := by
  by_cases hint : ∃ a b, l = .int a ∧ r = .int b
  · obtain ⟨a, b, rfl, rfl⟩ := hint
    exact (applyInt_rename op a b).symm
  by_cases hstring : ∃ a b, l = .string a ∧ r = .string b
  · obtain ⟨a, b, rfl, rfl⟩ := hstring
    exact (applyString_rename op a b).symm
  -- what is left depends on the types of the operands and on whether they are
  -- the same one
  have happly (l r : Value) (hint : ¬ ∃ a b, l = .int a ∧ r = .int b)
      (hstring : ¬ ∃ a b, l = .string a ∧ r = .string b) : op.apply l r =
        if l.type ≠ r.type then .error (.typeMismatch l.type op r.type)
        else if op = .eq then .ok (.bool (l.identical r))
        else if op = .ne then .ok (.bool !l.identical r)
        else .error (.unknownBinary l.type op r.type) := by
    unfold BinaryOp.apply
    split
    · exact absurd ⟨_, _, rfl, rfl⟩ hint
    · exact absurd ⟨_, _, rfl, rfl⟩ hstring
    · cases op <;> rfl
  rw [happly l r hint hstring, happly _ _ ?_ ?_]
  · simp only [Value.type_rename, Value.identical_rename hρ.identity]
    split
    · rfl
    · cases op <;> rfl
  · simpa only [Value.rename_eq_int_iff] using hint
  · simpa only [Value.rename_eq_string_iff] using hstring

end BinaryOp

/-! ## Builtins -/

/-- What a builtin answers, renamed. -/
def Yield.rename (ρ : Renaming) : Yield → Yield
  | .known v => .known (v.rename ρ)
  | .newArray elements => .newArray (elements.map (Value.rename ρ))

namespace Builtin

/-- The builtins take arrays apart and make longer ones without looking at
the elements. -/
theorem applyArray_rename (b : Builtin) (elements others : List Value) :
    b.applyArray (elements.map (Value.rename ρ)) (others.map (Value.rename ρ)) =
      (b.applyArray elements others).rename ρ := by
  cases b with
  | len => simp only [applyArray, List.length_map]; rfl
  | head => cases elements <;> rfl
  | last =>
    simp only [applyArray, List.getLastD_eq_getLast?, List.getLast?_map]
    cases elements.getLast? <;> rfl
  | tail => cases elements <;> rfl
  | append => simp only [applyArray, Yield.rename, List.map_append]

/-- **Operators commute with a faithful renaming.** Faithful it has to be
for `==` and `!=`, which ask for identities. -/
theorem apply_rename (b : Builtin) (arguments : List Value) :
    b.apply (arguments.map (Value.rename ρ)) =
      mapOutcome (Yield.rename ρ) (EvalError.rename ρ.name) (b.apply arguments) := by
  unfold Builtin.apply
  rw [List.length_map]
  split
  · rfl
  cases arguments with
  | nil => cases b <;> rfl
  | cons v others =>
    rw [List.map_cons]
    cases v with
    | array i elements =>
      rw [Value.rename_array]
      exact congrArg Except.ok (applyArray_rename b elements others)
    | _ => cases b <;> rfl

end Builtin

/-! ## Evaluations -/

section Evaluations

variable {ε ε' ε₁ ε₁' α α' β β' : Type} {f : α → α'} {f' : β → β'} {g : ε → ε'} {g' : ε₁ → ε₁'}

/-- What a renamed evaluation comes to: it does not end either, or ends in the
renamed way in the renamed store. -/
inductive Eval.Mirrors (ρ : Renaming) (f : α → α') (g : ε → ε') :
    Option (Except ε α × Store) → Option (Except ε' α' × Store) → Prop where
  | none : Mirrors ρ f g none none
  | ok {s t : Store} (a : α) : s.Renames ρ t → Mirrors ρ f g (some (.ok a, s)) (some (.ok (f a), t))
  | error {s t : Store} (e : ε) :
    s.Renames ρ t → Mirrors ρ f g (some (.error e, s)) (some (.error (g e), t))

/-- Where the first evaluation ends, the second one ends in the renamed
way. -/
theorem Eval.Mirrors.eq_some {o : Except ε α} {s : Store} {end₁ : Option (Except ε α × Store)}
    {end₂ : Option (Except ε' α' × Store)} (h : Mirrors ρ f g end₁ end₂)
    (hend : end₁ = some (o, s)) :
    ∃ t, end₂ = some (mapOutcome f g o, t) ∧ s.Renames ρ t := by
  cases h with
  | none => cases hend
  | ok a hst =>
    cases hend
    exact ⟨_, rfl, hst⟩
  | error e hst =>
    cases hend
    exact ⟨_, rfl, hst⟩

/-- **The second evaluation is the first one renamed**, in whatever stores of
which the second is the first renamed. -/
def Eval.Renames (ρ : Renaming) (f : α → α') (g : ε → ε') (x : Eval ε α) (y : Eval ε' α') : Prop :=
  ∀ s t, s.Renames ρ t → Mirrors ρ f g (x s) (y t)

namespace Eval.Renames

theorem pure (a : α) : Renames ρ f g (Pure.pure a) (Pure.pure (f a)) := fun _ _ h => .ok a h

theorem stop (e : ε) : Renames ρ f g (Eval.stop (α := α) e) (Eval.stop (g e)) :=
  fun _ _ h => .error e h

theorem exhausted : Renames ρ f g Eval.exhausted Eval.exhausted := fun _ _ _ => .none

theorem ofExcept (r : Except ε α) :
    Renames ρ f g (Eval.ofExcept r) (Eval.ofExcept (mapOutcome f g r)) := by
  cases r with
  | ok a => exact pure a
  | error e => exact stop e

/-- A question to which stores that rename one another give the renamed
answer. -/
theorem ask {p : Store → α} {q : Store → α'} (h : ∀ s t, s.Renames ρ t → q t = f (p s)) :
    Renames ρ f g (Eval.ask p) (Eval.ask q) := by
  intro s t hst
  unfold Eval.ask
  rw [h s t hst]
  exact .ok _ hst

/-- Something that both stores make, and after which they still rename one
another. -/
theorem create {p : Store → α × Store} {q : Store → α' × Store}
    (h : ∀ s t, s.Renames ρ t → (q t).1 = f (p s).1 ∧ (p s).2.Renames ρ (q t).2) :
    Renames ρ f g (Eval.create p) (Eval.create q) := by
  intro s t hst
  obtain ⟨hfst, hsnd⟩ := h s t hst
  unfold Eval.create
  rw [hfst]
  exact .ok _ hsnd

/-- One evaluation after the other: the second ones start in stores that
rename one another, from values of which one is the other renamed. -/
theorem bind {x : Eval ε α} {y : Eval ε' α'} {k : α → Eval ε β} {k' : α' → Eval ε' β'}
    (h : Renames ρ f g x y) (hk : ∀ a, Renames ρ f' g (k a) (k' (f a))) :
    Renames ρ f' g (x >>= k) (y >>= k') := by
  intro s t hst
  change Mirrors ρ f' g (Eval.bind x k s) (Eval.bind y k' t)
  have hx := h s t hst
  unfold Eval.bind
  generalize x s = r, y t = r' at hx
  cases hx with
  | none => exact .none
  | ok a hst' => exact hk a _ _ hst'
  | error e hst' => exact .error e hst'

theorem mapReason {x : Eval ε α} {y : Eval ε' α'} {i : ε → ε₁} {j : ε' → ε₁'}
    (h : Renames ρ f g x y) (hij : ∀ e, j (g e) = g' (i e)) :
    Renames ρ f g' (x.mapReason i) (y.mapReason j) := by
  intro s t hst
  have hx := h s t hst
  unfold Eval.mapReason
  generalize x s = r, y t = r' at hx
  cases hx with
  | none => exact .none
  | ok a hst' => exact .ok a hst'
  | error e hst' =>
    dsimp only
    rw [hij]
    exact .error _ hst'

/-- The value of a call is what the `return` carries, which is renamed
already. -/
theorem atCall {x y : Eval Unwind Value}
    (h : Renames ρ (Value.rename ρ) (Unwind.rename ρ) x y) :
    Renames ρ (Value.rename ρ) (EvalError.rename ρ.name) x.atCall y.atCall := by
  intro s t hst
  have hx := h s t hst
  unfold Eval.atCall
  generalize x s = r, y t = r' at hx
  cases hx with
  | none => exact .none
  | ok v hst' => exact .ok v hst'
  | error e hst' =>
    cases e with
    | returned v => exact .ok v hst'
    | failed e => exact .error e hst'

theorem orFail {r r' : Except EvalError Value}
    (h : r' = mapOutcome (Value.rename ρ) (EvalError.rename ρ.name) r) :
    Renames ρ (Value.rename ρ) (Unwind.rename ρ) (Eval.orFail r) (Eval.orFail r') := by
  subst h
  exact (ofExcept r).mapReason fun _ => rfl

/-! ### Things that are made -/

/-- The next identity is the one that the renaming says. -/
theorem identity : Renames ρ ρ.identity g (Eval.create Store.newIdentity)
    (Eval.create Store.newIdentity) :=
  .create fun _ _ h => ⟨h.newIdentity_fst, h.afterIdentity⟩

theorem newArray (elements : List Value) :
    Renames ρ (Value.rename ρ) g (Eval.newArray elements)
      (Eval.newArray (elements.map (Value.rename ρ))) := by
  refine identity.bind fun i => ?_
  rw [← Value.rename_array]
  exact pure _

theorem newHash (pairs : Table HashKey (Value × Value)) :
    Renames ρ (Value.rename ρ) g (Eval.newHash pairs)
      (Eval.newHash (pairs.map id (Prod.map (Value.rename ρ) (Value.rename ρ)))) := by
  refine identity.bind fun i => ?_
  rw [← Value.rename_hash]
  exact pure _

theorem newFunction (closure : Closure) :
    Renames ρ (Value.rename ρ) g (Eval.newFunction closure)
      (Eval.newFunction (closure.rename ρ)) :=
  identity.bind fun i => pure (Value.function i closure)

variable (hρ : ρ.Faithful)
include hρ

/-- And so is the next scope. -/
theorem newScope (outer : ScopeId) :
    Renames ρ ρ.scope g (Eval.create (·.newScope (some outer)))
      (Eval.create (·.newScope (some (ρ.scope outer)))) :=
  .create fun _ _ h => ⟨h.newScope_fst _ _, h.afterScope hρ _⟩

theorem bindName (scope : ScopeId) (name : String) (v : Value) :
    Renames ρ id g (Eval.bindName scope name v)
      (Eval.bindName (ρ.scope scope) (ρ.name name) (v.rename ρ)) :=
  .create fun _ _ h => ⟨rfl, h.afterBind hρ scope name v⟩

theorem bindNames (scope : ScopeId) (bindings : List (String × Value)) :
    Renames ρ id g (Eval.bindNames scope bindings)
      (Eval.bindNames (ρ.scope scope) (bindings.map (Prod.map ρ.name (Value.rename ρ)))) := by
  induction bindings with
  | nil => exact pure ()
  | cons binding rest ih => exact (bindName hρ scope binding.1 binding.2).bind fun _ => ih

end Eval.Renames

end Evaluations

open Eval (Renames)

/-! ## Once over the tree -/

/-- The second evaluation is the first one renamed, both inside a program. -/
abbrev Eval.RenamesInside {α : Type} (ρ : Renaming) (f : α → α) :
    Eval Unwind α → Eval Unwind α → Prop :=
  Renames ρ f (Unwind.rename ρ)

open Eval (RenamesInside)

/-- **A renamed name is looked up as the name was.** Where nothing is bound
it may be a builtin, and those keep their names. -/
theorem evalName_renames (hρ : ρ.Faithful) (scope : ScopeId) (name : String) :
    RenamesInside ρ (Value.rename ρ) (evalName scope name)
      (evalName (ρ.scope scope) (ρ.name name)) := by
  unfold evalName
  refine Renames.bind (f := Option.map (Value.rename ρ)) ?_ fun found => ?_
  · exact .ask fun _ _ h => h.lookup hρ scope name
  rw [hρ.ofName?_name]
  cases found with
  | some v => exact .pure v
  | none =>
    cases Builtin.ofName? name with
    | some b => exact .pure (Value.builtin b)
    | none => exact .stop (Unwind.failed (.unbound name))

/-- The content of a key mentions nothing that could be renamed. -/
theorem evalHashKey_renames (key : Value) :
    RenamesInside ρ id (evalHashKey key) (evalHashKey (key.rename ρ)) := by
  unfold evalHashKey
  rw [Value.hashKey?_rename, Value.type_rename]
  cases key.hashKey? with
  | some content => exact .pure content
  | none => exact .stop (Unwind.failed (.unhashable key.type))

section Tree

/-- The second way of applying does to what is renamed what the first does,
renamed. -/
def Applier.Renames (ρ : Renaming) (apply apply' : Applier) : Prop :=
  ∀ f vs, Eval.Renames ρ (Value.rename ρ) (EvalError.rename ρ.name) (apply f vs)
    (apply' (f.rename ρ) (vs.map (Value.rename ρ)))

variable {apply apply' : Applier} {scope : ScopeId}

mutual

/-- **Evaluating the renamed expression is the evaluation renamed.** Only a
call asks what applying a value does. -/
theorem Expr.eval_renames (hρ : ρ.Faithful) (ha : apply.Renames ρ apply') :
    ∀ e : Expr, RenamesInside ρ (Value.rename ρ) (e.eval apply scope)
      ((e.rename ρ.name).eval apply' (ρ.scope scope))
  | .int n => by
    simp only [Expr.rename, Expr.eval]
    exact .pure (Value.int n)
  | .bool b => by
    simp only [Expr.rename, Expr.eval]
    exact .pure (Value.bool b)
  | .string text => by
    simp only [Expr.rename, Expr.eval]
    exact .pure (Value.string text)
  | .ident name => by
    simp only [Expr.rename, Expr.eval]
    exact evalName_renames hρ scope name
  | .array elements => by
    simp only [Expr.rename, Expr.eval]
    exact (Expr.evalAll_renames hρ ha elements).bind fun values => .newArray values
  | .hash pairs => by
    simp only [Expr.rename, Expr.eval]
    refine (Expr.evalPairs_renames hρ ha pairs).bind fun entries => ?_
    rw [Value.renameEntry, Table.ofList_map Function.injective_id]
    exact .newHash (.ofList entries)
  | .unary op operand => by
    simp only [Expr.rename, Expr.eval]
    refine (Expr.eval_renames hρ ha operand).bind fun v => ?_
    exact .orFail (op.apply_rename v)
  | .binary op left right => by
    simp only [Expr.rename, Expr.eval]
    refine (Expr.eval_renames hρ ha left).bind fun l => ?_
    refine (Expr.eval_renames hρ ha right).bind fun r => ?_
    exact .orFail (op.apply_rename hρ l r)
  | .cond condition consequence none => by
    simp only [Expr.rename, Expr.eval]
    refine (Expr.eval_renames hρ ha condition).bind fun v => ?_
    rw [Value.isTruthy_rename]
    split
    · exact Stmt.evalAll_renames hρ ha consequence .null
    · exact .pure Value.null
  | .cond condition consequence (some alternative) => by
    simp only [Expr.rename, Expr.eval]
    refine (Expr.eval_renames hρ ha condition).bind fun v => ?_
    rw [Value.isTruthy_rename]
    split
    · exact Stmt.evalAll_renames hρ ha consequence .null
    · exact Stmt.evalAll_renames hρ ha alternative .null
  | .function parameters body => by
    simp only [Expr.rename, Expr.eval]
    exact .newFunction ⟨parameters, body, scope⟩
  | .call callee arguments => by
    simp only [Expr.rename, Expr.eval]
    refine (Expr.eval_renames hρ ha callee).bind fun f => ?_
    refine (Expr.evalAll_renames hρ ha arguments).bind fun vs => ?_
    exact (ha f vs).mapReason fun _ => rfl
  | .index left position => by
    simp only [Expr.rename, Expr.eval]
    refine (Expr.eval_renames hρ ha left).bind fun l => ?_
    refine (Expr.eval_renames hρ ha position).bind fun p => ?_
    exact .orFail (l.index_rename p)

/-- And so for expressions from left to right. -/
theorem Expr.evalAll_renames (hρ : ρ.Faithful) (ha : apply.Renames ρ apply') :
    ∀ es : List Expr, RenamesInside ρ (List.map (Value.rename ρ)) (Expr.evalAll apply scope es)
      (Expr.evalAll apply' (ρ.scope scope) (Expr.renameAll ρ.name es))
  | [] => by
    simp only [Expr.renameAll, Expr.evalAll]
    exact .pure []
  | e :: es => by
    simp only [Expr.renameAll, Expr.evalAll]
    refine (Expr.eval_renames hρ ha e).bind fun v => ?_
    exact (Expr.evalAll_renames hρ ha es).bind fun vs => .pure (v :: vs)

/-- And for keys and values, by pairs. The contents of the keys stay. -/
theorem Expr.evalPairs_renames (hρ : ρ.Faithful) (ha : apply.Renames ρ apply') :
    ∀ pairs : List (Expr × Expr),
      RenamesInside ρ (List.map (Value.renameEntry ρ)) (Expr.evalPairs apply scope pairs)
        (Expr.evalPairs apply' (ρ.scope scope) (Expr.renamePairs ρ.name pairs))
  | [] => by
    simp only [Expr.renamePairs, Expr.evalPairs]
    exact .pure []
  | (key, value) :: pairs => by
    simp only [Expr.renamePairs, Expr.evalPairs]
    refine (Expr.eval_renames hρ ha key).bind fun k => ?_
    refine (evalHashKey_renames k).bind fun content => ?_
    refine (Expr.eval_renames hρ ha value).bind fun v => ?_
    exact (Expr.evalPairs_renames hρ ha pairs).bind fun entries =>
      .pure ((content, k, v) :: entries)

/-- And for statements, of which a `let` binds the renamed name. -/
theorem Stmt.eval_renames (hρ : ρ.Faithful) (ha : apply.Renames ρ apply') :
    ∀ st : Stmt, RenamesInside ρ (Value.rename ρ) (st.eval apply scope)
      ((st.rename ρ.name).eval apply' (ρ.scope scope))
  | .bind name value => by
    simp only [Stmt.rename, Stmt.eval]
    refine (Expr.eval_renames hρ ha value).bind fun v => ?_
    exact (Renames.bindName hρ scope name v).bind fun _ => .pure Value.null
  | .ret value => by
    simp only [Stmt.rename, Stmt.eval]
    exact (Expr.eval_renames hρ ha value).bind fun v => .stop (Unwind.returned v)
  | .expr value => by
    simp only [Stmt.rename, Stmt.eval]
    exact Expr.eval_renames hρ ha value
  | .block body => by
    simp only [Stmt.rename, Stmt.eval]
    exact Stmt.evalAll_renames hρ ha body .null

/-- And for statements one after the other, whatever came before them. -/
theorem Stmt.evalAll_renames (hρ : ρ.Faithful) (ha : apply.Renames ρ apply') :
    ∀ (body : List Stmt) (last : Value),
      RenamesInside ρ (Value.rename ρ) (Stmt.evalAll apply scope last body)
        (Stmt.evalAll apply' (ρ.scope scope) (last.rename ρ) (Stmt.renameAll ρ.name body))
  | [], last => by
    simp only [Stmt.renameAll, Stmt.evalAll]
    exact .pure last
  | st :: rest, _ => by
    simp only [Stmt.renameAll, Stmt.evalAll]
    exact (Stmt.eval_renames hρ ha st).bind fun v => Stmt.evalAll_renames hρ ha rest v

end

end Tree

/-! ## Once over the depth of calls -/

/-- An array that a builtin makes gets the next identity. -/
theorem Builtin.call_renames (b : Builtin) (arguments : List Value) :
    Renames ρ (Value.rename ρ) (EvalError.rename ρ.name) (b.call arguments)
      (b.call (arguments.map (Value.rename ρ))) := by
  unfold Builtin.call
  rw [b.apply_rename]
  refine (Renames.ofExcept _).bind fun answer => ?_
  cases answer with
  | known v => exact .pure v
  | newArray elements => exact .newArray elements

section Calls

variable {run run' : ScopeId → List Stmt → Eval Unwind Value} (hρ : ρ.Faithful)
  (hrun : ∀ scope body, RenamesInside ρ (Value.rename ρ) (run scope body)
    (run' (ρ.scope scope) (Stmt.renameAll ρ.name body)))

include hρ hrun

/-- A call binds the renamed parameters in the next scope, which is inside
the renamed one of the function. -/
theorem Closure.call_renames (closure : Closure) (arguments : List Value) :
    Renames ρ (Value.rename ρ) (EvalError.rename ρ.name) (closure.call run arguments)
      ((closure.rename ρ).call run' (arguments.map (Value.rename ρ))) := by
  unfold Closure.call Closure.rename
  simp only [List.length_map, List.zip_map]
  split
  · exact .stop (EvalError.arity _ _)
  · refine (Renames.newScope hρ closure.scope).bind fun scope => ?_
    refine (Renames.bindNames hρ scope _).bind fun _ => ?_
    exact (hrun scope closure.body).atCall

theorem Value.applyWith_renames (f : Value) (arguments : List Value) :
    Renames ρ (Value.rename ρ) (EvalError.rename ρ.name) (Value.applyWith run f arguments)
      (Value.applyWith run' (f.rename ρ) (arguments.map (Value.rename ρ))) := by
  cases f with
  | function i closure => exact closure.call_renames hρ hrun arguments
  | builtin b => exact b.call_renames arguments
  | _ => exact .stop (EvalError.notCallable _)

end Calls

/-- By induction on the depth: the calls in a body go one level less deep
than the body itself. -/
theorem runBody_renames (hρ : ρ.Faithful) (depth : Nat) (scope : ScopeId) (body : List Stmt) :
    RenamesInside ρ (Value.rename ρ) (runBody depth scope body)
      (runBody depth (ρ.scope scope) (Stmt.renameAll ρ.name body)) := by
  induction depth generalizing scope body with
  | zero => exact .exhausted
  | succ depth ih =>
    exact Stmt.evalAll_renames hρ (Value.applyWith_renames hρ ih) body .null

/-- **A renamed call is the call renamed.** -/
theorem Value.apply_renames (hρ : ρ.Faithful) (depth : Nat) (f : Value) (arguments : List Value) :
    Renames ρ (Value.rename ρ) (EvalError.rename ρ.name) (Value.apply depth f arguments)
      (Value.apply depth (f.rename ρ) (arguments.map (Value.rename ρ))) :=
  Value.applyWith_renames hρ (runBody_renames hρ depth) f arguments

end MonkeyLang
