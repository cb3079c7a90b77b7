import MonkeyLang.Eval.Run
import MonkeyLang.Proofs.Scopes
/-!
# Renaming

A `Renaming` says what names, scopes and identities become. It is carried
through trees, which mention names only, and through values, whose functions
mention names and a scope. Texts and the contents of hash keys stay as they
are.

`Store.Renames` compares two stores of which the second has what the first
has, renamed, and makes from then on what the first makes, renamed. A
renaming that is `Faithful` keeps apart what is apart, and then everything
that can be asked of a store has the renamed answer.
-/

namespace MonkeyLang

/-- What becomes of names, of scopes and of identities. -/
structure Renaming where
  name : String → String
  scope : ScopeId → ScopeId
  identity : Identity → Identity

/-! ## Trees -/

mutual

/-- The expression with every name in it renamed. -/
def Expr.rename (r : String → String) : Expr → Expr
  | .ident name => .ident (r name)
  | .int n => .int n
  | .bool b => .bool b
  | .string text => .string text
  | .array elements => .array (Expr.renameAll r elements)
  | .hash pairs => .hash (Expr.renamePairs r pairs)
  | .unary op operand => .unary op (operand.rename r)
  | .binary op left right => .binary op (left.rename r) (right.rename r)
  | .cond condition consequence none =>
    .cond (condition.rename r) (Stmt.renameAll r consequence) none
  | .cond condition consequence (some alternative) =>
    .cond (condition.rename r) (Stmt.renameAll r consequence)
      (some (Stmt.renameAll r alternative))
  | .function parameters body => .function (parameters.map r) (Stmt.renameAll r body)
  | .call callee arguments => .call (callee.rename r) (Expr.renameAll r arguments)
  | .index left position => .index (left.rename r) (position.rename r)

/-- Each expression with its names renamed. -/
def Expr.renameAll (r : String → String) : List Expr → List Expr
  | [] => []
  | e :: es => e.rename r :: Expr.renameAll r es

/-- The pairs of a hash with their names renamed. -/
def Expr.renamePairs (r : String → String) : List (Expr × Expr) → List (Expr × Expr)
  | [] => []
  | (key, value) :: pairs => (key.rename r, value.rename r) :: Expr.renamePairs r pairs

/-- The statement with every name in it renamed, that of a `let` included. -/
def Stmt.rename (r : String → String) : Stmt → Stmt
  | .bind name value => .bind (r name) (value.rename r)
  | .ret value => .ret (value.rename r)
  | .expr value => .expr (value.rename r)
  | .block body => .block (Stmt.renameAll r body)

/-- Each statement with its names renamed. -/
def Stmt.renameAll (r : String → String) : List Stmt → List Stmt
  | [] => []
  | s :: ss => s.rename r :: Stmt.renameAll r ss

end

/-- The program with every name in it renamed. -/
def Program.rename (r : String → String) (p : Program) : Program :=
  ⟨Stmt.renameAll r p.statements⟩

mutual

/-- Calling everything what it is called changes nothing. -/
theorem Expr.rename_id : ∀ e : Expr, e.rename id = e
  | .ident _ | .int _ | .bool _ | .string _ => rfl
  | .array elements => by rw [Expr.rename, Expr.renameAll_id elements]
  | .hash pairs => by rw [Expr.rename, Expr.renamePairs_id pairs]
  | .unary _ operand => by rw [Expr.rename, Expr.rename_id operand]
  | .binary _ left right => by rw [Expr.rename, Expr.rename_id left, Expr.rename_id right]
  | .cond condition consequence none => by
    rw [Expr.rename, Expr.rename_id condition, Stmt.renameAll_id consequence]
  | .cond condition consequence (some alternative) => by
    rw [Expr.rename, Expr.rename_id condition, Stmt.renameAll_id consequence,
      Stmt.renameAll_id alternative]
  | .function parameters body => by rw [Expr.rename, List.map_id, Stmt.renameAll_id body]
  | .call callee arguments => by
    rw [Expr.rename, Expr.rename_id callee, Expr.renameAll_id arguments]
  | .index left position => by rw [Expr.rename, Expr.rename_id left, Expr.rename_id position]

theorem Expr.renameAll_id : ∀ es : List Expr, Expr.renameAll id es = es
  | [] => rfl
  | e :: es => by rw [Expr.renameAll, Expr.rename_id e, Expr.renameAll_id es]

theorem Expr.renamePairs_id : ∀ pairs : List (Expr × Expr), Expr.renamePairs id pairs = pairs
  | [] => rfl
  | (key, value) :: pairs => by
    rw [Expr.renamePairs, Expr.rename_id key, Expr.rename_id value, Expr.renamePairs_id pairs]

theorem Stmt.rename_id : ∀ st : Stmt, st.rename id = st
  | .bind name value => by rw [Stmt.rename, Expr.rename_id value, id]
  | .ret value => by rw [Stmt.rename, Expr.rename_id value]
  | .expr value => by rw [Stmt.rename, Expr.rename_id value]
  | .block body => by rw [Stmt.rename, Stmt.renameAll_id body]

theorem Stmt.renameAll_id : ∀ body : List Stmt, Stmt.renameAll id body = body
  | [] => rfl
  | st :: rest => by rw [Stmt.renameAll, Stmt.rename_id st, Stmt.renameAll_id rest]

end

/-! ## Values and errors -/

/-- The function with its names and its scope renamed. -/
def Closure.rename (ρ : Renaming) (closure : Closure) : Closure :=
  ⟨closure.parameters.map ρ.name, Stmt.renameAll ρ.name closure.body, ρ.scope closure.scope⟩

mutual

/-- The value with everything in it renamed. -/
def Value.rename (ρ : Renaming) : Value → Value
  | .int n => .int n
  | .bool b => .bool b
  | .string text => .string text
  | .null => .null
  | .array id elements => .array (ρ.identity id) (Value.renameAll ρ elements)
  | .hash id ⟨entries⟩ => .hash (ρ.identity id) ⟨Value.renameEntries ρ entries⟩
  | .function id closure => .function (ρ.identity id) (closure.rename ρ)
  | .builtin b => .builtin b
  | .returned v => .returned (v.rename ρ)
  | .error message => .error message

/-- Each value with everything in it renamed. -/
def Value.renameAll (ρ : Renaming) : List Value → List Value
  | [] => []
  | v :: vs => v.rename ρ :: Value.renameAll ρ vs

/-- The entries of a hash renamed. The content of a key stays as it is. -/
def Value.renameEntries (ρ : Renaming) :
    List (HashKey × (Value × Value)) → List (HashKey × (Value × Value))
  | [] => []
  | (content, key, value) :: entries =>
    (content, key.rename ρ, value.rename ρ) :: Value.renameEntries ρ entries

end

/-- The error with the name that it mentions renamed. -/
def EvalError.rename (r : String → String) : EvalError → EvalError
  | .unbound name => .unbound (r name)
  | e => e

/-- The reason for stopping early with everything in it renamed. -/
def Unwind.rename (ρ : Renaming) : Unwind → Unwind
  | .returned v => .returned (v.rename ρ)
  | .failed e => .failed (e.rename ρ.name)

/-- An entry of a hash renamed. The content of its key stays as it is. -/
def Value.renameEntry (ρ : Renaming) : HashKey × (Value × Value) → HashKey × (Value × Value) :=
  Prod.map id (Prod.map (Value.rename ρ) (Value.rename ρ))

/-- What an evaluation ends with, changed on both sides. -/
def Eval.mapOutcome {ε ε' α α' : Type} (f : α → α') (g : ε → ε') : Except ε α → Except ε' α'
  | .ok a => .ok (f a)
  | .error e => .error (g e)

/-! ## Tables -/

namespace Table

variable {κ κ' ν ν' : Type} [DecidableEq κ] [DecidableEq κ']

/-- The table with other keys and other values in the same places. -/
def map (f : κ → κ') (g : ν → ν') (t : Table κ ν) : Table κ' ν' :=
  ⟨t.entries.map (Prod.map f g)⟩

variable {f : κ → κ'} (hf : Function.Injective f) (g : ν → ν')
include hf

/-- Where other keys are kept apart they are found as those before them
were. -/
theorem get?_map (t : Table κ ν) (key : κ) : (t.map f g).get? (f key) = (t.get? key).map g := by
  obtain ⟨entries⟩ := t
  simp only [get?, map]
  induction entries with
  | nil => rfl
  | cons entry rest ih =>
    simp only [List.map_cons, Prod.map, find?, hf.eq_iff]
    split
    · rfl
    · exact ih

/-- And they are written to as those were. -/
theorem map_insert (t : Table κ ν) (key : κ) (value : ν) :
    (t.insert key value).map f g = (t.map f g).insert (f key) (g value) := by
  obtain ⟨entries⟩ := t
  simp only [insert, map, mk.injEq]
  induction entries with
  | nil => rfl
  | cons entry rest ih =>
    simp only [List.map_cons, Prod.map, write, hf.eq_iff]
    split
    · rfl
    · rw [List.map_cons, ih, Prod.map]

theorem ofList_map (pairs : List (κ × ν)) :
    ofList (pairs.map (Prod.map f g)) = (ofList pairs).map f g := by
  suffices h : ∀ t : Table κ ν,
      (pairs.map (Prod.map f g)).foldl (fun t pair => t.insert pair.1 pair.2) (t.map f g) =
        (pairs.foldl (fun t pair => t.insert pair.1 pair.2) t).map f g from h empty
  induction pairs with
  | nil => exact fun t => rfl
  | cons pair rest ih =>
    intro t
    rw [List.map_cons, List.foldl_cons, List.foldl_cons, ← ih, map_insert hf g]
    rfl

end Table

/-! ## What values answer -/

namespace Value

variable {ρ : Renaming}

theorem renameAll_eq_map (vs : List Value) : renameAll ρ vs = vs.map (Value.rename ρ) := by
  induction vs with
  | nil => rfl
  | cons v vs ih => rw [renameAll, ih, List.map_cons]

theorem renameEntries_eq_map (entries : List (HashKey × (Value × Value))) :
    renameEntries ρ entries = entries.map (renameEntry ρ) := by
  induction entries with
  | nil => rfl
  | cons entry entries ih => rw [renameEntries, ih, List.map_cons]; rfl

@[simp] theorem rename_array (i : Identity) (elements : List Value) :
    (Value.array i elements).rename ρ =
      .array (ρ.identity i) (elements.map (Value.rename ρ)) := by
  rw [rename, renameAll_eq_map]

@[simp] theorem rename_hash (i : Identity) (pairs : Table HashKey (Value × Value)) :
    (Value.hash i pairs).rename ρ =
      .hash (ρ.identity i) (pairs.map id (Prod.map (Value.rename ρ) (Value.rename ρ))) := by
  obtain ⟨entries⟩ := pairs
  rw [rename, renameEntries_eq_map]
  rfl

@[simp] theorem type_rename (v : Value) : (v.rename ρ).type = v.type := by
  cases v <;> rfl

@[simp] theorem isTruthy_rename (v : Value) : (v.rename ρ).isTruthy = v.isTruthy := by
  cases v <;> rfl

@[simp] theorem hashKey?_rename (v : Value) : (v.rename ρ).hashKey? = v.hashKey? := by
  cases v <;> rfl

/-- Identities that are kept apart make the same values identical. -/
theorem identical_rename (hρ : Function.Injective ρ.identity) (v w : Value) :
    (v.rename ρ).identical (w.rename ρ) = v.identical w := by
  have hbeq (a b : Identity) : (ρ.identity a == ρ.identity b) = (a == b) := by
    rw [Bool.eq_iff_iff, beq_iff_eq, beq_iff_eq, hρ.eq_iff]
  cases v <;> cases w <;> first | rfl | exact hbeq _ _

end Value

/-! ## Faithful renamings -/

/-- A renaming that keeps apart what is apart, leaves the names of the
builtins to them and has older scopes stay older. -/
structure Renaming.Faithful (ρ : Renaming) : Prop where
  name : Function.Injective ρ.name
  builtin : ∀ b : Builtin, ρ.name b.name = b.name
  scope : ∀ id id', (ρ.scope id).index < (ρ.scope id').index ↔ id.index < id'.index
  identity : Function.Injective ρ.identity

/-- What keeps the order of numbers keeps apart what they number. -/
theorem injective_of_lt_iff {α : Type} {number : α → Nat} (hnumber : Function.Injective number)
    {f : α → α} (h : ∀ i j, number (f i) < number (f j) ↔ number i < number j) :
    Function.Injective f := by
  intro i j heq
  have hlt : ¬ number i < number j := fun hlt => Nat.lt_irrefl _ (heq ▸ (h i j).2 hlt)
  have hgt : ¬ number j < number i := fun hgt => Nat.lt_irrefl _ (heq ▸ (h j i).2 hgt)
  exact hnumber (Nat.le_antisymm (Nat.not_lt.1 hgt) (Nat.not_lt.1 hlt))

/-- A name is that of one builtin at most. -/
theorem Builtin.ofName?_eq_some_iff {name : String} {b : Builtin} :
    Builtin.ofName? name = some b ↔ name = b.name := by
  constructor
  · intro h
    unfold Builtin.ofName? at h
    split at h <;> cases h <;> rfl
  · rintro rfl
    cases b <;> rfl

namespace Renaming.Faithful

variable {ρ : Renaming} (hρ : ρ.Faithful)
include hρ

theorem scope_injective : Function.Injective ρ.scope :=
  have hindex : Function.Injective ScopeId.index := fun _ _ h => congrArg ScopeId.mk h
  injective_of_lt_iff hindex hρ.scope

/-- A name is that of a builtin just if it was before. -/
theorem ofName?_name (name : String) : Builtin.ofName? (ρ.name name) = Builtin.ofName? name := by
  refine Option.ext fun b => ?_
  rw [Builtin.ofName?_eq_some_iff, Builtin.ofName?_eq_some_iff]
  constructor
  · intro h
    exact hρ.name (h.trans (hρ.builtin b).symm)
  · rintro rfl
    exact hρ.builtin b

end Renaming.Faithful

/-! ## Stores -/

/-- The scope with its bindings and the scope around it renamed. -/
def Scope.rename (ρ : Renaming) (sc : Scope) : Scope :=
  ⟨sc.bindings.map ρ.name (Value.rename ρ), sc.outer.map ρ.scope⟩

/-- **The second store is the first one renamed**: it has the renamed scopes
of the first, and whatever the first makes from now on the second makes under
the renamed scope or identity. It may have more scopes than these. -/
structure Store.Renames (ρ : Renaming) (s t : Store) : Prop where
  scope? : ∀ id, t.scope? (ρ.scope id) = (s.scope? id).map (Scope.rename ρ)
  newScope : ∀ k, ρ.scope ⟨s.scopes.size + k⟩ = ⟨t.scopes.size + k⟩
  newIdentity : ∀ k, ρ.identity ⟨s.identities + k⟩ = ⟨t.identities + k⟩

namespace Store.Renames

variable {ρ : Renaming} {s t : Store}

/-- What is made next is made under the renamed identity. -/
theorem newIdentity_fst (h : Renames ρ s t) : t.newIdentity.1 = ρ.identity s.newIdentity.1 :=
  (h.newIdentity 0).symm

theorem newScope_fst (h : Renames ρ s t) (outer outer' : Option ScopeId) :
    (t.newScope outer').1 = ρ.scope (s.newScope outer).1 := (h.newScope 0).symm

theorem afterIdentity (h : Renames ρ s t) : Renames ρ s.newIdentity.2 t.newIdentity.2 where
  scope? := h.scope?
  newScope := h.newScope
  newIdentity k := by
    simpa [Store.newIdentity, Nat.add_assoc, Nat.add_comm 1] using h.newIdentity (k + 1)

/-- A new scope is inside the renamed one, and binds nothing either. -/
theorem afterScope (hρ : ρ.Faithful) (h : Renames ρ s t) (outer : Option ScopeId) :
    Renames ρ (s.newScope outer).2 (t.newScope (outer.map ρ.scope)).2 where
  scope? id := by
    simp only [scope?_newScope, h.newScope_fst outer, hρ.scope_injective.eq_iff]
    split
    · rfl
    · exact h.scope? id
  newScope k := by
    simpa [Store.newScope, Nat.add_assoc, Nat.add_comm 1] using h.newScope (k + 1)
  newIdentity := h.newIdentity

/-- Binding the renamed name to the renamed value keeps the stores in
step. -/
theorem afterBind (hρ : ρ.Faithful) (h : Renames ρ s t) (scope : ScopeId) (name : String)
    (v : Value) :
    Renames ρ (s.bind scope name v) (t.bind (ρ.scope scope) (ρ.name name) (v.rename ρ)) where
  scope? id := by
    simp only [scope?_bind, h.scope?, hρ.scope_injective.eq_iff]
    split
    · cases s.scope? id with
      | none => rfl
      | some sc => simp [Scope.rename, Scope.bind, Table.map_insert hρ.name]
    · rfl
  newScope k := by simpa [Store.bind] using h.newScope k
  newIdentity := h.newIdentity

/-- **A look-up finds the renamed value under the renamed name.** -/
theorem lookup (hρ : ρ.Faithful) (h : Renames ρ s t) (scope : ScopeId) (name : String) :
    t.lookup (ρ.scope scope) (ρ.name name) = (s.lookup scope name).map (Value.rename ρ) := by
  have hget (sc : Scope) : (sc.rename ρ).bindings.get? (ρ.name name) =
      (sc.bindings.get? name).map (Value.rename ρ) := Table.get?_map hρ.name _ _ _
  have houter (sc : Scope) : (sc.rename ρ).outer = sc.outer.map ρ.scope := rfl
  fun_induction Store.lookup s scope name with
  | case1 scope hscope =>
    rw [Store.lookup, h.scope?, hscope]
    rfl
  | case2 scope sc hscope v hv =>
    rw [Store.lookup, h.scope?, hscope]
    simp only [Option.map_some, hget, hv]
  | case3 scope sc hscope hnone hv =>
    rw [Store.lookup, h.scope?, hscope]
    simp only [Option.map_some, Option.map_none, hget, houter, hv, hnone]
  | case4 scope sc hscope outer hsome hv hlt ih =>
    rw [Store.lookup, h.scope?, hscope]
    simp only [Option.map_some, Option.map_none, hget, houter, hv, hsome]
    rw [if_pos ((hρ.scope _ _).2 hlt), ih]
  | case5 scope sc hscope outer hsome hv hlt =>
    rw [Store.lookup, h.scope?, hscope]
    simp only [Option.map_some, Option.map_none, hget, houter, hv, hsome]
    rw [if_neg (hlt ∘ (hρ.scope _ _).1)]

end Store.Renames

end MonkeyLang
