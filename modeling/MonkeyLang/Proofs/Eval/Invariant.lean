import MonkeyLang.Proofs.Eval.Keeps
/-!
# Invariants of evaluations

`Invariant` is what a property of stores and one of values have to stand
so that no program breaks them. Only two steps of an evaluation touch a
scope: one makes it and one binds a name in it, and which names may be
bound where is a part of the invariant. `Expr.eval_keeps` goes once over
the tree and `runBody_keeps` once over the depth of calls; both hold of
every `Invariant`, and so does `Node.run_keeps`, for all that a host can
evaluate.
-/

namespace MonkeyLang

/-! ## What can be evaluated -/

/-- What a host can have evaluated. -/
inductive Node where
  | program (program : Program)
  | statement (statement : Stmt)
  | expression (expression : Expr)

/-- Runs a node in a scope. -/
def Node.run (depth : Nat) : Node → ScopeId → Store → Option (Value × Store)
  | .program p => p.run depth
  | .statement st => st.run depth
  | .expression e => e.run depth

mutual

/-- The names of the `let`s in an expression, those inside the bodies of
functions left out. -/
def Expr.letNames : Expr → List String
  | .ident _ => []
  | .int _ => []
  | .bool _ => []
  | .string _ => []
  | .array elements => Expr.letNamesAll elements
  | .hash pairs => Expr.letNamesPairs pairs
  | .unary _ operand => operand.letNames
  | .binary _ left right => left.letNames ++ right.letNames
  | .cond condition consequence none =>
    condition.letNames ++ Stmt.letNamesAll consequence
  | .cond condition consequence (some alternative) =>
    condition.letNames ++ Stmt.letNamesAll consequence ++ Stmt.letNamesAll alternative
  | .function _ _ => []
  | .call callee arguments => callee.letNames ++ Expr.letNamesAll arguments
  | .index left position => left.letNames ++ position.letNames

/-- The names of the `let`s in some expressions. -/
def Expr.letNamesAll : List Expr → List String
  | [] => []
  | e :: es => e.letNames ++ Expr.letNamesAll es

/-- The names of the `let`s in the pairs of a hash. -/
def Expr.letNamesPairs : List (Expr × Expr) → List String
  | [] => []
  | (key, value) :: pairs => key.letNames ++ value.letNames ++ Expr.letNamesPairs pairs

/-- The names of the `let`s in a statement, its own one included. -/
def Stmt.letNames : Stmt → List String
  | .bind name value => value.letNames ++ [name]
  | .ret value => value.letNames
  | .expr value => value.letNames
  | .block body => Stmt.letNamesAll body

/-- The names of the `let`s in some statements. -/
def Stmt.letNamesAll : List Stmt → List String
  | [] => []
  | s :: ss => s.letNames ++ Stmt.letNamesAll ss

end

/-- The names of the `let`s in a node, those inside the bodies of
functions left out. -/
def Node.letNames : Node → List String
  | .program p => Stmt.letNamesAll p.statements
  | .statement st => st.letNames
  | .expression e => e.letNames

/-! ## Invariants -/

/-- A property of values that every value without parts has, functions
among them, and that the values with parts have just if all parts have it. -/
structure Value.Hereditary (good : Value → Prop) : Prop where
  int : ∀ n, good (.int n)
  bool : ∀ b, good (.bool b)
  string : ∀ text, good (.string text)
  null : good .null
  builtin : ∀ b, good (.builtin b)
  function : ∀ id closure, good (.function id closure)
  array : ∀ {id elements}, good (.array id elements) ↔ ∀ v ∈ elements, good v
  hash : ∀ {id pairs}, good (.hash id pairs) ↔
    ∀ entry ∈ pairs.entries, good entry.2.1 ∧ good entry.2.2

/-- A property of values that every value without parts has, functions
apart, and that a value with parts hands down to them. Taking values apart
does not lead out of it. -/
structure Value.Inherited (good : Value → Prop) : Prop where
  int : ∀ n, good (.int n)
  bool : ∀ b, good (.bool b)
  string : ∀ text, good (.string text)
  null : good .null
  builtin : ∀ b, good (.builtin b)
  array : ∀ {id elements}, good (.array id elements) → ∀ v ∈ elements, good v
  hash : ∀ {id pairs}, good (.hash id pairs) →
    ∀ entry ∈ pairs.entries, good entry.2.1 ∧ good entry.2.2

theorem Value.Hereditary.inherited {good : Value → Prop} (h : Value.Hereditary good) :
    Value.Inherited good :=
  ⟨h.int, h.bool, h.string, h.null, h.builtin, h.array.mp, h.hash.mp⟩

/-- A property of stores and one of values that evaluations keep as long
as they bind names only where they may. A new scope is one where they may. -/
structure Invariant where
  store : Store → Prop
  value : Value → Prop
  writable : ScopeId → String → Prop
  hereditary : Value.Hereditary value
  newIdentity : ∀ {s}, store s → store s.newIdentity.2
  newScope : ∀ {s outer}, store s →
    store (s.newScope outer).2 ∧ ∀ name, writable (s.newScope outer).1 name
  bind : ∀ {s scope name v}, store s → writable scope name → value v →
    store (s.bind scope name v)
  lookup : ∀ {s scope name v}, store s → s.lookup scope name = some v → value v

/-- What a builtin answers is good, or made of good elements. -/
def Yield.All (good : Value → Prop) : Yield → Prop
  | .known v => good v
  | .newArray elements => ∀ v ∈ elements, good v

/-! ## What operations make of values -/

/-- The entries of a table made from pairs are among the pairs. -/
theorem Table.mem_of_mem_ofList {κ ν : Type} [DecidableEq κ] {pairs : List (κ × ν)}
    {entry : κ × ν} (h : entry ∈ (Table.ofList pairs).entries) : entry ∈ pairs := by
  have hwrite : ∀ (key : κ) (value : ν) (entries : List (κ × ν)),
      entry ∈ Table.write key value entries → entry ∈ entries ∨ entry = (key, value) := by
    intro key value entries
    induction entries with
    | nil => simp [Table.write]
    | cons first rest ih => grind [Table.write]
  have hfold : ∀ (t : Table κ ν),
      entry ∈ (pairs.foldl (fun t pair => t.insert pair.1 pair.2) t).entries →
        entry ∈ t.entries ∨ entry ∈ pairs := by
    clear h
    induction pairs with
    | nil => exact fun t h => .inl h
    | cons pair rest ih =>
      intro t h
      rcases ih _ h with h | h
      · rcases hwrite pair.1 pair.2 t.entries h with h | rfl
        · exact .inl h
        · exact .inr List.mem_cons_self
      · exact .inr (List.mem_cons_of_mem _ h)
  exact (hfold _ h).resolve_left (by simp [Table.empty])

/-- What a key has in a table stands among its entries. -/
theorem Table.exists_mem_of_get? {κ ν : Type} [DecidableEq κ] {t : Table κ ν} {key : κ} {v : ν}
    (h : t.get? key = some v) : (key, v) ∈ t.entries := by
  obtain ⟨entries⟩ := t
  simp only [Table.get?] at h ⊢
  induction entries with
  | nil => simp [Table.find?] at h
  | cons entry rest ih => grind [Table.find?]

namespace Value.Inherited

variable {good : Value → Prop} (hg : Inherited good)
include hg

/-- An operator in front of a value makes a number or a boolean of it. -/
theorem unary {op : UnaryOp} {v w : Value} (h : op.apply v = .ok w) : good w := by
  unfold UnaryOp.apply at h
  split at h <;> cases h
  · exact hg.bool _
  · exact hg.int _

/-- An operator between two values makes a number, a boolean or a string of
them. -/
theorem binary {op : BinaryOp} {l r w : Value} (h : op.apply l r = .ok w) : good w := by
  unfold BinaryOp.apply at h
  split at h
  · unfold BinaryOp.applyInt at h
    split at h <;> first
      | (split at h <;> cases h <;> exact hg.int _)
      | (cases h; first | exact hg.int _ | exact hg.bool _)
  · unfold BinaryOp.applyString at h
    split at h <;> cases h <;> first | exact hg.string _ | exact hg.bool _
  · split at h
    · cases h
    · split at h <;> cases h <;> exact hg.bool _

/-- What an index finds was in the array or the hash, or it is null. -/
theorem index {l p w : Value} (hl : good l) (h : l.index p = .ok w) : good w := by
  unfold Value.index at h
  split at h
  · rename_i elements position
    cases h
    unfold Value.elementAt
    split
    · exact hg.null
    · rw [List.getD_eq_getElem?_getD]
      cases hv : elements[position.toInt.toNat]? with
      | none => exact hg.null
      | some v => exact hg.array hl v (List.mem_of_getElem? hv)
  · rename_i pairs
    split at h <;> cases h
    rename_i k _
    cases hv : pairs.get? k with
    | none => exact hg.null
    | some entry => exact (hg.hash hl _ (Table.exists_mem_of_get? hv)).2
  · cases h

/-- Taking a good array apart or making it longer. -/
theorem builtin_applyArray (b : Builtin) {elements others : List Value}
    (he : ∀ v ∈ elements, good v) (ho : ∀ v ∈ others, good v) :
    (b.applyArray elements others).All good := by
  cases b with
  | len => exact hg.int _
  | head =>
    cases elements with
    | nil => exact hg.null
    | cons first rest => exact he _ List.mem_cons_self
  | last =>
    change good (elements.getLastD .null)
    rw [List.getLastD_eq_getLast?]
    cases hlast : elements.getLast? with
    | none => exact hg.null
    | some v => exact he v (List.mem_of_getLast? hlast)
  | tail =>
    cases elements with
    | nil => exact hg.null
    | cons first rest => exact fun v hv => he v (List.mem_cons_of_mem _ hv)
  | append => exact List.forall_mem_append.mpr ⟨he, ho⟩

/-- What a builtin makes of good arguments. -/
theorem builtin_apply {b : Builtin} {arguments : List Value} {y : Yield}
    (ha : ∀ v ∈ arguments, good v) (h : b.apply arguments = .ok y) : y.All good := by
  unfold Builtin.apply at h
  split at h
  · cases h
  split at h
  · rename_i id elements others _
    cases h
    have he : ∀ v ∈ elements, good v := hg.array (ha _ List.mem_cons_self)
    exact hg.builtin_applyArray b he fun v hv => ha v (List.mem_cons_of_mem _ hv)
  · cases h
    exact hg.int _
  · cases h
  · cases h
  · cases h

end Value.Inherited

/-! ## Steps that keep an invariant -/

namespace Invariant

variable (I : Invariant)

/-- What an evaluation may stop with early: a `return` of a good value. -/
def unwind : Unwind → Prop
  | .returned v => I.value v
  | .failed _ => True

/-- An evaluation keeps the invariant, stopping early or not. -/
abbrev Kept {α : Type} (x : Eval Unwind α) (post : α → Prop) : Prop :=
  Eval.Keeps I.store x post I.unwind

/-- A call keeps the invariant, and comes to a good value if to any. -/
abbrev KeptByCall (x : Eval EvalError Value) : Prop :=
  Eval.Keeps I.store x I.value fun _ => True

/-- What applying a value does keeps the invariant, if the value and the
arguments are good. -/
def KeptBy (apply : Applier) : Prop :=
  ∀ f arguments, I.value f → (∀ v ∈ arguments, I.value v) → I.KeptByCall (apply f arguments)

variable {I} {ε : Type} {exit : ε → Prop}

theorem newIdentity_keeps :
    Eval.Keeps I.store (Eval.create Store.newIdentity) (fun _ => True) exit :=
  .create fun hs => ⟨I.newIdentity hs, trivial⟩

theorem newArray_keeps {elements : List Value} (h : ∀ v ∈ elements, I.value v) :
    Eval.Keeps I.store (Eval.newArray elements) I.value exit :=
  newIdentity_keeps.bind fun _ _ => .pure (I.hereditary.array.mpr h)

theorem newHash_keeps {entries : List (HashKey × (Value × Value))}
    (h : ∀ entry ∈ entries, I.value entry.2.1 ∧ I.value entry.2.2) :
    Eval.Keeps I.store (Eval.newHash (.ofList entries)) I.value exit := by
  have hentries : ∀ entry ∈ (Table.ofList entries).entries,
      I.value entry.2.1 ∧ I.value entry.2.2 :=
    fun entry he => h entry (Table.mem_of_mem_ofList he)
  exact newIdentity_keeps.bind fun _ _ => .pure (I.hereditary.hash.mpr hentries)

theorem newFunction_keeps {closure : Closure} :
    Eval.Keeps I.store (Eval.newFunction closure) I.value exit :=
  newIdentity_keeps.bind fun _ _ => .pure (I.hereditary.function _ _)

theorem bindName_keeps {scope : ScopeId} {name : String} {v : Value}
    (hw : I.writable scope name) (hv : I.value v) :
    Eval.Keeps I.store (Eval.bindName scope name v) (fun _ => True) exit :=
  .create fun hs => ⟨I.bind hs hw hv, trivial⟩

theorem bindNames_keeps {scope : ScopeId} (hw : ∀ name, I.writable scope name)
    {bindings : List (String × Value)} (hv : ∀ binding ∈ bindings, I.value binding.2) :
    Eval.Keeps I.store (Eval.bindNames scope bindings) (fun _ => True) exit := by
  induction bindings with
  | nil => exact .pure trivial
  | cons binding rest ih =>
    exact (bindName_keeps (hw _) (hv _ List.mem_cons_self)).bind fun _ _ =>
      ih fun b hb => hv b (List.mem_cons_of_mem _ hb)

/-- A name comes to something that is bound, or to a builtin. -/
theorem evalName_keeps {scope : ScopeId} {name : String} :
    I.Kept (evalName scope name) I.value := by
  have hask : I.Kept (Eval.ask (·.lookup scope name)) fun found =>
      ∀ v, found = some v → I.value v :=
    .ask fun hs v hv => I.lookup hs hv
  refine hask.bind fun found hfound => ?_
  split
  · exact .pure (hfound _ rfl)
  · exact .pure (I.hereditary.builtin _)
  · exact .stop trivial

theorem evalHashKey_keeps {key : Value} : I.Kept (evalHashKey key) fun _ => True := by
  unfold evalHashKey
  split
  · exact .pure trivial
  · exact .stop trivial

theorem orFail_keeps {α : Type} {post : α → Prop} {result : Except EvalError α}
    (h : ∀ a, result = .ok a → post a) : I.Kept (Eval.orFail result) post := by
  have hr : Eval.Keeps I.store (Eval.ofExcept result) post fun _ => True :=
    .ofExcept h fun _ _ => trivial
  exact hr.mapReason fun _ _ => trivial

end Invariant

/-! ## Once over the tree -/

section Tree

variable {I : Invariant} {apply : Applier} {scope : ScopeId}

mutual

/-- **An expression keeps the invariant**, if its `let`s bind where they
may. The bodies of functions are left to the calls. -/
theorem Expr.eval_keeps (ha : I.KeptBy apply) : ∀ e : Expr,
    (∀ name ∈ e.letNames, I.writable scope name) → I.Kept (e.eval apply scope) I.value
  | .int n, _ => by
    rw [Expr.eval]
    exact .pure (I.hereditary.int n)
  | .bool b, _ => by
    rw [Expr.eval]
    exact .pure (I.hereditary.bool b)
  | .string text, _ => by
    rw [Expr.eval]
    exact .pure (I.hereditary.string text)
  | .ident name, _ => by
    rw [Expr.eval]
    exact Invariant.evalName_keeps
  | .array elements, h => by
    rw [Expr.letNames] at h
    rw [Expr.eval]
    exact (Expr.evalAll_keeps ha elements h).bind fun _ => Invariant.newArray_keeps
  | .hash pairs, h => by
    rw [Expr.letNames] at h
    rw [Expr.eval]
    exact (Expr.evalPairs_keeps ha pairs h).bind fun _ => Invariant.newHash_keeps
  | .unary op operand, h => by
    rw [Expr.letNames] at h
    rw [Expr.eval]
    exact (Expr.eval_keeps ha operand h).bind fun _ _ =>
      Invariant.orFail_keeps fun _ => I.hereditary.inherited.unary
  | .binary op left right, h => by
    simp only [Expr.letNames, List.forall_mem_append] at h
    rw [Expr.eval]
    have hleft := Expr.eval_keeps ha left h.1
    have hright := Expr.eval_keeps ha right h.2
    refine hleft.bind fun l _ => hright.bind fun r _ => ?_
    exact Invariant.orFail_keeps fun _ => I.hereditary.inherited.binary
  | .cond condition consequence none, h => by
    simp only [Expr.letNames, List.forall_mem_append] at h
    rw [Expr.eval]
    have hcondition := Expr.eval_keeps ha condition h.1
    refine hcondition.bind fun v _ => ?_
    split
    · exact Stmt.evalAll_keeps ha consequence h.2 I.hereditary.null
    · exact .pure I.hereditary.null
  | .cond condition consequence (some alternative), h => by
    simp only [Expr.letNames, List.forall_mem_append] at h
    rw [Expr.eval]
    have hcondition := Expr.eval_keeps ha condition h.1.1
    refine hcondition.bind fun v _ => ?_
    split
    · exact Stmt.evalAll_keeps ha consequence h.1.2 I.hereditary.null
    · exact Stmt.evalAll_keeps ha alternative h.2 I.hereditary.null
  | .function parameters body, _ => by
    rw [Expr.eval]
    exact Invariant.newFunction_keeps
  | .call callee arguments, h => by
    simp only [Expr.letNames, List.forall_mem_append] at h
    rw [Expr.eval]
    have hcallee := Expr.eval_keeps ha callee h.1
    have harguments := Expr.evalAll_keeps ha arguments h.2
    refine hcallee.bind fun f hf => harguments.bind fun values hvalues => ?_
    -- an error of the call goes on as one; a `return` does not come out of it
    exact (ha f values hf hvalues).mapReason fun _ _ => trivial
  | .index left position, h => by
    simp only [Expr.letNames, List.forall_mem_append] at h
    rw [Expr.eval]
    have hleft := Expr.eval_keeps ha left h.1
    have hposition := Expr.eval_keeps ha position h.2
    refine hleft.bind fun l hl => hposition.bind fun p _ => ?_
    exact Invariant.orFail_keeps fun _ => I.hereditary.inherited.index hl

theorem Expr.evalAll_keeps (ha : I.KeptBy apply) : ∀ es : List Expr,
    (∀ name ∈ Expr.letNamesAll es, I.writable scope name) →
    I.Kept (Expr.evalAll apply scope es) fun values => ∀ v ∈ values, I.value v
  | [], _ => by
    rw [Expr.evalAll]
    exact .pure nofun
  | e :: es, h => by
    simp only [Expr.letNamesAll, List.forall_mem_append] at h
    rw [Expr.evalAll]
    have hfirst := Expr.eval_keeps ha e h.1
    have hrest := Expr.evalAll_keeps ha es h.2
    refine hfirst.bind fun v hv => hrest.bind fun vs hvs => ?_
    exact .pure (List.forall_mem_cons.mpr ⟨hv, hvs⟩)

theorem Expr.evalPairs_keeps (ha : I.KeptBy apply) : ∀ pairs : List (Expr × Expr),
    (∀ name ∈ Expr.letNamesPairs pairs, I.writable scope name) →
    I.Kept (Expr.evalPairs apply scope pairs) fun entries =>
      ∀ entry ∈ entries, I.value entry.2.1 ∧ I.value entry.2.2
  | [], _ => by
    rw [Expr.evalPairs]
    exact .pure nofun
  | (key, value) :: pairs, h => by
    simp only [Expr.letNamesPairs, List.forall_mem_append] at h
    rw [Expr.evalPairs]
    have hkey := Expr.eval_keeps ha key h.1.1
    have hvalue := Expr.eval_keeps ha value h.1.2
    have hrest := Expr.evalPairs_keeps ha pairs h.2
    refine hkey.bind fun k hk => Invariant.evalHashKey_keeps.bind fun content _ => ?_
    refine hvalue.bind fun v hv => hrest.bind fun entries hentries => ?_
    exact .pure (List.forall_mem_cons.mpr ⟨⟨hk, hv⟩, hentries⟩)

theorem Stmt.eval_keeps (ha : I.KeptBy apply) : ∀ st : Stmt,
    (∀ name ∈ st.letNames, I.writable scope name) → I.Kept (st.eval apply scope) I.value
  | .bind name value, h => by
    simp only [Stmt.letNames, List.forall_mem_append, List.forall_mem_singleton] at h
    rw [Stmt.eval]
    have hvalue := Expr.eval_keeps ha value h.1
    refine hvalue.bind fun v hv => ?_
    exact (Invariant.bindName_keeps h.2 hv).bind fun _ _ => .pure I.hereditary.null
  | .ret value, h => by
    rw [Stmt.letNames] at h
    rw [Stmt.eval]
    exact (Expr.eval_keeps ha value h).bind fun v hv => .stop hv
  | .expr value, h => by
    rw [Stmt.letNames] at h
    rw [Stmt.eval]
    exact Expr.eval_keeps ha value h
  | .block body, h => by
    rw [Stmt.letNames] at h
    rw [Stmt.eval]
    exact Stmt.evalAll_keeps ha body h I.hereditary.null

/-- **And so do statements one after the other.** -/
theorem Stmt.evalAll_keeps (ha : I.KeptBy apply) : ∀ (body : List Stmt) {last : Value},
    (∀ name ∈ Stmt.letNamesAll body, I.writable scope name) → I.value last →
    I.Kept (Stmt.evalAll apply scope last body) I.value
  | [], _, _, hlast => by
    rw [Stmt.evalAll]
    exact .pure hlast
  | st :: rest, _, h, _ => by
    simp only [Stmt.letNamesAll, List.forall_mem_append] at h
    rw [Stmt.evalAll]
    exact (Stmt.eval_keeps ha st h.1).bind fun v hv => Stmt.evalAll_keeps ha rest h.2 hv

end

end Tree

/-! ## Once over the depth of calls -/

section Calls

variable {I : Invariant}

/-- In the scope that a call makes any name may be bound. -/
theorem Closure.call_keeps {run : ScopeId → List Stmt → Eval Unwind Value} {closure : Closure}
    {arguments : List Value} (hv : ∀ v ∈ arguments, I.value v)
    (hrun : ∀ scope body, (∀ name, I.writable scope name) → I.Kept (run scope body) I.value) :
    I.KeptByCall (closure.call run arguments) := by
  unfold Closure.call
  split
  · exact .stop trivial
  · have hscope : Eval.Keeps I.store (Eval.create (·.newScope (some closure.scope)))
        (fun scope => ∀ name, I.writable scope name) fun (_ : EvalError) => True :=
      .create I.newScope
    have hbindings : ∀ binding ∈ closure.parameters.zip arguments, I.value binding.2 :=
      fun binding hb => hv _ (List.of_mem_zip hb).2
    refine hscope.bind fun scope hw => ?_
    refine (Invariant.bindNames_keeps hw hbindings).bind fun _ _ => ?_
    exact (hrun scope closure.body hw).atCall (fun _ h => h) fun _ _ => trivial

theorem Builtin.call_keeps {b : Builtin} {arguments : List Value}
    (hv : ∀ v ∈ arguments, I.value v) : I.KeptByCall (b.call arguments) := by
  have happly : Eval.Keeps I.store (Eval.ofExcept (b.apply arguments)) (·.All I.value)
      fun _ => True :=
    .ofExcept (fun _ => I.hereditary.inherited.builtin_apply hv) fun _ _ => trivial
  refine happly.bind fun y hy => ?_
  cases y with
  | known v => exact .pure hy
  | newArray elements => exact Invariant.newArray_keeps hy

/-- Applying a value keeps the invariant if running bodies does. -/
theorem Value.applyWith_keeps {run : ScopeId → List Stmt → Eval Unwind Value}
    (hrun : ∀ scope body, (∀ name, I.writable scope name) → I.Kept (run scope body) I.value) :
    I.KeptBy (Value.applyWith run) := by
  intro f arguments _ hv
  unfold Value.applyWith
  split
  · exact Closure.call_keeps hv hrun
  · exact Builtin.call_keeps hv
  · exact .stop trivial

/-- The body of a function runs in a scope made for it, where any name
may be bound. -/
theorem runBody_keeps (depth : Nat) : ∀ scope body, (∀ name, I.writable scope name) →
    I.Kept (runBody depth scope body) I.value := by
  -- a call in the body has one call less to go
  induction depth with
  | zero => exact fun _ _ _ => .exhausted
  | succ depth ih =>
    intro scope body hw
    rw [runBody]
    exact Stmt.evalAll_keeps (Value.applyWith_keeps ih) body (fun name _ => hw name)
      I.hereditary.null

/-- **Applying a value keeps every invariant.** -/
theorem Value.apply_keeps (I : Invariant) (depth : Nat) : I.KeptBy (Value.apply depth) :=
  Value.applyWith_keeps (runBody_keeps depth)

/-- **Running a node keeps every invariant** that lets its own `let`s
bind in its scope. What comes out is a good value, a pending `return` of
one from a lone statement or expression, or an error. -/
theorem Node.run_keeps (I : Invariant) {depth : Nat} {node : Node} {scope : ScopeId}
    {s s' : Store} {v : Value} (hw : ∀ name ∈ node.letNames, I.writable scope name) (hs : I.store s)
    (h : node.run depth scope s = some (v, s')) :
    I.store s' ∧ (I.value v ∨ (∃ message, v = .error message) ∨
      (∀ p, node ≠ .program p) ∧ ∃ w, I.value w ∧ v = .returned w) := by
  have ha : I.KeptBy (Value.apply depth) := Value.apply_keeps I depth
  have hunwind : ∀ {v}, (∃ e, I.unwind e ∧ v = e.toValue) →
      (∃ message, v = .error message) ∨ ∃ w, I.value w ∧ v = .returned w := by
    rintro v ⟨e | e, he, rfl⟩
    · exact .inr ⟨e, he, rfl⟩
    · exact .inl ⟨e.message, rfl⟩
  cases node with
  | program p =>
    -- a program takes a pending `return` for its value, as a call does
    have hp : I.KeptByCall (Stmt.evalAll (Value.apply depth) scope .null p.statements).atCall :=
      (Stmt.evalAll_keeps ha p.statements hw I.hereditary.null).atCall (fun _ h => h)
        fun _ _ => trivial
    obtain ⟨hs', hv | ⟨e, -, rfl⟩⟩ := hp.settle hs h
    · exact ⟨hs', .inl hv⟩
    · exact ⟨hs', .inr (.inl ⟨e.message, rfl⟩)⟩
  | statement st =>
    obtain ⟨hs', hv | he⟩ := (Stmt.eval_keeps ha st hw).settle hs h
    · exact ⟨hs', .inl hv⟩
    · exact ⟨hs', .inr ((hunwind he).imp id fun hr => ⟨nofun, hr⟩)⟩
  | expression e =>
    obtain ⟨hs', hv | he⟩ := (Expr.eval_keeps ha e hw).settle hs h
    · exact ⟨hs', .inl hv⟩
    · exact ⟨hs', .inr ((hunwind he).imp id fun hr => ⟨nofun, hr⟩)⟩

end Calls

end MonkeyLang
