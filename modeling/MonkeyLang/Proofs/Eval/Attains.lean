import MonkeyLang.Proofs.Eval.Frame
import MonkeyLang.Proofs.Machine.Agreement
/-!
# Evaluations that go through

To show of a program that it comes to a certain value, one has to follow it
through the stores that it makes on its way, with scopes that nobody looks
at again. `Eval.Attains` says that an evaluation comes to a good value in a
store and in whatever extends it, so that what is known of a store remains
known in the later ones. There is one rule for each way of putting
evaluations together and one for each kind of expression, down to calls
(`Value.apply_attains`).

What an evaluation sees of the scopes is what it looks up. `Store.Knows`
gives the answers of a scope to all names at once, as a function; binding a
name changes the function in one place.
-/

namespace MonkeyLang

/-! ## What look-ups depend on -/

namespace Store

variable {s s' s'' : Store} {id scope outer : ScopeId} {name : String} {v : Value}

theorem Extends.trans (h : s.Extends s') (h' : s'.Extends s'') : s.Extends s'' :=
  fun id sc hsc => h' id sc (h id sc hsc)

/-- Scopes are made one after the other: below one that is there, all are. -/
theorem isSome_scope?_of_le (h : (s.scope? id).isSome) (hle : outer.index ≤ id.index) :
    (s.scope? outer).isSome := by
  rw [scope?, isSome_getElem?] at h ⊢
  omega

/-- What a scope answers is what it binds itself, or else what the scope
around it answers. -/
theorem lookup_eq_of_scope? {sc : Scope} (h : s.scope? id = some sc) :
    s.lookup id name = (sc.bindings.get? name).or (sc.outer.bind fun outer =>
      if outer.index < id.index then s.lookup outer name else none) := by
  rw [lookup, h]
  cases hget : sc.bindings.get? name with
  | some v => simp only [hget, Option.some_or]
  | none =>
    cases houter : sc.outer with
    | none => simp only [hget, houter, Option.none_or, Option.bind_none]
    | some outer => simp only [hget, houter, Option.none_or, Option.bind_some]

/-- A look-up asks no scope that is younger than the one it starts from. -/
theorem lookup_congr (h : ∀ older : ScopeId, older.index ≤ id.index →
    s'.scope? older = s.scope? older) : s'.lookup id name = s.lookup id name := by
  induction hn : id.index using Nat.strongRecOn generalizing id with | _ n ih
  cases hsc : s.scope? id with
  | none =>
    have hsc' : s'.scope? id = none := (h id le_rfl).trans hsc
    rw [lookup, hsc', lookup, hsc]
  | some sc =>
    have hsc' : s'.scope? id = some sc := (h id le_rfl).trans hsc
    rw [lookup_eq_of_scope? hsc, lookup_eq_of_scope? hsc']
    cases sc.outer with
    | none => rfl
    | some outer =>
      simp only [Option.bind_some]
      split
      · next hlt =>
        have holder : s'.lookup outer name = s.lookup outer name :=
          ih _ (hn ▸ hlt) (fun older hle => h older (by omega)) rfl
        rw [holder]
      · rfl

/-- A scope that is there answers the same when others are made. -/
theorem Extends.lookup_eq (h : s.Extends s') (hid : (s.scope? id).isSome) :
    s'.lookup id name = s.lookup id name := by
  refine lookup_congr fun older hle => ?_
  obtain ⟨sc, hsc⟩ := Option.isSome_iff_exists.1 (isSome_scope?_of_le hid hle)
  rw [hsc, h older sc hsc]

/-- A scope that binds a name answers with what it binds, and to other
names as before. -/
theorem lookup_bind (hid : (s.scope? id).isSome) (k : String) :
    (s.bind id name v).lookup id k = if k = name then some v else s.lookup id k := by
  obtain ⟨sc, hsc⟩ := Option.isSome_iff_exists.1 hid
  have hsc' : (s.bind id name v).scope? id = some (sc.bind name v) := by
    rw [scope?_bind, if_pos rfl, hsc]
    rfl
  have holder : ∀ outer : ScopeId, outer.index < id.index →
      (s.bind id name v).lookup outer k = s.lookup outer k := by
    intro outer hlt
    refine lookup_congr fun older hle => ?_
    have hne : older ≠ id := by
      rintro rfl
      omega
    rw [scope?_bind, if_neg hne]
  rw [lookup_eq_of_scope? hsc, lookup_eq_of_scope? hsc', Scope.bind, Table.get?_insert]
  split
  · rfl
  · cases sc.outer with
    | none => rfl
    | some outer =>
      simp only [Option.bind_some]
      split
      · next hlt => rw [holder outer hlt]
      · rfl

/-- A scope that was just made answers what the scope around it answers. -/
theorem lookup_newScope (hid : (s.scope? id).isSome) :
    (s.newScope (some id)).2.lookup (s.newScope (some id)).1 name = s.lookup id name := by
  have hnew : (s.newScope (some id)).2.scope? (s.newScope (some id)).1 =
      some ⟨.empty, some id⟩ := by
    rw [scope?_newScope, if_pos rfl]
  have hlt : id.index < (s.newScope (some id)).1.index := by
    rwa [scope?, isSome_getElem?] at hid
  have hbefore : (s.newScope (some id)).2.lookup id name = s.lookup id name :=
    ((Extends.refl s).newScope _).lookup_eq hid
  rw [lookup_eq_of_scope? hnew]
  simp only [Option.bind_some, if_pos hlt, hbefore]
  rfl

end Store

/-! ## What a scope knows -/

/-- The answers to all names. -/
abbrev Names := String → Option Value

namespace Names

/-- Nothing is bound. -/
def empty : Names := fun _ => none

/-- One name is bound, or bound anew. -/
def set (names : Names) (name : String) (v : Value) : Names :=
  fun k => if k = name then some v else names k

@[simp] theorem set_apply (names : Names) (name k : String) (v : Value) :
    names.set name v k = if k = name then some v else names k := rfl

theorem set_self {names : Names} {name : String} {v : Value} :
    names.set name v name = some v := if_pos rfl

theorem set_of_ne {names : Names} {name k : String} {v : Value} (h : k ≠ name) :
    names.set name v k = names k := if_neg h

/-- Some names are bound, one after the other. -/
def setAll (names : Names) (bindings : List (String × Value)) : Names :=
  bindings.foldl (fun names binding => names.set binding.1 binding.2) names

end Names

namespace Store

variable {s s' : Store} {scope : ScopeId} {names : Names}

/-- A scope is there, and these are its answers. -/
structure Knows (s : Store) (scope : ScopeId) (names : Names) : Prop where
  isSome : (s.scope? scope).isSome
  lookup : ∀ name, s.lookup scope name = names name

namespace Knows

/-- Scopes that are there answer the same in every later store. -/
theorem mono (h : s.Knows scope names) (hs : s.Extends s') : s'.Knows scope names where
  isSome := by
    obtain ⟨sc, hsc⟩ := Option.isSome_iff_exists.1 h.isSome
    rw [hs scope sc hsc]
    rfl
  lookup name := (hs.lookup_eq h.isSome).trans (h.lookup name)

/-- Binding a name changes one answer. -/
theorem bind (h : s.Knows scope names) (name : String) (v : Value) :
    (s.bind scope name v).Knows scope (names.set name v) where
  isSome := isSome_scope?_bind.trans h.isSome
  lookup k := by rw [lookup_bind h.isSome, h.lookup, Names.set_apply]

theorem bindAll (h : s.Knows scope names) (bindings : List (String × Value)) :
    (s.bindAll scope bindings).Knows scope (names.setAll bindings) := by
  induction bindings generalizing s names with
  | nil => exact h
  | cons binding rest ih => exact ih (h.bind binding.1 binding.2)

theorem ask {ε : Type} (h : s.Knows scope names) (name : String) :
    (Eval.ask (·.lookup scope name) : Eval ε (Option Value)) s = some (.ok (names name), s) := by
  rw [← h.lookup name]
  rfl

/-- What is known inside a scope that was just made. -/
theorem newScope (h : s.Knows scope names) :
    (s.newScope (some scope)).2.Knows (s.newScope (some scope)).1 names where
  isSome := isSome_scope?_newScope (.inl rfl)
  lookup name := (lookup_newScope h.isSome).trans (h.lookup name)

/-- Nothing is known in a scope that was just made on its own. -/
theorem newScope_none (s : Store) :
    (s.newScope none).2.Knows (s.newScope none).1 .empty where
  isSome := isSome_scope?_newScope (.inl rfl)
  lookup name := by
    have hnew : (s.newScope none).2.scope? (s.newScope none).1 = some ⟨.empty, none⟩ := by
      rw [scope?_newScope, if_pos rfl]
    rw [lookup_eq_of_scope? hnew]
    rfl

end Knows

/-- Names that are bound in a scope made later leave the earlier ones. -/
theorem Extends.bindAll {id : ScopeId} (h : s.Extends s') (hnew : s.scope? id = none)
    (bindings : List (String × Value)) : s.Extends (s'.bindAll id bindings) := by
  induction bindings generalizing s' with
  | nil => exact h
  | cons binding rest ih => exact ih (h.bind hnew binding.1 binding.2)

end Store

/-! ## Attaining a value -/

namespace Eval

variable {ε ε' α β : Type} {s s' : Store}

/-- In every store that extends the given one, the evaluation comes to a good
value, and extends the store. -/
def Attains (x : Eval ε α) (s : Store) (good : α → Prop) : Prop :=
  ∀ t, s.Extends t → ∃ a t', x t = some (.ok a, t') ∧ t.Extends t' ∧ good a

namespace Attains

variable {good : α → Prop} {good' : β → Prop}

theorem mono {x : Eval ε α} (h : x.Attains s good) (hs : s.Extends s') : x.Attains s' good :=
  fun t ht => h t (hs.trans ht)

theorem imp {good' : α → Prop} {x : Eval ε α} (h : x.Attains s good)
    (himp : ∀ a, good a → good' a) : x.Attains s good' := by
  intro t ht
  obtain ⟨a, t', hxt, ht', ha⟩ := h t ht
  exact ⟨a, t', hxt, ht', himp a ha⟩

theorem pure {a : α} (h : good a) : (pure a : Eval ε α).Attains s good :=
  fun t _ => ⟨a, t, rfl, .refl t, h⟩

/-- One evaluation after the other: the second one starts in a store that
extends the first one's. -/
theorem bind {x : Eval ε α} {f : α → Eval ε β} (hx : x.Attains s good)
    (hf : ∀ a, good a → (f a).Attains s good') : (x >>= f).Attains s good' := by
  intro t ht
  obtain ⟨a, t₁, hxt, ht₁, ha⟩ := hx t ht
  obtain ⟨b, t₂, hft, ht₂, hb⟩ := hf a ha t₁ (ht.trans ht₁)
  exact ⟨b, t₂, (Eval.bind_of_ok hxt).trans hft, ht₁.trans ht₂, hb⟩

theorem mapReason {x : Eval ε α} {f : ε → ε'} (hx : x.Attains s good) :
    (x.mapReason f).Attains s good := by
  intro t ht
  obtain ⟨a, t', hxt, ht', ha⟩ := hx t ht
  refine ⟨a, t', ?_, ht', ha⟩
  unfold Eval.mapReason
  rw [hxt]

theorem newIdentity : (create Store.newIdentity : Eval ε Identity).Attains s fun _ => True :=
  fun _ _ => ⟨_, _, rfl, fun _ _ h => h, trivial⟩

theorem newArray {elements : List Value} :
    (newArray elements : Eval ε Value).Attains s fun v => ∃ id, v = .array id elements :=
  newIdentity.bind fun id _ => .pure ⟨id, rfl⟩

theorem newFunction {closure : Closure} :
    (newFunction closure : Eval ε Value).Attains s fun v => ∃ id, v = .function id closure :=
  newIdentity.bind fun id _ => .pure ⟨id, rfl⟩

end Attains

end Eval

/-! ## Expressions -/

section Expressions

variable {apply : Applier} {scope : ScopeId} {s : Store} {names : Names} {f u v w : Value}
  {good good' : Value → Prop}

namespace Expr

theorem int_attains {n : Int64} :
    ((Expr.int n).eval apply scope).Attains s (· = .int n) := by
  rw [Expr.eval]
  exact .pure rfl

theorem function_attains {parameters : List String} {body : List Stmt} :
    ((Expr.function parameters body).eval apply scope).Attains s
      fun v => ∃ id, v = .function id ⟨parameters, body, scope⟩ := by
  rw [Expr.eval]
  exact .newFunction

/-- A name comes to what the scope is known to answer. -/
theorem ident_attains {name : String} (h : s.Knows scope names) (hname : names name = some v) :
    ((Expr.ident name).eval apply scope).Attains s (· = v) := by
  intro t ht
  have hask := (h.mono ht).ask (ε := Unwind) name
  rw [hname] at hask
  rw [Expr.eval]
  exact ⟨v, t, Eval.bind_of_ok hask, .refl t, rfl⟩

/-- A name that nothing binds may be a builtin. -/
theorem ident_attains_builtin {name : String} {b : Builtin} (h : s.Knows scope names)
    (hname : names name = none) (hb : Builtin.ofName? name = some b) :
    ((Expr.ident name).eval apply scope).Attains s (· = .builtin b) := by
  intro t ht
  have hask := (h.mono ht).ask (ε := Unwind) name
  rw [hname] at hask
  rw [Expr.eval]
  refine ⟨.builtin b, t, (Eval.bind_of_ok hask).trans ?_, .refl t, rfl⟩
  rw [hb]
  rfl

/-- An operator comes to what it makes of the values of its operands. -/
theorem binary_attains {op : BinaryOp} {left right : Expr}
    (hl : (left.eval apply scope).Attains s (· = v))
    (hr : (right.eval apply scope).Attains s (· = w)) (h : op.apply v w = .ok u) :
    ((Expr.binary op left right).eval apply scope).Attains s (· = u) := by
  rw [Expr.eval]
  refine hl.bind ?_
  rintro _ rfl
  refine hr.bind ?_
  rintro _ rfl
  rw [h]
  exact .mapReason (.pure rfl)

theorem evalAll_attains_nil : (Expr.evalAll apply scope []).Attains s (· = []) := by
  rw [Expr.evalAll]
  exact .pure rfl

theorem evalAll_attains_cons {e : Expr} {es : List Expr} {goods : List Value → Prop}
    (he : (e.eval apply scope).Attains s good)
    (hes : (Expr.evalAll apply scope es).Attains s goods) :
    (Expr.evalAll apply scope (e :: es)).Attains s
      fun vs => ∃ v ws, vs = v :: ws ∧ good v ∧ goods ws := by
  rw [Expr.evalAll]
  exact he.bind fun v hv => hes.bind fun ws hws => .pure ⟨v, ws, rfl, hv, hws⟩

theorem evalAll_attains_one {e : Expr} (he : (e.eval apply scope).Attains s good) :
    (Expr.evalAll apply scope [e]).Attains s fun vs => ∃ v, vs = [v] ∧ good v := by
  refine (evalAll_attains_cons he evalAll_attains_nil).imp ?_
  rintro _ ⟨v, _, rfl, hv, rfl⟩
  exact ⟨v, rfl, hv⟩

theorem evalAll_attains_two {e e' : Expr} (he : (e.eval apply scope).Attains s good)
    (he' : (e'.eval apply scope).Attains s good') :
    (Expr.evalAll apply scope [e, e']).Attains s
      fun vs => ∃ v w, vs = [v, w] ∧ good v ∧ good' w := by
  refine (evalAll_attains_cons he (evalAll_attains_one he')).imp ?_
  rintro _ ⟨v, _, rfl, hv, w, rfl, hw⟩
  exact ⟨v, w, rfl, hv, hw⟩

theorem array_attains {es : List Expr} {goods : List Value → Prop}
    (hes : (Expr.evalAll apply scope es).Attains s goods) :
    ((Expr.array es).eval apply scope).Attains s
      fun v => ∃ id elements, v = .array id elements ∧ goods elements := by
  rw [Expr.eval]
  refine hes.bind fun vs hvs => Eval.Attains.newArray.imp ?_
  rintro _ ⟨id, rfl⟩
  exact ⟨id, vs, rfl, hvs⟩

/-- A call comes to what applying its callee to its arguments does. -/
theorem call_attains {callee : Expr} {es : List Expr} {goods : List Value → Prop}
    (hcallee : (callee.eval apply scope).Attains s (· = f))
    (hes : (Expr.evalAll apply scope es).Attains s goods)
    (h : ∀ vs, goods vs → (apply f vs).Attains s good) :
    ((Expr.call callee es).eval apply scope).Attains s good := by
  rw [Expr.eval]
  refine hcallee.bind ?_
  rintro _ rfl
  exact hes.bind fun vs hvs => (h vs hvs).mapReason

theorem call_attains_one {callee e : Expr}
    (hcallee : (callee.eval apply scope).Attains s (· = f))
    (he : (e.eval apply scope).Attains s good)
    (h : ∀ v, good v → (apply f [v]).Attains s good') :
    ((Expr.call callee [e]).eval apply scope).Attains s good' := by
  refine call_attains hcallee (evalAll_attains_one he) ?_
  rintro _ ⟨v, rfl, hv⟩
  exact h v hv

theorem call_attains_two {callee e e' : Expr} {goodLast : Value → Prop}
    (hcallee : (callee.eval apply scope).Attains s (· = f))
    (he : (e.eval apply scope).Attains s good) (he' : (e'.eval apply scope).Attains s good')
    (h : ∀ v w, good v → good' w → (apply f [v, w]).Attains s goodLast) :
    ((Expr.call callee [e, e']).eval apply scope).Attains s goodLast := by
  refine call_attains hcallee (evalAll_attains_two he he') ?_
  rintro _ ⟨v, w, rfl, hv, hw⟩
  exact h v w hv hw

/-- The block of one expression comes to what the expression comes to. -/
theorem block_attains {e : Expr} {last : Value}
    (h : (e.eval apply scope).Attains s good) :
    (Stmt.evalAll apply scope last [.expr e]).Attains s good := by
  rw [Stmt.evalAll, Stmt.eval]
  refine h.bind fun v hv => ?_
  rw [Stmt.evalAll]
  exact .pure hv

/-- A conditional comes to what the block does that is taken. -/
theorem cond_attains {c e e' : Expr}
    (hc : (c.eval apply scope).Attains s (· = v))
    (hthen : v.isTruthy = true → (e.eval apply scope).Attains s good)
    (helse : v.isTruthy = false → (e'.eval apply scope).Attains s good) :
    ((Expr.cond c [.expr e] (some [.expr e'])).eval apply scope).Attains s good := by
  rw [Expr.eval]
  refine hc.bind ?_
  rintro _ rfl
  split
  · next htrue => exact block_attains (hthen htrue)
  · next hfalse => exact block_attains (helse (Bool.not_eq_true _ ▸ hfalse))

end Expr

end Expressions

/-! ## Calls -/

section Calls

variable {s : Store} {names : Names} {depth : Nat}

theorem Builtin.apply_attains {b : Builtin} {arguments : List Value} {v : Value}
    (h : b.apply arguments = .ok (.known v)) :
    (Value.apply depth (.builtin b) arguments).Attains s (· = v) := by
  intro t _
  refine ⟨v, t, ?_, .refl t, rfl⟩
  change b.call arguments t = _
  rw [Builtin.call, h]
  rfl

theorem Builtin.apply_attains_array {b : Builtin} {arguments elements : List Value}
    (h : b.apply arguments = .ok (.newArray elements)) :
    (Value.apply depth (.builtin b) arguments).Attains s fun v => ∃ id, v = .array id elements := by
  intro t _
  refine ⟨.array t.newIdentity.1 elements, t.newIdentity.2, ?_, fun _ _ h => h, _, rfl⟩
  change b.call arguments t = _
  rw [Builtin.call, h]
  rfl

/-- Statements come to a value and a store for which a condition holds. -/
def Stmt.Finishes (apply : Applier) (scope : ScopeId) (body : List Stmt) (s : Store)
    (post : Value → Store → Prop) : Prop :=
  ∃ v t, Stmt.evalAll apply scope .null body s = some (.ok v, t) ∧ post v t

/-- **A call attains what the body does**, in a new scope inside the one in
which the function was made, with its parameters bound. -/
theorem Value.apply_attains {id : Identity} {closure : Closure} {arguments : List Value}
    {good : Value → Prop} (h : s.Knows closure.scope names)
    (hlength : closure.parameters.length = arguments.length)
    (hbody : ∀ scope t, s.scope? scope = none → s.Extends t →
      t.Knows scope (names.setAll (closure.parameters.zip arguments)) →
      Stmt.Finishes (Value.apply depth) scope closure.body t fun v _ => good v) :
    (Value.apply (depth + 1) (.function id closure) arguments).Attains s good := by
  intro t ht
  let scope := (t.newScope (some closure.scope)).1
  let inner := (t.newScope (some closure.scope)).2.bindAll scope
    (closure.parameters.zip arguments)
  have hnew : t.scope? scope = none := Store.scope?_newScope_fst
  have hextends : t.Extends inner := ((Store.Extends.refl t).newScope _).bindAll hnew _
  have hfresh : s.scope? scope = none := ht.newScope_fst _
  have hknows : inner.Knows scope (names.setAll (closure.parameters.zip arguments)) :=
    (h.mono ht).newScope.bindAll _
  obtain ⟨v, t', hrun, hv⟩ := hbody scope inner hfresh (ht.trans hextends) hknows
  have hcall : Value.apply (depth + 1) (.function id closure) arguments t = some (.ok v, t') := by
    change closure.call (runBody (depth + 1)) arguments t = _
    unfold Closure.call
    rw [if_neg (not_not_intro hlength)]
    refine (Eval.bind_of_ok rfl).trans ((Eval.bind_of_ok (Machine.bindNames_eq _ _ _)).trans ?_)
    change (Stmt.evalAll (Value.apply depth) scope .null closure.body).atCall inner = _
    unfold Eval.atCall
    rw [hrun]
  exact ⟨v, t', hcall, Value.apply_extends hcall, hv⟩

namespace Stmt.Finishes

variable {scope : ScopeId} {rest : List Stmt} {post : Value → Store → Prop} {e : Expr}

theorem imp {apply : Applier} {body : List Stmt} {post' : Value → Store → Prop}
    (h : Stmt.Finishes apply scope body s post) (himp : ∀ v t, post v t → post' v t) :
    Stmt.Finishes apply scope body s post' := by
  obtain ⟨v, t, hrun, hpost⟩ := h
  exact ⟨v, t, hrun, himp v t hpost⟩

theorem of_expr {good : Value → Prop} (h : (e.eval (Value.apply depth) scope).Attains s good)
    (hpost : ∀ v t, s.Extends t → good v → post v t) :
    Stmt.Finishes (Value.apply depth) scope [.expr e] s post := by
  have hblock : (Stmt.evalAll (Value.apply depth) scope .null [.expr e]).Attains s good :=
    Expr.block_attains h
  obtain ⟨v, t, hrun, ht, hv⟩ := hblock s (.refl s)
  exact ⟨v, t, hrun, hpost v t ht hv⟩

/-- Behind a `let` its name is known. Scopes of an earlier store in which the
scope was not there stay as they are. -/
theorem of_bind {base : Store} {name : String} {good : Value → Prop}
    (hbase : base.Extends s) (hfresh : base.scope? scope = none) (h : s.Knows scope names)
    (he : (e.eval (Value.apply depth) scope).Attains s good)
    (hrest : ∀ v t, good v → base.Extends t → t.Knows scope (names.set name v) →
      Stmt.Finishes (Value.apply depth) scope rest t post) :
    Stmt.Finishes (Value.apply depth) scope (.bind name e :: rest) s post := by
  obtain ⟨v, t, hrun, ht, hv⟩ := he s (.refl s)
  have hextends : base.Extends (t.bind scope name v) := (hbase.trans ht).bind hfresh name v
  obtain ⟨w, t', hfinish, hpost⟩ := hrest v _ hv hextends ((h.mono ht).bind name v)
  refine ⟨w, t', ?_, hpost⟩
  have hbind : (Stmt.bind name e).eval (Value.apply depth) scope s =
      some (.ok .null, t.bind scope name v) := by
    rw [Stmt.eval]
    exact (Eval.bind_of_ok hrun).trans (Eval.bind_of_ok rfl)
  exact (Eval.bind_of_ok hbind).trans hfinish

end Stmt.Finishes

/-- A call of a function whose body is one expression. -/
theorem Value.apply_attains_expr {id : Identity} {scope : ScopeId} {parameters : List String}
    {e : Expr} {arguments : List Value} {good : Value → Prop} (h : s.Knows scope names)
    (hlength : parameters.length = arguments.length)
    (he : ∀ inner t, s.Extends t → t.Knows inner (names.setAll (parameters.zip arguments)) →
      (e.eval (Value.apply depth) inner).Attains t good) :
    (Value.apply (depth + 1) (.function id ⟨parameters, [.expr e], scope⟩) arguments).Attains s
      good := by
  refine Value.apply_attains h hlength fun inner t _ ht hknows => ?_
  exact Stmt.Finishes.of_expr (he inner t ht hknows) fun _ _ _ hv => hv

end Calls

end MonkeyLang
