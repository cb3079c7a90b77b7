import MonkeyLang.Proofs.Eval.Keeps
import MonkeyLang.Proofs.Machine.Agreement
/-!
# Stopping early

An evaluation that stops early stops all that is around it, and in the
store in which it stopped. Which parts of a phrase are evaluated, in which
order and in which store, is told by `Enters`, one rule for each place at
which a part may stand: what is evaluated before the part has come to a
value. Each rule passes a stop of the part on to the whole
(`Enters.stops`), and so does any nest of them (`Reaches.stops`). There is
no other way to stop early: some phrase in the nest raises the reason
itself (`Phrase.stops_iff`). At the end of a call a `return` turns into the
value of the call, and at the end of a program into that of the program; an
error stays what it is (`unwind_cuts_nest`).
-/

namespace MonkeyLang

/-- What an evaluation works on: an expression, expressions from left to
right, pairs of a hash, a statement, or statements behind some that have
come to a value. -/
inductive Phrase where
  | expr (e : Expr)
  | exprs (es : List Expr)
  | pairs (ps : List (Expr × Expr))
  | stmt (st : Stmt)
  | stmts (last : Value) (body : List Stmt)

section

variable (apply : Applier) (scope : ScopeId)

/-- The evaluation of a phrase stops early for a reason, and leaves a
store. -/
def Phrase.Stops (s : Store) (reason : Unwind) (t : Store) : Phrase → Prop
  | .expr e => e.eval apply scope s = some (.error reason, t)
  | .exprs es => Expr.evalAll apply scope es s = some (.error reason, t)
  | .pairs ps => Expr.evalPairs apply scope ps s = some (.error reason, t)
  | .stmt st => st.eval apply scope s = some (.error reason, t)
  | .stmts last body => Stmt.evalAll apply scope last body s = some (.error reason, t)

/-- The evaluation of a phrase comes to a part of it: what is evaluated before
the part has come to a value, and has left the store in which the part is
evaluated. -/
inductive Enters : Phrase → Store → Phrase → Store → Prop
  | elements {es : List Expr} {s : Store} : Enters (.expr (.array es)) s (.exprs es) s
  | entries {ps : List (Expr × Expr)} {s : Store} : Enters (.expr (.hash ps)) s (.pairs ps) s
  | operand {op : UnaryOp} {e : Expr} {s : Store} : Enters (.expr (.unary op e)) s (.expr e) s
  | left {op : BinaryOp} {l r : Expr} {s : Store} : Enters (.expr (.binary op l r)) s (.expr l) s
  | right {op : BinaryOp} {l r : Expr} {s t : Store} {v : Value}
    (hl : l.eval apply scope s = some (.ok v, t)) : Enters (.expr (.binary op l r)) s (.expr r) t
  | condition {c : Expr} {body : List Stmt} {alternative : Option (List Stmt)} {s : Store} :
    Enters (.expr (.cond c body alternative)) s (.expr c) s
  | consequence {c : Expr} {body : List Stmt} {alternative : Option (List Stmt)} {s t : Store}
    {v : Value} (hc : c.eval apply scope s = some (.ok v, t)) (hv : v.isTruthy = true) :
    Enters (.expr (.cond c body alternative)) s (.stmts .null body) t
  | alternative {c : Expr} {body alternative : List Stmt} {s t : Store} {v : Value}
    (hc : c.eval apply scope s = some (.ok v, t)) (hv : v.isTruthy = false) :
    Enters (.expr (.cond c body (some alternative))) s (.stmts .null alternative) t
  | callee {f : Expr} {es : List Expr} {s : Store} : Enters (.expr (.call f es)) s (.expr f) s
  | arguments {f : Expr} {es : List Expr} {s t : Store} {v : Value}
    (hf : f.eval apply scope s = some (.ok v, t)) : Enters (.expr (.call f es)) s (.exprs es) t
  | indexed {l i : Expr} {s : Store} : Enters (.expr (.index l i)) s (.expr l) s
  | position {l i : Expr} {s t : Store} {v : Value}
    (hl : l.eval apply scope s = some (.ok v, t)) : Enters (.expr (.index l i)) s (.expr i) t
  | first {e : Expr} {es : List Expr} {s : Store} : Enters (.exprs (e :: es)) s (.expr e) s
  | later {e : Expr} {es : List Expr} {s t : Store} {v : Value}
    (he : e.eval apply scope s = some (.ok v, t)) : Enters (.exprs (e :: es)) s (.exprs es) t
  | key {key value : Expr} {ps : List (Expr × Expr)} {s : Store} :
    Enters (.pairs ((key, value) :: ps)) s (.expr key) s
  /-- Behind a key that a hash can have. -/
  | value {key value : Expr} {ps : List (Expr × Expr)} {s t : Store} {v : Value} {k : HashKey}
    (hkey : key.eval apply scope s = some (.ok v, t)) (hk : v.hashKey? = some k) :
    Enters (.pairs ((key, value) :: ps)) s (.expr value) t
  | laterPairs {key value : Expr} {ps : List (Expr × Expr)} {s t t' : Store} {v w : Value}
    {k : HashKey} (hkey : key.eval apply scope s = some (.ok v, t)) (hk : v.hashKey? = some k)
    (hvalue : value.eval apply scope t = some (.ok w, t')) :
    Enters (.pairs ((key, value) :: ps)) s (.pairs ps) t'
  | bound {name : String} {e : Expr} {s : Store} : Enters (.stmt (.bind name e)) s (.expr e) s
  | returned {e : Expr} {s : Store} : Enters (.stmt (.ret e)) s (.expr e) s
  | expression {e : Expr} {s : Store} : Enters (.stmt (.expr e)) s (.expr e) s
  | block {body : List Stmt} {s : Store} : Enters (.stmt (.block body)) s (.stmts .null body) s
  | statement {last : Value} {st : Stmt} {body : List Stmt} {s : Store} :
    Enters (.stmts last (st :: body)) s (.stmt st) s
  | laterStatements {last : Value} {st : Stmt} {body : List Stmt} {s t : Store} {v : Value}
    (hst : st.eval apply scope s = some (.ok v, t)) :
    Enters (.stmts last (st :: body)) s (.stmts v body) t

/-- The evaluation of a phrase comes to a phrase that is nested in it, at any
depth. -/
inductive Reaches : Phrase → Store → Phrase → Store → Prop
  | here {p : Phrase} {s : Store} : Reaches p s p s
  | into {p q r : Phrase} {s t t' : Store} (h : Enters apply scope p s q t)
    (hrest : Reaches q t r t') : Reaches p s r t'

end

variable {apply : Applier} {scope : ScopeId} {p q : Phrase} {s t t' : Store} {reason : Unwind}

theorem evalHashKey_of_some {v : Value} {k : HashKey} (h : v.hashKey? = some k) :
    evalHashKey v s = some (.ok k, s) := by
  unfold evalHashKey
  rw [h]
  rfl

open Eval (bind_eq_error_iff bind_of_error bind_of_ok mapReason_eq_error_iff orFail_eq_error_iff)

/-- **A part that stops early stops the whole**, in the same store. -/
theorem Enters.stops (h : Enters apply scope p s q t) (hq : q.Stops apply scope t reason t') :
    p.Stops apply scope s reason t' := by
  cases h with
  | elements | entries | operand | left | callee | indexed => exact bind_of_error hq
  | right hl => exact (bind_of_ok hl).trans (bind_of_error hq)
  | @condition c body alternative => cases alternative <;> exact bind_of_error hq
  | @consequence c body alternative _ _ _ hc hv =>
    cases alternative <;> exact (bind_of_ok hc).trans ((if_pos hv).symm ▸ hq)
  | alternative hc hv =>
    have hne : ¬ _ = true := Bool.not_eq_true _ ▸ hv
    exact (bind_of_ok hc).trans ((if_neg hne).symm ▸ hq)
  | arguments hf => exact (bind_of_ok hf).trans (bind_of_error hq)
  | position hl => exact (bind_of_ok hl).trans (bind_of_error hq)
  | first | key | bound | returned | statement => exact bind_of_error hq
  | later he => exact (bind_of_ok he).trans (bind_of_error hq)
  | value hkey hk =>
    refine (bind_of_ok hkey).trans ?_
    exact (bind_of_ok (evalHashKey_of_some hk)).trans (bind_of_error hq)
  | laterPairs hkey hk hvalue =>
    refine (bind_of_ok hkey).trans ?_
    refine (bind_of_ok (evalHashKey_of_some hk)).trans ?_
    exact (bind_of_ok hvalue).trans (bind_of_error hq)
  | expression | block => exact hq
  | laterStatements hst => exact (bind_of_ok hst).trans hq

/-- **A phrase that stops early stops every nest around it.** -/
theorem Reaches.stops (h : Reaches apply scope p s q t) (hq : q.Stops apply scope t reason t') :
    p.Stops apply scope s reason t' := by
  induction h with
  | here => exact hq
  | into h _ ih => exact h.stops (ih hq)

/-! ## Where an unwind happens -/

/-- The evaluation of a phrase stops early although none of its parts does:
at a `return` with its value, at a name that is not bound, at an operator,
a call or an index that fails, or at a key that no hash can have. -/
inductive Raises (apply : Applier) (scope : ScopeId) : Phrase → Store → Unwind → Store → Prop
  | name {name : String} {s t : Store} {reason : Unwind}
    (h : evalName scope name s = some (.error reason, t)) :
    Raises apply scope (.expr (.ident name)) s reason t
  | unary {op : UnaryOp} {e : Expr} {s t : Store} {v : Value} {error : EvalError}
    (he : e.eval apply scope s = some (.ok v, t)) (h : op.apply v = .error error) :
    Raises apply scope (.expr (.unary op e)) s (.failed error) t
  | binary {op : BinaryOp} {l r : Expr} {s t t' : Store} {v w : Value} {error : EvalError}
    (hl : l.eval apply scope s = some (.ok v, t)) (hr : r.eval apply scope t = some (.ok w, t'))
    (h : op.apply v w = .error error) :
    Raises apply scope (.expr (.binary op l r)) s (.failed error) t'
  | call {f : Expr} {es : List Expr} {s t t' t'' : Store} {v : Value} {vs : List Value}
    {error : EvalError} (hf : f.eval apply scope s = some (.ok v, t))
    (hes : Expr.evalAll apply scope es t = some (.ok vs, t'))
    (h : apply v vs t' = some (.error error, t'')) :
    Raises apply scope (.expr (.call f es)) s (.failed error) t''
  | index {l i : Expr} {s t t' : Store} {v w : Value} {error : EvalError}
    (hl : l.eval apply scope s = some (.ok v, t)) (hi : i.eval apply scope t = some (.ok w, t'))
    (h : v.index w = .error error) : Raises apply scope (.expr (.index l i)) s (.failed error) t'
  | key {key value : Expr} {ps : List (Expr × Expr)} {s t : Store} {v : Value}
    (hkey : key.eval apply scope s = some (.ok v, t)) (hk : v.hashKey? = none) :
    Raises apply scope (.pairs ((key, value) :: ps)) s (.failed (.unhashable v.type)) t
  | returned {e : Expr} {s t : Store} {v : Value} (he : e.eval apply scope s = some (.ok v, t)) :
    Raises apply scope (.stmt (.ret e)) s (.returned v) t

theorem Raises.stops (h : Raises apply scope p s reason t) : p.Stops apply scope s reason t := by
  cases h with
  | name h => exact h
  | unary he h => exact (bind_of_ok he).trans (orFail_eq_error_iff.2 ⟨_, h, rfl, rfl⟩)
  | binary hl hr h =>
    refine (bind_of_ok hl).trans ((bind_of_ok hr).trans ?_)
    exact orFail_eq_error_iff.2 ⟨_, h, rfl, rfl⟩
  | call hf hes h =>
    refine (bind_of_ok hf).trans ((bind_of_ok hes).trans ?_)
    exact mapReason_eq_error_iff.2 ⟨_, h, rfl⟩
  | index hl hi h =>
    refine (bind_of_ok hl).trans ((bind_of_ok hi).trans ?_)
    exact orFail_eq_error_iff.2 ⟨_, h, rfl, rfl⟩
  | key hkey hk =>
    refine (bind_of_ok hkey).trans (bind_of_error ?_)
    rw [evalHashKey, hk]
    rfl
  | returned he => exact bind_of_ok he

/-- What accounts for a stop of a phrase: it raises the reason itself, or its
evaluation comes to a part that stops. -/
def Phrase.Explained (apply : Applier) (scope : ScopeId) (s : Store) (reason : Unwind) (t' : Store)
    (p : Phrase) : Prop :=
  Raises apply scope p s reason t' ∨
    ∃ q t, Enters apply scope p s q t ∧ q.Stops apply scope t reason t'

/-- A conditional stops in its condition or in the branch that is taken. -/
theorem Expr.explained_of_cond {c : Expr} {body : List Stmt} {alternative : Option (List Stmt)}
    (h : (Phrase.expr (.cond c body alternative)).Stops apply scope s reason t') :
    (Phrase.expr (.cond c body alternative)).Explained apply scope s reason t' := by
  -- Both forms, with an alternative and without, at once.
  have hcond : (c.eval apply scope >>= fun v =>
      if v.isTruthy then Stmt.evalAll apply scope .null body
      else alternative.elim (pure .null) (Stmt.evalAll apply scope .null)) s =
        some (.error reason, t') := by
    cases alternative <;> exact h
  obtain h | ⟨v, t, hc, h⟩ := bind_eq_error_iff.1 hcond
  · exact .inr ⟨_, _, .condition, h⟩
  split at h
  · next hv => exact .inr ⟨_, _, .consequence hc hv, h⟩
  · next hv =>
    cases alternative with
    | none => cases h
    | some alternative => exact .inr ⟨_, _, .alternative hc (Bool.not_eq_true _ ▸ hv), h⟩

/-- A call stops in the callee, in the arguments or of itself. -/
theorem Expr.explained_of_call {f : Expr} {es : List Expr}
    (h : (Phrase.expr (.call f es)).Stops apply scope s reason t') :
    (Phrase.expr (.call f es)).Explained apply scope s reason t' := by
  obtain h | ⟨v, t, hf, h⟩ := bind_eq_error_iff.1 h
  · exact .inr ⟨_, _, .callee, h⟩
  obtain h | ⟨vs, t, hes, h⟩ := bind_eq_error_iff.1 h
  · exact .inr ⟨_, _, .arguments hf, h⟩
  · obtain ⟨error, herror, rfl⟩ := mapReason_eq_error_iff.1 h
    exact .inl (.call hf hes herror)

/-- Operators and indices stop in an operand or of themselves, and the other
expressions where their parts do. -/
theorem Expr.explained_of_stops {e : Expr} (h : (Phrase.expr e).Stops apply scope s reason t') :
    (Phrase.expr e).Explained apply scope s reason t' := by
  cases e with
  | ident name => exact .inl (.name h)
  | int | bool | string | function => cases h
  | array es =>
    obtain h | ⟨vs, t, -, h⟩ := bind_eq_error_iff.1 h
    · exact .inr ⟨_, _, .elements, h⟩
    · cases h
  | hash ps =>
    obtain h | ⟨vs, t, -, h⟩ := bind_eq_error_iff.1 h
    · exact .inr ⟨_, _, .entries, h⟩
    · cases h
  | unary op e =>
    obtain h | ⟨v, t, he, h⟩ := bind_eq_error_iff.1 h
    · exact .inr ⟨_, _, .operand, h⟩
    · obtain ⟨error, herror, rfl, rfl⟩ := orFail_eq_error_iff.1 h
      exact .inl (.unary he herror)
  | binary op l r =>
    obtain h | ⟨v, t, hl, h⟩ := bind_eq_error_iff.1 h
    · exact .inr ⟨_, _, .left, h⟩
    obtain h | ⟨w, t, hr, h⟩ := bind_eq_error_iff.1 h
    · exact .inr ⟨_, _, .right hl, h⟩
    · obtain ⟨error, herror, rfl, rfl⟩ := orFail_eq_error_iff.1 h
      exact .inl (.binary hl hr herror)
  | cond c body alternative => exact explained_of_cond h
  | call f es => exact explained_of_call h
  | index l i =>
    obtain h | ⟨v, t, hl, h⟩ := bind_eq_error_iff.1 h
    · exact .inr ⟨_, _, .indexed, h⟩
    obtain h | ⟨w, t, hi, h⟩ := bind_eq_error_iff.1 h
    · exact .inr ⟨_, _, .position hl, h⟩
    · obtain ⟨error, herror, rfl, rfl⟩ := orFail_eq_error_iff.1 h
      exact .inl (.index hl hi herror)

/-- Expressions in turn raise nothing themselves. -/
theorem Expr.explained_of_stopsAll {es : List Expr}
    (h : (Phrase.exprs es).Stops apply scope s reason t') :
    (Phrase.exprs es).Explained apply scope s reason t' := by
  cases es with
  | nil => cases h
  | cons e es =>
    obtain h | ⟨v, t, he, h⟩ := bind_eq_error_iff.1 h
    · exact .inr ⟨_, _, .first, h⟩
    obtain h | ⟨vs, t, -, h⟩ := bind_eq_error_iff.1 h
    · exact .inr ⟨_, _, .later he, h⟩
    · cases h

/-- Pairs stop in a key or a value, or at a key that no hash can have. -/
theorem Expr.explained_of_stopsPairs {ps : List (Expr × Expr)}
    (h : (Phrase.pairs ps).Stops apply scope s reason t') :
    (Phrase.pairs ps).Explained apply scope s reason t' := by
  match ps, h with
  | [], h => cases h
  | (key, value) :: ps, h =>
    obtain h | ⟨v, t, hkey, h⟩ := bind_eq_error_iff.1 h
    · exact .inr ⟨_, _, .key, h⟩
    cases hk : v.hashKey? with
    | none =>
      rw [evalHashKey, hk] at h
      cases h
      exact .inl (.key hkey hk)
    | some k =>
      replace h := (bind_of_ok (evalHashKey_of_some hk)).symm.trans h
      obtain h | ⟨w, t₁, hvalue, h⟩ := bind_eq_error_iff.1 h
      · exact .inr ⟨_, _, .value hkey hk, h⟩
      obtain h | ⟨entries, t₂, -, h⟩ := bind_eq_error_iff.1 h
      · exact .inr ⟨_, _, .laterPairs hkey hk hvalue, h⟩
      · cases h

/-- Of the statements only a `return` raises anything itself. -/
theorem Stmt.explained_of_stops {st : Stmt} (h : (Phrase.stmt st).Stops apply scope s reason t') :
    (Phrase.stmt st).Explained apply scope s reason t' := by
  cases st with
  | bind name e =>
    obtain h | ⟨v, t, he, h⟩ := bind_eq_error_iff.1 h
    · exact .inr ⟨_, _, .bound, h⟩
    · cases h
  | ret e =>
    obtain h | ⟨v, t, he, h⟩ := bind_eq_error_iff.1 h
    · exact .inr ⟨_, _, .returned, h⟩
    · cases h
      exact .inl (.returned he)
  -- These two only hand on what is in them.
  | expr e => exact .inr ⟨_, _, .expression, h⟩
  | block body => exact .inr ⟨_, _, .block, h⟩

theorem Stmt.explained_of_stopsAll {last : Value} {body : List Stmt}
    (h : (Phrase.stmts last body).Stops apply scope s reason t') :
    (Phrase.stmts last body).Explained apply scope s reason t' := by
  cases body with
  | nil => cases h
  | cons st body =>
    obtain h | ⟨v, t, hst, h⟩ := bind_eq_error_iff.1 h
    · exact .inr ⟨_, _, .statement, h⟩
    · exact .inr ⟨_, _, .laterStatements hst, h⟩

/-- **A phrase that stops early raises the reason, or one of its parts
stops.** -/
theorem Phrase.Stops.explained (h : p.Stops apply scope s reason t') :
    p.Explained apply scope s reason t' := by
  cases p with
  | expr e => exact Expr.explained_of_stops h
  | exprs es => exact Expr.explained_of_stopsAll h
  | pairs ps => exact Expr.explained_of_stopsPairs h
  | stmt st => exact Stmt.explained_of_stops h
  | stmts last body => exact Stmt.explained_of_stopsAll h

/-- The size of what there is to evaluate. -/
noncomputable def Phrase.size : Phrase → Nat
  | .expr e => sizeOf e
  | .exprs es => sizeOf es
  | .pairs ps => sizeOf ps
  | .stmt st => sizeOf st
  | .stmts _ body => sizeOf body

theorem Enters.size_lt (h : Enters apply scope p s q t) : q.size < p.size := by
  cases h <;> simp [Phrase.size] <;> omega

theorem Phrase.Stops.exists_raises {p : Phrase} {s : Store}
    (h : p.Stops apply scope s reason t') :
    ∃ q t, Reaches apply scope p s q t ∧ Raises apply scope q t reason t' := by
  obtain hraises | ⟨q, t, henters, hq⟩ := h.explained
  · exact ⟨p, s, .here, hraises⟩
  · obtain ⟨r, t₁, hreaches, hraises⟩ := hq.exists_raises
    exact ⟨r, t₁, .into henters hreaches, hraises⟩
termination_by p.size
decreasing_by exact henters.size_lt

/-- **A phrase stops early exactly if its evaluation comes to one that raises
the reason.** -/
theorem Phrase.stops_iff : p.Stops apply scope s reason t' ↔
    ∃ q t, Reaches apply scope p s q t ∧ Raises apply scope q t reason t' := by
  constructor
  · exact Phrase.Stops.exists_raises
  · rintro ⟨q, t, hreaches, hraises⟩
    exact hreaches.stops hraises.stops

/-! ## Boundaries -/

/-- What a program comes to whose statements stop early. -/
def Unwind.atProgram : Unwind → Value
  | .returned v => v
  | .failed e => e.toValue

/-- A call comes to the body of a function: the callee has come to the
function and the arguments to values, as many as it has parameters, and
these are bound in a scope made for the call. -/
inductive Calls (depth : Nat) (caller : ScopeId) : Expr → Store → ScopeId → List Stmt → Store → Prop
  | intro {callee : Expr} {arguments : List Expr} {id : Identity} {closure : Closure}
    {values : List Value} {s t t' : Store}
    (hcallee : callee.eval (Value.apply depth) caller s = some (.ok (.function id closure), t))
    (harguments : Expr.evalAll (Value.apply depth) caller arguments t = some (.ok values, t'))
    (hlength : closure.parameters.length = values.length) :
    Calls depth caller (.call callee arguments) s (t'.newScope (some closure.scope)).1 closure.body
      ((t'.newScope (some closure.scope)).2.bindAll (t'.newScope (some closure.scope)).1
        (closure.parameters.zip values))

variable {depth : Nat}

/-- At the end of a call a `return` becomes its value, and an error stays an
error. -/
theorem Calls.eval {caller : ScopeId} {e : Expr} {body : List Stmt} {s₀ : Store}
    (h : Calls (depth + 1) caller e s₀ scope body s)
    (hbody : Stmt.evalAll (Value.apply depth) scope .null body s = some (.error reason, t)) :
    e.eval (Value.apply (depth + 1)) caller s₀ = some (Machine.called (.error reason), t) := by
  cases h with
  | intro hcallee harguments hlength =>
    refine (bind_of_ok hcallee).trans ?_
    refine (bind_of_ok harguments).trans ?_
    exact (Machine.call_eq hlength _).trans (congrArg (Option.map _) hbody)

/-- A program ends where it stops early, and what a `return` carries is its
result. -/
theorem Program.run_of_error {program : Program}
    (h : Stmt.evalAll (Value.apply depth) scope .null program.statements s =
      some (.error reason, t)) : program.run depth scope s = some (reason.atProgram, t) := by
  unfold run Eval.settle Eval.atCall
  rw [h]
  cases reason <;> rfl

/-- **An unwind cuts evaluation off exactly where it happens.** If the
evaluation of a phrase comes to one that is nested in it, and that one
stops early, then the whole stops for the same reason and in the same
store, with all that was bound before. If the whole is the body of a
function that was called, then a `return` becomes the value of the call,
and an error stops the call; if it is a program, then a `return` becomes
the result, and so does an error. -/
theorem unwind_cuts_nest (hreach : Reaches (Value.apply depth) scope p s q t)
    (hstop : q.Stops (Value.apply depth) scope t reason t') :
    p.Stops (Value.apply depth) scope s reason t' ∧
    (∀ (caller : ScopeId) (e : Expr) (s₀ : Store) (body : List Stmt),
      p = .stmts .null body → Calls (depth + 1) caller e s₀ scope body s →
        (∀ v, reason = .returned v →
          e.eval (Value.apply (depth + 1)) caller s₀ = some (.ok v, t')) ∧
        ∀ error, reason = .failed error →
          e.eval (Value.apply (depth + 1)) caller s₀ = some (.error (.failed error), t')) ∧
    ∀ program : Program, p = .stmts .null program.statements →
      (∀ v, reason = .returned v → program.run depth scope s = some (v, t')) ∧
      ∀ error, reason = .failed error → program.run depth scope s = some (error.toValue, t') := by
  have hwhole := hreach.stops hstop
  refine ⟨hwhole, ?_, ?_⟩
  · rintro caller e s₀ body rfl hcalls
    have hcall := hcalls.eval hwhole
    constructor
    · rintro v rfl
      exact hcall
    · rintro error rfl
      exact hcall
  · rintro program rfl
    have hrun := Program.run_of_error hwhole
    constructor
    · rintro v rfl
      exact hrun
    · rintro error rfl
      exact hrun

/-- A `return` in a branch in the value of a hash in a `let`: the function
that is called gives its value, the `let` before it has bound its name, and
nothing else is bound. -/
theorem return_in_hash_in_let_cuts :
    let caller := (Store.empty.newScope none).1
    let s₀ := (Store.empty.newScope none).2
    let scope := (s₀.newIdentity.2.newScope (some caller)).1
    let s := (s₀.newIdentity.2.newScope (some caller)).2
    let body : List Stmt := [.bind "x" (.int 1),
      .bind "h" (.hash [(.string "k", .cond (.bool true) [.ret (.int 5)] none)]), .expr (.int 2)]
    (Expr.call (.function [] body) []).eval (Value.apply 1) caller s₀ =
        some (.ok (.int 5), s.bind scope "x" (.int 1)) ∧
      Program.run 0 ⟨body⟩ scope s = some (.int 5, s.bind scope "x" (.int 1)) := by
  intro caller s₀ scope s body
  have hreach : Reaches (Value.apply 0) scope (.stmts .null body) s (.stmt (.ret (.int 5)))
      (s.bind scope "x" (.int 1)) := by
    refine .into (.laterStatements rfl) (.into .statement (.into .bound (.into .entries ?_)))
    exact .into (.value rfl rfl) (.into (.consequence rfl rfl) (.into .statement .here))
  have hfunction : (Expr.function [] body).eval (Value.apply 1) caller s₀ =
      some (.ok (.function s₀.newIdentity.1 ⟨[], body, caller⟩), s₀.newIdentity.2) := rfl
  have hcalls : Calls 1 caller (.call (.function [] body) []) s₀ scope body s :=
    .intro hfunction rfl rfl
  obtain ⟨-, hcall, hprogram⟩ := unwind_cuts_nest hreach rfl
  exact ⟨(hcall caller _ s₀ body rfl hcalls).1 _ rfl, (hprogram ⟨body⟩ rfl).1 _ rfl⟩

end MonkeyLang
