import MonkeyLang.Proofs.Machine.Basic
import MonkeyLang.Proofs.Pieces
/-!
# The machine and the evaluation

The machine does what an evaluation says: it gets to where the evaluation
ends, in the same store, and if the evaluation does not end within some
depth of calls it makes that many steps at least. `Follows` says both of a
part of a tree, whatever frames wait for it, and there is one rule for each
way of putting evaluations together. So a program results in a value
exactly if the machine comes to rest with it (`results_iff_rests`), and the
machine never gets stuck on the way (`exists_result_or_step`).
-/

namespace MonkeyLang

theorem Eval.pure_bind {ε α β : Type} (a : α) (f : α → Eval ε β) : (pure a >>= f) = f a := rfl

namespace Machine

/-! ## Runs of the machine -/

namespace Steps

variable {m n : Nat} {σ σ' σ'' : State}

theorem single (h : σ.step = some σ') : Steps 1 σ σ' := .head h (.refl σ')

theorem trans (h : Steps m σ σ') (h' : Steps n σ' σ'') : Steps (m + n) σ σ'' := by
  induction h with
  | refl => rwa [Nat.zero_add]
  | head hstep _ ih =>
    rw [Nat.add_right_comm]
    exact .head hstep (ih h')

/-- A run ends at the moment that has no step, and has that length. -/
theorem length_le_of_step_eq_none (h : Steps m σ σ') (hrest : σ'.step = none)
    (h' : Steps n σ σ'') : n ≤ m ∧ Steps (m - n) σ'' σ' := by
  induction h' generalizing m with
  | refl => exact ⟨Nat.zero_le m, h⟩
  | head hstep _ ih =>
    cases h with
    | refl =>
      rw [hrest] at hstep
      cases hstep
    | @head k _ _ _ hstep' h =>
      rw [hstep, Option.some.injEq] at hstep'
      subst hstep'
      obtain ⟨hle, hsteps⟩ := ih h
      exact ⟨Nat.succ_le_succ hle, by rwa [Nat.add_sub_add_right]⟩

/-- A run that is shorter than another one has a step left. -/
theorem exists_step_of_lt (h : Steps m σ σ') (h' : Steps n σ σ'') (hlt : m < n) :
    ∃ σ₁, σ'.step = some σ₁ := by
  cases hstep : σ'.step with
  | some σ₁ => exact ⟨σ₁, rfl⟩
  | none => exact absurd (h.length_le_of_step_eq_none hstep h').1 (Nat.not_le.2 hlt)

/-- The machine comes to rest at one moment only. -/
theorem unique (h : Steps m σ σ') (hrest : σ'.step = none) (h' : Steps n σ σ'')
    (hrest' : σ''.step = none) : σ' = σ'' := by
  obtain ⟨-, hsteps⟩ := h.length_le_of_step_eq_none hrest h'
  generalize m - n = k at hsteps
  cases hsteps with
  | refl => rfl
  | head hstep _ =>
    rw [hrest'] at hstep
    cases hstep

end Steps

/-- A moment with a result has no step. -/
theorem State.step_eq_none_of_result {σ : State} {v : Value} (h : σ.result? = some v) :
    σ.step = none := by
  obtain ⟨control, frames, scope, store⟩ := σ
  cases frames with
  | nil => cases control <;> first | rfl | cases h
  | cons frame frames =>
    cases control with
    | unwind reason => cases reason <;> cases h
    | _ => cases h

/-! ## Following an evaluation -/

variable {α β : Type} {depth : Nat} {scope : ScopeId}

/-- What an evaluation ended with, as the machine comes to it. -/
def Control.ending (done : α → Control) : Except Unwind α → Control
  | .ok a => done a
  | .error reason => .unwind reason

/-- From a control in front of some frames the machine gets to where an
evaluation ends, and it does not get to an end before its time. -/
structure Follows (depth : Nat) (scope : ScopeId) (control : Control) (frames : List Frame)
    (x : Eval Unwind α) (done : α → Control) : Prop where
  ends : ∀ {K s outcome s'}, x s = some (outcome, s') →
    ∃ n, Steps n ⟨control, frames ++ K, scope, s⟩ ⟨.ending done outcome, K, scope, s'⟩
  goesOn : ∀ {K s}, x s = none →
    ∃ n σ, depth ≤ n ∧ Steps n ⟨control, frames ++ K, scope, s⟩ σ

namespace Follows

variable {control control' : Control} {frames frames' : List Frame} {x : Eval Unwind α}
variable {done : α → Control} {done' : β → Control}

/-- An evaluation that the machine carries out in one step. -/
theorem of_step (h : ∀ K s, ∃ outcome s', x s = some (outcome, s') ∧
      State.step ⟨control, frames ++ K, scope, s⟩ =
        some ⟨.ending done outcome, K, scope, s'⟩) :
    Follows depth scope control frames x done where
  ends {K s _ _} hx := by
    obtain ⟨outcome, s', hx', hstep⟩ := h K s
    rw [hx, Option.some.injEq, Prod.mk.injEq] at hx'
    obtain ⟨rfl, rfl⟩ := hx'
    exact ⟨1, .single hstep⟩
  goesOn {K s} hx := by
    obtain ⟨outcome, s', hx', -⟩ := h K s
    rw [hx] at hx'
    cases hx'

theorem pure {a : α} (h : ∀ K s, State.step ⟨control, frames ++ K, scope, s⟩ =
      some ⟨done a, K, scope, s⟩) :
    Follows depth scope control frames (pure a) done :=
  .of_step fun K s => ⟨.ok a, s, rfl, h K s⟩

/-- A step in front of what follows an evaluation. -/
theorem step (h : ∀ K s, State.step ⟨control, frames ++ K, scope, s⟩ =
      some ⟨control', frames' ++ K, scope, s⟩) (hx : Follows depth scope control' frames' x done) :
    Follows depth scope control frames x done where
  ends hend := by
    obtain ⟨n, hsteps⟩ := hx.ends hend
    exact ⟨n + 1, .head (h _ _) hsteps⟩
  goesOn hnone := by
    obtain ⟨n, σ, hle, hsteps⟩ := hx.goesOn hnone
    exact ⟨n + 1, σ, Nat.le_succ_of_le hle, .head (h _ _) hsteps⟩

/-- One evaluation after the other: a frame waits for the first, and what
takes that up follows the second. -/
theorem bind {g : α → Eval Unwind β} {frame : Frame}
    (hx : Follows depth scope control [] x done)
    (hframe : frame.isCall = false)
    (hg : ∀ a, Follows depth scope (done a) [frame] (g a) done') :
    Follows depth scope control [frame] (x >>= g) done' where
  ends {K s outcome s'} hend := by
    have hthrough {a : α} {s₁ : Store} (ha : x s = some (.ok a, s₁))
        (hend : g a s₁ = some (outcome, s')) :
        ∃ n, Steps n ⟨control, [frame] ++ K, scope, s⟩ ⟨.ending done' outcome, K, scope, s'⟩ := by
      obtain ⟨m, hm⟩ := hx.ends (K := frame :: K) ha
      obtain ⟨n, hn⟩ := (hg a).ends (K := K) hend
      exact ⟨m + n, hm.trans hn⟩
    cases outcome with
    | ok b =>
      obtain ⟨a, s₁, ha, hb⟩ := Eval.bind_eq_ok_iff.1 hend
      exact hthrough ha hb
    | error reason =>
      obtain herror | ⟨a, s₁, ha, hb⟩ := Eval.bind_eq_error_iff.1 hend
      · -- the frame lets what stopped the first evaluation through
        obtain ⟨n, hn⟩ := hx.ends (K := frame :: K) herror
        have hpass : State.step ⟨.unwind reason, frame :: K, scope, s'⟩ =
            some ⟨.unwind reason, K, scope, s'⟩ := by
          cases frame with
          | call caller => cases hframe
          | _ => cases reason <;> rfl
        exact ⟨n + 1, hn.trans (.single hpass)⟩
      · exact hthrough ha hb
  goesOn {K s} hnone := by
    change Eval.bind x g s = none at hnone
    unfold Eval.bind at hnone
    cases hs : x s with
    | none =>
      obtain ⟨n, σ, hle, hn⟩ := hx.goesOn (K := frame :: K) hs
      exact ⟨n, σ, hle, hn⟩
    | some r =>
      rw [hs] at hnone
      obtain ⟨reason | a, s₁⟩ := r
      · cases hnone
      · obtain ⟨m, hm⟩ := hx.ends (K := frame :: K) hs
        obtain ⟨n, σ, hle, hn⟩ := (hg a).goesOn (K := K) hnone
        exact ⟨m + n, σ, Nat.le_add_left_of_le hle, hm.trans hn⟩

/-- An operation that does not touch the store. -/
theorem orFail {r : Except EvalError Value} (h : ∀ K s,
      State.step ⟨control, frames ++ K, scope, s⟩ = some ⟨.ofExcept r, K, scope, s⟩) :
    Follows depth scope control frames (Eval.orFail r) .value := by
  cases r with
  | ok v => exact .of_step fun K s => ⟨.ok v, s, rfl, h K s⟩
  | error e => exact .of_step fun K s => ⟨.error (.failed e), s, rfl, h K s⟩

end Follows

/-- The machine follows what applying a value does. -/
def FollowsCalls (depth : Nat) (apply : Applier) : Prop :=
  ∀ f arguments scope,
    Follows depth scope (.apply f arguments) [] ((apply f arguments).mapReason .failed) .value

/-! ## Once over the tree -/

theorem follows_name (name : String) :
    Follows depth scope (.expr (.ident name)) [] (evalName scope name) .value :=
  .of_step fun K s => by
    unfold evalName
    cases hfound : s.lookup scope name with
    | some v =>
      refine ⟨.ok v, s, ?_, ?_⟩
      · simp [bind, Eval.bind, Eval.ask, hfound, Pure.pure]
      · simp [State.step, State.enterExpr, hfound, State.turn, Control.ending]
    | none =>
      cases hbuiltin : Builtin.ofName? name with
      | some b =>
        refine ⟨.ok (.builtin b), s, ?_, ?_⟩
        · simp [bind, Eval.bind, Eval.ask, hfound, Pure.pure]
        · simp [State.step, State.enterExpr, hfound, hbuiltin, State.turn, Control.ending]
      | none =>
        refine ⟨.error (.failed (.unbound name)), s, ?_, ?_⟩
        · simp [bind, Eval.bind, Eval.ask, hfound, Eval.stop]
        · simp [State.step, State.enterExpr, hfound, hbuiltin, State.turn, Control.ending]

section Tree

variable {apply : Applier}

mutual

theorem follows_expr (ha : FollowsCalls depth apply) : ∀ e : Expr,
    Follows depth scope (.expr e) [] (e.eval apply scope) .value
  | .int n => by
    simp only [Expr.eval]
    exact .pure fun _ _ => rfl
  | .bool b => by
    simp only [Expr.eval]
    exact .pure fun _ _ => rfl
  | .string text => by
    simp only [Expr.eval]
    exact .pure fun _ _ => rfl
  | .ident name => by
    simp only [Expr.eval]
    exact follows_name name
  | .array elements => by
    simp only [Expr.eval]
    refine .step (fun _ _ => rfl) ((follows_exprs ha elements).bind rfl fun vs => ?_)
    exact .of_step fun K s => ⟨_, _, rfl, rfl⟩
  | .hash pairs => by
    simp only [Expr.eval]
    refine .step (fun _ _ => rfl) ((follows_pairs ha pairs).bind rfl fun entries => ?_)
    exact .of_step fun K s => ⟨_, _, rfl, rfl⟩
  | .unary op operand => by
    simp only [Expr.eval]
    refine .step (fun _ _ => rfl) ((follows_expr ha operand).bind rfl fun v => ?_)
    exact .orFail fun _ _ => rfl
  | .binary op left right => by
    simp only [Expr.eval]
    refine .step (fun _ _ => rfl) ((follows_expr ha left).bind rfl fun l => ?_)
    refine .step (fun _ _ => rfl) ((follows_expr ha right).bind rfl fun r => ?_)
    exact .orFail fun _ _ => rfl
  | .cond condition consequence none => by
    simp only [Expr.eval]
    refine .step (fun _ _ => rfl) ((follows_expr ha condition).bind rfl fun v => ?_)
    refine .step (fun _ _ => rfl) (?_ : Follows depth scope _ [] _ _)
    split
    · exact follows_stmts ha consequence
    · -- no block behind is a block without statements
      exact .pure fun _ _ => rfl
  | .cond condition consequence (some alternative) => by
    simp only [Expr.eval]
    refine .step (fun _ _ => rfl) ((follows_expr ha condition).bind rfl fun v => ?_)
    refine .step (fun _ _ => rfl) (?_ : Follows depth scope _ [] _ _)
    split
    · exact follows_stmts ha consequence
    · exact follows_stmts ha alternative
  | .function parameters body => by
    simp only [Expr.eval]
    exact .of_step fun K s => ⟨_, _, rfl, rfl⟩
  | .call callee arguments => by
    simp only [Expr.eval]
    refine .step (fun _ _ => rfl) ((follows_expr ha callee).bind rfl fun f => ?_)
    refine .step (fun _ _ => rfl) ((follows_exprs ha arguments).bind rfl fun vs => ?_)
    exact .step (fun _ _ => rfl) (ha f vs scope)
  | .index left position => by
    simp only [Expr.eval]
    refine .step (fun _ _ => rfl) ((follows_expr ha left).bind rfl fun l => ?_)
    refine .step (fun _ _ => rfl) ((follows_expr ha position).bind rfl fun p => ?_)
    exact .orFail fun _ _ => rfl

theorem follows_exprs (ha : FollowsCalls depth apply) : ∀ es : List Expr,
    Follows depth scope (.exprs es) [] (Expr.evalAll apply scope es) .values
  | [] => by
    simp only [Expr.evalAll]
    exact .pure fun _ _ => rfl
  | e :: es => by
    simp only [Expr.evalAll]
    refine .step (fun _ _ => rfl) ((follows_expr ha e).bind rfl fun v => ?_)
    refine .step (fun _ _ => rfl) ((follows_exprs ha es).bind rfl fun vs => ?_)
    exact .pure fun _ _ => rfl

theorem follows_pairs (ha : FollowsCalls depth apply) : ∀ pairs : List (Expr × Expr),
    Follows depth scope (.pairs pairs) [] (Expr.evalPairs apply scope pairs) .entries
  | [] => by
    simp only [Expr.evalPairs]
    exact .pure fun _ _ => rfl
  | (key, value) :: rest => by
    simp only [Expr.evalPairs]
    refine .step (fun _ _ => rfl) ((follows_expr ha key).bind rfl fun k => ?_)
    unfold evalHashKey
    cases hkey : k.hashKey? with
    | none =>
      refine .of_step fun K s => ⟨.error (.failed (.unhashable k.type)), s, rfl, ?_⟩
      simp [State.step, State.takeValue, hkey, State.turn, Control.ending]
    | some content =>
      rw [Eval.pure_bind]
      have hstep (K : List Frame) (s : Store) :
          State.step ⟨.value k, [.key value rest] ++ K, scope, s⟩ =
            some ⟨.expr value, [.keyed content k rest] ++ K, scope, s⟩ := by
        simp [State.step, State.takeValue, hkey, State.await]
      refine .step hstep ((follows_expr ha value).bind rfl fun v => ?_)
      refine .step (fun _ _ => rfl) ((follows_pairs ha rest).bind rfl fun entries => ?_)
      exact .pure fun _ _ => rfl

theorem follows_stmt (ha : FollowsCalls depth apply) : ∀ st : Stmt,
    Follows depth scope (.stmt st) [] (st.eval apply scope) .value
  | .bind name value => by
    simp only [Stmt.eval]
    refine .step (fun _ _ => rfl) ((follows_expr ha value).bind rfl fun v => ?_)
    exact .of_step fun K s => ⟨_, _, rfl, rfl⟩
  | .ret value => by
    simp only [Stmt.eval]
    refine .step (fun _ _ => rfl) ((follows_expr ha value).bind rfl fun v => ?_)
    exact .of_step fun K s => ⟨_, _, rfl, rfl⟩
  | .expr value => by
    simp only [Stmt.eval]
    exact .step (fun _ _ => rfl) (follows_expr ha value)
  | .block body => by
    simp only [Stmt.eval]
    exact .step (fun _ _ => rfl) (follows_stmts ha body)

theorem follows_stmts (ha : FollowsCalls depth apply) : ∀ (body : List Stmt) {last : Value},
    Follows depth scope (.stmts last body) [] (Stmt.evalAll apply scope last body) .value
  | [], _ => by
    simp only [Stmt.evalAll]
    exact .pure fun _ _ => rfl
  | st :: rest, _ => by
    simp only [Stmt.evalAll]
    refine .step (fun _ _ => rfl) ((follows_stmt ha st).bind rfl fun v => ?_)
    exact .step (fun _ _ => rfl) (follows_stmts ha rest)

end

end Tree

/-! ## Once over the depth of calls -/

/-- The names of a call are bound at once. -/
theorem bindNames_eq (scope : ScopeId) (bindings : List (String × Value)) (s : Store) :
    (Eval.bindNames scope bindings : Eval EvalError Unit) s =
      some (.ok (), s.bindAll scope bindings) := by
  induction bindings generalizing s with
  | nil => rfl
  | cons binding rest ih => exact ih (s.bind scope binding.1 binding.2)

/-- What a call makes of what ended the body. -/
def called : Except Unwind Value → Except Unwind Value
  | .ok v => .ok v
  | .error (.returned v) => .ok v
  | .error (.failed e) => .error (.failed e)

theorem mapReason_atCall_eq (x : Eval Unwind Value) (s : Store) :
    x.atCall.mapReason Unwind.failed s = (x s).map fun r => (called r.1, r.2) := by
  unfold Eval.mapReason Eval.atCall
  obtain _ | ⟨(_ | _) | v, s₁⟩ := x s <;> rfl

/-- A call whose number of arguments is right is the run of its body. -/
theorem call_eq {run : ScopeId → List Stmt → Eval Unwind Value} {closure : Closure}
    {arguments : List Value} (hlength : closure.parameters.length = arguments.length) (s : Store) :
    (closure.call run arguments).mapReason .failed s =
      (run (s.newScope (some closure.scope)).1 closure.body
        ((s.newScope (some closure.scope)).2.bindAll (s.newScope (some closure.scope)).1
          (closure.parameters.zip arguments))).map fun r => (called r.1, r.2) := by
  have hcall : closure.call run arguments s =
      (run (s.newScope (some closure.scope)).1 closure.body).atCall
        ((s.newScope (some closure.scope)).2.bindAll (s.newScope (some closure.scope)).1
          (closure.parameters.zip arguments)) := by
    unfold Closure.call
    rw [if_neg (not_not_intro hlength)]
    exact Eval.bind_of_ok (bindNames_eq _ _ _)
  rw [← mapReason_atCall_eq]
  unfold Eval.mapReason
  rw [hcall]

/-- The machine follows the calls of functions whose bodies it follows, and
makes one step more. -/
theorem follows_call {run : ScopeId → List Stmt → Eval Unwind Value}
    (hrun : ∀ scope body, Follows depth scope (.stmts .null body) [] (run scope body) .value)
    (id : Identity) (closure : Closure) (arguments : List Value) :
    Follows (depth + 1) scope (.apply (.function id closure) arguments) []
      ((closure.call run arguments).mapReason .failed) .value := by
  by_cases hlength : closure.parameters.length = arguments.length
  · have hstep := State.step_call hlength id
    refine ⟨fun {K s outcome s'} hend => ?_, fun {K s} hnone => ?_⟩
    · rw [call_eq hlength, Option.map_eq_some_iff] at hend
      obtain ⟨⟨outcome', s₁⟩, hbody, heq⟩ := hend
      cases heq
      obtain ⟨n, hn⟩ := (hrun _ _).ends (K := .call scope :: K) hbody
      -- whatever the body ended with, the frame of the call takes it up
      have htaken (inner : ScopeId) :
          State.step ⟨.ending .value outcome', .call scope :: K, inner, s₁⟩ =
            some ⟨.ending .value (called outcome'), K, scope, s₁⟩ := by
        obtain (_ | _) | v := outcome' <;> rfl
      exact ⟨n + 1 + 1, .head (hstep K scope s) (hn.trans (.single (htaken _)))⟩
    · rw [call_eq hlength, Option.map_eq_none_iff] at hnone
      obtain ⟨n, σ, hle, hn⟩ := (hrun _ _).goesOn (K := .call scope :: K) hnone
      exact ⟨n + 1, σ, Nat.succ_le_succ hle, .head (hstep K scope s) hn⟩
  · refine .of_step fun K s =>
      ⟨.error (.failed (.arity closure.parameters.length arguments.length)), s, ?_, ?_⟩
    · unfold Eval.mapReason Closure.call
      rw [if_pos hlength]
      rfl
    · exact congrArg some (if_pos hlength)

theorem follows_applyWith {run : ScopeId → List Stmt → Eval Unwind Value}
    (hrun : ∀ scope body, Follows depth scope (.stmts .null body) [] (run scope body) .value) :
    FollowsCalls (depth + 1) (Value.applyWith run) := by
  intro f arguments scope
  cases f with
  | function id closure => exact follows_call hrun id closure arguments
  | builtin b =>
    refine .of_step fun K s => ?_
    change ∃ outcome s', (Builtin.call b arguments).mapReason Unwind.failed s = _ ∧ _
    unfold Builtin.call
    cases happly : b.apply arguments with
    | error e =>
      refine ⟨.error (.failed e), s, rfl, ?_⟩
      simp [State.step, State.enterCall, happly, State.turn, Control.ending]
    | ok y =>
      cases y with
      | known v =>
        refine ⟨.ok v, s, rfl, ?_⟩
        simp [State.step, State.enterCall, happly, State.turn, Control.ending]
      | newArray elements =>
        refine ⟨.ok (.array s.newIdentity.1 elements), s.newIdentity.2, rfl, ?_⟩
        simp [State.step, State.enterCall, happly, State.make, Control.ending]
  | _ => exact .of_step fun K s => ⟨.error (.failed (.notCallable _)), s, rfl, rfl⟩

/-- **The machine follows the bodies that are evaluated within a depth of
calls**, and gets at least that far in those that do not end within it. -/
theorem follows_runBody (depth : Nat) (scope : ScopeId) (body : List Stmt) :
    Follows depth scope (.stmts .null body) [] (runBody depth scope body) .value := by
  induction depth generalizing scope body with
  | zero =>
    refine ⟨nofun, fun {K s} _ => ⟨0, _, Nat.le_refl 0, .refl _⟩⟩
  | succ depth ih => exact follows_stmts (follows_applyWith ih) body

/-! ## Programs -/

/-- The machine comes to rest with a result of a program. -/
def Rests (p : Program) (scope : ScopeId) (s : Store) (v : Value) (s' : Store) : Prop :=
  ∃ n σ, Steps n (.start p scope s) σ ∧ σ.result? = some v ∧ σ.store = s'

/-- What a program results in when its statements ended in some way. -/
def settled : Except Unwind Value → Value
  | .ok v => v
  | .error (.returned v) => v
  | .error (.failed e) => e.toValue

theorem run_eq (p : Program) (depth : Nat) (scope : ScopeId) (s : Store) :
    p.run depth scope s =
      (runBody (depth + 1) scope p.statements s).map fun r => (settled r.1, r.2) := by
  change Eval.settle _ (runBody (depth + 1) scope p.statements).atCall s = _
  unfold Eval.settle Eval.atCall
  obtain _ | ⟨(_ | _) | v, s₁⟩ := runBody (depth + 1) scope p.statements s <;> rfl

theorem rests_of_run {depth : Nat} {p : Program} {s s' : Store} {v : Value}
    (h : p.run depth scope s = some (v, s')) : Rests p scope s v s' := by
  rw [run_eq, Option.map_eq_some_iff] at h
  obtain ⟨⟨outcome, s₁⟩, hbody, heq⟩ := h
  cases heq
  obtain ⟨n, hn⟩ := (follows_runBody (depth + 1) scope p.statements).ends (K := []) hbody
  refine ⟨n, _, hn, ?_, rfl⟩
  obtain (_ | _) | v := outcome <;> rfl

theorem exists_steps_of_run_eq_none {depth : Nat} {p : Program} {s : Store}
    (h : p.run depth scope s = none) : ∃ n σ, depth < n ∧ Steps n (.start p scope s) σ := by
  rw [run_eq, Option.map_eq_none_iff] at h
  exact (follows_runBody (depth + 1) scope p.statements).goesOn (K := []) h

/-- **A program results in a value exactly if the machine comes to rest with
it**, in the same store. -/
theorem results_iff_rests {p : Program} {s s' : Store} {v : Value} :
    p.Results scope s v s' ↔ Rests p scope s v s' := by
  constructor
  · rintro ⟨depth, h⟩
    exact rests_of_run h
  · rintro ⟨n, σ, hsteps, hresult, rfl⟩
    have hrest := State.step_eq_none_of_result hresult
    cases hrun : p.run n scope s with
    | none =>
      -- the machine would make more steps than it does
      obtain ⟨m, σ', hlt, hm⟩ := exists_steps_of_run_eq_none hrun
      obtain ⟨σ₁, hstep⟩ := hsteps.exists_step_of_lt hm hlt
      rw [hrest] at hstep
      cases hstep
    | some r =>
      obtain ⟨w, s₁⟩ := r
      obtain ⟨m, σ', hm, hresult', rfl⟩ := rests_of_run hrun
      obtain rfl := hsteps.unique hrest hm (State.step_eq_none_of_result hresult')
      rw [hresult, Option.some.injEq] at hresult'
      exact ⟨n, hresult' ▸ hrun⟩

/-- The machine does not get stuck: it rests with a result or makes a step. -/
theorem exists_result_or_step {p : Program} {s : Store} {n : Nat} {σ : State}
    (h : Steps n (.start p scope s) σ) :
    (∃ v, σ.result? = some v) ∨ ∃ σ', σ.step = some σ' := by
  cases hrun : p.run n scope s with
  | none =>
    obtain ⟨m, σ', hlt, hm⟩ := exists_steps_of_run_eq_none hrun
    exact .inr (h.exists_step_of_lt hm hlt)
  | some r =>
    obtain ⟨m, σ', hm, hresult, -⟩ := rests_of_run hrun
    obtain ⟨-, hsteps⟩ := hm.length_le_of_step_eq_none (State.step_eq_none_of_result hresult) h
    generalize m - n = k at hsteps
    cases hsteps with
    | refl => exact .inl ⟨_, hresult⟩
    | head hstep _ => exact .inr ⟨_, hstep⟩

end Machine

end MonkeyLang
