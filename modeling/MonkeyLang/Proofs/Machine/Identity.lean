import MonkeyLang.Proofs.Machine.Agreement
import MonkeyLang.Proofs.Machine.Steps
/-!
# Identity means one creation

Arrays, hashes and functions are compared by identity. That is as good as
comparing what they hold: from the start of a session on, through all its
programs and at every moment of each, whatever has an identity is what was
made under it. `Recorded` is the invariant that carries this: there is a
record of all that was made, in which each thing stands at the place that
its identity says.

The main statement is `identity_means_one_creation`.
-/

namespace MonkeyLang

namespace Machine

namespace State

variable {σ σ' : State} {v : Value}

/-- The machine is in a scope that is there, and so is every scope that it
goes back to. -/
structure Proper (σ : State) : Prop where
  scope : (σ.store.scope? σ.scope).isSome
  callers : ∀ caller, .call caller ∈ σ.frames → (σ.store.scope? caller).isSome

/-- A scope that is there stays there. -/
theorem isSome_scope?_of_step {id : ScopeId} (h : (σ.store.scope? id).isSome)
    (hstep : σ.step = some σ') : (σ'.store.scope? id).isSome := by
  cases step_does hstep with
  | bind => exact Store.isSome_scope?_bind.trans h
  | enter => exact Store.isSome_scope?_bindAll.trans (Store.isSome_scope?_newScope (.inr h))
  | _ => exact h

theorem Proper.step (h : σ.Proper) (hstep : σ.step = some σ') : σ'.Proper := by
  have hcallers {frames : List Frame} (hsuffix : frames <:+ σ.frames) (caller : ScopeId)
      (hmem : .call caller ∈ frames) : (σ'.store.scope? caller).isSome :=
    isSome_scope?_of_step (h.callers caller (hsuffix.subset hmem)) hstep
  have hscope : (σ'.store.scope? σ.scope).isSome := isSome_scope?_of_step h.scope hstep
  cases step_does hstep with
  | turn hsuffix _ => exact ⟨hscope, hcallers hsuffix⟩
  | await hsuffix hframe _ _ =>
    refine ⟨hscope, fun caller hmem => hcallers hsuffix caller ?_⟩
    refine (List.mem_cons.1 hmem).resolve_left ?_
    rintro rfl
    cases hframe
  | make hsuffix _ _ => exact ⟨hscope, hcallers hsuffix⟩
  | bind hsuffix _ => exact ⟨hscope, hcallers hsuffix⟩
  | enter _ =>
    refine ⟨Store.isSome_scope?_bindAll.trans (Store.isSome_scope?_newScope (.inl rfl)),
      fun caller hmem => ?_⟩
    obtain heq | hmem := List.mem_cons.1 hmem
    · cases heq
      exact hscope
    · exact hcallers List.suffix_rfl caller hmem
  | leave hframe _ =>
    have hcaller := h.callers _ (hframe ▸ List.mem_cons_self)
    exact ⟨isSome_scope?_of_step hcaller hstep, hcallers ⟨[_], hframe⟩⟩

/-! ## What is handed on -/

/-- **The operations that come to a value that is there**, and that value: a
name, `head` and `last` of an array, an index into an array or a hash that
has something there, and the end of a call. -/
inductive Hands : State → Value → Prop where
  | name {name : String} {v : Value} {K : List Frame} {scope : ScopeId} {s : Store} :
    s.lookup scope name = some v → Hands ⟨.expr (.ident name), K, scope, s⟩ v
  | head {id : Identity} {v : Value} {rest : List Value} {K : List Frame} {scope : ScopeId}
    {s : Store} : Hands ⟨.apply (.builtin .head) [.array id (v :: rest)], K, scope, s⟩ v
  | last {id : Identity} {v : Value} {front : List Value} {K : List Frame} {scope : ScopeId}
    {s : Store} : Hands ⟨.apply (.builtin .last) [.array id (front ++ [v])], K, scope, s⟩ v
  | element {id : Identity} {elements : List Value} {position : Int64} {v : Value}
    {K : List Frame} {scope : ScopeId} {s : Store} :
    ¬ position < 0 → elements[position.toInt.toNat]? = some v →
      Hands ⟨.value (.int position), .position (.array id elements) :: K, scope, s⟩ v
  | entry {id : Identity} {pairs : Table HashKey (Value × Value)} {content : HashKey}
    {key key' v : Value} {K : List Frame} {scope : ScopeId} {s : Store} :
    key.hashKey? = some content → pairs.get? content = some (key', v) →
      Hands ⟨.value key, .position (.hash id pairs) :: K, scope, s⟩ v
  | yielded {v : Value} {caller : ScopeId} {K : List Frame} {scope : ScopeId} {s : Store} :
    Hands ⟨.value v, .call caller :: K, scope, s⟩ v
  | returned {v : Value} {caller : ScopeId} {K : List Frame} {scope : ScopeId} {s : Store} :
    Hands ⟨.unwind (.returned v), .call caller :: K, scope, s⟩ v

/-- **The operations that bind a name**: `let`, and a call, for the last of
its parameters with that name. -/
inductive Binds : State → String → Value → Prop where
  | bound {name : String} {v : Value} {K : List Frame} {scope : ScopeId} {s : Store} :
    Binds ⟨.value v, .bound name :: K, scope, s⟩ name v
  | passed {id : Identity} {closure : Closure} {arguments : List Value}
    {before after : List (String × Value)} {name : String} {v : Value} {K : List Frame}
    {scope : ScopeId} {s : Store} :
    closure.parameters.length = arguments.length →
      closure.parameters.zip arguments = before ++ (name, v) :: after →
      (∀ b ∈ after, b.1 ≠ name) →
      Binds ⟨.apply (.function id closure) arguments, K, scope, s⟩ name v

theorem control_of_hands (h : σ.Hands v) (hstep : σ.step = some σ') : σ'.control = .value v := by
  cases h with
  | name hfound =>
    simp only [State.step, State.enterExpr, hfound, Option.some.injEq] at hstep
    exact hstep ▸ rfl
  | head =>
    cases hstep
    rfl
  | last =>
    cases hstep
    exact congrArg Control.value List.getLastD_concat
  | element hpos hget =>
    cases hstep
    change Control.value (Value.elementAt _ _) = _
    rw [Value.elementAt, if_neg hpos, List.getD_eq_getElem?_getD, hget]
    rfl
  | @entry id pairs content key key' _ _ _ _ hkey hget =>
    cases hstep
    have hentry : (Value.hash id pairs).index key = .ok v := by
      simp only [Value.index, hkey, hget, Option.map_some, Option.getD_some]
    change Control.ofExcept ((Value.hash id pairs).index key) = _
    rw [hentry]
    rfl
  | yielded =>
    cases hstep
    rfl
  | returned =>
    cases hstep
    rfl

theorem lookup_of_binds {name : String} (hσ : σ.Proper) (h : σ.Binds name v)
    (hstep : σ.step = some σ') : σ'.store.lookup σ'.scope name = some v := by
  cases h with
  | bound =>
    cases hstep
    exact Store.lookup_of_own? ((Store.own?_bind hσ.scope name).trans (if_pos rfl))
  | passed hlength hzip hlast =>
    rw [step_call hlength, hzip, Option.some.injEq] at hstep
    subst hstep
    exact Store.lookup_bindAll hlast (Store.isSome_scope?_newScope (.inl rfl))

end State

/-! ## The record of what was made -/

/-- Something with an identity stands in the record where that says. -/
def Listed (made : List Value) (v : Value) : Prop :=
  ∃ id, v.identity? = some id ∧ made[id.number]? = some v

/-- Whatever has an identity stands in the record, and there are as many
things in the record as identities were given out. -/
structure Recorded (made : List Value) (σ : State) : Prop where
  all : σ.All (Listed made)
  count : made.length = σ.store.identities

theorem Listed.append {made : List Value} {v : Value} (h : Listed made v) (more : List Value) :
    Listed (made ++ more) v := by
  obtain ⟨id, hid, hmade⟩ := h
  exact ⟨id, hid, List.getElem?_append_left (List.getElem?_eq_some_iff.1 hmade).1 ▸ hmade⟩

/-- What stands in a record is equal if it is identical. -/
theorem eq_of_identical {made : List Value} {v w : Value}
    (hv : v.identity? ≠ none → Listed made v) (hw : w.identity? ≠ none → Listed made w)
    (h : v.identical w = true) : v = w := by
  have hcomposite {id : Identity} (hid : v.identity? = some id) (hid' : w.identity? = some id) :
      v = w := by
    obtain ⟨i, hi, hmade⟩ := hv (by simp [hid])
    obtain ⟨j, hj, hmade'⟩ := hw (by simp [hid'])
    obtain rfl : id = i := Option.some.inj (hid.symm.trans hi)
    obtain rfl : id = j := Option.some.inj (hid'.symm.trans hj)
    exact Option.some.inj (hmade.symm.trans hmade')
  unfold Value.identical at h
  split at h
  · rw [eq_of_beq h]
  · rfl
  · exact hcomposite rfl (congrArg some (eq_of_beq h).symm)
  · exact hcomposite rfl (congrArg some (eq_of_beq h).symm)
  · exact hcomposite rfl (congrArg some (eq_of_beq h).symm)
  · rw [eq_of_beq h]
  · cases h

namespace Recorded

variable {made : List Value} {σ σ' : State}

theorem listed (h : Recorded made σ) {v : Value} (hv : σ.Holds v) (hne : v.identity? ≠ none) :
    Listed made v :=
  State.all_iff.1 h.all v hv hne

/-- A step that makes something adds it to the record. -/
theorem step (h : Recorded made σ) (hstep : σ.step = some σ') :
    ∃ more, Recorded (made ++ more) σ' := by
  have hall (more : List Value) : σ.All (Listed (made ++ more)) :=
    State.all_iff.2 fun v hv hne => (h.listed hv hne).append more
  by_cases hmakes : ∃ v, σ.Makes v
  · obtain ⟨v, hv⟩ := hmakes
    obtain ⟨-, hstore, hid⟩ := State.step_of_makes hv hstep
    refine ⟨[v], (hall [v]).step (fun w hw => ?_) hstep, ?_⟩
    · obtain rfl := hv.unique hw
      refine ⟨_, hid, ?_⟩
      rw [Store.newIdentity, ← h.count]
      simp
    · rw [hstore, Store.newIdentity, List.length_append, h.count]
      rfl
  · have hsame := (State.identities_eq_of_step hstep).resolve_right hmakes
    refine ⟨[], (hall []).step (fun w hw => absurd ⟨w, hw⟩ hmakes) hstep, ?_⟩
    rw [hsame, List.append_nil, h.count]

/-- The next identity is none of those that the machine has. -/
theorem identity?_ne (h : Recorded made σ) {v : Value} (hv : σ.Holds v) :
    v.identity? ≠ some σ.store.newIdentity.1 := by
  intro hid
  obtain ⟨id, hid', hmade⟩ := h.listed hv (by simp [hid])
  obtain rfl : _ = id := Option.some.inj (hid.symm.trans hid')
  have hlt := (List.getElem?_eq_some_iff.1 hmade).1
  rw [h.count] at hlt
  exact Nat.lt_irrefl _ hlt

theorem steps (h : Recorded made σ) {n : Nat} (hsteps : Steps n σ σ') :
    ∃ more, Recorded (made ++ more) σ' := by
  induction hsteps generalizing made with
  | refl => exact ⟨[], by rwa [List.append_nil]⟩
  | head hstep _ ih =>
    obtain ⟨more, h⟩ := h.step hstep
    obtain ⟨more', h⟩ := ih h
    exact ⟨more ++ more', by rwa [← List.append_assoc]⟩

/-- Whatever program is started, the record stays. -/
theorem start (h : Recorded made σ) (p : Program) (scope : ScopeId) :
    Recorded made (.start p scope σ.store) :=
  ⟨⟨List.forall_mem_singleton.2 .null, nofun, h.all.store⟩, h.count⟩

end Recorded

/-! ## The moments of a session -/

/-- From one moment to a later one: by steps, and where a program has come
to rest by starting another one in the scope of the session. -/
inductive Later (scope : ScopeId) (σ : State) : State → Prop
  | refl : Later scope σ σ
  | step {σ' σ'' : State} : Later scope σ σ' → σ'.step = some σ'' → Later scope σ σ''
  | next {σ' : State} {v : Value} (p : Program) :
    Later scope σ σ' → σ'.result? = some v → Later scope σ (.start p scope σ'.store)

/-- A moment of a session that began with nothing bound. -/
def Moment (σ : State) : Prop :=
  ∃ p, Later Session.new.scope (.start p Session.new.scope Session.new.store) σ

section

variable {made : List Value} {scope : ScopeId} {σ σ' : State} {n : Nat}

theorem Later.steps (h : Later scope σ σ') {σ'' : State} (hsteps : Steps n σ' σ'') :
    Later scope σ σ'' := by
  induction hsteps with
  | refl => exact h
  | head hstep _ ih => exact ih (h.step hstep)

theorem Later.recorded (h : Later scope σ σ') (hσ : Recorded made σ) :
    ∃ more, Recorded (made ++ more) σ' := by
  induction h with
  | refl => exact ⟨[], by rwa [List.append_nil]⟩
  | step _ hstep ih =>
    obtain ⟨more, h⟩ := ih
    obtain ⟨more', h⟩ := h.step hstep
    exact ⟨more ++ more', by rwa [← List.append_assoc]⟩
  | next p _ _ ih =>
    obtain ⟨more, h⟩ := ih
    exact ⟨more, h.start p scope⟩

theorem recorded_new (p : Program) (scope : ScopeId) :
    Recorded [] (.start p scope Session.new.store) := by
  refine ⟨⟨List.forall_mem_singleton.2 .null, nofun, fun v hv => ?_⟩, rfl⟩
  obtain ⟨id, sc, name, hsc, -⟩ := Store.bound_of_newScope hv
  cases hsc

theorem Moment.exists_recorded (h : Moment σ) : ∃ made, Recorded made σ := by
  obtain ⟨p, h⟩ := h
  obtain ⟨made, h⟩ := h.recorded (recorded_new p _)
  exact ⟨_, h⟩

theorem Moment.proper (h : Moment σ) : σ.Proper := by
  obtain ⟨p, h⟩ := h
  -- the scope of the session is there for every program
  suffices σ.Proper ∧ (σ.store.scope? Session.new.scope).isSome from this.1
  induction h with
  | refl => exact ⟨⟨rfl, nofun⟩, rfl⟩
  | step _ hstep ih => exact ⟨ih.1.step hstep, State.isSome_scope?_of_step ih.2 hstep⟩
  | next p _ _ ih => exact ⟨⟨ih.2, nofun⟩, ih.2⟩

/-! ## Sessions and their moments -/

/-- A session goes on with a program that the machine brings to rest. -/
theorem runs_concat_of_rests {results : List Value} {session : Session} {s s' : Store} {v : Value}
    {p : Program} (h : session.Runs results ⟨s, scope⟩) (hrests : Rests p scope s v s') :
    session.Runs (results ++ [v]) ⟨s', scope⟩ := by
  obtain ⟨depth, hrun⟩ := results_iff_rests.2 hrests
  have hlast : Session.run depth ⟨s, scope⟩ p = some (v, ⟨s', scope⟩) :=
    Session.run_eq_some_iff.2 ⟨s', hrun, rfl⟩
  generalize (⟨s, scope⟩ : Session) = session' at h hlast
  induction h with
  | nil => exact .cons hlast (.nil _)
  | cons hfirst _ ih => exact .cons hfirst (ih hlast)

/-- Before every moment some programs were run, and the machine is on its
way through another one. -/
theorem Moment.exists_runs (h : Moment σ) :
    ∃ results s p n, Session.new.Runs results ⟨s, Session.new.scope⟩ ∧
      Steps n (.start p Session.new.scope s) σ := by
  obtain ⟨p, h⟩ := h
  induction h with
  | refl => exact ⟨[], _, p, 0, .nil _, .refl _⟩
  | step _ hstep ih =>
    obtain ⟨results, s, p', n, hruns, hsteps⟩ := ih
    exact ⟨results, s, p', n + 1, hruns, hsteps.trans (.single hstep)⟩
  | @next σ' v p'' _ hresult ih =>
    obtain ⟨results, s, p', n, hruns, hsteps⟩ := ih
    have hrests : Rests p' Session.new.scope s v σ'.store := ⟨n, σ', hsteps, hresult, rfl⟩
    exact ⟨results ++ [v], _, p'', 0, runs_concat_of_rests hruns hrests, .refl _⟩

/-- A program that a session runs leads to a moment at which it rests. -/
theorem exists_moment_of_run {session session' : Session} {depth : Nat} {p : Program} {v : Value}
    (hscope : session.scope = Session.new.scope)
    (hstart : ∀ p, Moment (.start p session.scope session.store))
    (hrun : session.run depth p = some (v, session')) :
    session'.scope = Session.new.scope ∧
      ∃ σ, Moment σ ∧ σ.result? = some v ∧ σ.store = session'.store := by
  obtain ⟨s', hprogram, rfl⟩ := Session.run_eq_some_iff.1 hrun
  obtain ⟨n, σ, hsteps, hresult, hstore⟩ := rests_of_run hprogram
  obtain ⟨p', hlater⟩ := hstart p
  exact ⟨hscope, σ, ⟨p', hlater.steps hsteps⟩, hresult, hstore⟩

theorem exists_moment_of_runs {session session' : Session} {results : List Value} {v : Value}
    (h : session.Runs results session') (hscope : session.scope = Session.new.scope)
    (hstart : ∀ p, Moment (.start p session.scope session.store))
    (hlast : results.getLast? = some v) :
    ∃ σ, Moment σ ∧ σ.result? = some v ∧ σ.store = session'.store := by
  induction h with
  | nil => cases hlast
  | @cons depth p result results session session' session'' hrun hruns ih =>
    obtain ⟨hscope', σ, hmoment, hresult, hstore⟩ := exists_moment_of_run hscope hstart hrun
    cases results with
    | nil =>
      cases hruns
      cases hlast
      exact ⟨σ, hmoment, hresult, hstore⟩
    | cons result' results =>
      rw [List.getLast?_cons_cons] at hlast
      refine ih hscope' (fun p => ?_) hlast
      obtain ⟨p', hlater⟩ := hmoment
      rw [hscope', ← hstore]
      exact ⟨p', hlater.next p hresult⟩

/-- **The moments at which a program has come to rest are the ends of the
programs that a session runs.** -/
theorem exists_moment_iff_runs {v : Value} {s : Store} :
    (∃ σ, Moment σ ∧ σ.result? = some v ∧ σ.store = s) ↔
      ∃ results, Session.new.Runs (results ++ [v]) ⟨s, Session.new.scope⟩ := by
  constructor
  · rintro ⟨σ, hmoment, hresult, rfl⟩
    obtain ⟨results, s, p, n, hruns, hsteps⟩ := hmoment.exists_runs
    exact ⟨results, runs_concat_of_rests hruns ⟨n, σ, hsteps, hresult, rfl⟩⟩
  · rintro ⟨results, hruns⟩
    exact exists_moment_of_runs hruns rfl (fun p => ⟨p, .refl⟩) List.getLast?_concat

/-- The results of a session are recorded, and so is all that it leaves. -/
theorem exists_recorded_of_runs {session session' : Session} {results : List Value}
    (h : session.Runs results session')
    (hstart : ∀ p, Recorded made (.start p session.scope session.store)) :
    ∃ more, (∀ p, Recorded (made ++ more) (.start p session'.scope session'.store)) ∧
      ∀ v ∈ results, v.Within (Listed (made ++ more)) := by
  induction h generalizing made with
  | nil => exact ⟨[], by rwa [List.append_nil], nofun⟩
  | @cons depth p result results session session' session'' hrun hruns ih =>
    obtain ⟨s', hprogram, rfl⟩ := Session.run_eq_some_iff.1 hrun
    obtain ⟨n, σ, hsteps, hresult, rfl⟩ := rests_of_run hprogram
    obtain ⟨more, hσ⟩ := (hstart p).steps hsteps
    obtain ⟨more', hlast, hresults⟩ := ih fun p => hσ.start p _
    rw [List.append_assoc] at hlast hresults
    refine ⟨more ++ more', hlast, List.forall_mem_cons.2 ⟨?_, hresults⟩⟩
    rw [← List.append_assoc]
    exact (hσ.all.result hresult).mono fun w hw => hw.append more'

end

end Machine

open Machine (Later Moment)

/-- A value is reached from the scopes of a session or from some results. -/
def Session.Reaches (session : Session) (results : List Value) (v : Value) : Prop :=
  ∃ r, (r ∈ results ∨ session.store.Bound r) ∧ r.Holds session.store v

/-- **What is reached after some programs is equal if it is identical.** -/
theorem Session.Runs.eq_of_identical {results : List Value} {session : Session}
    (h : Session.new.Runs results session) {v w : Value} (hv : session.Reaches results v)
    (hw : session.Reaches results w) (hidentical : v.identical w = true) : v = w := by
  obtain ⟨made, hrecorded, hresults⟩ :=
    Machine.exists_recorded_of_runs h fun p => Machine.recorded_new p _
  -- the results and the scopes, as if a machine had come to them
  let σ : Machine.State := ⟨.values results, [], session.scope, session.store⟩
  have hall : σ.All (Machine.Listed ([] ++ made)) :=
    ⟨hresults, nofun, (hrecorded ⟨[]⟩).all.store⟩
  have hlisted {v : Value} (hv : session.Reaches results v) (hne : v.identity? ≠ none) :
      Machine.Listed ([] ++ made) v := by
    obtain ⟨r, hr, hholds⟩ := hv
    exact Machine.State.all_iff.1 hall v ⟨r, hr.imp_right .inr, hholds⟩ hne
  exact Machine.eq_of_identical (hlisted hv) (hlisted hw) hidentical

/-- **Identity means one creation.** Whatever is reached after some programs
of a session is equal if it is identical, and so is whatever is reached at
two moments on the way. Every moment on the way has a result or a step. A
step that makes something comes to a value whose identity nothing reached
has, and nothing else with an identity is new; any other step leads to
nothing with an identity that was not reached before. What is handed on is
the value itself, and what is bound is found as such. The moments at which
programs rest are those to which the session gets. -/
theorem identity_means_one_creation :
    (∀ results session, Session.new.Runs results session →
      ∀ v w, session.Reaches results v → session.Reaches results w →
        v.identical w = true → v = w) ∧
    (∀ σ, Moment σ →
      ((∃ v, σ.result? = some v) ∨ ∃ σ', σ.step = some σ') ∧
      (∀ σ', Later Session.new.scope σ σ' →
        ∀ v w, σ.Holds v → σ'.Holds w → v.identical w = true → v = w) ∧
      ∀ σ', σ.step = some σ' →
        (∀ v, σ.Makes v →
          σ'.control = .value v ∧ (∀ w, σ.Holds w → w.identity? ≠ v.identity?) ∧
          ∀ w, σ'.Holds w → w.identity? ≠ none → w = v ∨ σ.Holds w) ∧
        ((∀ v, ¬ σ.Makes v) → ∀ w, σ'.Holds w → w.identity? ≠ none → σ.Holds w) ∧
        (∀ v, σ.Hands v → σ'.control = .value v) ∧
        ∀ name v, σ.Binds name v → σ'.store.lookup σ'.scope name = some v) ∧
    ∀ v s, (∃ σ, Moment σ ∧ σ.result? = some v ∧ σ.store = s) ↔
      ∃ results, Session.new.Runs (results ++ [v]) ⟨s, Session.new.scope⟩ := by
  refine ⟨fun results session h v w => h.eq_of_identical, fun σ hσ => ?_,
    fun v s => Machine.exists_moment_iff_runs⟩
  obtain ⟨made, hmade⟩ := hσ.exists_recorded
  obtain ⟨-, s, p, n, -, hsteps⟩ := hσ.exists_runs
  refine ⟨Machine.exists_result_or_step hsteps, fun σ' hlater v w hv hw => ?_,
    fun σ' hstep => ⟨fun v hmakes => ?_, fun hnone => ?_,
    fun v hv => Machine.State.control_of_hands hv hstep,
    fun name v hv => Machine.State.lookup_of_binds hσ.proper hv hstep⟩⟩
  · obtain ⟨more, hmore⟩ := hlater.recorded hmade
    exact Machine.eq_of_identical (fun hne => (hmade.listed hv hne).append more) (hmore.listed hw)
  · obtain ⟨hcontrol, -, hid⟩ := Machine.State.step_of_makes hmakes hstep
    refine ⟨hcontrol, fun w hw => hid ▸ hmade.identity?_ne hw, ?_⟩
    have hall : σ.All fun w => w = v ∨ σ.Holds w := Machine.State.all_iff.2 fun w hw _ => .inr hw
    exact Machine.State.all_iff.1 (hall.step (fun w hw => .inl (hw.unique hmakes)) hstep)
  · have hall : σ.All σ.Holds := Machine.State.all_iff.2 fun w hw _ => hw
    exact Machine.State.all_iff.1 (hall.step (fun w hw => absurd hw (hnone w)) hstep)

/-- An empty array that was bound, and then looked up, is one and the same;
another empty array, made while that one is bound, has an identity of its
own. -/
theorem bound_array_and_another :
    let a : Value := .array ⟨0⟩ []
    let b : Value := .array ⟨1⟩ []
    (∃ session, Session.new.Runs [.null, a] session ∧ session.Reaches [.null, a] a ∧
      ∀ v, session.Reaches [.null, a] v → v.identical a = true → v = a) ∧
    ∃ σ σ', Moment σ ∧ σ.Holds a ∧ σ.Makes b ∧ σ.step = some σ' ∧ σ'.control = .value b ∧
      a.identity? ≠ b.identity? := by
  intro a b
  let s : Store := ⟨#[⟨⟨[("a", a)]⟩, none⟩], 1⟩
  have hbind : Session.new.run 1 ⟨[.bind "a" (.array [])]⟩ = some (.null, ⟨s, ⟨0⟩⟩) := rfl
  have hname : Session.run 1 ⟨s, ⟨0⟩⟩ ⟨[.expr (.ident "a")]⟩ = some (a, ⟨s, ⟨0⟩⟩) := by
    with_unfolding_all rfl
  have hruns : Session.new.Runs [.null, a] ⟨s, ⟨0⟩⟩ := .cons hbind (.cons hname (.nil _))
  have hreaches : Session.Reaches ⟨s, ⟨0⟩⟩ [.null, a] a := ⟨a, .inl (.tail _ (.head _)), .refl a⟩
  refine ⟨⟨_, hruns, hreaches, fun v hv hidentical => ?_⟩, ?_⟩
  · exact identity_means_one_creation.1 _ _ hruns v a hv hreaches hidentical
  · -- the first program comes to rest, and the second is about to make its array
    have hfirst : Machine.Steps 8
        (.start ⟨[.bind "a" (.array [])]⟩ Session.new.scope Session.new.store)
        ⟨.value .null, [], ⟨0⟩, s⟩ :=
      .head rfl <| .head rfl <| .head rfl <| .head rfl <| .head rfl <| .head rfl <| .head rfl <|
        .head rfl (.refl _)
    have hsecond : Machine.Steps 4 (.start ⟨[.expr (.array [])]⟩ ⟨0⟩ s)
        ⟨.values [], [.array, .statement []], ⟨0⟩, s⟩ :=
      .head rfl <| .head rfl <| .head rfl <| .head rfl (.refl _)
    have hmoment : Moment ⟨.values [], [.array, .statement []], ⟨0⟩, s⟩ :=
      ⟨_, ((Later.refl.steps hfirst).next _ rfl).steps hsecond⟩
    have hholds : Machine.State.Holds ⟨.values [], [.array, .statement []], ⟨0⟩, s⟩ a :=
      ⟨a, .inr (.inr ⟨⟨0⟩, _, "a", rfl, rfl⟩), .refl a⟩
    have hmakes : Machine.State.Makes ⟨.values [], [.array, .statement []], ⟨0⟩, s⟩ b := .array
    obtain ⟨-, -, hsteps⟩ := identity_means_one_creation.2.1 _ hmoment
    obtain ⟨hcontrol, hne, -⟩ := (hsteps _ rfl).1 b hmakes
    exact ⟨_, _, hmoment, hholds, hmakes, rfl, hcontrol, hne a hholds⟩

end MonkeyLang
