import MonkeyLang.Proofs.Machine.Identity
/-!
# In the hands of a host

A host makes scopes and runs programs, statements and expressions in them.
It keeps what these come to and whatever it finds in that or in a scope,
puts together values of its own, signals included, and binds what it keeps.
`Hosted` has the values that it may have kept and the store that it may have
left by any of that, and `Reachable` the moments of what it runs then; those
of a session are among them (`Moment.reachable`).

What a host puts together has an identity of its own, like everything that a
program makes. So there still is a record of all that was made, and whatever
is within reach is equal if it is identical (`Reachable.eq_of_identical`).
-/

namespace MonkeyLang

/-- Parts of parts are parts. -/
theorem Value.Part.trans {u v w : Value} (h : u.Part v) (h' : v.Part w) : u.Part w := by
  induction h with
  | refl => exact h'
  | element hmem _ ih => exact .element hmem (ih h')
  | key hmem _ ih => exact .key hmem (ih h')
  | value hmem _ ih => exact .value hmem (ih h')
  | payload _ ih => exact .payload (ih h')

theorem Value.Within.returned {known : Value → Prop} {v : Value} (h : v.Within known) :
    (Value.returned v).Within known := by
  intro w hw hne
  cases hw with
  | refl => exact absurd rfl hne
  | payload hw => exact h w hw hne

/-- **What a host can put together** from the values that it keeps, given an
identity for it. -/
inductive Value.Assembled (kept : List Value) (id : Identity) : Value → Prop where
  | int (n : Int64) : Assembled kept id (.int n)
  | bool (b : Bool) : Assembled kept id (.bool b)
  | string (text : String) : Assembled kept id (.string text)
  | null : Assembled kept id .null
  | builtin (b : Builtin) : Assembled kept id (.builtin b)
  | array {elements : List Value} : (∀ v ∈ elements, v ∈ kept) →
      Assembled kept id (.array id elements)
  | hash {entries : List (HashKey × (Value × Value))} :
      (∀ entry ∈ entries, entry.2.1 ∈ kept ∧ entry.2.2 ∈ kept) →
      Assembled kept id (.hash id (.ofList entries))
  | function (closure : Closure) : Assembled kept id (.function id closure)
  | returned {v : Value} : v ∈ kept → Assembled kept id (.returned v)
  | error (message : String) : Assembled kept id (.error message)

/-- **The values that a host may have kept, and the store that it may have
left.** -/
inductive Hosted : List Value → Store → Prop where
  | start : Hosted [] .empty
  /-- It makes a scope. -/
  | scope {kept : List Value} {s : Store} (outer : Option ScopeId) :
      Hosted kept s → Hosted kept (s.newScope outer).2
  /-- It runs something, and keeps what that comes to. -/
  | run {kept : List Value} {s s' : Store} {depth : Nat} {node : Node} {scope : ScopeId}
      {v : Value} :
      Hosted kept s → node.run depth scope s = some (v, s') → Hosted (v :: kept) s'
  /-- It keeps what it finds in what it kept or in a scope. -/
  | find {kept : List Value} {s : Store} {r v : Value} :
      Hosted kept s → r ∈ kept ∨ s.Bound r → r.Holds s v → Hosted (v :: kept) s
  /-- It puts something together, and keeps that. -/
  | assemble {kept : List Value} {s : Store} {v : Value} :
      Hosted kept s → v.Assembled kept s.newIdentity.1 → Hosted (v :: kept) s.newIdentity.2
  /-- It binds what it kept. -/
  | bind {kept : List Value} {s : Store} {v : Value} (scope : ScopeId) (name : String) :
      Hosted kept s → v ∈ kept → Hosted kept (s.bind scope name v)

namespace Machine

/-! ## Whatever a host can run -/

/-- What the machine is about to do when it is started on a node. -/
def Control.ofNode : Node → Control
  | .program p => .stmts .null p.statements
  | .statement st => .stmt st
  | .expression e => .expr e

/-- The machine before something that is run in a scope. -/
def State.before (node : Node) (scope : ScopeId) (store : Store) : State :=
  ⟨.ofNode node, [], scope, store⟩

variable {made kept : List Value} {known : Value → Prop} {s s' : Store} {σ σ' : State}
variable {scope : ScopeId} {depth : Nat} {v w : Value}

/-- Where the machine follows an evaluation it gets to the store that this
leaves, and has all that is in the value that this comes to. -/
theorem Follows.exists_steps_of_settle {control : Control} {x : Eval Unwind Value}
    (hx : Follows depth scope control [] x .value)
    (h : x.settle Unwind.toValue s = some (v, s')) :
    ∃ n σ, Steps n ⟨control, [], scope, s⟩ σ ∧ σ.store = s' ∧
      ∀ known, σ.All known → v.Within known := by
  cases hend : x s with
  | none =>
    rw [Eval.settle, hend] at h
    cases h
  | some r =>
    obtain ⟨outcome, s₁⟩ := r
    obtain ⟨n, hsteps⟩ := hx.ends (K := []) hend
    refine ⟨n, _, hsteps, ?_⟩
    rw [Eval.settle, hend] at h
    obtain (w | e) | w := outcome
    · cases h
      exact ⟨rfl, fun known hall => (hall.control w (.head _)).returned⟩
    · cases h
      exact ⟨rfl, fun known _ => .error _⟩
    · cases h
      exact ⟨rfl, fun known hall => hall.control v (.head _)⟩

/-- **Whatever is run, the machine gets to the store that it leaves**, and
then has all that is in the value that it comes to. -/
theorem exists_steps_of_run {node : Node} (h : node.run depth scope s = some (v, s')) :
    ∃ n σ, Steps n (.before node scope s) σ ∧ σ.store = s' ∧
      ∀ known, σ.All known → v.Within known := by
  have hcalls : FollowsCalls (depth + 1) (Value.apply depth) :=
    follows_applyWith (follows_runBody depth)
  cases node with
  | program p =>
    obtain ⟨n, σ, hsteps, hresult, hstore⟩ := rests_of_run h
    exact ⟨n, σ, hsteps, hstore, fun known hall => hall.result hresult⟩
  | statement st => exact (follows_stmt hcalls st).exists_steps_of_settle h
  | expression e => exact (follows_expr hcalls e).exists_steps_of_settle h

/-- Nothing comes up with what is started. -/
theorem State.All.before (h : ∀ v, s.Bound v → v.Within known) (node : Node) (scope : ScopeId) :
    (State.before node scope s).All known := by
  refine ⟨?_, nofun, h⟩
  cases node with
  | program p => exact List.forall_mem_singleton.2 .null
  | statement st => exact nofun
  | expression e => exact nofun

/-! ## The record of what a host has -/

namespace State

/-- The machine with what a host keeps at hand, too. -/
def keeping (σ : State) (kept : List Value) : State :=
  { σ with control := .values (kept ++ σ.control.held) }

theorem has_keeping_iff : (σ.keeping kept).Has v ↔ v ∈ kept ∨ σ.Has v := by
  unfold Has keeping
  simp only [Control.held, List.mem_append, or_assoc]

theorem all_keeping_iff :
    (σ.keeping kept).All known ↔ (∀ v ∈ kept, v.Within known) ∧ σ.All known := by
  constructor
  · intro h
    obtain ⟨hkept, hcontrol⟩ := List.forall_mem_append.1 h.control
    exact ⟨hkept, hcontrol, h.frames, h.store⟩
  · rintro ⟨hkept, h⟩
    exact ⟨List.forall_mem_append.2 ⟨hkept, h.control⟩, h.frames, h.store⟩

/-- What can be reached has nothing else in it. -/
theorem All.within (h : σ.All known) (hv : σ.Holds v) : v.Within known := by
  obtain ⟨r, hr, hpart⟩ := holds_iff.1 hv
  intro w hw hne
  exact all_iff.1 h w (holds_iff.2 ⟨r, hr, hpart.trans hw⟩) hne

end State

/-- All that is kept and all that is bound is in a record. -/
structure OnRecord (made kept : List Value) (s : Store) : Prop where
  kept : ∀ v ∈ kept, v.Within (Listed made)
  bound : ∀ v, s.Bound v → v.Within (Listed made)
  count : made.length = s.identities

namespace OnRecord

theorem start : OnRecord [] [] .empty := by
  refine ⟨nofun, ?_, rfl⟩
  rintro v ⟨id, sc, name, hsc, -⟩
  cases hsc

theorem newScope (h : OnRecord made kept s) (outer : Option ScopeId) :
    OnRecord made kept (s.newScope outer).2 :=
  ⟨h.kept, fun v hv => h.bound v (Store.bound_of_newScope hv), h.count⟩

theorem bind (h : OnRecord made kept s) (scope : ScopeId) (name : String) (hv : v ∈ kept) :
    OnRecord made kept (s.bind scope name v) := by
  refine ⟨h.kept, fun w hw => ?_, h.count⟩
  obtain rfl | hw := Store.bound_of_bind hw
  · exact h.kept w hv
  · exact h.bound w hw

theorem cons (h : OnRecord made kept s) (hv : v.Within (Listed made)) :
    OnRecord made (v :: kept) s :=
  ⟨List.forall_mem_cons.2 ⟨hv, h.kept⟩, h.bound, h.count⟩

/-- What is started on the store is recorded, with all that is kept. -/
theorem recorded (h : OnRecord made kept s) (node : Node) (scope : ScopeId) :
    Recorded made ((State.before node scope s).keeping kept) :=
  ⟨State.all_keeping_iff.2 ⟨h.kept, .before h.bound node scope⟩, h.count⟩

theorem find (h : OnRecord made kept s) {r : Value} (hr : r ∈ kept ∨ s.Bound r)
    (hv : r.Holds s v) : OnRecord made (v :: kept) s := by
  -- what is run next does not matter
  let σ : State := .before (.program ⟨[]⟩) ⟨0⟩ s
  have hholds : (σ.keeping kept).Holds v :=
    ⟨r, State.has_keeping_iff.2 (hr.imp_right fun hr => .inr (.inr hr)), hv⟩
  exact h.cons ((h.recorded _ _).all.within hholds)

/-- The record goes on with whatever is made on the way, and what is kept
stays on it. -/
theorem steps (h : OnRecord made kept s) {node : Node} {n : Nat}
    (hsteps : Steps n (.before node scope s) σ) :
    ∃ more, Recorded (made ++ more) (σ.keeping kept) := by
  have hbefore : Recorded made (.before node scope s) := ⟨.before h.bound node scope, h.count⟩
  obtain ⟨more, hσ⟩ := hbefore.steps hsteps
  have hkept : ∀ w ∈ kept, w.Within (Listed (made ++ more)) :=
    fun w hw => (h.kept w hw).mono fun u hu => hu.append more
  exact ⟨more, State.all_keeping_iff.2 ⟨hkept, hσ.all⟩, hσ.count⟩

theorem run (h : OnRecord made kept s) {node : Node}
    (hrun : node.run depth scope s = some (v, s')) :
    ∃ more, OnRecord (made ++ more) (v :: kept) s' := by
  obtain ⟨n, σ, hsteps, rfl, hv⟩ := exists_steps_of_run hrun
  obtain ⟨more, hσ⟩ := h.steps hsteps
  obtain ⟨hkept, hall⟩ := State.all_keeping_iff.1 hσ.all
  exact ⟨more, .cons ⟨hkept, hall.store, hσ.count⟩ (hv _ hall)⟩

/-- The record goes on with what a host puts together. -/
theorem assemble (h : OnRecord made kept s) (hv : v.Assembled kept s.newIdentity.1) :
    OnRecord (made ++ [v]) (v :: kept) s.newIdentity.2 := by
  have hgrow {w : Value} (hw : w.Within (Listed made)) : w.Within (Listed (made ++ [v])) :=
    hw.mono fun u hu => hu.append [v]
  have hlast (hid : v.identity? = some s.newIdentity.1) : Listed (made ++ [v]) v := by
    refine ⟨_, hid, ?_⟩
    rw [Store.newIdentity, ← h.count]
    simp
  have hkept : ∀ w ∈ kept, w.Within (Listed (made ++ [v])) := fun w hw => hgrow (h.kept w hw)
  refine .cons ⟨hkept, fun w hw => hgrow (h.bound w hw), ?_⟩ ?_
  · rw [List.length_append, h.count]
    rfl
  · cases hv with
    | int n => exact .int n
    | bool b => exact .bool b
    | string text => exact .string text
    | null => exact .null
    | builtin b => exact .builtin b
    | array helements => exact .array (hlast rfl) fun w hw => hkept w (helements w hw)
    | hash hentries =>
      refine .hash (hlast rfl) fun entry hentry => ?_
      obtain ⟨hkey, hvalue⟩ := hentries entry (Table.mem_of_mem_ofList hentry)
      exact ⟨hkept _ hkey, hkept _ hvalue⟩
    | function closure => exact .function (hlast rfl)
    | returned hw => exact (hkept _ hw).returned
    | error message => exact .error message

end OnRecord

end Machine

/-- **Whatever a host does, there is a record of all that was made.** -/
theorem Hosted.exists_onRecord {kept : List Value} {s : Store} (h : Hosted kept s) :
    ∃ made, Machine.OnRecord made kept s := by
  induction h with
  | start => exact ⟨[], .start⟩
  | scope outer _ ih =>
    obtain ⟨made, ih⟩ := ih
    exact ⟨made, ih.newScope outer⟩
  | run _ hrun ih =>
    obtain ⟨made, ih⟩ := ih
    obtain ⟨more, ih⟩ := ih.run hrun
    exact ⟨made ++ more, ih⟩
  | find _ hr hv ih =>
    obtain ⟨made, ih⟩ := ih
    exact ⟨made, ih.find hr hv⟩
  | assemble _ hv ih =>
    obtain ⟨made, ih⟩ := ih
    exact ⟨made ++ [_], ih.assemble hv⟩
  | bind scope name _ hv ih =>
    obtain ⟨made, ih⟩ := ih
    exact ⟨made, ih.bind scope name hv⟩

namespace Machine

/-! ## Reachable moments -/

/-- **A moment of something that a host runs**, together with what the host
has kept before. A host that does nothing is about to run something. -/
def Reachable (kept : List Value) (σ : State) : Prop :=
  ∃ s node scope n, Hosted kept s ∧ Steps n (.before node scope s) σ

/-- A value is within reach when it is found in what the host has kept or in
what the machine has at hand, scopes included. -/
def InReach (kept : List Value) (σ : State) (v : Value) : Prop :=
  ∃ r, (r ∈ kept ∨ σ.Has r) ∧ r.Holds σ.store v

variable {kept : List Value} {σ : State} {v w : Value}

theorem inReach_iff : InReach kept σ v ↔ (σ.keeping kept).Holds v := by
  unfold InReach State.Holds
  simp only [State.has_keeping_iff]
  rfl

theorem Reachable.exists_recorded (h : Reachable kept σ) :
    ∃ made, Recorded made (σ.keeping kept) := by
  obtain ⟨s, node, scope, n, hhosted, hsteps⟩ := h
  obtain ⟨made, hmade⟩ := hhosted.exists_onRecord
  obtain ⟨more, hσ⟩ := hmade.steps hsteps
  exact ⟨made ++ more, hσ⟩

/-- **Whatever is within reach is equal if it is identical.** -/
theorem Reachable.eq_of_identical (h : Reachable kept σ) (hv : InReach kept σ v)
    (hw : InReach kept σ w) (hidentical : v.identical w = true) : v = w := by
  obtain ⟨made, hmade⟩ := h.exists_recorded
  exact Machine.eq_of_identical (hmade.listed (inReach_iff.1 hv)) (hmade.listed (inReach_iff.1 hw))
    hidentical

/-! ## Sessions -/

/-- A session is in the hands of a host that keeps the results. -/
theorem hosted_of_runs {session session' : Session} {results : List Value}
    (h : session.Runs results session') (hstart : Hosted kept session.store) :
    Hosted (results.reverse ++ kept) session'.store := by
  induction h generalizing kept with
  | nil => exact hstart
  | @cons depth p result results session session' session'' hrun _ ih =>
    obtain ⟨s', hprogram, rfl⟩ := Session.run_eq_some_iff.1 hrun
    have hnode : (Node.program p).run depth session.scope session.store = some (result, s') :=
      hprogram
    rw [List.reverse_cons, List.append_assoc]
    exact ih (hstart.run hnode)

/-- **The moments of a session are reachable.** -/
theorem Moment.reachable (h : Moment σ) : ∃ kept, Reachable kept σ := by
  obtain ⟨results, s, p, n, hruns, hsteps⟩ := h.exists_runs
  have hhosted : Hosted results.reverse s := by
    simpa using hosted_of_runs hruns (Hosted.start.scope none)
  exact ⟨results.reverse, s, .program p, Session.new.scope, n, hhosted, hsteps⟩

end Machine

end MonkeyLang
