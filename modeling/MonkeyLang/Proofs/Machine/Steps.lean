import MonkeyLang.Proofs.Machine.Values
/-!
# What a step can do

`State.Does` says all that a step of the machine can do to its values, its
frames, its scope and its store, in six cases. Nothing that has an identity
comes up in any of them that was not there before, but for what is made;
and only the five operations of `State.Makes` make something.

Whatever is shown of all runs rests on `State.step_does` and not on the
single steps.
-/

namespace MonkeyLang

namespace Machine.State

variable {σ σ' : State} {v w : Value}

/-! ## What is made -/

/-- **The operations that make something**, and what they make: an array
literal whose elements have been evaluated, a hash literal whose pairs have,
a function literal, `tail` of an array that is not empty, and `append`. -/
inductive Makes : State → Value → Prop where
  | array {vs : List Value} {K : List Frame} {scope : ScopeId} {s : Store} :
    Makes ⟨.values vs, .array :: K, scope, s⟩ (.array s.newIdentity.1 vs)
  | hash {entries : List (HashKey × (Value × Value))} {K : List Frame} {scope : ScopeId}
    {s : Store} :
    Makes ⟨.entries entries, .hash :: K, scope, s⟩ (.hash s.newIdentity.1 (.ofList entries))
  | function {parameters : List String} {body : List Stmt} {K : List Frame} {scope : ScopeId}
    {s : Store} :
    Makes ⟨.expr (.function parameters body), K, scope, s⟩
      (.function s.newIdentity.1 ⟨parameters, body, scope⟩)
  | tail {id : Identity} {first : Value} {rest : List Value} {K : List Frame} {scope : ScopeId}
    {s : Store} :
    Makes ⟨.apply (.builtin .tail) [.array id (first :: rest)], K, scope, s⟩
      (.array s.newIdentity.1 rest)
  | append {id : Identity} {elements : List Value} {v : Value} {K : List Frame}
    {scope : ScopeId} {s : Store} :
    Makes ⟨.apply (.builtin .append) [.array id elements, v], K, scope, s⟩
      (.array s.newIdentity.1 (elements ++ [v]))

/-- A builtin that makes an array is `tail` or `append`. -/
theorem makes_of_newArray {b : Builtin} {arguments elements : List Value} {K : List Frame}
    {scope : ScopeId} {s : Store} (h : b.apply arguments = .ok (.newArray elements)) :
    Makes ⟨.apply (.builtin b) arguments, K, scope, s⟩ (.array s.newIdentity.1 elements) := by
  unfold Builtin.apply at h
  split at h
  · cases h
  next hlength =>
  split at h
  · next id elements' others =>
    cases b with
    | tail =>
      cases elements' with
      | nil => cases h
      | cons first rest =>
        obtain rfl : others = [] :=
          List.eq_nil_of_length_eq_zero (by simpa [Builtin.arity] using hlength)
        cases h
        exact .tail
    | append =>
      obtain ⟨v, rfl⟩ : ∃ v, others = [v] :=
        List.length_eq_one_iff.1 (by simpa [Builtin.arity] using hlength)
      cases h
      exact .append
    | _ => cases h
  all_goals cases h

/-- A state tells what is made in it. -/
theorem Makes.unique (h : σ.Makes v) (h' : σ.Makes w) : v = w := by
  cases h <;> cases h' <;> rfl

/-- What is made is what the machine comes to, and the scopes stay as they
are. -/
theorem step_of_makes (h : σ.Makes v) (hstep : σ.step = some σ') :
    σ'.control = .value v ∧ σ'.store = σ.store.newIdentity.2 ∧
      v.identity? = some σ.store.newIdentity.1 := by
  cases h <;> cases hstep <;> exact ⟨rfl, rfl, rfl⟩

/-! ## What a step can do -/

/-- Values with nothing in them that is not in the machine already. -/
def Offers (σ : State) (vs : List Value) : Prop :=
  ∀ known, σ.All known → ∀ v ∈ vs, v.Within known

/-- **What a step can do**: turn to something else or to something that a
frame waits for, make a value, bind a name, enter the body of a function or
leave it. All but entering may use up a frame. -/
inductive Does (σ : State) : State → Prop where
  | turn {control : Control} {frames : List Frame} :
    frames <:+ σ.frames → σ.Offers control.held → Does σ ⟨control, frames, σ.scope, σ.store⟩
  | await {control : Control} {frame : Frame} {frames : List Frame} :
    frames <:+ σ.frames → frame.isCall = false → σ.Offers frame.held →
      σ.Offers control.held → Does σ ⟨control, frame :: frames, σ.scope, σ.store⟩
  | make {v : Value} {frames : List Frame} :
    frames <:+ σ.frames → σ.Makes v → (∀ known, σ.All known → known v → v.Within known) →
      Does σ ⟨.value v, frames, σ.scope, σ.store.newIdentity.2⟩
  | bind {name : String} {v : Value} {frames : List Frame} :
    frames <:+ σ.frames → σ.Offers [v] →
      Does σ ⟨.value .null, frames, σ.scope, σ.store.bind σ.scope name v⟩
  | enter {body : List Stmt} {outer : ScopeId} {bindings : List (String × Value)} :
    σ.Offers (bindings.map Prod.snd) →
      Does σ ⟨.stmts .null body, .call σ.scope :: σ.frames, (σ.store.newScope (some outer)).1,
        (σ.store.newScope (some outer)).2.bindAll (σ.store.newScope (some outer)).1 bindings⟩
  | leave {control : Control} {caller : ScopeId} {frames : List Frame} :
    .call caller :: frames = σ.frames → σ.Offers control.held →
      Does σ ⟨control, frames, caller, σ.store⟩

namespace Offers

theorem nil : σ.Offers [] := fun _ _ => nofun

/-- What has neither parts nor an identity is new to no machine. -/
theorem plain (hv : ∀ known, v.Within known) : σ.Offers [v] :=
  fun known _ => List.forall_mem_singleton.2 (hv known)

theorem control (σ : State) : σ.Offers σ.control.held := fun _ h => h.control

theorem frame {frame : Frame} (hframe : frame ∈ σ.frames) : σ.Offers frame.held :=
  fun _ h => h.frames frame hframe

theorem append {vs ws : List Value} (hv : σ.Offers vs) (hw : σ.Offers ws) :
    σ.Offers (vs ++ ws) :=
  fun known h => List.forall_mem_append.2 ⟨hv known h, hw known h⟩

/-- What an operation comes to. -/
theorem ofExcept {r : Except EvalError Value}
    (h : ∀ known v, σ.All known → r = .ok v → v.Within known) :
    σ.Offers (Control.ofExcept r).held := by
  cases r with
  | ok v => exact fun known hall => List.forall_mem_singleton.2 (h known v hall rfl)
  | error e => exact nil

end Offers

theorem enterExpr_does {e : Expr} {K : List Frame} {scope : ScopeId} {s : Store} :
    Does ⟨.expr e, K, scope, s⟩ (enterExpr ⟨.expr e, K, scope, s⟩ e) := by
  cases e with
  | int n => exact .turn List.suffix_rfl (.plain fun _ => .int n)
  | bool b => exact .turn List.suffix_rfl (.plain fun _ => .bool b)
  | string text => exact .turn List.suffix_rfl (.plain fun _ => .string text)
  | ident name =>
    dsimp only [enterExpr]
    split
    · next v hfound =>
      have hbound : s.Bound v := Store.bound_of_lookup hfound
      exact .turn List.suffix_rfl fun _ h => List.forall_mem_singleton.2 (h.store v hbound)
    · next b _ _ => exact .turn List.suffix_rfl (.plain fun _ => .builtin b)
    · exact .turn List.suffix_rfl .nil
  | function parameters body => exact .make List.suffix_rfl .function fun _ _ hv => .function hv
  | _ => exact .await List.suffix_rfl rfl .nil .nil

theorem enterStmt_does {st : Stmt} {K : List Frame} {scope : ScopeId} {s : Store} :
    Does ⟨.stmt st, K, scope, s⟩ (enterStmt ⟨.stmt st, K, scope, s⟩ st) := by
  cases st with
  | bind name value => exact .await List.suffix_rfl rfl .nil .nil
  | ret value => exact .await List.suffix_rfl rfl .nil .nil
  | expr value => exact .turn List.suffix_rfl .nil
  | block body => exact .turn List.suffix_rfl (.plain fun _ => .null)

/-- A call enters a body, makes an array, comes to something at hand or
fails. -/
theorem enterCall_does {f : Value} {arguments : List Value} {K : List Frame} {scope : ScopeId}
    {s : Store} :
    Does ⟨.apply f arguments, K, scope, s⟩
      (enterCall ⟨.apply f arguments, K, scope, s⟩ f arguments) := by
  have ha (known : Value → Prop) (h : All known ⟨.apply f arguments, K, scope, s⟩) :
      ∀ v ∈ arguments, v.Within known := fun v hv => h.control v (.tail _ hv)
  unfold enterCall
  split
  · next id closure _ =>
    split
    · exact .turn List.suffix_rfl .nil
    · refine .enter fun known h w hw => ?_
      obtain ⟨binding, hbinding, rfl⟩ := List.mem_map.1 hw
      exact ha known h _ (List.of_mem_zip hbinding).2
  · next b _ =>
    split
    · next v happly =>
      refine .turn List.suffix_rfl fun known h => List.forall_mem_singleton.2 ?_
      exact (Value.Within.inherited known).builtin_apply (ha known h) happly
    · next elements happly =>
      refine .make List.suffix_rfl (makes_of_newArray happly) fun known h hv => ?_
      exact .array hv ((Value.Within.inherited known).builtin_apply (ha known h) happly)
    · exact .turn List.suffix_rfl .nil
  · exact .turn List.suffix_rfl .nil

section

variable {frame : Frame} {K : List Frame} {scope : ScopeId} {s : Store}

theorem takeValue_does (hstep : takeValue ⟨.value v, K, scope, s⟩ v frame = some σ') :
    Does ⟨.value v, frame :: K, scope, s⟩ σ' := by
  have hK : K <:+ frame :: K := List.suffix_cons _ _
  have hv : Offers ⟨.value v, frame :: K, scope, s⟩ [v] := .control _
  have hframe : Offers ⟨.value v, frame :: K, scope, s⟩ frame.held := .frame (.head _)
  cases frame with
  | operand op =>
    cases hstep
    exact .turn hK (.ofExcept fun known _ _ => (Value.Within.inherited known).unary)
  | left op right =>
    cases hstep
    exact .await hK rfl hv .nil
  | right op left =>
    cases hstep
    exact .turn hK (.ofExcept fun known _ _ => (Value.Within.inherited known).binary)
  | condition consequence alternative =>
    cases hstep
    exact .turn hK (.plain fun _ => .null)
  | callee arguments =>
    cases hstep
    exact .await hK rfl hv .nil
  | indexed position =>
    cases hstep
    exact .await hK rfl hv .nil
  | position indexed =>
    cases hstep
    exact .turn hK (.ofExcept fun known _ h =>
      (Value.Within.inherited known).index (hframe known h _ (.head _)))
  | element rest =>
    cases hstep
    exact .await hK rfl hv .nil
  | key value rest =>
    dsimp only [takeValue] at hstep
    split at hstep <;> cases hstep
    · exact .await hK rfl hv .nil
    · exact .turn hK .nil
  | keyed content key rest =>
    cases hstep
    exact .await hK rfl (hframe.append hv) .nil
  | bound name =>
    cases hstep
    exact .bind hK hv
  | returned =>
    cases hstep
    exact .turn hK hv
  | statement rest =>
    cases hstep
    exact .turn hK hv
  | call caller =>
    cases hstep
    exact .leave rfl hv
  | _ => cases hstep

theorem takeValues_does {vs : List Value}
    (hstep : takeValues ⟨.values vs, K, scope, s⟩ vs frame = some σ') :
    Does ⟨.values vs, frame :: K, scope, s⟩ σ' := by
  have hK : K <:+ frame :: K := List.suffix_cons _ _
  have hvs : Offers ⟨.values vs, frame :: K, scope, s⟩ vs := .control _
  have hframe : Offers ⟨.values vs, frame :: K, scope, s⟩ frame.held := .frame (.head _)
  cases frame with
  | arguments f =>
    cases hstep
    exact .turn hK (hframe.append hvs)
  | array =>
    cases hstep
    exact .make hK .array fun known h hv => .array hv (hvs known h)
  | elements first =>
    cases hstep
    exact .turn hK (hframe.append hvs)
  | _ => cases hstep

theorem takeEntries_does {entries : List (HashKey × (Value × Value))}
    (hstep : takeEntries ⟨.entries entries, K, scope, s⟩ entries frame = some σ') :
    Does ⟨.entries entries, frame :: K, scope, s⟩ σ' := by
  have hK : K <:+ frame :: K := List.suffix_cons _ _
  have hentries : Offers ⟨.entries entries, frame :: K, scope, s⟩ (Control.entries entries).held :=
    .control _
  have hframe : Offers ⟨.entries entries, frame :: K, scope, s⟩ frame.held := .frame (.head _)
  cases frame with
  | hash =>
    cases hstep
    refine .make hK .hash fun known h hv => .hash hv fun entry hentry => ?_
    have hmem := Table.mem_of_mem_ofList hentry
    exact ⟨hentries known h _ (List.mem_flatMap.2 ⟨entry, hmem, .head _⟩),
      hentries known h _ (List.mem_flatMap.2 ⟨entry, hmem, .tail _ (.head _)⟩)⟩
  | entries content key value =>
    cases hstep
    exact .turn hK (hframe.append hentries)
  | _ => cases hstep

theorem takeUnwind_does {reason : Unwind} :
    Does ⟨.unwind reason, frame :: K, scope, s⟩
      (takeUnwind ⟨.unwind reason, K, scope, s⟩ reason frame) := by
  have hreason : Offers ⟨.unwind reason, frame :: K, scope, s⟩ (Control.unwind reason).held :=
    .control _
  cases frame with
  | call caller =>
    cases reason with
    | returned v => exact .leave rfl hreason
    | failed e => exact .leave rfl .nil
  | _ => cases reason <;> exact .turn (List.suffix_cons _ _) hreason

end

/-- **A step does one of these.** -/
theorem step_does (hstep : σ.step = some σ') : σ.Does σ' := by
  obtain ⟨control, frames, scope, s⟩ := σ
  cases control with
  | expr e =>
    cases hstep
    exact enterExpr_does
  | exprs es =>
    cases es <;> cases hstep
    · exact .turn List.suffix_rfl .nil
    · exact .await List.suffix_rfl rfl .nil .nil
  | pairs pairs =>
    cases pairs <;> cases hstep
    · exact .turn List.suffix_rfl .nil
    · exact .await List.suffix_rfl rfl .nil .nil
  | stmt st =>
    cases hstep
    exact enterStmt_does
  | stmts last body =>
    cases body <;> cases hstep
    · exact .turn List.suffix_rfl (.control _)
    · exact .await List.suffix_rfl rfl .nil .nil
  | apply f arguments =>
    cases hstep
    exact enterCall_does
  | value v =>
    cases frames with
    | nil => cases hstep
    | cons frame frames => exact takeValue_does hstep
  | values vs =>
    cases frames with
    | nil => cases hstep
    | cons frame frames => exact takeValues_does hstep
  | entries entries =>
    cases frames with
    | nil => cases hstep
    | cons frame frames => exact takeEntries_does hstep
  | unwind reason =>
    cases frames with
    | nil => cases hstep
    | cons frame frames =>
      cases hstep
      exact takeUnwind_does

/-! ## What comes of it -/

/-- **A step adds nothing with an identity but what it makes.** -/
theorem All.step {known : Value → Prop} (h : σ.All known) (hmade : ∀ v, σ.Makes v → known v)
    (hstep : σ.step = some σ') : σ'.All known := by
  have hframes {frames : List Frame} (hsuffix : frames <:+ σ.frames) :
      ∀ frame ∈ frames, ∀ v ∈ frame.held, v.Within known :=
    fun frame hframe => h.frames frame (hsuffix.subset hframe)
  cases step_does hstep with
  | turn hsuffix hc => exact ⟨hc known h, hframes hsuffix, h.store⟩
  | await hsuffix _ hframe hc =>
    exact ⟨hc known h, List.forall_mem_cons.2 ⟨hframe known h, hframes hsuffix⟩, h.store⟩
  | make hsuffix hmakes hv =>
    exact ⟨List.forall_mem_singleton.2 (hv known h (hmade _ hmakes)), hframes hsuffix, h.store⟩
  | bind hsuffix hv =>
    refine ⟨List.forall_mem_singleton.2 .null, hframes hsuffix, fun w hw => ?_⟩
    obtain rfl | hw := Store.bound_of_bind hw
    · exact hv known h w (.head _)
    · exact h.store w hw
  | enter hbindings =>
    refine ⟨List.forall_mem_singleton.2 .null,
      List.forall_mem_cons.2 ⟨nofun, hframes List.suffix_rfl⟩, fun w hw => ?_⟩
    rcases Store.bound_of_bindAll hw with hw | ⟨binding, hbinding, rfl⟩
    · exact h.store w (Store.bound_of_newScope hw)
    · exact hbindings known h _ (List.mem_map_of_mem hbinding)
  | leave hframe hc => exact ⟨hc known h, hframes ⟨[_], hframe⟩, h.store⟩

/-- A step that makes nothing gives out no identity. -/
theorem identities_eq_of_step (hstep : σ.step = some σ') :
    σ'.store.identities = σ.store.identities ∨ ∃ v, σ.Makes v := by
  cases step_does hstep with
  | make _ hmakes _ => exact .inr ⟨_, hmakes⟩
  | enter => exact .inl Store.identities_bindAll
  | _ => exact .inl rfl

end Machine.State

end MonkeyLang
