import MonkeyLang.Proofs.Machine.Identity
/-!
# What lives in a store

A value lives in a store if all that it holds was made in it: the identities
were given out, and the scopes of functions are there. A store is closed if
the same goes for all that its scopes bind, and for the scopes around them.
Nothing else ever comes up: at every moment of a session the store is closed,
and what the machine has come to lives in it (`Machine.Moment.living`).
-/

namespace MonkeyLang

/-- The identity of a value was given out in a store, and the scope of a
function is there. -/
structure Value.Made (s : Store) (v : Value) : Prop where
  identity : ∀ id, v.identity? = some id → id.number < s.identities
  scope : ∀ id closure, v = .function id closure → (s.scope? closure.scope).isSome

/-- All that a value holds was made in a store. -/
def Value.Lives (s : Store) (v : Value) : Prop := v.Within (Value.Made s)

/-- All that the scopes of a store bind lives in it, and the scopes around
them are there. -/
structure Store.Closed (s : Store) : Prop where
  values : ∀ id sc, s.scope? id = some sc → ∀ entry ∈ sc.bindings.entries, entry.2.Lives s
  outer : ∀ id sc outer, s.scope? id = some sc → sc.outer = some outer → (s.scope? outer).isSome

/-- What was made in the one store was made in the other. -/
structure Store.Grows (s s' : Store) : Prop where
  scope : ∀ id, (s.scope? id).isSome → (s'.scope? id).isSome
  identities : s.identities ≤ s'.identities

namespace Store.Grows

variable {s s' s'' : Store}

theorem refl : s.Grows s := ⟨fun _ hid => hid, Nat.le_refl _⟩

theorem trans (h : s.Grows s') (h' : s'.Grows s'') : s.Grows s'' :=
  ⟨fun id hid => h'.scope id (h.scope id hid), Nat.le_trans h.identities h'.identities⟩

theorem newIdentity : s.Grows s.newIdentity.2 := ⟨fun _ hid => hid, Nat.le_succ _⟩

theorem newScope (outer : Option ScopeId) : s.Grows (s.newScope outer).2 :=
  ⟨fun _ hid => isSome_scope?_newScope (.inr hid), Nat.le_refl _⟩

theorem bind (scope : ScopeId) (name : String) (v : Value) : s.Grows (s.bind scope name v) :=
  ⟨fun _ hid => isSome_scope?_bind.trans hid, Nat.le_refl _⟩

theorem bindAll (scope : ScopeId) (bindings : List (String × Value)) :
    s.Grows (s.bindAll scope bindings) := by
  induction bindings generalizing s with
  | nil => exact refl
  | cons binding rest ih => exact (bind scope binding.1 binding.2).trans ih

/-- There are at least as many scopes as there were. -/
theorem size_le (h : s.Grows s') : s.scopes.size ≤ s'.scopes.size := by
  refine Nat.le_of_not_lt fun hlt => ?_
  have hsome : (s'.scope? ⟨s'.scopes.size⟩).isSome :=
    h.scope ⟨s'.scopes.size⟩ (by simpa [Store.scope?] using hlt)
  simp [Store.scope?] at hsome

end Store.Grows

theorem Value.Made.mono {s s' : Store} {v : Value} (h : v.Made s) (hle : s.Grows s') :
    v.Made s' where
  identity id hid := Nat.lt_of_lt_of_le (h.identity id hid) hle.identities
  scope id closure hv := hle.scope _ (h.scope id closure hv)

/-- What lives in a store lives in whatever it grows into. -/
theorem Value.Lives.mono {s s' : Store} {v : Value} (h : v.Lives s) (hle : s.Grows s') :
    v.Lives s' :=
  Within.mono h fun _ hw => hw.mono hle

/-! ## Stores that stay closed -/

theorem Table.mem_of_mem_insert {κ ν : Type} [DecidableEq κ] {t : Table κ ν} {key : κ} {value : ν}
    {entry : κ × ν} (h : entry ∈ (t.insert key value).entries) :
    entry ∈ t.entries ∨ entry = (key, value) := by
  obtain ⟨entries⟩ := t
  simp only [insert] at h
  induction entries with
  | nil => simpa [write] using h
  | cons first rest ih => grind [write]

namespace Store.Closed

variable {s : Store} {scope : ScopeId} {name : String} {v : Value}

theorem newIdentity (h : s.Closed) : s.newIdentity.2.Closed where
  values id sc hsc entry hentry :=
    (h.values id sc hsc entry hentry).mono .newIdentity
  outer := h.outer

/-- A scope that is made binds nothing, and the one around it has to be
there. -/
theorem newScope (h : s.Closed) {outer : ScopeId} (houter : (s.scope? outer).isSome) :
    (s.newScope (some outer)).2.Closed := by
  have hle : s.Grows (s.newScope (some outer)).2 := .newScope _
  constructor
  · intro id sc hsc entry hentry
    rw [scope?_newScope] at hsc
    split at hsc
    · cases hsc
      cases hentry
    · exact (h.values id sc hsc entry hentry).mono hle
  · intro id sc outer' hsc houter'
    rw [scope?_newScope] at hsc
    split at hsc
    · cases hsc
      cases houter'
      exact hle.scope _ houter
    · exact hle.scope _ (h.outer id sc outer' hsc houter')

theorem bind (h : s.Closed) (hv : v.Lives s) : (s.bind scope name v).Closed := by
  have hle : s.Grows (s.bind scope name v) := .bind scope name v
  constructor
  · intro id sc hsc entry hentry
    rw [scope?_bind] at hsc
    split at hsc
    · obtain ⟨sc', hsc', rfl⟩ := Option.map_eq_some_iff.1 hsc
      obtain hentry | rfl := Table.mem_of_mem_insert hentry
      · exact (h.values id sc' hsc' entry hentry).mono hle
      · exact hv.mono hle
    · exact (h.values id sc hsc entry hentry).mono hle
  · intro id sc outer hsc houter
    rw [scope?_bind] at hsc
    split at hsc
    · obtain ⟨sc', hsc', rfl⟩ := Option.map_eq_some_iff.1 hsc
      exact hle.scope _ (h.outer id sc' outer hsc' houter)
    · exact hle.scope _ (h.outer id sc outer hsc houter)

theorem bindAll (h : s.Closed) {bindings : List (String × Value)}
    (hv : ∀ binding ∈ bindings, binding.2.Lives s) : (s.bindAll scope bindings).Closed := by
  induction bindings generalizing s with
  | nil => exact h
  | cons binding rest ih =>
    obtain ⟨hfirst, hrest⟩ := List.forall_mem_cons.1 hv
    exact ih (h.bind hfirst) fun b hb => (hrest b hb).mono (.bind scope _ _)

end Store.Closed

theorem Store.size_scopes_bindAll {s : Store} {scope : ScopeId} {bindings : List (String × Value)} :
    (s.bindAll scope bindings).scopes.size = s.scopes.size := by
  induction bindings generalizing s with
  | nil => rfl
  | cons binding rest ih => exact ih.trans Array.size_modify

/-! ## In a machine -/

namespace Machine

namespace State

variable {σ σ' : State}

/-- The store is closed, and what the machine has lives in it. -/
structure Living (σ : State) : Prop where
  proper : σ.Proper
  all : σ.All (Value.Made σ.store)
  closed : σ.store.Closed

/-- A step takes nothing out of the store. -/
theorem grows_of_step (hstep : σ.step = some σ') : σ.store.Grows σ'.store := by
  cases step_does hstep with
  | make => exact .newIdentity
  | bind => exact .bind _ _ _
  | enter => exact (Store.Grows.newScope _).trans (.bindAll _ _)
  | _ => exact .refl

/-- Only the call of a function makes a scope. -/
theorem apply_of_size_ne (hstep : σ.step = some σ')
    (hne : σ'.store.scopes.size ≠ σ.store.scopes.size) :
    ∃ id closure arguments, σ.control = .apply (.function id closure) arguments ∧
      closure.parameters.length = arguments.length := by
  obtain ⟨control, frames, scope, s⟩ := σ
  cases control with
  | apply f arguments =>
    cases f with
    | function id closure =>
      by_cases hlength : closure.parameters.length = arguments.length
      · exact ⟨id, closure, arguments, rfl, hlength⟩
      · simp only [step, enterCall, if_pos hlength, Option.some.injEq] at hstep
        subst hstep
        exact absurd rfl hne
    | builtin b =>
      simp only [step, enterCall, Option.some.injEq] at hstep
      subst hstep
      split at hne <;> exact absurd rfl hne
    | _ =>
      cases hstep
      exact absurd rfl hne
  | expr e =>
    cases e with
    | ident name =>
      simp only [step, enterExpr, Option.some.injEq] at hstep
      subst hstep
      split at hne <;> exact absurd rfl hne
    | _ =>
      cases hstep
      exact absurd rfl hne
  | stmt st => cases st <;> cases hstep <;> exact absurd rfl hne
  | exprs es => cases es <;> cases hstep <;> exact absurd rfl hne
  | pairs pairs => cases pairs <;> cases hstep <;> exact absurd rfl hne
  | stmts last body => cases body <;> cases hstep <;> exact absurd rfl hne
  | value v =>
    cases frames with
    | nil => cases hstep
    | cons frame frames =>
      cases frame with
      | key value rest =>
        simp only [step, takeValue] at hstep
        split at hstep <;> cases hstep <;> exact absurd rfl hne
      | bound name =>
        cases hstep
        exact absurd Array.size_modify hne
      | _ => cases hstep <;> exact absurd rfl hne
  | values vs =>
    cases frames with
    | nil => cases hstep
    | cons frame frames => cases frame <;> cases hstep <;> exact absurd rfl hne
  | entries entries =>
    cases frames with
    | nil => cases hstep
    | cons frame frames => cases frame <;> cases hstep <;> exact absurd rfl hne
  | unwind reason =>
    cases frames with
    | nil => cases hstep
    | cons frame frames => cases frame <;> cases reason <;> cases hstep <;> exact absurd rfl hne

/-- A step leaves the store closed: what it binds was in the machine, and
what it makes a scope for is a function, whose own scope is there. -/
theorem Living.closed_of_step (h : σ.Living) (hstep : σ.step = some σ') : σ'.store.Closed := by
  by_cases hsize : σ'.store.scopes.size = σ.store.scopes.size
  · cases step_does hstep with
    | make => exact h.closed.newIdentity
    | bind _ hv => exact h.closed.bind (hv _ h.all _ (.head _))
    | enter =>
      rw [Store.size_scopes_bindAll, Store.newScope, Array.size_push] at hsize
      exact absurd hsize (Nat.succ_ne_self _)
    | _ => exact h.closed
  · -- the scope around the new one is that of the function that is called
    obtain ⟨id, closure, arguments, hcontrol, hlength⟩ := apply_of_size_ne hstep hsize
    obtain ⟨control, frames, scope, s⟩ := σ
    cases hcontrol
    have hle := grows_of_step (step_call hlength id frames scope s)
    rw [step_call hlength, Option.some.injEq] at hstep
    subst hstep
    have hmade : (Value.function id closure).Made s :=
      h.all.control _ (.head _) _ (.refl _) (Option.some_ne_none _)
    refine (h.closed.newScope (hmade.scope id closure rfl)).bindAll fun binding hbinding => ?_
    have hlives : binding.2.Lives s := h.all.control _ (.tail _ (List.of_mem_zip hbinding).2)
    exact hlives.mono (.newScope _)

/-- **Whatever comes up was made before.** -/
theorem Living.step (h : σ.Living) (hstep : σ.step = some σ') : σ'.Living where
  proper := h.proper.step hstep
  closed := h.closed_of_step hstep
  all := by
    have hle := grows_of_step hstep
    have hall : σ.All (Value.Made σ'.store) :=
      all_iff.2 fun v hv hne => (all_iff.1 h.all v hv hne).mono hle
    refine hall.step (fun v hmakes => ?_) hstep
    obtain ⟨-, hstore, hid⟩ := step_of_makes hmakes hstep
    constructor
    · intro id hid'
      obtain rfl := Option.some.inj (hid.symm.trans hid')
      rw [hstore]
      exact Nat.lt_succ_self _
    · rintro id closure rfl
      cases hmakes
      exact hle.scope _ h.proper.scope

/-- Whatever program is started in a scope that is there, all lives on. -/
theorem Living.start (h : σ.Living) (p : Program) {scope : ScopeId}
    (hscope : (σ.store.scope? scope).isSome) : Living (.start p scope σ.store) :=
  ⟨⟨hscope, nofun⟩, ⟨List.forall_mem_singleton.2 .null, nofun, h.all.store⟩, h.closed⟩

end State

/-- **At every moment of a session** the store is closed, and all that the
machine has lives in it. -/
theorem Moment.living {σ : State} (h : Moment σ) : σ.Living := by
  obtain ⟨p, h⟩ := h
  -- the scope of the session is there for every program
  suffices σ.Living ∧ (σ.store.scope? Session.new.scope).isSome from this.1
  induction h with
  | refl =>
    have hbound (id : ScopeId) (sc : Scope) (hsc : Session.new.store.scope? id = some sc) :
        sc = ⟨.empty, none⟩ := by
      change (Store.empty.newScope none).2.scope? id = some sc at hsc
      rw [Store.scope?_newScope] at hsc
      split at hsc
      · exact (Option.some.inj hsc).symm
      · cases hsc
    have hclosed : Session.new.store.Closed := by
      constructor
      · intro id sc hsc entry hentry
        cases hbound id sc hsc
        cases hentry
      · intro id sc outer hsc houter
        cases hbound id sc hsc
        cases houter
    refine ⟨⟨⟨rfl, nofun⟩, ⟨List.forall_mem_singleton.2 .null, nofun, fun v hv => ?_⟩, hclosed⟩,
      rfl⟩
    obtain ⟨id, sc, name, hsc, hget⟩ := hv
    cases hbound id sc hsc
    cases hget
  | step _ hstep ih => exact ⟨ih.1.step hstep, State.isSome_scope?_of_step ih.2 hstep⟩
  | next p _ _ ih => exact ⟨ih.1.start p ih.2, ih.2⟩

end Machine

end MonkeyLang
