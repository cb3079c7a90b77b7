import MonkeyLang.Proofs.Eval.Invariant
import MonkeyLang.Proofs.Scopes
import MonkeyLang.Session
/-!
# What an evaluation leaves alone

Running a node in a scope binds names in that scope and in scopes that
the run itself makes. `Store.Frame` compares the scopes that were there
before with what they are after: all but the node's own are the same, and
the own one has gained or rebound names of the node's `let`s. A call runs
its body in a scope of its own and so changes no older scope at all,
which is `Store.Extends`. `Store.Later` is whatever a host goes on to do
in scopes it knows; none of it reaches a scope that a call has made.
-/

namespace MonkeyLang

/-- A scope after some names may have been bound in it: it is inside the
same scope, has lost no name, and what changed are some of the names. -/
structure Scope.Grows (names : List String) (before after : Scope) : Prop where
  outer : after.outer = before.outer
  kept : ∀ name ∈ before.bindings.keys, name ∈ after.bindings.keys
  changed : ∀ name, after.bindings.get? name ≠ before.bindings.get? name → name ∈ names

namespace Store

/-- The scopes of a store after names may have been bound in one of them:
the other ones are as they were, the links outwards included. -/
structure Frame (scope : ScopeId) (names : List String) (before after : Store) : Prop where
  others : ∀ id sc, before.scope? id = some sc → id ≠ scope → after.scope? id = some sc
  own : ∀ sc, before.scope? scope = some sc →
    ∃ sc', after.scope? scope = some sc' ∧ sc.Grows names sc'

/-- All scopes of a store are in another one as they were. -/
def Extends (before after : Store) : Prop :=
  ∀ id sc, before.scope? id = some sc → after.scope? id = some sc

end Store

/-! ## Both are kept -/

namespace Scope.Grows

variable {names : List String} {a b : Scope}

theorem refl (a : Scope) : Grows names a a := ⟨rfl, fun _ h => h, fun _ h => absurd rfl h⟩

/-- Binding one of the names keeps the others, and the scope around. -/
theorem bind (h : Grows names a b) {name : String} (hname : name ∈ names) (v : Value) :
    Grows names a (b.bind name v) where
  outer := h.outer
  kept k hk := by
    have hb : k ∈ b.bindings.keys := h.kept k hk
    rw [Scope.bind, Table.keys_insert]
    split
    · exact hb
    · exact List.mem_append_left _ hb
  changed k hk := by
    rw [Scope.bind, Table.get?_insert] at hk
    split at hk
    · rename_i heq
      exact heq ▸ hname
    · exact h.changed k hk

end Scope.Grows

namespace Store

variable {s s' : Store} {scope id : ScopeId} {names : List String}

theorem Frame.refl (s : Store) : Frame scope names s s :=
  ⟨fun _ _ h _ => h, fun sc h => ⟨sc, h, .refl sc⟩⟩

/-- A scope that was there still is. -/
theorem Frame.isSome (h : Frame scope names s s') (hid : (s.scope? id).isSome) :
    (s'.scope? id).isSome := by
  obtain ⟨sc, hsc⟩ := Option.isSome_iff_exists.mp hid
  by_cases heq : id = scope
  · subst heq
    obtain ⟨sc', hsc', -⟩ := h.own sc hsc
    rw [hsc']
    rfl
  · rw [h.others id sc hsc heq]
    rfl

theorem Frame.newScope (h : Frame scope names s s') (outer : Option ScopeId) :
    Frame scope names s (s'.newScope outer).2 where
  others id sc hsc hne := scope?_newScope_of_some (h.others id sc hsc hne)
  own sc hsc := by
    obtain ⟨sc', hsc', hgrows⟩ := h.own sc hsc
    exact ⟨sc', scope?_newScope_of_some hsc', hgrows⟩

/-- Binding a name where a frame allows it: in a scope that is new, or
one of its names in its own scope. -/
theorem Frame.bind (h : Frame scope names s s') {name : String} (v : Value)
    (hw : s.scope? id = none ∨ id = scope ∧ name ∈ names) :
    Frame scope names s (s'.bind id name v) where
  others k sc hsc hne := by
    have hk : k ≠ id := by
      rintro rfl
      rcases hw with hw | ⟨hw, -⟩
      · rw [hw] at hsc
        cases hsc
      · exact hne hw
    rw [scope?_bind, if_neg hk]
    exact h.others k sc hsc hne
  own sc hsc := by
    obtain ⟨sc', hsc', hgrows⟩ := h.own sc hsc
    rw [scope?_bind, hsc']
    split
    · rename_i heq
      rcases hw with hw | ⟨-, hname⟩
      · rw [← heq, hsc] at hw
        cases hw
      · exact ⟨_, rfl, hgrows.bind hname v⟩
    · exact ⟨sc', rfl, hgrows⟩

theorem Extends.refl (s : Store) : Extends s s := fun _ _ h => h

theorem Extends.newScope (h : Extends s s') (outer : Option ScopeId) :
    Extends s (s'.newScope outer).2 :=
  fun id sc hsc => scope?_newScope_of_some (h id sc hsc)

/-- A binding in a scope that is new leaves the old ones alone. -/
theorem Extends.bind (h : Extends s s') (hnew : s.scope? id = none) (name : String) (v : Value) :
    Extends s (s'.bind id name v) := by
  intro k sc hsc
  have hk : k ≠ id := by
    rintro rfl
    rw [hnew] at hsc
    cases hsc
  rw [scope?_bind, if_neg hk]
  exact h k sc hsc

/-- The name of a scope made later was not the name of one before. -/
theorem Extends.newScope_fst (h : Extends s s') (outer : Option ScopeId) :
    s.scope? (s'.newScope outer).1 = none := by
  rw [Option.eq_none_iff_forall_ne_some]
  intro sc hsc
  have h' := h _ sc hsc
  rw [scope?_newScope_fst] at h'
  cases h'

end Store

/-! ## As invariants -/

namespace Invariant

theorem hereditary_true : Value.Hereditary fun _ => True := by
  constructor <;> simp

/-- Whatever is bound outside the scopes of a store extends it. -/
def extending (s : Store) : Invariant where
  store := s.Extends
  value _ := True
  writable scope _ := s.scope? scope = none
  hereditary := hereditary_true
  newIdentity h := h
  newScope h := ⟨h.newScope _, fun _ => h.newScope_fst _⟩
  bind h hw _ := h.bind hw _ _
  lookup _ _ := trivial

/-- Whatever is bound outside the scopes of a store, or under some names
in one of them, keeps to the frame. -/
def framing (scope : ScopeId) (names : List String) (s : Store) : Invariant where
  store := s.Frame scope names
  value _ := True
  writable id name := s.scope? id = none ∨ id = scope ∧ name ∈ names
  hereditary := hereditary_true
  newIdentity h := ⟨h.others, h.own⟩
  newScope {s'} outer h := by
    refine ⟨h.newScope _, fun _ => .inl ?_⟩
    -- a scope that was there still is, so it is not the one made now
    cases hid : s.scope? (s'.newScope outer).1 with
    | none => rfl
    | some sc =>
      have h' := h.isSome (Option.isSome_iff_exists.mpr ⟨sc, hid⟩)
      rw [Store.scope?_newScope_fst] at h'
      cases h'
  bind h hw _ := h.bind _ hw
  lookup _ _ := trivial

end Invariant

/-! ## What runs and calls leave alone -/

/-- What a store may have become after a host ran nodes in scopes of its
own and applied values, in any order. -/
inductive Store.Later (own : ScopeId → Prop) (s : Store) : Store → Prop where
  | refl : Later own s s
  | run {depth : Nat} {node : Node} {scope : ScopeId} {v : Value} {s' s'' : Store} :
      Later own s s' → own scope → node.run depth scope s' = some (v, s'') → Later own s s''
  | apply {depth : Nat} {f : Value} {arguments : List Value} {r : Except EvalError Value}
      {s' s'' : Store} :
      Later own s s' → Value.apply depth f arguments s' = some (r, s'') → Later own s s''

theorem Node.run_frame {depth : Nat} {node : Node} {scope : ScopeId} {s s' : Store} {v : Value}
    (h : node.run depth scope s = some (v, s')) : s.Frame scope node.letNames s' := by
  let I := Invariant.framing scope node.letNames s
  have hwritable : ∀ name ∈ node.letNames, I.writable scope name :=
    fun name hname => .inr ⟨rfl, hname⟩
  have hstart : I.store s := .refl s
  exact (Node.run_keeps I hwritable hstart h).1

theorem Value.apply_extends {depth : Nat} {f : Value} {arguments : List Value} {s s' : Store}
    {r : Except EvalError Value} (h : Value.apply depth f arguments s = some (r, s')) :
    s.Extends s' := by
  -- every value is good for this invariant, so any value may be applied to
  -- any others
  have hkept := Value.apply_keeps (.extending s) depth f arguments trivial fun _ _ => trivial
  cases r with
  | ok v => exact (hkept.ok (.refl s) h).1
  | error e => exact (hkept.error (.refl s) h).1

/-- A scope that the host does not run nodes in stays as it is. -/
theorem Store.Later.scope?_eq {own : ScopeId → Prop} {s s' : Store} (h : Later own s s')
    {id : ScopeId} {sc : Scope} (hid : ¬ own id) (hsc : s.scope? id = some sc) :
    s'.scope? id = some sc := by
  induction h with
  | refl => exact hsc
  | run _ hown hrun ih =>
    refine (Node.run_frame hrun).others id sc ih ?_
    rintro rfl
    exact hid hown
  | apply _ happly ih => exact Value.apply_extends happly id sc ih

/-- **Evaluation writes only to the scope it is in and to scopes that it
makes.** Running a node leaves every other scope as it was, and in its own
scope binds or rebinds names of its `let`s only. Applying a value leaves
every scope as it was, and the scopes that a call has made stay as it left
them, whatever is run later in other scopes and whatever is applied. -/
theorem run_frame_and_apply_extends (depth : Nat) (s s' : Store) :
    (∀ (node : Node) (scope : ScopeId) (v : Value),
      node.run depth scope s = some (v, s') → s.Frame scope node.letNames s') ∧
    ∀ (f : Value) (arguments : List Value) (r : Except EvalError Value),
      Value.apply depth f arguments s = some (r, s') →
        s.Extends s' ∧
        ∀ id sc, s'.scope? id = some sc →
          ∀ s'', s'.Later (· ≠ id) s'' → s''.scope? id = some sc := by
  constructor
  · intro node scope v h
    exact Node.run_frame h
  · intro f arguments r h
    refine ⟨Value.apply_extends h, ?_⟩
    intro id sc hsc s'' hlater
    have hid : ¬ id ≠ id := fun hne => hne rfl
    exact hlater.scope?_eq hid hsc

/-- A call that returns a function leaves the scope `⟨1⟩` with its
argument behind; binding that name once more outside does not reach it. -/
theorem captured_scope_stays :
    ∃ v w s' s'',
      Value.apply 1 (.function ⟨0⟩ ⟨["x"], [.expr (.function [] [.expr (.ident "x")])], ⟨0⟩⟩)
        [.int 1] Session.new.store = some (.ok v, s') ∧
      (Node.statement (.bind "x" (.int 2))).run 1 ⟨0⟩ s' = some (w, s'') ∧
      Session.new.store.Extends s' ∧ s'.Frame ⟨0⟩ ["x"] s'' ∧
      s''.scope? ⟨1⟩ = some ⟨⟨[("x", .int 1)]⟩, some ⟨0⟩⟩ := by
  have hcall : Value.apply 1
      (.function ⟨0⟩ ⟨["x"], [.expr (.function [] [.expr (.ident "x")])], ⟨0⟩⟩)
      [.int 1] Session.new.store =
        some (.ok (.function ⟨0⟩ ⟨[], [.expr (.ident "x")], ⟨1⟩⟩),
          ⟨#[⟨⟨[]⟩, none⟩, ⟨⟨[("x", .int 1)]⟩, some ⟨0⟩⟩], 1⟩) := rfl
  have hrun : (Node.statement (.bind "x" (.int 2))).run 1 ⟨0⟩
      ⟨#[⟨⟨[]⟩, none⟩, ⟨⟨[("x", .int 1)]⟩, some ⟨0⟩⟩], 1⟩ =
        some (.null, ⟨#[⟨⟨[("x", .int 2)]⟩, none⟩, ⟨⟨[("x", .int 1)]⟩, some ⟨0⟩⟩], 1⟩) := rfl
  obtain ⟨hextends, hfrozen⟩ := (run_frame_and_apply_extends 1 _ _).2 _ _ _ hcall
  refine ⟨_, _, _, _, hcall, hrun, hextends, ?_, ?_⟩
  · exact (run_frame_and_apply_extends 1 _ _).1 _ _ _ hrun
  · exact hfrozen ⟨1⟩ _ rfl _ (.run .refl (by decide) hrun)

end MonkeyLang
