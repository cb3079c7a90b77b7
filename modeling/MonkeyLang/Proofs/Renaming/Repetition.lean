import Mathlib.Data.Set.Function
import Mathlib.Logic.Equiv.Defs
import MonkeyLang.Proofs.Eval.Frame
import MonkeyLang.Proofs.Machine.Living
import MonkeyLang.Proofs.Renaming.Evaluation
/-!
# Calls repeat

A call leaves all scopes as they were, and so applying the same value to the
same arguments once more starts from what it started from before. Only the
scopes and identities that it makes are later ones: the second call is the
first one under a renaming that leaves alone what was there and moves the rest
(`Renaming.past`).

The main statement is `calls_repeat`.
-/

namespace MonkeyLang

open Eval (mapOutcome)

/-! ## Moving what is numbered -/

/-- What is numbered from `a` on, moved so that it is numbered from `b` on. -/
def moved {α : Type} (e : α ≃ Nat) (a b : Nat) (i : α) : α :=
  if e i < a then i else e.symm (e i + (b - a))

section Moved

variable {α : Type} {e : α ≃ Nat} {a b c : Nat} {i j : α}

theorem moved_of_lt (h : e i < a) : moved e a b i = i := if_pos h

theorem apply_moved_of_le (h : a ≤ e i) : e (moved e a b i) = e i + (b - a) := by
  rw [moved, if_neg (Nat.not_lt.2 h), Equiv.apply_symm_apply]

/-- The next number from `a` on is moved onto the next one from `b` on. -/
theorem moved_symm_add (hab : a ≤ b) (k : Nat) :
    moved e a b (e.symm (a + k)) = e.symm (b + k) := by
  rw [moved, Equiv.apply_symm_apply, if_neg (Nat.not_lt.2 (Nat.le_add_right a k))]
  congr 1
  omega

/-- Nothing overtakes anything. -/
theorem moved_lt_moved_iff : e (moved e a b i) < e (moved e a b j) ↔ e i < e j := by
  rcases Nat.lt_or_ge (e i) a with hi | hi <;> rcases Nat.lt_or_ge (e j) a with hj | hj
  · rw [moved_of_lt hi, moved_of_lt hj]
  · rw [moved_of_lt hi, apply_moved_of_le hj]
    omega
  · rw [moved_of_lt hj, apply_moved_of_le hi]
    omega
  · rw [apply_moved_of_le hi, apply_moved_of_le hj, Nat.add_lt_add_iff_right]

theorem moved_injective : Function.Injective (moved e a b) :=
  injective_of_lt_iff e.injective fun _ _ => moved_lt_moved_iff

/-- What is numbered from `a` up to `c` is moved onto what is numbered from
`b` on, as far. -/
theorem bijOn_moved (hab : a ≤ b) :
    Set.BijOn (moved e a b) {i | a ≤ e i ∧ e i < c} {i | b ≤ e i ∧ e i < c + (b - a)} := by
  refine ⟨fun i hi => ?_, moved_injective.injOn, fun j hj => ?_⟩
  · obtain ⟨hle, hlt⟩ := hi
    rw [Set.mem_ofPred_eq, apply_moved_of_le hle]
    omega
  · obtain ⟨hle, hlt⟩ := hj
    have hi : e (e.symm (e j - (b - a))) = e j - (b - a) := Equiv.apply_symm_apply _ _
    refine ⟨e.symm (e j - (b - a)), ?_, e.injective ?_⟩
    · rw [Set.mem_ofPred_eq, hi]
      omega
    · rw [apply_moved_of_le (by omega), hi]
      omega

end Moved

/-- Scopes are numbered by their index. -/
def ScopeId.equivNat : ScopeId ≃ Nat := ⟨ScopeId.index, ScopeId.mk, fun _ => rfl, fun _ => rfl⟩

/-- Identities are numbered in the order in which they are given out. -/
def Identity.equivNat : Identity ≃ Nat := ⟨Identity.number, Identity.mk, fun _ => rfl, fun _ => rfl⟩

/-! ## Renamings that leave a store alone -/

/-- The renaming changes no name and nothing that is in a store. -/
structure Renaming.Fixes (ρ : Renaming) (s : Store) : Prop where
  name : ρ.name = id
  scope : ∀ id : ScopeId, id.index < s.scopes.size → ρ.scope id = id
  identity : ∀ id : Identity, id.number < s.identities → ρ.identity id = id

namespace Renaming.Fixes

variable {ρ : Renaming} {s : Store}

theorem scope_of_isSome (h : ρ.Fixes s) {id : ScopeId} (hid : (s.scope? id).isSome) :
    ρ.scope id = id :=
  h.scope id (by simpa [Store.scope?] using hid)

theorem closure (h : ρ.Fixes s) {closure : Closure} (hc : (s.scope? closure.scope).isSome) :
    closure.rename ρ = closure := by
  rw [Closure.rename, h.name, List.map_id, Stmt.renameAll_id, h.scope_of_isSome hc]

mutual

/-- What lives in the store stays as it is. -/
theorem value (h : ρ.Fixes s) : ∀ v : Value, v.Lives s → v.rename ρ = v
  | .int _, _ | .bool _, _ | .string _, _ | .null, _ | .builtin _, _ | .error _, _ => rfl
  | .array i elements, hv => by
    have hi := h.identity i ((hv _ (.refl _) nofun).identity i rfl)
    have hall := h.values elements ((Value.Within.inherited _).array hv)
    rw [Value.rename, hi, hall]
  | .hash i ⟨entries⟩, hv => by
    have hi := h.identity i ((hv _ (.refl _) nofun).identity i rfl)
    have hall := h.entries entries ((Value.Within.inherited _).hash hv)
    rw [Value.rename, hi, hall]
  | .function i closure, hv => by
    have hmade := hv _ (.refl _) nofun
    rw [Value.rename, h.identity i (hmade.identity i rfl), h.closure (hmade.scope i closure rfl)]
  | .returned v, hv => by
    rw [Value.rename, h.value v fun w hw => hv w (.payload hw)]

theorem values (h : ρ.Fixes s) :
    ∀ vs : List Value, (∀ v ∈ vs, v.Lives s) → Value.renameAll ρ vs = vs
  | [], _ => rfl
  | v :: vs, hvs => by
    obtain ⟨hv, hvs⟩ := List.forall_mem_cons.1 hvs
    rw [Value.renameAll, h.value v hv, h.values vs hvs]

theorem entries (h : ρ.Fixes s) :
    ∀ entries : List (HashKey × (Value × Value)),
      (∀ entry ∈ entries, entry.2.1.Lives s ∧ entry.2.2.Lives s) →
        Value.renameEntries ρ entries = entries
  | [], _ => rfl
  | (content, key, value) :: rest, hentries => by
    obtain ⟨⟨hkey, hvalue⟩, hrest⟩ := List.forall_mem_cons.1 hentries
    rw [Value.renameEntries, h.value key hkey, h.value value hvalue, h.entries rest hrest]

end

theorem map_values (h : ρ.Fixes s) {vs : List Value} (hvs : ∀ v ∈ vs, v.Lives s) :
    vs.map (Value.rename ρ) = vs :=
  Value.renameAll_eq_map vs ▸ h.values vs hvs

/-- The scopes of a closed store stay as they are. -/
theorem scope?_eq (h : ρ.Fixes s) (hs : s.Closed) {id : ScopeId} {sc : Scope}
    (hsc : s.scope? id = some sc) : sc.rename ρ = sc := by
  obtain ⟨⟨entries⟩, outer⟩ := sc
  have hvalues := hs.values id _ hsc
  have hentries : entries.map (Prod.map ρ.name (Value.rename ρ)) = entries := by
    refine (List.map_congr_left fun entry hentry => ?_).trans (List.map_id _)
    rw [Prod.map, h.name, h.value _ (hvalues entry hentry)]
    rfl
  have houter : outer.map ρ.scope = outer := by
    cases outer with
    | none => rfl
    | some outer => exact congrArg some (h.scope_of_isSome (hs.outer id _ outer hsc rfl))
  rw [Scope.rename, Table.map, hentries, houter]

end Renaming.Fixes

/-! ## What a call makes -/

/-- The scopes that were made between two stores. -/
def Store.scopesUpto (s s' : Store) : Set ScopeId :=
  {id | s.scopes.size ≤ id.index ∧ id.index < s'.scopes.size}

/-- The identities that were given out between two stores. -/
def Store.identitiesUpto (s s' : Store) : Set Identity :=
  {id | s.identities ≤ id.number ∧ id.number < s'.identities}

/-- Scopes and identities are only ever added. -/
def Invariant.growing (s : Store) : Invariant where
  store := s.Grows
  value _ := True
  writable _ _ := True
  hereditary := hereditary_true
  newIdentity h := h.trans .newIdentity
  newScope h := ⟨h.trans (.newScope _), fun _ => trivial⟩
  bind h _ _ := h.trans (.bind _ _ _)
  lookup _ _ := trivial

theorem Value.apply_grows {depth : Nat} {f : Value} {arguments : List Value} {s s' : Store}
    {o : Except EvalError Value} (h : Value.apply depth f arguments s = some (o, s')) :
    s.Grows s' := by
  have hkept := Value.apply_keeps (.growing s) depth f arguments trivial fun _ _ => trivial
  cases o with
  | ok v => exact (hkept.ok .refl h).1
  | error e => exact (hkept.error .refl h).1

/-! ## The second call -/

/-- **Between two calls** a renaming leaves all that was there alone, takes
what the first call has made to what the second one has made, one to one, and
the scopes that the first one left to those that the second one left. -/
structure Renaming.Repeats (ρ : Renaming) (s s₁ s₂ : Store) : Prop where
  fixes : ρ.Fixes s
  scopes : Set.BijOn ρ.scope (s.scopesUpto s₁) (s₁.scopesUpto s₂)
  identities : Set.BijOn ρ.identity (s.identitiesUpto s₁) (s₁.identitiesUpto s₂)
  contents : ∀ id, s₂.scope? (ρ.scope id) = (s₁.scope? id).map (Scope.rename ρ)

namespace Renaming

/-- The renaming that moves all that is not in the first store behind the
second one. -/
def past (s s₁ : Store) : Renaming where
  name := id
  scope := moved ScopeId.equivNat s.scopes.size s₁.scopes.size
  identity := moved Identity.equivNat s.identities s₁.identities

variable {s s₁ s₂ : Store}

theorem past_fixes (s s₁ : Store) : (past s s₁).Fixes s :=
  ⟨rfl, fun _ h => moved_of_lt h, fun _ h => moved_of_lt h⟩

/-- Names stay, so that builtins do, and numbers stay in order. -/
theorem past_faithful (s s₁ : Store) : (past s s₁).Faithful where
  name := Function.injective_id
  builtin _ := rfl
  scope _ _ := moved_lt_moved_iff (e := ScopeId.equivNat)
  identity := moved_injective

/-- A store that still has what was there has it under this renaming, too. -/
theorem renames_past (hs : s.Closed) (hle : s.Grows s₁) (hext : s.Extends s₁) :
    s.Renames (past s s₁) s₁ where
  scope? id := by
    cases hsc : s.scope? id with
    | some sc =>
      have hfixes := past_fixes s s₁
      rw [hfixes.scope_of_isSome (hsc ▸ rfl), hext id sc hsc, Option.map_some,
        hfixes.scope?_eq hs hsc]
    | none =>
      have hsize : s.scopes.size ≤ id.index := Array.getElem?_eq_none_iff.1 hsc
      have hmoved := apply_moved_of_le (e := ScopeId.equivNat) (b := s₁.scopes.size) hsize
      refine Array.getElem?_eq_none ?_
      change _ ≤ ScopeId.equivNat (moved _ _ _ id)
      have := hle.size_le
      change ScopeId.equivNat (moved _ _ _ id) = id.index + _ at hmoved
      omega
  newScope k := moved_symm_add (e := ScopeId.equivNat) hle.size_le k
  newIdentity k := moved_symm_add (e := Identity.equivNat) hle.identities k

/-- What comes of the renamed store is as far behind as the store itself. -/
theorem past_repeats (hle : s.Grows s₁) (h : s₁.Renames (past s s₁) s₂) :
    (past s s₁).Repeats s s₁ s₂ where
  fixes := past_fixes s s₁
  scopes := by
    have hsize : s₂.scopes.size = s₁.scopes.size + (s₁.scopes.size - s.scopes.size) := by
      have hnext := congrArg ScopeId.index (h.newScope 0)
      exact hnext.symm.trans (apply_moved_of_le (e := ScopeId.equivNat) hle.size_le)
    have hbij := bijOn_moved (e := ScopeId.equivNat) (c := s₁.scopes.size) hle.size_le
    rw [← hsize] at hbij
    exact hbij
  identities := by
    have hcount : s₂.identities = s₁.identities + (s₁.identities - s.identities) := by
      have hnext := congrArg Identity.number (h.newIdentity 0)
      exact hnext.symm.trans (apply_moved_of_le (e := Identity.equivNat) hle.identities)
    have hbij := bijOn_moved (e := Identity.equivNat) (c := s₁.identities) hle.identities
    rw [← hcount] at hbij
    exact hbij
  contents := h.scope?

end Renaming

/-- Values that are told apart by what they hold are not renamed. -/
theorem Value.rename_of_type {ρ : Renaming} {v : Value}
    (h : v.type ∈ [ValueType.integer, .boolean, .string, .null]) : v.rename ρ = v := by
  cases v <;> first | rfl | simp [Value.type] at h

/-- **Calls repeat.** In a closed store, with a value and arguments that live
in it: if applying the one to the others ends, it does so again in the store
that was left, and in the same way. What the second call makes stands for what
the first one made, and whatever was there before stands for itself; errors
are the same, and so are integers, booleans, strings and `null`. The moments
of all sessions are such that the store is closed and what the machine has
come to lives in it. -/
theorem calls_repeat :
    (∀ (depth : Nat) (s s₁ : Store) (f : Value) (arguments : List Value)
        (o₁ : Except EvalError Value),
      s.Closed → f.Lives s → (∀ v ∈ arguments, v.Lives s) →
      Value.apply depth f arguments s = some (o₁, s₁) →
        ∃ ρ o₂ s₂, Value.apply depth f arguments s₁ = some (o₂, s₂) ∧ ρ.Repeats s s₁ s₂ ∧
          o₂ = mapOutcome (Value.rename ρ) id o₁ ∧
          (∀ e, o₁ = .error e → o₂ = .error e) ∧
          ∀ v, o₁ = .ok v → v.type ∈ [ValueType.integer, .boolean, .string, .null] →
            o₂ = .ok v) ∧
    ∀ σ, Machine.Moment σ → σ.store.Closed ∧ ∀ v, σ.Has v → v.Lives σ.store := by
  constructor
  · intro depth s s₁ f arguments o₁ hs hf harguments hfirst
    have hle := Value.apply_grows hfirst
    have hfixes := Renaming.past_fixes s s₁
    have hsecond := Value.apply_renames (Renaming.past_faithful s s₁) depth f arguments s s₁
      (Renaming.renames_past hs hle (Value.apply_extends hfirst))
    rw [hfirst, hfixes.value f hf, hfixes.map_values harguments] at hsecond
    obtain ⟨s₂, h₂, hs₂⟩ := hsecond.eq_some rfl
    have herror (e : EvalError) : e.rename (Renaming.past s s₁).name = e := by
      cases e <;> rfl
    refine ⟨_, _, s₂, h₂, Renaming.past_repeats hle hs₂, ?_, ?_, ?_⟩
    · cases o₁ with
      | ok v => rfl
      | error e => exact congrArg Except.error (herror e)
    · rintro e rfl
      exact congrArg Except.error (herror e)
    · rintro v rfl htype
      exact congrArg Except.ok (Value.rename_of_type htype)
  · intro σ hσ
    obtain ⟨-, hall, hclosed⟩ := hσ.living
    refine ⟨hclosed, fun v hv => ?_⟩
    rcases hv with hv | ⟨frame, hframe, hv⟩ | hv
    · exact hall.control v hv
    · exact hall.frames frame hframe v hv
    · exact hall.store v hv

/-- After `let f = fn(x) { fn() { x } }`, the second `f(1)` returns another
function with another scope for `x`, and otherwise what the first one does. -/
theorem repeated_call_makes_another_function :
    let f : Value := .function ⟨0⟩ ⟨["x"], [.expr (.function [] [.expr (.ident "x")])], ⟨0⟩⟩
    let s : Store := ⟨#[⟨⟨[("f", f)]⟩, none⟩], 1⟩
    let s₁ : Store := ⟨#[⟨⟨[("f", f)]⟩, none⟩, ⟨⟨[("x", .int 1)]⟩, some ⟨0⟩⟩], 2⟩
    Value.apply 1 f [.int 1] s = some (.ok (.function ⟨1⟩ ⟨[], [.expr (.ident "x")], ⟨1⟩⟩), s₁) ∧
      ∃ (ρ : Renaming) (s₂ : Store), ρ.Repeats s s₁ s₂ ∧ Value.apply 1 f [.int 1] s₁ =
        some (.ok (.function (ρ.identity ⟨1⟩) ⟨[], [.expr (.ident "x")], ρ.scope ⟨1⟩⟩), s₂) := by
  intro f s s₁
  have hmoment : Machine.Moment ⟨.value .null, [], ⟨0⟩, s⟩ := by
    have hsteps : Machine.Steps 6
        (.start ⟨[.bind "f" (.function ["x"] [.expr (.function [] [.expr (.ident "x")])])]⟩
          Session.new.scope Session.new.store) ⟨.value .null, [], ⟨0⟩, s⟩ :=
      .head rfl <| .head rfl <| .head rfl <| .head rfl <| .head rfl <| .head rfl (.refl _)
    exact ⟨_, Machine.Later.refl.steps hsteps⟩
  obtain ⟨hclosed, hlives⟩ := calls_repeat.2 _ hmoment
  have hf : f.Lives s := hlives f (.inr (.inr ⟨⟨0⟩, _, "f", rfl, rfl⟩))
  have hfirst : Value.apply 1 f [.int 1] s =
      some (.ok (.function ⟨1⟩ ⟨[], [.expr (.ident "x")], ⟨1⟩⟩), s₁) := rfl
  obtain ⟨ρ, o₂, s₂, hsecond, hrepeats, rfl, -⟩ := calls_repeat.1 1 s s₁ f [.int 1] _ hclosed hf
    (List.forall_mem_singleton.2 (.int 1)) hfirst
  refine ⟨hfirst, ρ, s₂, hrepeats, hsecond.trans ?_⟩
  change some (Except.ok (Value.function (ρ.identity ⟨1⟩)
    ⟨[].map ρ.name, Stmt.renameAll ρ.name [.expr (.ident "x")], ρ.scope ⟨1⟩⟩), s₂) = _
  rw [hrepeats.fixes.name]
  rfl

end MonkeyLang
