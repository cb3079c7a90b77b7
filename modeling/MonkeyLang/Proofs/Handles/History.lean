import Mathlib.Logic.Relation
import MonkeyLang.Value.Basic
/-!
# What was done with handles

Scopes are reached through handles: one is obtained by making a scope, on
its own or inside the scope of another handle, or by cloning a handle, and
names are inserted through any of them. A history is the list of these
operations, from the first one on.

The history alone says what becomes of a handle. Two handles lead to the
same scope if they go back to one handle by clones (`History.Shares`); a
scope holds what was inserted last through a handle of it
(`History.Holds`); and a look-up finds what the nearest scope outwards
holds (`History.Finds`).
-/

namespace MonkeyLang

/-- What can be done with handles. A handle is known by the number of
handles that were obtained before it. -/
inductive HandleOp where
  | new
  | default
  | enclose (outer : Nat)
  | clone (handle : Nat)
  | insert (handle : Nat) (name : String) (value : Value)

/-- How a handle was obtained. -/
inductive Origin where
  | alone
  | inside (outer : Nat)
  | cloneOf (handle : Nat)

/-- How an operation obtains a handle, if it does. -/
def HandleOp.origin? : HandleOp → Option Origin
  | .new => some .alone
  | .default => some .alone
  | .enclose outer => some (.inside outer)
  | .clone handle => some (.cloneOf handle)
  | .insert _ _ _ => none

namespace History

/-- How each handle was obtained, from the first one on. -/
def origins (ops : List HandleOp) : List Origin := ops.filterMap HandleOp.origin?

section

variable (ops : List HandleOp)

/-- A handle is a clone of another one. -/
def ClonedFrom (h k : Nat) : Prop := (origins ops)[h]? = some (.cloneOf k)

/-- Two handles go back to one handle by clones only; it may be one of the
two. -/
def Shares : Nat → Nat → Prop := Relation.Join (Relation.ReflTransGen (ClonedFrom ops))

/-- Of the values inserted under a name through handles of some kind, the
last one. -/
def Last (through : Nat → Prop) (name : String) (v : Value) : Prop :=
  ∃ before handle after, ops = before ++ .insert handle name v :: after ∧ through handle ∧
    ∀ k w, .insert k name w ∈ after → ¬ through k

/-- The scope of a handle holds a value under a name: it is the one that was
inserted last, through whichever handle of that scope. -/
def Holds (h : Nat) (name : String) (v : Value) : Prop := Last ops (Shares ops h) name v

/-- The scope of a handle is inside the scope of another one. -/
def Inside (h outer : Nat) : Prop :=
  ∃ k, Shares ops h k ∧ (origins ops)[k]? = some (.inside outer)

/-- What the nearest scope that holds a name has under it, from the scope of
a handle outwards; nothing, if no scope does. -/
inductive Finds (name : String) : Nat → Option Value → Prop
  | here {h : Nat} {v : Value} : Holds ops h name v → Finds name h (some v)
  | outward {h outer : Nat} {found : Option Value} :
      (∀ v, ¬ Holds ops h name v) → Inside ops h outer → Finds name outer found →
      Finds name h found
  | nowhere {h : Nat} :
      (∀ v, ¬ Holds ops h name v) → (∀ outer, ¬ Inside ops h outer) → Finds name h none

/-- From the scope of a handle outwards there is the scope of the handle
`target`, and no nearer scope holds the name. -/
inductive Sees (name : String) (target : Nat) : Nat → Prop
  | here {h : Nat} : Shares ops h target → Sees name target h
  | outward {h outer : Nat} :
      (∀ v, ¬ Holds ops h name v) → Inside ops h outer → Sees name target outer →
      Sees name target h

end

end History

/-! ## Histories, one operation at a time -/

namespace History

variable {ops : List HandleOp} {op : HandleOp} {through through' : Nat → Prop} {name : String}
  {v : Value}

theorem origins_append (ops : List HandleOp) (op : HandleOp) :
    origins (ops ++ [op]) = origins ops ++ op.origin?.toList := by
  rw [origins, List.filterMap_append]
  cases h : op.origin? <;> simp [origins, h]

/-- What comes last is the last operation, if it counts, and else what came
last before. -/
theorem last_append_iff : Last (ops ++ [op]) through name v ↔
    (∃ k, op = .insert k name v ∧ through k) ∨
      (∀ k w, op = .insert k name w → ¬ through k) ∧ Last ops through name v := by
  constructor
  · rintro ⟨before, k, after, heq, hk, hafter⟩
    obtain rfl | ⟨after, last, rfl⟩ := List.eq_nil_or_concat after
    · obtain ⟨-, hop⟩ := List.append_inj' heq rfl
      exact .inl ⟨k, List.singleton_inj.1 hop, hk⟩
    · rw [List.concat_eq_append, ← List.cons_append, ← List.append_assoc] at heq
      obtain ⟨rfl, hop⟩ := List.append_inj' heq rfl
      obtain rfl := List.singleton_inj.1 hop
      rw [List.concat_eq_append] at hafter
      refine .inr ⟨fun m w hop => hafter m w (by simp [hop]), before, k, after, rfl, hk, ?_⟩
      exact fun m w hm => hafter m w (List.mem_append_left _ hm)
  · rintro (⟨k, rfl, hk⟩ | ⟨hop, before, k, after, rfl, hk, hafter⟩)
    · exact ⟨ops, k, [], rfl, hk, nofun⟩
    · refine ⟨before, k, after ++ [op], by simp, hk, fun m w hm => ?_⟩
      rcases List.mem_append.1 hm with hm | hm
      · exact hafter m w hm
      · exact hop m w (List.mem_singleton.1 hm).symm

/-- Only the handles that were inserted through matter. -/
theorem last_congr (h : ∀ k name v, .insert k name v ∈ ops → (through k ↔ through' k)) :
    Last ops through name v ↔ Last ops through' name v := by
  unfold Last
  refine exists_congr fun before => exists_congr fun k => exists_congr fun after =>
    and_congr_right fun heq => ?_
  subst heq
  refine and_congr (h k name v (by simp)) (forall_congr' fun m => forall_congr' fun w =>
    forall_congr' fun hm => not_congr (h m name w (by simp [hm])))

end History

end MonkeyLang
