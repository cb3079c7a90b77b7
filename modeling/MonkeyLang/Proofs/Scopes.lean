import MonkeyLang.Store
/-!
# The scopes of a store

What becomes of each scope when something is made or bound in a store:
giving out an identity and making a scope leave all scopes as they are,
and binding a name changes the bindings of one scope only. So the only
value that is ever added to those bound in a store is one that is bound,
and a look-up finds the one that was bound last (`lookup_bindAll`).
-/

namespace MonkeyLang

/-- The scope with one more name bound, or with a name bound anew. -/
def Scope.bind (sc : Scope) (name : String) (v : Value) : Scope :=
  { sc with bindings := sc.bindings.insert name v }

namespace Store

variable {s : Store} {id scope : ScopeId} {name : String} {v : Value} {outer : Option ScopeId}

/-- A new scope has a name that no scope had before. -/
theorem scope?_newScope_fst : s.scope? (s.newScope outer).1 = none := by
  simp [scope?, newScope]

theorem scope?_newScope :
    (s.newScope outer).2.scope? id =
      if id = (s.newScope outer).1 then some ⟨.empty, outer⟩ else s.scope? id := by
  obtain ⟨index⟩ := id
  simp [scope?, newScope, Array.getElem?_push]

/-- A scope that is there stays as it is when another one is made. -/
theorem scope?_newScope_of_some {sc : Scope} (h : s.scope? id = some sc) :
    (s.newScope outer).2.scope? id = some sc := by
  rw [scope?_newScope, if_neg, h]
  rintro rfl
  rw [scope?_newScope_fst] at h
  cases h

theorem scope?_bind :
    (s.bind scope name v).scope? id =
      if id = scope then (s.scope? id).map (·.bind name v) else s.scope? id := by
  obtain ⟨index⟩ := id
  obtain ⟨index'⟩ := scope
  simp only [scope?, bind, Array.getElem?_modify, ScopeId.mk.injEq, eq_comm (a := index')]
  split <;> rfl

/-! ## What is bound -/

/-- A value is bound somewhere in a store. -/
def Bound (s : Store) (v : Value) : Prop :=
  ∃ id sc name, s.scope? id = some sc ∧ sc.bindings.get? name = some v

/-- What a look-up finds is bound in some scope. -/
theorem bound_of_lookup (h : s.lookup scope name = some v) : s.Bound v := by
  fun_induction Store.lookup s scope name with
  | case1 => cases h
  | case2 scope sc hsc w hw =>
    cases h
    exact ⟨scope, sc, name, hsc, hw⟩
  | case3 => cases h
  | case4 scope sc hsc outer _ hw hlt ih => exact ih h
  | case5 => cases h

/-- A new scope binds nothing. -/
theorem bound_of_newScope (h : (s.newScope outer).2.Bound v) : s.Bound v := by
  obtain ⟨id, sc, name, hsc, hget⟩ := h
  rw [scope?_newScope] at hsc
  split at hsc
  · cases hsc
    cases hget
  · exact ⟨id, sc, name, hsc, hget⟩

/-- What is bound behind a binding was bound before, or is the value that
was bound. -/
theorem bound_of_bind {w : Value} (h : (s.bind scope name v).Bound w) : w = v ∨ s.Bound w := by
  obtain ⟨id, sc, k, hsc, hget⟩ := h
  rw [scope?_bind] at hsc
  split at hsc
  · obtain ⟨sc', hsc', rfl⟩ := Option.map_eq_some_iff.mp hsc
    rw [Scope.bind, Table.get?_insert] at hget
    split at hget
    · cases hget
      exact .inl rfl
    · exact .inr ⟨id, sc', k, hsc', hget⟩
  · exact .inr ⟨id, sc, k, hsc, hget⟩

/-! ## Scopes that are there, and what they bind -/

theorem isSome_scope?_bind : ((s.bind scope name v).scope? id).isSome = (s.scope? id).isSome := by
  rw [scope?_bind]
  split
  · exact Option.isSome_map
  · rfl

/-- The scope that was made is there, and so are all that were. -/
theorem isSome_scope?_newScope {outer : Option ScopeId}
    (h : id = (s.newScope outer).1 ∨ (s.scope? id).isSome) :
    ((s.newScope outer).2.scope? id).isSome := by
  rw [scope?_newScope]
  split
  · rfl
  · exact h.resolve_left ‹_›

/-- The value that a scope itself binds to a name. -/
def own? (s : Store) (scope : ScopeId) (name : String) : Option Value :=
  (s.scope? scope).bind (·.bindings.get? name)

theorem lookup_of_own? (h : s.own? scope name = some v) : s.lookup scope name = some v := by
  obtain ⟨sc, hsc, hget⟩ := Option.bind_eq_some_iff.1 h
  rw [lookup, hsc]
  simp only [hget]

theorem own?_bind (h : (s.scope? scope).isSome) (k : String) :
    (s.bind scope name v).own? scope k = if k = name then some v else s.own? scope k := by
  obtain ⟨sc, hsc⟩ := Option.isSome_iff_exists.1 h
  simp only [own?, scope?_bind, hsc, if_true, Option.map_some, Option.bind_some, Scope.bind,
    Table.get?_insert]

/-! ## Names bound one after the other -/

/-- The store after some names were bound in a scope, one after the other. -/
def bindAll (s : Store) (scope : ScopeId) (bindings : List (String × Value)) : Store :=
  bindings.foldl (fun s binding => s.bind scope binding.1 binding.2) s

variable {bindings : List (String × Value)}

/-- What is bound after some names were bound was bound before, or with one
of them. -/
theorem bound_of_bindAll (h : (s.bindAll scope bindings).Bound v) :
    s.Bound v ∨ ∃ binding ∈ bindings, v = binding.2 := by
  induction bindings generalizing s with
  | nil => exact .inl h
  | cons binding rest ih =>
    rcases ih h with h | ⟨b, hb, rfl⟩
    · obtain rfl | h := Store.bound_of_bind h
      · exact .inr ⟨binding, .head _, rfl⟩
      · exact .inl h
    · exact .inr ⟨b, .tail _ hb, rfl⟩

theorem identities_bindAll : (s.bindAll scope bindings).identities = s.identities := by
  induction bindings generalizing s with
  | nil => rfl
  | cons binding rest ih => exact ih

theorem isSome_scope?_bindAll :
    ((s.bindAll scope bindings).scope? id).isSome = (s.scope? id).isSome := by
  induction bindings generalizing s with
  | nil => rfl
  | cons binding rest ih => exact ih.trans isSome_scope?_bind

theorem own?_bindAll_of_not_mem (h : ∀ b ∈ bindings, b.1 ≠ name)
    (hscope : (s.scope? scope).isSome) :
    (s.bindAll scope bindings).own? scope name = s.own? scope name := by
  induction bindings generalizing s with
  | nil => rfl
  | cons binding rest ih =>
    obtain ⟨hne, hrest⟩ := List.forall_mem_cons.1 h
    change ((s.bind scope binding.1 binding.2).bindAll scope rest).own? scope name = _
    rw [ih hrest (isSome_scope?_bind.trans hscope), own?_bind hscope, if_neg hne.symm]

/-- Of the bindings of one name the last one counts. -/
theorem lookup_bindAll {before after : List (String × Value)} (h : ∀ b ∈ after, b.1 ≠ name)
    (hscope : (s.scope? scope).isSome) :
    (s.bindAll scope (before ++ (name, v) :: after)).lookup scope name = some v := by
  have hbefore : ((s.bindAll scope before).scope? scope).isSome :=
    isSome_scope?_bindAll.trans hscope
  refine lookup_of_own? ?_
  rw [bindAll, List.foldl_append]
  change (((s.bindAll scope before).bind scope name v).bindAll scope after).own? scope name = _
  rw [own?_bindAll_of_not_mem h (isSome_scope?_bind.trans hbefore), own?_bind hbefore, if_pos rfl]

end Store

end MonkeyLang
