import MonkeyLang.Proofs.Scopes
/-!
# Look-ups go outwards

The scope around a scope is older than the scope itself
(`Store.Ordered`). So a look-up that goes outwards comes to an end, in
whichever scope it starts (`Store.Ordered.comesTo`), and making a scope
inside one that is there, or binding a name, leaves it so.
-/

namespace MonkeyLang

namespace Store

variable {s : Store} {id outer : ScopeId} {name : String} {v : Value}

/-- What is around a scope, if the scope is there. -/
def outer? (s : Store) (id : ScopeId) : Option (Option ScopeId) := (s.scope? id).map Scope.outer

/-- A look-up that goes outwards for as long as there is a scope around
comes to an end, with the given result. -/
inductive ComesTo (s : Store) (name : String) : ScopeId → Option Value → Prop
  | bound {id : ScopeId} {v : Value} : s.own? id name = some v → ComesTo s name id (some v)
  | outward {id outer : ScopeId} {found : Option Value} :
      s.own? id name = none → s.outer? id = some (some outer) → ComesTo s name outer found →
      ComesTo s name id found
  | nowhere {id : ScopeId} :
      s.own? id name = none → s.outer? id = some none → ComesTo s name id none

/-- The scope around a scope is there, and is older. -/
def Ordered (s : Store) : Prop :=
  ∀ id outer, s.outer? id = some (some outer) →
    outer.index < id.index ∧ (s.outer? outer).isSome

/-- A new scope is inside the given one, and the others are where they
were. -/
theorem outer?_newScope {around : Option ScopeId} :
    (s.newScope around).2.outer? id =
      if id = (s.newScope around).1 then some around else s.outer? id := by
  rw [outer?, scope?_newScope]
  split <;> rfl

theorem outer?_newScope_fst {around : Option ScopeId} :
    s.outer? (s.newScope around).1 = none := by
  rw [outer?, scope?_newScope_fst]
  rfl

/-- It binds nothing, and the others bind what they did. -/
theorem own?_newScope {around : Option ScopeId} :
    (s.newScope around).2.own? id name = s.own? id name := by
  rw [own?, own?, scope?_newScope]
  split
  · next hid =>
    rw [hid, scope?_newScope_fst]
    rfl
  · rfl

theorem outer?_bind {scope : ScopeId} : (s.bind scope name v).outer? id = s.outer? id := by
  rw [outer?, outer?, scope?_bind]
  split
  · rw [Option.map_map]
    rfl
  · rfl

theorem own?_bind_of_ne {scope : ScopeId} {k : String} (h : id = scope → k ≠ name) :
    (s.bind scope name v).own? id k = s.own? id k := by
  rw [own?, own?, scope?_bind]
  split
  · next hid =>
    cases s.scope? id with
    | none => rfl
    | some sc => simp [Scope.bind, Table.get?_insert, h hid]
  · rfl

/-- A look-up goes outwards where the scope does not bind the name. -/
theorem lookup_outward (h : s.Ordered) (hown : s.own? id name = none)
    (houter : s.outer? id = some (some outer)) : s.lookup id name = s.lookup outer name := by
  have hlt := (h id outer houter).1
  obtain ⟨sc, hsc, hsome⟩ := Option.map_eq_some_iff.1 houter
  have hget : sc.bindings.get? name = none := by simpa [own?, hsc] using hown
  rw [lookup, hsc]
  simp only [hget, hsome, if_pos hlt]

/-- The outermost scope answers nothing to a name that it does not bind. -/
theorem lookup_nowhere (hown : s.own? id name = none) (houter : s.outer? id = some none) :
    s.lookup id name = none := by
  obtain ⟨sc, hsc, hnone⟩ := Option.map_eq_some_iff.1 houter
  have hget : sc.bindings.get? name = none := by simpa [own?, hsc] using hown
  rw [lookup, hsc]
  simp only [hget, hnone]

/-- **Every look-up comes to an end.** -/
theorem Ordered.comesTo (h : s.Ordered) (hid : (s.outer? id).isSome) (name : String) :
    s.ComesTo name id (s.lookup id name) := by
  -- on the age of the scope: the one around it is older
  induction hn : id.index using Nat.strongRecOn generalizing id with | _ n ih
  obtain ⟨around, haround⟩ := Option.isSome_iff_exists.1 hid
  cases hown : s.own? id name with
  | some v =>
    rw [lookup_of_own? hown]
    exact .bound hown
  | none =>
    cases around with
    | none =>
      rw [lookup_nowhere hown haround]
      exact .nowhere hown haround
    | some outer =>
      obtain ⟨hlt, hthere⟩ := h id outer haround
      rw [lookup_outward h hown haround]
      exact .outward hown haround (ih _ (hn ▸ hlt) hthere rfl)

/-- Scopes are made inside scopes that are there, which are older
therefore. -/
theorem Ordered.newScope (h : s.Ordered) {around : Option ScopeId}
    (haround : ∀ id ∈ around, (s.outer? id).isSome) : (s.newScope around).2.Ordered := by
  have hthere {id : ScopeId} (hid : (s.outer? id).isSome) :
      ((s.newScope around).2.outer? id).isSome := by
    rw [outer?_newScope]
    split
    · rfl
    · exact hid
  intro id outer houter
  rw [outer?_newScope] at houter
  split at houter
  · next hid =>
    have hsome := haround outer (Option.some.inj houter)
    refine ⟨?_, hthere hsome⟩
    obtain ⟨sc, hsc⟩ := Option.isSome_iff_exists.1 (Option.isSome_map.symm.trans hsome)
    obtain ⟨hlt, -⟩ := Array.getElem?_eq_some_iff.1 hsc
    rw [hid]
    exact hlt
  · obtain ⟨hlt, hsome⟩ := h id outer houter
    exact ⟨hlt, hthere hsome⟩

theorem Ordered.bind (h : s.Ordered) (scope : ScopeId) (name : String) (v : Value) :
    (s.bind scope name v).Ordered := by
  intro id outer houter
  rw [outer?_bind] at houter ⊢
  exact h id outer houter

end Store

end MonkeyLang
