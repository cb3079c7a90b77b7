import Mathlib.Data.List.Induction
import MonkeyLang.Proofs.Handles.History
import MonkeyLang.Proofs.Handles.Lookup
/-!
# Handles of scopes

`Handles` is what the store and the handles are after some operations.
Every operation does to them what the history says of it
(`Handles.Follows.perform`), so after a whole history they are as it says
(`Handles.follows_of_run`): each handle is what it was obtained as, a scope
was made for one handle only, and what a scope binds was inserted last
through a handle of it.
-/

namespace MonkeyLang

/-- The scopes that the handles lead to, from the first handle on, and the
store that has the scopes. -/
structure Handles where
  scopes : List ScopeId
  store : Store

namespace Handles

/-- No handle was obtained yet. -/
def start : Handles := ⟨[], .empty⟩

/-- One more handle, with the scope that it leads to. -/
def add (t : Handles) (made : ScopeId × Store) : Handles := ⟨t.scopes ++ [made.1], made.2⟩

/-- What an operation does. It cannot be done with a handle that is not
there. -/
def perform (t : Handles) : HandleOp → Option Handles
  | .new => some (t.add (t.store.newScope none))
  | .default => some (t.add (t.store.newScope none))
  | .enclose outer => t.scopes[outer]?.map fun id => t.add (t.store.newScope (some id))
  | .clone handle => t.scopes[handle]?.map fun id => t.add (id, t.store)
  | .insert handle name value =>
    t.scopes[handle]?.map fun id => { t with store := t.store.bind id name value }

/-- The handles after some operations, from the first one on. -/
def run (ops : List HandleOp) : Option Handles := ops.foldlM perform start

/-- The value of a name through a handle. -/
def get? (t : Handles) (handle : Nat) (name : String) : Option Value :=
  t.scopes[handle]?.bind (t.store.lookup · name)

/-- Do two handles lead to the same scope? -/
def same (t : Handles) (h k : Nat) : Bool := t.scopes[h]? == t.scopes[k]?

end Handles

namespace Handles

open History

/-- How a handle was obtained, as the store and the other handles show it. -/
def Shows (t : Handles) (h : Nat) (id : ScopeId) : Origin → Prop
  | .alone => t.store.outer? id = some none
  | .inside outer => ∃ outerId, t.scopes[outer]? = some outerId ∧
      t.store.outer? id = some (some outerId)
  | .cloneOf k => k < h ∧ t.scopes[k]? = some id

/-- The handles and the store are as the history says. -/
structure Follows (ops : List HandleOp) (t : Handles) : Prop where
  ordered : t.store.Ordered
  /-- There are the handles that were obtained. -/
  length_eq : (origins ops).length = t.scopes.length
  /-- Every handle leads to a scope. -/
  isSome : ∀ (h : Nat) (id : ScopeId), t.scopes[h]? = some id → (t.store.outer? id).isSome
  /-- A handle is what it was obtained as. -/
  shows : ∀ (h : Nat) (id : ScopeId) (origin : Origin), t.scopes[h]? = some id →
    (origins ops)[h]? = some origin → t.Shows h id origin
  /-- A scope is made for one handle only. -/
  unique : ∀ (h k : Nat) (id : ScopeId), t.scopes[h]? = some id → t.scopes[k]? = some id →
    (∀ j, ¬ ClonedFrom ops h j) → (∀ j, ¬ ClonedFrom ops k j) → h = k
  /-- Names were inserted through handles that are there. -/
  inserted : ∀ (k : Nat) (name : String) (v : Value), .insert k name v ∈ ops →
    k < t.scopes.length
  /-- What a scope binds was inserted last through a handle of it. -/
  own : ∀ (id : ScopeId) (name : String) (v : Value), t.store.own? id name = some v ↔
    Last ops (fun k => t.scopes[k]? = some id) name v

variable {ops : List HandleOp} {op : HandleOp} {t t' : Handles} {id : ScopeId} {h k : Nat}

theorem run_append (ops : List HandleOp) (op : HandleOp) :
    run (ops ++ [op]) = (run ops).bind fun t => t.perform op := by
  simp [run, List.foldlM_append]

theorem Shows.mono {origin : Origin} (hshows : t.Shows h id origin)
    (hscopes : ∀ (k : Nat) id, t.scopes[k]? = some id → t'.scopes[k]? = some id)
    (hstore : t'.store.outer? id = t.store.outer? id) : t'.Shows h id origin := by
  cases origin with
  | alone => exact hstore.trans hshows
  | inside outer =>
    obtain ⟨outerId, houter, haround⟩ := hshows
    exact ⟨outerId, hscopes outer outerId houter, hstore.trans haround⟩
  | cloneOf k => exact ⟨hshows.1, hscopes k id hshows.2⟩

theorem getElem?_add {made : ScopeId × Store} (hk : t.scopes[k]? = some id) :
    (t.add made).scopes[k]? = some id := by
  rw [Handles.add, List.getElem?_append_left (List.getElem?_eq_some_iff.1 hk).1, hk]

/-- A handle is obtained by an operation: of a scope that is made for it, or
of one that is there. -/
structure Obtains (t : Handles) (op : HandleOp) (origin : Origin) (made : ScopeId × Store) :
    Prop where
  origin? : op.origin? = some origin
  ordered : made.2.Ordered
  isSome : (made.2.outer? made.1).isSome
  kept : ∀ id, (t.store.outer? id).isSome → made.2.outer? id = t.store.outer? id
  own : ∀ id name, made.2.own? id name = t.store.own? id name
  shows : (t.add made).Shows t.scopes.length made.1 origin
  fresh : (∀ j, origin ≠ .cloneOf j) → t.store.outer? made.1 = none

namespace Obtains

variable {origin : Origin} {made : ScopeId × Store}

theorem ne_insert (ho : t.Obtains op origin made) (k : Nat) (name : String) (v : Value) :
    op ≠ .insert k name v := by
  rintro rfl
  cases ho.origin?

theorem origins_eq (ho : t.Obtains op origin made) :
    origins (ops ++ [op]) = origins ops ++ [origin] := by
  rw [origins_append, ho.origin?]
  rfl

/-- A handle is one that was there, or the one that was obtained. -/
theorem cases (ho : t.Obtains op origin made) (hf : Follows ops t)
    (hk : (t.add made).scopes[k]? = some id) :
    t.scopes[k]? = some id ∧ (origins (ops ++ [op]))[k]? = (origins ops)[k]? ∨
      k = t.scopes.length ∧ id = made.1 ∧ (origins (ops ++ [op]))[k]? = some origin := by
  rw [ho.origins_eq]
  by_cases hlt : k < t.scopes.length
  · rw [Handles.add, List.getElem?_append_left hlt] at hk
    exact .inl ⟨hk, List.getElem?_append_left (hf.length_eq ▸ hlt)⟩
  · have hle := (List.getElem?_eq_some_iff.1 hk).1
    obtain rfl : k = t.scopes.length := by
      simp only [Handles.add, List.length_append, List.length_singleton] at hle
      omega
    refine .inr ⟨rfl, ?_, ?_⟩
    · simpa [Handles.add] using hk.symm
    · simp [← hf.length_eq]

/-- A scope that is made for a handle was nobody's before. -/
theorem not_shared (ho : t.Obtains op origin made) (hf : Follows ops t)
    (hroot : ∀ j, ¬ ClonedFrom (ops ++ [op]) h j)
    (heq : (origins (ops ++ [op]))[h]? = some origin) : t.scopes[k]? ≠ some made.1 := by
  intro hk
  have hnone := ho.fresh fun j hj => hroot j (by rw [ClonedFrom, heq, hj])
  have hsome := hf.isSome k made.1 hk
  rw [hnone] at hsome
  cases hsome

end Obtains

theorem Follows.add (hf : Follows ops t) {origin : Origin} {made : ScopeId × Store}
    (ho : t.Obtains op origin made) : Follows (ops ++ [op]) (t.add made) where
  ordered := ho.ordered
  length_eq := by
    rw [ho.origins_eq, Handles.add, List.length_append, List.length_append, hf.length_eq]
    rfl
  isSome k id hk := by
    rcases ho.cases hf hk with ⟨hk, -⟩ | ⟨-, rfl, -⟩
    · have hsome := hf.isSome k id hk
      exact (ho.kept id hsome).symm ▸ hsome
    · exact ho.isSome
  shows k id origin' hk horigin := by
    rcases ho.cases hf hk with ⟨hk, heq⟩ | ⟨rfl, rfl, heq⟩
    · have hshows := hf.shows k id origin' hk (heq ▸ horigin)
      exact hshows.mono (fun _ _ => getElem?_add) (ho.kept id (hf.isSome k id hk))
    · rw [heq] at horigin
      cases horigin
      exact ho.shows
  unique h k id hh hk hroot hroot' := by
    rcases ho.cases hf hh with ⟨hh, heq⟩ | ⟨rfl, rfl, heq⟩ <;>
      rcases ho.cases hf hk with ⟨hk, heq'⟩ | ⟨rfl, hid, heq'⟩
    · simp only [ClonedFrom, heq] at hroot
      simp only [ClonedFrom, heq'] at hroot'
      exact hf.unique h k id hh hk hroot hroot'
    · exact absurd (hid ▸ hh) (ho.not_shared hf hroot' heq')
    · exact absurd hk (ho.not_shared hf hroot heq)
    · rfl
  inserted k name v hk := by
    rcases List.mem_append.1 hk with hk | hk
    · have hlt := hf.inserted k name v hk
      simp only [Handles.add, List.length_append, List.length_singleton]
      omega
    · exact absurd (List.mem_singleton.1 hk).symm (ho.ne_insert k name v)
  own id name v := by
    have hcongr : ∀ k name v, .insert k name v ∈ ops →
        (t.scopes[k]? = some id ↔ (t.add made).scopes[k]? = some id) := by
      intro k name v hk
      rw [Handles.add, List.getElem?_append_left (hf.inserted k name v hk)]
    rw [show (t.add made).store = made.2 from rfl, ho.own, hf.own, last_append_iff,
      last_congr hcongr]
    constructor
    · exact fun hlast => .inr ⟨fun k w hop => absurd hop (ho.ne_insert k name w), hlast⟩
    · rintro (⟨k, hop, -⟩ | ⟨-, hlast⟩)
      · exact absurd hop (ho.ne_insert k name v)
      · exact hlast

/-- Making a scope obtains a handle of it. -/
theorem obtains_newScope (hf : Follows ops t) (origin : Origin) {around : Option ScopeId}
    (horigin : op.origin? = some origin) (haround : ∀ id ∈ around, (t.store.outer? id).isSome)
    (hshows : (t.add (t.store.newScope around)).Shows t.scopes.length
      (t.store.newScope around).1 origin) :
    t.Obtains op origin (t.store.newScope around) where
  origin? := horigin
  ordered := hf.ordered.newScope haround
  isSome := by rw [Store.outer?_newScope, if_pos rfl]; rfl
  kept id hid := by
    rw [Store.outer?_newScope, if_neg]
    rintro rfl
    rw [Store.outer?_newScope_fst] at hid
    cases hid
  own _ _ := Store.own?_newScope
  shows := hshows
  fresh _ := Store.outer?_newScope_fst

/-- The value inserted is the last one under its name, and only there. -/
theorem Follows.own_insert (hf : Follows ops t) {name : String} {v : Value}
    (hk : t.scopes[k]? = some id) (id' : ScopeId) (name' : String) (v' : Value) :
    (t.store.bind id name v).own? id' name' = some v' ↔
      Last (ops ++ [.insert k name v]) (fun k => t.scopes[k]? = some id') name' v' := by
  have hthere : (t.store.scope? id).isSome := Option.isSome_map.symm.trans (hf.isSome k id hk)
  rw [last_append_iff]
  by_cases hhere : id' = id ∧ name' = name
  · obtain ⟨rfl, rfl⟩ := hhere
    rw [Store.own?_bind hthere, if_pos rfl]
    constructor
    · rintro ⟨⟩
      exact .inl ⟨k, rfl, hk⟩
    · rintro (⟨m, ⟨⟩, -⟩ | ⟨hno, -⟩)
      · rfl
      · exact absurd hk (hno k v rfl)
  · have hne : id' = id → name' ≠ name := fun hid hname => hhere ⟨hid, hname⟩
    rw [Store.own?_bind_of_ne hne, hf.own]
    constructor
    · refine fun hlast => .inr ⟨?_, hlast⟩
      rintro m w ⟨⟩ hm
      exact hhere ⟨Option.some.inj (hm.symm.trans hk), rfl⟩
    · rintro (⟨m, ⟨⟩, hm⟩ | ⟨-, hlast⟩)
      · exact absurd ⟨Option.some.inj (hm.symm.trans hk), rfl⟩ hhere
      · exact hlast

theorem origins_insert (ops : List HandleOp) (k : Nat) (name : String) (v : Value) :
    origins (ops ++ [.insert k name v]) = origins ops := by
  rw [origins_append]
  exact List.append_nil _

/-- A name is inserted: the handles lead where they did. -/
theorem Follows.insert (hf : Follows ops t) {name : String} {v : Value}
    (hk : t.scopes[k]? = some id) :
    Follows (ops ++ [.insert k name v]) { t with store := t.store.bind id name v } where
  ordered := hf.ordered.bind id name v
  length_eq := by rw [origins_insert, hf.length_eq]
  isSome m id' hm := by
    rw [Store.outer?_bind]
    exact hf.isSome m id' hm
  shows m id' origin hm horigin := by
    rw [origins_insert] at horigin
    exact (hf.shows m id' origin hm horigin).mono (fun _ _ h => h) Store.outer?_bind
  unique m m' id' hm hm' hroot hroot' := by
    simp only [ClonedFrom, origins_insert] at hroot hroot'
    exact hf.unique m m' id' hm hm' hroot hroot'
  inserted m name' v' hm := by
    rcases List.mem_append.1 hm with hm | hm
    · exact hf.inserted m name' v' hm
    · cases List.mem_singleton.1 hm
      exact (List.getElem?_eq_some_iff.1 hk).1
  own := hf.own_insert hk

theorem Follows.start : Follows [] start where
  ordered id outer h := by cases h
  length_eq := rfl
  isSome h id hh := by cases hh
  shows h id origin hh := by cases hh
  unique h k id hh := by cases hh
  inserted k name v hk := by cases hk
  own id name v := by
    constructor
    · rintro ⟨⟩
    · rintro ⟨before, k, after, heq, -⟩
      simp at heq

/-- **Every operation does what the history says of it.** -/
theorem Follows.perform (hf : Follows ops t) (hop : t.perform op = some t') :
    Follows (ops ++ [op]) t' := by
  cases op with
  | new =>
    cases hop
    refine hf.add (obtains_newScope hf .alone rfl nofun ?_)
    exact Store.outer?_newScope.trans (if_pos rfl)
  | default =>
    cases hop
    refine hf.add (obtains_newScope hf .alone rfl nofun ?_)
    exact Store.outer?_newScope.trans (if_pos rfl)
  | enclose outer =>
    obtain ⟨id, hid, rfl⟩ := Option.map_eq_some_iff.1 hop
    have haround : ∀ id' ∈ some id, (t.store.outer? id').isSome := by
      rintro _ ⟨⟩
      exact hf.isSome outer id hid
    refine hf.add (obtains_newScope hf (.inside outer) rfl haround ?_)
    exact ⟨id, getElem?_add hid, Store.outer?_newScope.trans (if_pos rfl)⟩
  | clone k =>
    obtain ⟨id, hid, rfl⟩ := Option.map_eq_some_iff.1 hop
    have hshows : (t.add (id, t.store)).Shows t.scopes.length id (.cloneOf k) :=
      ⟨(List.getElem?_eq_some_iff.1 hid).1, getElem?_add hid⟩
    have ho : t.Obtains (.clone k) (.cloneOf k) (id, t.store) :=
      ⟨rfl, hf.ordered, hf.isSome k id hid, fun _ _ => rfl, fun _ _ => rfl, hshows,
        fun h => absurd rfl (h k)⟩
    exact hf.add ho
  | insert k name v =>
    obtain ⟨id, hid, rfl⟩ := Option.map_eq_some_iff.1 hop
    exact hf.insert hid

/-- **The handles are as their history says.** -/
theorem follows_of_run (hrun : run ops = some t) : Follows ops t := by
  induction ops using List.reverseRecOn generalizing t with
  | nil =>
    cases hrun
    exact .start
  | append_singleton ops op ih =>
    rw [run_append] at hrun
    obtain ⟨t', hrun', hop⟩ := Option.bind_eq_some_iff.1 hrun
    exact (ih hrun').perform hop

end Handles

end MonkeyLang
