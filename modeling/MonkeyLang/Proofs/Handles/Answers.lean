import MonkeyLang.Proofs.Handles.Basic
/-!
# What is found through handles

The store answers as the history of the handles says: which handles lead to
the same scope (`Handles.Follows.shares_iff`), and what a look-up finds
(`Handles.Follows.lookup_eq_iff`). An insertion changes the answers of those
handles only from which its scope is in sight. The main statement is
`handles_follow_history`.
-/

namespace MonkeyLang

namespace Handles

open History

variable {ops : List HandleOp} {t : Handles} {id : ScopeId} {h k : Nat}

/-! ## What the store answers -/

namespace Follows

variable {j outer : Nat} {around : ScopeId} {name : String} {v : Value} {found : Option Value}

theorem exists_origin (hf : Follows ops t) (hh : t.scopes[h]? = some id) :
    ∃ origin, (origins ops)[h]? = some origin ∧ t.Shows h id origin := by
  have hlt := (List.getElem?_eq_some_iff.1 hh).1
  obtain ⟨origin, horigin⟩ : ∃ origin, (origins ops)[h]? = some origin :=
    ⟨_, List.getElem?_eq_getElem (hf.length_eq ▸ hlt)⟩
  exact ⟨origin, horigin, hf.shows h id origin hh horigin⟩

/-- A handle goes back by clones to one that was obtained with its scope. -/
theorem exists_root (hf : Follows ops t) (hh : t.scopes[h]? = some id) :
    ∃ root, Relation.ReflTransGen (ClonedFrom ops) h root ∧ t.scopes[root]? = some id ∧
      ∀ j, ¬ ClonedFrom ops root j := by
  -- a clone is obtained after the handle that is cloned
  induction h using Nat.strongRecOn with | _ h ih
  by_cases hclone : ∃ j, ClonedFrom ops h j
  · obtain ⟨j, hj⟩ := hclone
    obtain ⟨hlt, hid⟩ := hf.shows h id _ hh hj
    obtain ⟨root, hroot, hrest⟩ := ih j hlt hid
    exact ⟨root, .head hj hroot, hrest⟩
  · exact ⟨h, .refl, hh, fun j hj => hclone ⟨j, hj⟩⟩

/-- A clone leads where the handle leads that was cloned. -/
theorem getElem?_eq_of_clones (hf : Follows ops t)
    (hclones : Relation.ReflTransGen (ClonedFrom ops) h j) :
    t.scopes[h]? = some id ↔ t.scopes[j]? = some id := by
  induction hclones using Relation.ReflTransGen.head_induction_on with
  | refl => rfl
  | @head h k hclone _ ih =>
    rw [← ih]
    have hlt := (List.getElem?_eq_some_iff.1 hclone).1
    have hh := List.getElem?_eq_getElem (hf.length_eq ▸ hlt)
    obtain ⟨-, hk⟩ := hf.shows h _ _ hh hclone
    rw [hh, hk]

/-- **Two handles share a scope if they go back to one handle by clones.** -/
theorem shares_iff (hf : Follows ops t) (hh : t.scopes[h]? = some id) :
    Shares ops h k ↔ t.scopes[k]? = some id := by
  constructor
  · rintro ⟨j, hj, hk⟩
    exact (hf.getElem?_eq_of_clones hk).2 ((hf.getElem?_eq_of_clones hj).1 hh)
  · intro hk
    obtain ⟨root, hclones, hroot, hfree⟩ := hf.exists_root hh
    obtain ⟨root', hclones', hroot', hfree'⟩ := hf.exists_root hk
    obtain rfl := hf.unique root root' id hroot hroot' hfree hfree'
    exact ⟨root, hclones, hclones'⟩

theorem holds_iff (hf : Follows ops t) (hh : t.scopes[h]? = some id) :
    Holds ops h name v ↔ t.store.own? id name = some v := by
  rw [hf.own, Holds]
  exact last_congr fun k _ _ _ => hf.shares_iff hh

theorem own?_eq_none_iff (hf : Follows ops t) (hh : t.scopes[h]? = some id) :
    t.store.own? id name = none ↔ ∀ v, ¬ Holds ops h name v := by
  rw [Option.eq_none_iff_forall_ne_some]
  exact forall_congr' fun v => not_congr (hf.holds_iff hh).symm

/-- What is around the scope of a handle, by the history and in the store. -/
theorem outer?_of_inside (hf : Follows ops t) (hh : t.scopes[h]? = some id)
    (hinside : Inside ops h outer) :
    ∃ around, t.scopes[outer]? = some around ∧ t.store.outer? id = some (some around) := by
  obtain ⟨k, hshares, horigin⟩ := hinside
  exact hf.shows k id _ ((hf.shares_iff hh).1 hshares) horigin

theorem exists_inside (hf : Follows ops t) (hh : t.scopes[h]? = some id)
    (haround : t.store.outer? id = some (some around)) :
    ∃ outer, Inside ops h outer ∧ t.scopes[outer]? = some around := by
  obtain ⟨root, hclones, hroot, hfree⟩ := hf.exists_root hh
  obtain ⟨origin, horigin, hshows⟩ := hf.exists_origin hroot
  cases origin with
  | alone => exact absurd (hshows.symm.trans haround) (by simp)
  | inside outer =>
    obtain ⟨around', houter, haround'⟩ := hshows
    obtain rfl : around' = around := by simpa using haround'.symm.trans haround
    exact ⟨outer, ⟨root, ⟨root, hclones, .refl⟩, horigin⟩, houter⟩
  | cloneOf j => exact absurd horigin (hfree j)

theorem lookup_of_finds (hf : Follows ops t) (hh : t.scopes[h]? = some id)
    (hfinds : Finds ops name h found) : t.store.lookup id name = found := by
  induction hfinds generalizing id with
  | here hholds => exact Store.lookup_of_own? ((hf.holds_iff hh).1 hholds)
  | outward hfree hinside _ ih =>
    obtain ⟨around, houter, haround⟩ := hf.outer?_of_inside hh hinside
    rw [Store.lookup_outward hf.ordered ((hf.own?_eq_none_iff hh).2 hfree) haround, ih houter]
  | nowhere hfree halone =>
    refine Store.lookup_nowhere ((hf.own?_eq_none_iff hh).2 hfree) ?_
    obtain ⟨_ | around, haround⟩ := Option.isSome_iff_exists.1 (hf.isSome _ id hh)
    · exact haround
    · obtain ⟨outer, hinside, -⟩ := hf.exists_inside hh haround
      exact absurd hinside (halone outer)

theorem finds_of_comesTo (hf : Follows ops t) (hh : t.scopes[h]? = some id)
    (hcomes : t.store.ComesTo name id found) : Finds ops name h found := by
  induction hcomes generalizing h with
  | bound hown => exact .here ((hf.holds_iff hh).2 hown)
  | outward hown haround _ ih =>
    obtain ⟨outer, hinside, houter⟩ := hf.exists_inside hh haround
    exact .outward ((hf.own?_eq_none_iff hh).1 hown) hinside (ih houter)
  | nowhere hown halone =>
    refine .nowhere ((hf.own?_eq_none_iff hh).1 hown) fun outer hinside => ?_
    obtain ⟨around, -, haround⟩ := hf.outer?_of_inside hh hinside
    rw [halone] at haround
    cases haround

/-- **A look-up finds what the history says.** -/
theorem lookup_eq_iff (hf : Follows ops t) (hh : t.scopes[h]? = some id) :
    t.store.lookup id name = found ↔ Finds ops name h found := by
  constructor
  · rintro rfl
    exact hf.finds_of_comesTo hh (hf.ordered.comesTo (hf.isSome h id hh) name)
  · exact hf.lookup_of_finds hh

/-! ## What an insertion changes -/

variable {target : ScopeId} {m : String}

/-- The value inserted is found where its scope is in sight. -/
theorem lookup_bind_of_sees (hf : Follows ops t) (hk : t.scopes[k]? = some target)
    (hh : t.scopes[h]? = some id) (hsees : Sees ops name k h) :
    (t.store.bind target name v).lookup id name = some v := by
  have hthere : (t.store.scope? target).isSome :=
    Option.isSome_map.symm.trans (hf.isSome k target hk)
  have hown : (t.store.bind target name v).own? target name = some v := by
    rw [Store.own?_bind hthere, if_pos rfl]
  induction hsees generalizing id with
  | here hshares =>
    obtain rfl : target = id := Option.some.inj (hk.symm.trans ((hf.shares_iff hh).1 hshares))
    exact Store.lookup_of_own? hown
  | outward hfree hinside _ ih =>
    by_cases hid : id = target
    · rw [hid]
      exact Store.lookup_of_own? hown
    · obtain ⟨around, houter, haround⟩ := hf.outer?_of_inside hh hinside
      have hnone : (t.store.bind target name v).own? id name = none := by
        rw [Store.own?_bind_of_ne fun h => absurd h hid]
        exact (hf.own?_eq_none_iff hh).2 hfree
      rw [Store.lookup_outward (hf.ordered.bind target name v) hnone
        (Store.outer?_bind.trans haround), ih houter]

/-- Every other look-up finds what it found before. -/
theorem lookup_bind_of_not_sees (hf : Follows ops t) (hk : t.scopes[k]? = some target)
    (hh : t.scopes[h]? = some id) (hsees : ¬ (m = name ∧ Sees ops name k h)) :
    (t.store.bind target name v).lookup id m = t.store.lookup id m := by
  have hordered := hf.ordered.bind target name v
  have hcomes := hf.ordered.comesTo (hf.isSome h id hh) m
  have hown {h : Nat} {id : ScopeId} (hh : t.scopes[h]? = some id)
      (hsees : ¬ (m = name ∧ Sees ops name k h)) :
      (t.store.bind target name v).own? id m = t.store.own? id m := by
    refine Store.own?_bind_of_ne ?_
    rintro rfl rfl
    exact hsees ⟨rfl, .here ((hf.shares_iff hh).2 hk)⟩
  generalize t.store.lookup id m = found at hcomes ⊢
  induction hcomes generalizing h with
  | bound hbound => exact Store.lookup_of_own? ((hown hh hsees).trans hbound)
  | outward hfree haround _ ih =>
    obtain ⟨outer, hinside, houter⟩ := hf.exists_inside hh haround
    rw [Store.lookup_outward hordered ((hown hh hsees).trans hfree)
      (Store.outer?_bind.trans haround)]
    refine ih houter ?_
    rintro ⟨rfl, hsees'⟩
    exact hsees ⟨rfl, .outward ((hf.own?_eq_none_iff hh).1 hfree) hinside hsees'⟩
  | nowhere hfree halone =>
    exact Store.lookup_nowhere ((hown hh hsees).trans hfree) (Store.outer?_bind.trans halone)

end Follows

end Handles

open History in
/-- **Handles answer as their history says.** After any operations the scope
around a scope is older, so that every look-up comes to an end; what is
found through a handle is what was inserted last, through whichever handle,
into the nearest scope that holds the name; two handles lead to the same
scope if and only if they go back to one handle by clones; and an insertion
is found from where its scope is in sight, and changes no other answer. -/
theorem handles_follow_history (ops : List HandleOp) (t : Handles)
    (hrun : Handles.run ops = some t) :
    (∀ id outer, t.store.outer? id = some (some outer) →
      outer.index < id.index ∧ (t.store.outer? outer).isSome) ∧
    (∀ id, (t.store.outer? id).isSome → ∀ name,
      t.store.ComesTo name id (t.store.lookup id name)) ∧
    (∀ h < t.scopes.length, ∀ name found, t.get? h name = found ↔ Finds ops name h found) ∧
    (∀ h < t.scopes.length, ∀ k < t.scopes.length, t.same h k = true ↔ Shares ops h k) ∧
    (∀ k < t.scopes.length, ∀ name v, ∃ t', Handles.run (ops ++ [.insert k name v]) = some t' ∧
      ∀ h < t.scopes.length, ∀ m,
        (m = name ∧ Sees ops name k h → t'.get? h m = some v) ∧
        (¬ (m = name ∧ Sees ops name k h) → t'.get? h m = t.get? h m)) := by
  have hf := Handles.follows_of_run hrun
  have hhandle (h : Nat) (hlt : h < t.scopes.length) : ∃ id, t.scopes[h]? = some id :=
    ⟨_, List.getElem?_eq_getElem hlt⟩
  refine ⟨hf.ordered, fun id hid name => hf.ordered.comesTo hid name, ?_, ?_, ?_⟩
  · intro h hlt name found
    obtain ⟨id, hh⟩ := hhandle h hlt
    rw [Handles.get?, hh]
    exact hf.lookup_eq_iff hh
  · intro h hlt k _
    obtain ⟨id, hh⟩ := hhandle h hlt
    rw [hf.shares_iff hh, Handles.same, beq_iff_eq, hh, eq_comm]
  · intro k hk name v
    obtain ⟨target, hk⟩ := hhandle k hk
    refine ⟨{ t with store := t.store.bind target name v }, ?_, fun h hlt m => ?_⟩
    · rw [Handles.run_append, hrun]
      simp only [Option.bind_some, Handles.perform, hk, Option.map_some]
    · obtain ⟨id, hh⟩ := hhandle h hlt
      simp only [Handles.get?, hh, Option.bind_some]
      constructor
      · rintro ⟨rfl, hsees⟩
        exact hf.lookup_bind_of_sees hk hh hsees
      · exact hf.lookup_bind_of_not_sees hk hh

open History in
/-- A name of an outer scope is inserted anew through a clone of a handle of
the inner one: from there on the inner scope answers for it, and what is
inserted into the outer scope later is not seen from inside. -/
theorem shadowed_through_clone :
    let ops : List HandleOp := [.new, .insert 0 "a" (.int 1), .enclose 0, .clone 1,
      .insert 2 "a" (.int 2)]
    ∃ t t', Handles.run ops = some t ∧
      Handles.run (ops ++ [.insert 0 "a" (.int 3)]) = some t' ∧
      t.same 1 2 = true ∧ t.get? 1 "a" = some (.int 2) ∧ t.get? 0 "a" = some (.int 1) ∧
      t'.get? 1 "a" = some (.int 2) ∧ t'.get? 0 "a" = some (.int 3) := by
  intro ops
  obtain ⟨t, hrun⟩ : ∃ t, Handles.run ops = some t := ⟨_, rfl⟩
  obtain ⟨-, -, hget, hsame, hinsert⟩ := handles_follow_history ops t hrun
  have hlength : t.scopes.length = 3 := by
    cases hrun
    rfl
  have hshares : Shares ops 1 2 := ⟨1, .refl, .single rfl⟩
  have hapart : ¬ Shares ops 1 0 ∧ ¬ Shares ops 0 2 := by
    rw [← hsame 1 (by omega) 0 (by omega), ← hsame 0 (by omega) 2 (by omega)]
    cases hrun
    decide
  have hinner : Holds ops 1 "a" (.int 2) :=
    ⟨[.new, .insert 0 "a" (.int 1), .enclose 0, .clone 1], 2, [], rfl, hshares, nofun⟩
  have houter : Holds ops 0 "a" (.int 1) := by
    refine ⟨[.new], 0, [.enclose 0, .clone 1, .insert 2 "a" (.int 2)], rfl, ⟨0, .refl, .refl⟩, ?_⟩
    intro k w hk
    obtain ⟨rfl, -⟩ : k = 2 ∧ w = .int 2 := by simpa using hk
    exact hapart.2
  have hinnerGet := (hget 1 (by omega) "a" _).2 (.here hinner)
  obtain ⟨t', hrun', hchange⟩ := hinsert 0 (by omega) "a" (.int 3)
  have hhidden : ¬ ("a" = "a" ∧ Sees ops "a" 0 1) := by
    rintro ⟨-, hshares | ⟨hfree, -, -⟩⟩
    · exact hapart.1 hshares
    · exact hfree _ hinner
  refine ⟨t, t', hrun, hrun', (hsame 1 (by omega) 2 (by omega)).2 hshares, hinnerGet,
    (hget 0 (by omega) "a" _).2 (.here houter), ?_, ?_⟩
  · rw [(hchange 1 (by omega) "a").2 hhidden, hinnerGet]
  · exact (hchange 0 (by omega) "a").1 ⟨rfl, .here ⟨0, .refl, .refl⟩⟩

end MonkeyLang
