import MonkeyLang.Proofs.InsertionOrder
/-!
# Look-ups in hashes and `==`

Keys are compared in two ways: a hash compares the contents of its keys,
and a program compares values by `==`, which is an error between values of
different types. Between keys the two come to the same
(`HashKey.equals_value_iff`), since a key is no more than its content
(`Value.hashKey?_eq_some_iff`).

The main statement is `hash_lookup_agrees_with_equality`: what a hash literal
has for a key is what its last pair says whose key is equal by `==`, and its
entries are the classes of equal keys.
-/

namespace MonkeyLang

/-! ## Equal values -/

/-- Does `==` between two values come to `true`? Where it comes to an error,
as between values of different types, it does not. -/
def Value.equals (a b : Value) : Bool :=
  match BinaryOp.eq.apply a b with
  | .ok (.bool answer) => answer
  | _ => false

/-- Integers, booleans and strings may be keys. -/
def Value.IsKey (v : Value) : Prop :=
  v.type = .integer ∨ v.type = .boolean ∨ v.type = .string

/-- The value that a key is. -/
def HashKey.value : HashKey → Value
  | .int n => .int n
  | .bool b => .bool b
  | .string text => .string text

/-- A key is no more than its content. -/
theorem Value.hashKey?_eq_some_iff {v : Value} {key : HashKey} :
    v.hashKey? = some key ↔ v = key.value := by
  cases key <;> cases v <;> simp [hashKey?, HashKey.value]

theorem Value.isKey_iff {v : Value} : v.IsKey ↔ ∃ key : HashKey, v = key.value := by
  simp only [← hashKey?_eq_some_iff]
  cases v <;> simp [IsKey, type, hashKey?]

theorem Value.hashKey?_eq_none {v : Value} (h : ¬ v.IsKey) : v.hashKey? = none := by
  rw [Option.eq_none_iff_forall_ne_some]
  intro key hkey
  exact h (isKey_iff.2 ⟨key, hashKey?_eq_some_iff.1 hkey⟩)

/-- **Keys are equal by `==` just if their contents are the same.** -/
theorem HashKey.equals_value_iff {key key' : HashKey} :
    key.value.equals key'.value = true ↔ key = key' := by
  cases key <;> cases key' <;>
    simp [value, Value.equals, BinaryOp.apply, BinaryOp.applyInt, BinaryOp.applyString,
      Value.type, Value.identical]

/-! ## What pairs say -/

/-- What the last of some pairs says whose key equals a value, and `null` if
there is none. -/
def lastEqual (pairs : List (Value × Value)) (k : Value) : Value :=
  (((pairs.filter fun pair => pair.1.equals k).getLast?).map Prod.snd).getD .null

/-- The first one of each class of equal values, from left to right. -/
def firstsOf (values : List Value) : List Value :=
  values.foldl (fun firsts v => if firsts.any (·.equals v) then firsts else firsts ++ [v]) []

theorem firstsOf_concat (values : List Value) (v : Value) :
    firstsOf (values ++ [v]) =
      if (firstsOf values).any (·.equals v) then firstsOf values
      else firstsOf values ++ [v] := by
  rw [firstsOf, List.foldl_append]
  rfl

/-- One of some keys equals a key just if it is among them. -/
theorem HashKey.any_equals_iff {keys : List HashKey} {key : HashKey} :
    (keys.map value).any (·.equals key.value) = true ↔ key ∈ keys := by
  rw [List.any_map, List.any_eq_true]
  constructor
  · rintro ⟨other, hmem, hequals⟩
    exact equals_value_iff.1 hequals ▸ hmem
  · exact fun hmem => ⟨key, hmem, equals_value_iff.2 rfl⟩

/-- The classes of equal keys are the different contents. -/
theorem firstsOf_map_value (keys : List HashKey) :
    firstsOf (keys.map HashKey.value) = keys.eraseDups.map HashKey.value := by
  induction keys using List.reverseRecOn with
  | nil => rfl
  | append_singleton keys key ih =>
    have hany : (keys.eraseDups.map HashKey.value).any (·.equals key.value) = true ↔
        key ∈ keys := HashKey.any_equals_iff.trans List.mem_eraseDups
    rw [List.map_append, List.map_singleton, firstsOf_concat, ih, List.eraseDups_append]
    by_cases h : key ∈ keys
    · simp [List.removeAll, hany.2 h, h]
    · rw [if_neg (mt hany.1 h)]
      simp [List.removeAll, h, List.eraseDups_cons]

/-! ## Tables of keys -/

/-- Pairs of keys and values, each under the content of its key. -/
def UnderContents (entries : List (HashKey × (Value × Value))) : Prop :=
  ∀ entry ∈ entries, entry.2.1 = entry.1.value

namespace UnderContents

variable {entries : List (HashKey × (Value × Value))}

theorem map_key (h : UnderContents entries) :
    (entries.map Prod.snd).map Prod.fst = (entries.map Prod.fst).map HashKey.value := by
  rw [List.map_map, List.map_map]
  exact List.map_congr_left h

theorem ofList (h : UnderContents entries) : UnderContents (Table.ofList entries).entries :=
  fun entry hentry => h entry (Table.mem_of_mem_ofList hentry)

/-- What is written last under a content is what the last pair says whose
key equals the key. -/
theorem lastEqual_value (h : UnderContents entries) (key : HashKey) :
    lastEqual (entries.map Prod.snd) key.value =
      ((lastOf key entries).map Prod.snd).getD .null := by
  have hequals : ∀ entry ∈ entries,
      entry.2.1.equals key.value = decide (entry.1 = key) := by
    intro entry hentry
    rw [h entry hentry, Bool.eq_iff_iff, HashKey.equals_value_iff, decide_eq_true_iff]
  have hfilter : (entries.map Prod.snd).filter (fun pair => pair.1.equals key.value) =
      (entries.filter fun entry => entry.1 = key).map Prod.snd := by
    rw [List.filter_map]
    exact congrArg (List.map Prod.snd) (List.filter_congr hequals)
  rw [lastEqual, hfilter, lastOf, List.getLast?_map]

/-- The entries stand for the classes of equal keys, in the order of the
first one of each. -/
theorem keys_eq_firstsOf (h : UnderContents entries) :
    ((Table.ofList entries).entries.map Prod.snd).map Prod.fst =
      firstsOf ((entries.map Prod.snd).map Prod.fst) := by
  rw [h.ofList.map_key, h.map_key, firstsOf_map_value, ← Table.keys_ofList]
  rfl

/-- An entry holds what the last pair says whose key equals its own. -/
theorem eq_lastEqual_of_mem (h : UnderContents entries) {entry : HashKey × (Value × Value)}
    (hentry : entry ∈ (Table.ofList entries).entries) :
    entry.2.2 = lastEqual (entries.map Prod.snd) entry.2.1 := by
  have hget : (Table.ofList entries).get? entry.1 = some entry.2 := by
    have hnodup : (Table.ofList entries).keys.Nodup := Table.nodup_keys_ofList
    have hall := Table.map_get?_keys hnodup
    rw [Table.keys, List.map_map] at hall
    exact List.map_inj_left.1 hall entry hentry
  rw [h.ofList entry hentry, h.lastEqual_value, ← Table.get?_ofList, hget]
  rfl

end UnderContents

/-! ## Hash literals -/

section Literals

variable {apply : Applier} {scope : ScopeId}

/-- Pairs of expressions come to pairs of values, evaluated from left to
right, and each key before what belongs to it. -/
inductive Expr.PairsCome (apply : Applier) (scope : ScopeId) :
    List (Expr × Expr) → Store → List (Value × Value) → Store → Prop
  | nil (s : Store) : PairsCome apply scope [] s [] s
  | cons {key value : Expr} {pairs : List (Expr × Expr)} {k v : Value}
    {kvs : List (Value × Value)} {s s₁ s₂ s' : Store} :
    key.eval apply scope s = some (.ok k, s₁) → value.eval apply scope s₁ = some (.ok v, s₂) →
      PairsCome apply scope pairs s₂ kvs s' →
        PairsCome apply scope ((key, value) :: pairs) s ((k, v) :: kvs) s'

/-- Where all keys may be keys, the pairs are taken up under their
contents. -/
theorem Expr.PairsCome.exists_evalPairs {pairs : List (Expr × Expr)} {s s' : Store}
    {kvs : List (Value × Value)} (h : PairsCome apply scope pairs s kvs s')
    (hkeys : ∀ kv ∈ kvs, kv.1.IsKey) :
    ∃ entries, Expr.evalPairs apply scope pairs s = some (.ok entries, s') ∧
      entries.map Prod.snd = kvs ∧ UnderContents entries := by
  induction h with
  | nil s => exact ⟨[], rfl, rfl, List.forall_mem_nil _⟩
  | @cons key value pairs k v kvs s s₁ s₂ s' hkey hvalue _ ih =>
    obtain ⟨hk, hkvs⟩ := List.forall_mem_cons.1 hkeys
    obtain ⟨entries, hentries, rfl, hunder⟩ := ih hkvs
    obtain ⟨content, rfl⟩ := Value.isKey_iff.1 hk
    refine ⟨(content, content.value, v) :: entries, ?_, rfl, List.forall_mem_cons.2 ⟨rfl, hunder⟩⟩
    have hcontent : evalHashKey content.value s₁ = some (.ok content, s₁) := by
      rw [evalHashKey, Value.hashKey?_eq_some_iff.2 rfl]
      rfl
    rw [Expr.evalPairs, Eval.bind_of_ok hkey, Eval.bind_of_ok hcontent, Eval.bind_of_ok hvalue,
      Eval.bind_of_ok hentries]
    rfl

/-- **Looking up in a hash agrees with `==`.** Where the pairs of a hash
literal come to keys that are integers, booleans or strings in any mixture,
the literal comes to a hash. What this has at an integer, a boolean or a
string is the value of the last pair whose key is equal to it, and `null` if
no key is; anything else is refused. The hash has one entry for each class
of equal keys, in the place of the first and with the value of the last. -/
theorem hash_lookup_agrees_with_equality {pairs : List (Expr × Expr)} {s s' : Store}
    {kvs : List (Value × Value)} (hpairs : Expr.PairsCome apply scope pairs s kvs s')
    (hkeys : ∀ kv ∈ kvs, kv.1.IsKey) :
    ∃ id t s'', (Expr.hash pairs).eval apply scope s = some (.ok (.hash id t), s'') ∧
      (∀ k, k.IsKey → (Value.hash id t).index k = .ok (lastEqual kvs k)) ∧
      (∀ k, ¬ k.IsKey → (Value.hash id t).index k = .error (.unhashable k.type)) ∧
      t.entries.map Prod.snd =
        (firstsOf (kvs.map Prod.fst)).map fun key => (key, lastEqual kvs key) := by
  obtain ⟨entries, hentries, rfl, hunder⟩ := hpairs.exists_evalPairs hkeys
  refine ⟨s'.newIdentity.1, .ofList entries, s'.newIdentity.2, ?_, fun k hk => ?_, fun k hk => ?_,
    ?_⟩
  · rw [Expr.eval, Eval.bind_of_ok hentries]
    rfl
  · obtain ⟨key, rfl⟩ := Value.isKey_iff.1 hk
    rw [hunder.lastEqual_value, ← Table.get?_ofList, Value.index]
    rw [Value.hashKey?_eq_some_iff.2 rfl]
  · rw [Value.index, Value.hashKey?_eq_none hk]
  · rw [← hunder.keys_eq_firstsOf, List.map_map, List.map_map]
    exact List.map_congr_left fun entry hentry =>
      Prod.ext rfl (hunder.eq_lastEqual_of_mem hentry)

/-- In `{1: "a", true: "b", 1: "c"}` the entry of `1` stands first and has
`"c"`. -/
theorem hash_lookup_one_twice :
    let pairs : List (Expr × Expr) :=
      [(.int 1, .string "a"), (.bool true, .string "b"), (.int 1, .string "c")]
    let kvs : List (Value × Value) :=
      [(.int 1, .string "a"), (.bool true, .string "b"), (.int 1, .string "c")]
    (Expr.PairsCome (Value.apply 0) ⟨0⟩ pairs .empty kvs .empty ∧ ∀ kv ∈ kvs, kv.1.IsKey) ∧
      ∃ id t s'', (Expr.hash pairs).eval (Value.apply 0) ⟨0⟩ .empty =
          some (.ok (.hash id t), s'') ∧
        (Value.hash id t).index (.int 1) = .ok (.string "c") ∧
        (Value.hash id t).index (.string "1") = .ok .null ∧
        (Value.hash id t).index .null = .error (.unhashable .null) ∧
        t.entries.map Prod.snd = [(.int 1, .string "c"), (.bool true, .string "b")] := by
  intro pairs kvs
  have hpairs : Expr.PairsCome (Value.apply 0) ⟨0⟩ pairs .empty kvs .empty :=
    .cons rfl rfl (.cons rfl rfl (.cons rfl rfl (.nil _)))
  have hkeys : ∀ kv ∈ kvs, kv.1.IsKey := by simp [kvs, Value.IsKey, Value.type]
  obtain ⟨id, t, s'', heval, hfound, hrefused, hentries⟩ :=
    hash_lookup_agrees_with_equality hpairs hkeys
  have hnull : ¬ Value.null.IsKey := by simp [Value.IsKey, Value.type]
  exact ⟨⟨hpairs, hkeys⟩, id, t, s'', heval, hfound (.int 1) (.inl rfl),
    hfound (.string "1") (.inr (.inr rfl)), hrefused _ hnull, hentries⟩

end Literals

end MonkeyLang
