import Mathlib.Data.Finset.Card
import Mathlib.Data.List.Induction
import MonkeyLang.Proofs.Eval.Invariant
import MonkeyLang.Proofs.Literals.Tokens
/-!
# Tables keep the order of insertion

A table that some pairs were written to one after the other has each of
their keys once, in the order in which the keys first came
(`Table.keys_ofList`), and each with what the last pair with that key says
(`Table.get?_ofList`).

`IndexedTable` is a table in two parts, a dictionary for look-ups and the
keys in their order, which have to be kept in step. Inserting keeps them so
(`IndexedTable.Agrees.insert`), and a table in two parts answers as the one
with a single list of entries. The main statement is
`insertion_order_kept`, for the tables that hashes are made of.
-/

namespace MonkeyLang

variable {κ ν : Type} [DecidableEq κ]

/-- What the last of some pairs with a key says. -/
def lastOf (key : κ) (pairs : List (κ × ν)) : Option ν :=
  ((pairs.filter fun pair => pair.1 = key).getLast?).map Prod.snd

/-- Of some pairs and one behind them, the one behind is the last if it has
the key. -/
theorem lastOf_concat (key : κ) (pairs : List (κ × ν)) (pair : κ × ν) :
    lastOf key (pairs ++ [pair]) = if key = pair.1 then some pair.2 else lastOf key pairs := by
  rw [lastOf, List.filter_append, List.filter_singleton]
  by_cases h : key = pair.1
  · rw [if_pos h, decide_eq_true h.symm, cond_true, List.getLast?_concat]
    rfl
  · rw [if_neg h, decide_eq_false (Ne.symm h), cond_false, List.append_nil]
    rfl

namespace Table

variable {t : Table κ ν} {pairs : List (κ × ν)}

theorem ofList_concat (pairs : List (κ × ν)) (pair : κ × ν) :
    ofList (pairs ++ [pair]) = (ofList pairs).insert pair.1 pair.2 := by
  rw [ofList, List.foldl_append]
  rfl

/-- A look-up finds what was written last. -/
theorem get?_ofList (key : κ) : (ofList pairs).get? key = lastOf key pairs := by
  induction pairs using List.reverseRecOn with
  | nil => rfl
  | append_singleton pairs pair ih => rw [ofList_concat, get?_insert, lastOf_concat, ih]

/-- The keys stand in the order in which they first came. -/
theorem keys_ofList : (ofList pairs).keys = (pairs.map Prod.fst).eraseDups := by
  induction pairs using List.reverseRecOn with
  | nil => rfl
  | append_singleton pairs pair ih =>
    rw [ofList_concat, keys_insert, ih, List.map_append, List.eraseDups_append]
    by_cases h : pair.1 ∈ pairs.map Prod.fst
    · simp [List.removeAll, h]
    · simp [List.removeAll, h, List.eraseDups_cons]

/-- Writing a key again makes no second one of it. -/
theorem nodup_keys_insert (h : t.keys.Nodup) (key : κ) (value : ν) :
    (t.insert key value).keys.Nodup := by
  rw [keys_insert]
  split
  · exact h
  · next hnew => exact List.nodup_append_comm.1 (List.nodup_cons.2 ⟨hnew, h⟩)

theorem nodup_keys_ofList : (ofList pairs).keys.Nodup := by
  induction pairs using List.reverseRecOn with
  | nil => exact List.nodup_nil
  | append_singleton pairs pair ih =>
    rw [ofList_concat]
    exact nodup_keys_insert ih _ _

theorem isSome_get?_iff {key : κ} : (t.get? key).isSome ↔ key ∈ t.keys := by
  obtain ⟨entries⟩ := t
  simp only [get?, keys]
  induction entries with
  | nil => simp [find?]
  | cons entry rest ih =>
    obtain ⟨k, v⟩ := entry
    rw [find?, List.map_cons, List.mem_cons]
    by_cases h : k = key
    · simp [h]
    · rw [if_neg h, ih]
      simp [Ne.symm h]

/-- Where no key stands twice, looking up the keys in their order goes
through the entries. -/
theorem map_get?_keys (h : t.keys.Nodup) :
    t.keys.map t.get? = t.entries.map fun entry => some entry.2 := by
  obtain ⟨entries⟩ := t
  simp only [keys] at h ⊢
  induction entries with
  | nil => rfl
  | cons entry rest ih =>
    obtain ⟨k, v⟩ := entry
    obtain ⟨hnew, hrest⟩ := List.nodup_cons.1 h
    have hfirst : get? ⟨(k, v) :: rest⟩ k = some v := if_pos rfl
    -- behind the first entry its key does not come again
    have hbehind : ∀ key ∈ rest.map Prod.fst, get? ⟨(k, v) :: rest⟩ key = get? ⟨rest⟩ key := by
      intro key hkey
      have hne : k ≠ key := fun heq => hnew (heq ▸ hkey)
      exact if_neg hne
    rw [List.map_cons, List.map_cons, List.map_cons, List.map_congr_left hbehind, ih hrest, hfirst]

/-- One entry for each key, in the order in which the keys first came, with
what the last pair says. -/
theorem entries_ofList :
    ((ofList pairs).entries.map fun entry => some entry.2) =
      (pairs.map Prod.fst).eraseDups.map fun key => lastOf key pairs := by
  have hfound : ∀ key ∈ (ofList pairs).keys, (ofList pairs).get? key = lastOf key pairs :=
    fun key _ => get?_ofList key
  rw [← map_get?_keys nodup_keys_ofList, List.map_congr_left hfound, keys_ofList]

/-- There are as many entries as there are different keys. -/
theorem size_ofList : (ofList pairs).size = (pairs.map Prod.fst).toFinset.card := by
  have hsize : (ofList pairs).size = (ofList pairs).keys.length := by
    rw [keys, List.length_map, size]
  have hkeys : (ofList pairs).keys.toFinset = (pairs.map Prod.fst).toFinset := by
    ext key
    rw [keys_ofList, List.mem_toFinset, List.mem_toFinset, List.mem_eraseDups]
  rw [hsize, ← hkeys, List.toFinset_card_of_nodup nodup_keys_ofList]

theorem isEmpty_ofList_iff : (ofList pairs).isEmpty = true ↔ pairs = [] := by
  have hentries : (ofList pairs).entries = [] ↔ (ofList pairs).keys = [] := by
    rw [keys, List.map_eq_nil_iff]
  rw [isEmpty, List.isEmpty_iff, hentries, keys_ofList]
  constructor
  · intro h
    have hnone : ∀ key, key ∉ pairs.map Prod.fst := by
      intro key hkey
      rw [← List.mem_eraseDups, h] at hkey
      exact List.not_mem_nil hkey
    exact List.map_eq_nil_iff.1 (List.eq_nil_iff_forall_not_mem.2 hnone)
  · rintro rfl
    rfl

end Table

/-! ## Tables in two parts -/

/-- A table in two parts: what each key has, and the keys in the order in
which they first came. -/
structure IndexedTable (κ ν : Type) [DecidableEq κ] [Hashable κ] where
  pairs : Std.HashMap κ ν
  order : Array κ

namespace IndexedTable

variable [Hashable κ]

/-- The table without keys. -/
def empty : IndexedTable κ ν := ⟨∅, #[]⟩

/-- The table after giving a key a value. A key that had none takes its
place behind the others. -/
def insert (t : IndexedTable κ ν) (key : κ) (value : ν) : IndexedTable κ ν where
  pairs := t.pairs.insert key value
  order := if t.pairs[key]?.isNone then t.order.push key else t.order

/-- The value of a key, if it has one. -/
def get? (t : IndexedTable κ ν) (key : κ) : Option ν := t.pairs[key]?

/-- The number of keys. -/
def size (t : IndexedTable κ ν) : Nat := t.order.size

/-- Has the table no keys? -/
def isEmpty (t : IndexedTable κ ν) : Bool := t.order.isEmpty

/-- The values that the keys have, in the order of the keys. -/
def values (t : IndexedTable κ ν) : List ν := t.order.toList.filterMap t.get?

/-- The table that results from writing some pairs one after the other. -/
def ofList (pairs : List (κ × ν)) : IndexedTable κ ν :=
  pairs.foldl (fun t pair => t.insert pair.1 pair.2) empty

/-- The two parts are in step: no key stands twice in the order, and the
keys that stand there are those that have a value. -/
structure InStep (t : IndexedTable κ ν) : Prop where
  nodup : t.order.toList.Nodup
  mem_iff : ∀ key, key ∈ t.order ↔ key ∈ t.pairs

/-- The two parts hold what a table with a single list of entries holds. -/
structure Agrees (t : IndexedTable κ ν) (single : Table κ ν) : Prop where
  order : t.order.toList = single.keys
  get? : ∀ key, t.get? key = single.get? key

variable {t : IndexedTable κ ν} {single : Table κ ν} {pairs : List (κ × ν)}

/-- Writing a pair to both keeps them alike: a key that is new goes to the
end of either. -/
theorem Agrees.insert (h : t.Agrees single) (key : κ) (value : ν) :
    (t.insert key value).Agrees (single.insert key value) where
  order := by
    have hold : t.pairs[key]?.isNone = true ↔ key ∉ single.keys := by
      rw [← Table.isSome_get?_iff, ← h.get? key, IndexedTable.get?]
      simp
    rw [Table.keys_insert, ← h.order, IndexedTable.insert]
    rw [← h.order] at hold
    by_cases hkey : key ∈ t.order.toList
    · rw [if_pos hkey, if_neg fun hnone => hold.1 hnone hkey]
    · rw [if_neg hkey, if_pos (hold.2 hkey), Array.toList_push]
  get? k := by
    rw [Table.get?_insert, ← h.get? k, IndexedTable.get?, IndexedTable.insert,
      Std.HashMap.getElem?_insert]
    simp only [beq_iff_eq, eq_comm (a := key)]
    rfl

theorem agrees_ofList : (ofList pairs).Agrees (Table.ofList pairs) := by
  have hconcat (pairs : List (κ × ν)) (pair : κ × ν) :
      ofList (pairs ++ [pair]) = (ofList pairs).insert pair.1 pair.2 := by
    rw [ofList, List.foldl_append]
    rfl
  induction pairs using List.reverseRecOn with
  | nil => exact ⟨rfl, fun key => Std.HashMap.getElem?_empty⟩
  | append_singleton pairs pair ih =>
    rw [hconcat, Table.ofList_concat]
    exact ih.insert _ _

namespace Agrees

variable (h : t.Agrees single)
include h

theorem inStep (hnodup : single.keys.Nodup) : t.InStep where
  nodup := h.order ▸ hnodup
  mem_iff key := by
    rw [← Array.mem_toList_iff, h.order, ← Table.isSome_get?_iff, ← h.get? key,
      Std.HashMap.mem_iff_isSome_getElem?]
    rfl

theorem size_eq : t.size = single.size := by
  rw [size, ← Array.length_toList, h.order, Table.keys, List.length_map, Table.size]

theorem isEmpty_eq : t.isEmpty = single.isEmpty := by
  rw [Bool.eq_iff_iff, isEmpty, Array.isEmpty_iff_size_eq_zero, Table.isEmpty, List.isEmpty_iff,
    ← List.length_eq_zero_iff]
  exact Eq.congr_left h.size_eq

/-- The values come in the order of the keys, as those of the entries
do. -/
theorem values_eq (hnodup : single.keys.Nodup) : t.values = single.entries.map Prod.snd := by
  have hfound : t.get? = single.get? := funext h.get?
  have hmap : t.order.toList.map t.get? = (single.entries.map Prod.snd).map some := by
    rw [h.order, hfound, Table.map_get?_keys hnodup, List.map_map]
    rfl
  have hvalues : t.values = (t.order.toList.map t.get?).filterMap id := by
    rw [values, List.filterMap_map, Function.id_comp]
  rw [hvalues, hmap, List.filterMap_map]
  exact List.filterMap_some

end Agrees

end IndexedTable

/-! ## The tables of hashes -/

deriving instance Hashable for HashKey

/-- **A table keeps the order of insertion.** After pairs were written to an
empty table, a look-up finds what the last pair with the key says, there are
as many entries as different keys, and none if nothing was written. The
entries, and the text of a hash with this table, list each key once, in the
order in which the keys first came, with what the last pair says. A table in
two parts has its parts in step after any number of writes, and answers the
same. -/
theorem insertion_order_kept (pairs : List (HashKey × (Value × Value))) :
    let keys := (pairs.map Prod.fst).eraseDups
    let t := Table.ofList pairs
    let listed := t.entries.map Prod.snd
    let parts := IndexedTable.ofList pairs
    (∀ key, t.get? key = lastOf key pairs) ∧
    t.keys = keys ∧ t.keys.Nodup ∧ (∀ key, key ∈ t.keys ↔ (t.get? key).isSome) ∧
    t.size = (pairs.map Prod.fst).toFinset.card ∧
    (t.isEmpty = true ↔ pairs = []) ∧
    listed.map some = keys.map (fun key => lastOf key pairs) ∧
    (∀ id, (Value.hash id t).inspect = "\x7b" ++ commaSeparated
      (listed.map fun pair => pair.1.inspect ++ ": " ++ pair.2.inspect) ++ "\x7d") ∧
    parts.InStep ∧ parts.order.toList = keys ∧
    (∀ key, parts.get? key = t.get? key) ∧ parts.size = t.size ∧ parts.isEmpty = t.isEmpty ∧
    parts.values = listed := by
  intro keys t listed parts
  have hnodup : t.keys.Nodup := Table.nodup_keys_ofList
  have hagrees : parts.Agrees t := IndexedTable.agrees_ofList
  have hlisted : listed.map some = keys.map fun key => lastOf key pairs := by
    rw [← Table.entries_ofList, List.map_map]
    rfl
  have htext : ∀ id, (Value.hash id t).inspect = "\x7b" ++ commaSeparated
      (listed.map fun pair => pair.1.inspect ++ ": " ++ pair.2.inspect) ++ "\x7d" := by
    intro id
    rw [List.map_map, show Value.hash id t = .hash id ⟨t.entries⟩ from rfl, Value.inspect,
      Value.inspectEntries_eq_map]
    rfl
  exact ⟨Table.get?_ofList, Table.keys_ofList, hnodup, fun _ => Table.isSome_get?_iff.symm,
    Table.size_ofList, Table.isEmpty_ofList_iff, hlisted, htext, hagrees.inStep hnodup,
    hagrees.order.trans Table.keys_ofList, hagrees.get?, hagrees.size_eq, hagrees.isEmpty_eq,
    hagrees.values_eq hnodup⟩

example : (Value.hash ⟨0⟩ (.ofList [(.string "a", .string "a", .int 1),
    (.string "b", .string "b", .int 2), (.string "a", .string "a", .int 3)])).inspect =
      "\x7ba: 3, b: 2\x7d" := by
  decide +kernel

end MonkeyLang
