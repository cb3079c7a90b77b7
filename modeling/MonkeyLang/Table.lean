/-!
# Insertion-ordered tables

A table holds one value per key and remembers the order in which the keys
first came. Writing to a key that is there replaces its value and keeps its
place. `get?_insert` says what a look-up finds after a write, and
`keys_insert` where the key stands.
-/

namespace MonkeyLang

/-- Keys with their values, in the order in which the keys first came. -/
structure Table (κ ν : Type) where
  entries : List (κ × ν)

namespace Table

variable {κ ν : Type}

/-- The table without entries. -/
def empty : Table κ ν := ⟨[]⟩

/-- The number of keys. -/
def size (t : Table κ ν) : Nat := t.entries.length

/-- Has the table no keys? -/
def isEmpty (t : Table κ ν) : Bool := t.entries.isEmpty

/-- The keys in order. -/
def keys (t : Table κ ν) : List κ := t.entries.map Prod.fst

variable [DecidableEq κ]

/-- The value that a key has among the entries. -/
def find? (key : κ) : List (κ × ν) → Option ν
  | [] => none
  | (k, v) :: rest => if k = key then some v else find? key rest

/-- The entries with the value of a key replaced, or with the key at the
end if it is new. -/
def write (key : κ) (value : ν) : List (κ × ν) → List (κ × ν)
  | [] => [(key, value)]
  | (k, v) :: rest => if k = key then (key, value) :: rest else (k, v) :: write key value rest

/-- The value of a key, if it has one. -/
def get? (t : Table κ ν) (key : κ) : Option ν := find? key t.entries

/-- The table after giving a key a value. -/
def insert (t : Table κ ν) (key : κ) (value : ν) : Table κ ν := ⟨write key value t.entries⟩

/-- The table that results from writing some pairs one after the other. -/
def ofList (pairs : List (κ × ν)) : Table κ ν :=
  pairs.foldl (fun t pair => t.insert pair.1 pair.2) empty

/-! ## What a write changes -/

theorem get?_insert (t : Table κ ν) (key k : κ) (value : ν) :
    (t.insert key value).get? k = if k = key then some value else t.get? k := by
  obtain ⟨entries⟩ := t
  simp only [get?, insert]
  induction entries with
  | nil => grind [find?, write]
  | cons entry rest ih => grind [find?, write]

theorem keys_insert (t : Table κ ν) (key : κ) (value : ν) :
    (t.insert key value).keys = if key ∈ t.keys then t.keys else t.keys ++ [key] := by
  obtain ⟨entries⟩ := t
  simp only [keys, insert]
  induction entries with
  | nil => simp [write]
  | cons entry rest ih => grind [write]

end Table

end MonkeyLang
