import MonkeyLang.Proofs.Canonical.Tokens
import MonkeyLang.Value.Inspect
/-!
# The tokens of displayed data

`Value.Data` are the values whose text is code for them: integers and
booleans, and arrays and hashes of them. Strings are displayed without
quotes, and the least integer has no numeral, so neither is data.
`Value.tokens` lists the tokens of the text of such a value, and
`ofText_inspect` says that these are what is cut off it. Unlike in
canonical code a negative number is not set in parentheses.
-/

namespace MonkeyLang

/-- Plain data: integers but for the least one, booleans, and arrays and
hashes of plain data. A hash has each of its keys once, under the content of
the key; so its keys are integers and booleans. -/
inductive Value.Data : Value → Prop where
  | int {n : Int64} : n ≠ Int64.minValue → Data (.int n)
  | bool (b : Bool) : Data (.bool b)
  | array {id : Identity} {elements : List Value} :
      (∀ v ∈ elements, Data v) → Data (.array id elements)
  | hash {id : Identity} {pairs : Table HashKey (Value × Value)} : pairs.keys.Nodup →
      (∀ entry ∈ pairs.entries, entry.2.1.hashKey? = some entry.1) →
      (∀ entry ∈ pairs.entries, Data entry.2.1) → (∀ entry ∈ pairs.entries, Data entry.2.2) →
      Data (.hash id pairs)

mutual

/-- The tokens of the text of a value. Values that are no data have none. -/
def Value.tokens : Value → List Token
  | .int n => if n < 0 then [.symbol .minus, ⟨.int, toString (-n)⟩] else [⟨.int, toString n⟩]
  | .bool b => (Expr.bool b).tokens
  | .array _ elements =>
    .symbol .lbracket :: (Token.commaSeparated (Value.tokensAll elements) ++ [.symbol .rbracket])
  | .hash _ ⟨entries⟩ =>
    .symbol .lbrace :: (Token.commaSeparated (Value.tokensEntries entries) ++ [.symbol .rbrace])
  | _ => []

/-- The tokens of each value. -/
def Value.tokensAll : List Value → List (List Token)
  | [] => []
  | v :: vs => v.tokens :: Value.tokensAll vs

/-- The tokens of each pair, with a colon between key and value. -/
def Value.tokensEntries : List (HashKey × (Value × Value)) → List (List Token)
  | [] => []
  | (_, key, value) :: entries =>
    (key.tokens ++ .symbol .colon :: value.tokens) :: Value.tokensEntries entries

end

/-! ## Lists as maps -/

namespace Value

theorem inspectAll_eq_map (vs : List Value) : inspectAll vs = vs.map inspect := by
  induction vs with
  | nil => rfl
  | cons v vs ih => rw [inspectAll, ih, List.map_cons]

theorem inspectEntries_eq_map (entries : List (HashKey × (Value × Value))) :
    inspectEntries entries =
      entries.map fun entry => entry.2.1.inspect ++ ": " ++ entry.2.2.inspect := by
  induction entries with
  | nil => rfl
  | cons entry entries ih => rw [inspectEntries, ih, List.map_cons]

theorem tokensAll_eq_map (vs : List Value) : tokensAll vs = vs.map tokens := by
  induction vs with
  | nil => rfl
  | cons v vs ih => rw [tokensAll, ih, List.map_cons]

theorem tokensEntries_eq_map (entries : List (HashKey × (Value × Value))) :
    tokensEntries entries =
      entries.map fun entry => entry.2.1.tokens ++ .symbol .colon :: entry.2.2.tokens := by
  induction entries with
  | nil => rfl
  | cons entry entries ih => rw [tokensEntries, ih, List.map_cons]

end Value

/-! ## Negative numbers -/

namespace Decimal

variable {n : Int64}

/-- The word opposite to a negative one, unless that is the least one. -/
theorem toInt_neg (hneg : n < 0) (hmin : n ≠ Int64.minValue) : (-n).toInt = -n.toInt := by
  have hlt : n.toInt < 0 := by simpa [Int64.lt_iff_toInt_lt] using hneg
  have hle := n.minValue_le_toInt
  have hne : n.toInt ≠ Int64.minValue.toInt := fun h => hmin (Int64.toInt_inj.1 h)
  rw [Int64.toInt_minValue] at hle hne
  rw [Int64.toInt_neg]
  exact Int.bmod_eq_of_le (by omega) (by omega)

theorem neg_nonneg (hneg : n < 0) (hmin : n ≠ Int64.minValue) : 0 ≤ -n := by
  have hlt : n.toInt < 0 := by simpa [Int64.lt_iff_toInt_lt] using hneg
  rw [Int64.le_iff_toInt_le, toInt_neg hneg hmin, Int64.toInt_zero]
  omega

/-- A negative word is shown with a minus in front of the opposite one. -/
theorem toString_of_neg (hneg : n < 0) (hmin : n ≠ Int64.minValue) :
    toString n = "-" ++ toString (-n) := by
  have hlt : n.toInt < 0 := by simpa [Int64.lt_iff_toInt_lt] using hneg
  change toString n.toInt = "-" ++ toString (-n).toInt
  rw [toInt_neg hneg hmin]
  obtain ⟨m, hm⟩ := Int.eq_negSucc_of_lt_zero hlt
  rw [hm]
  rfl

end Decimal

/-! ## What is cut off the text of data -/

open Token in
/-- A number is cut off as a numeral, behind a minus if it is negative. -/
theorem Token.ofText_signed {n : Int64} (hmin : n ≠ Int64.minValue) {rest : List Char}
    (hrest : Ended rest) :
    ofText ((toString n).toList ++ rest) = (Value.int n).tokens ++ ofText rest := by
  by_cases hneg : n < 0
  · rw [Decimal.toString_of_neg hneg hmin, String.toList_append, List.append_assoc]
    change ofText ('-' :: (_ ++ rest)) = _
    rw [ofText_delimiter rfl (by decide), ofText_int (Decimal.neg_nonneg hneg hmin) hrest,
      Value.tokens, if_pos hneg]
    rfl
  · rw [ofText_int (Int64.not_lt.1 hneg) hrest, Value.tokens, if_neg hneg]
    rfl

open Token in
/-- **The tokens of the text of data**, whatever follows it. -/
theorem Value.Data.ofText_inspect {v : Value} (h : v.Data) {rest : List Char}
    (hrest : Ended rest) : ofText (v.inspect.toList ++ rest) = v.tokens ++ ofText rest := by
  induction h generalizing rest with
  | int hmin => exact ofText_signed hmin hrest
  | bool b => exact ofText_bool b hrest
  | @array id elements _ ih =>
    simp only [inspect, inspectAll_eq_map, String.toList_append, List.append_assoc]
    change ofText ('[' :: (_ ++ ']' :: rest)) = _
    rw [ofText_enclosed ih ⟨rfl, by decide⟩ ⟨rfl, by decide⟩ (by decide), tokens, tokensAll_eq_map]
    simp
  | @hash id pairs _ _ _ _ ihKey ihValue =>
    obtain ⟨entries⟩ := pairs
    have hentry : ∀ entry ∈ entries, ∀ ⦃rest⦄, Ended rest →
        ofText ((entry.2.1.inspect ++ ": " ++ entry.2.2.inspect).toList ++ rest) =
          (entry.2.1.tokens ++ symbol .colon :: entry.2.2.tokens) ++ ofText rest :=
      fun entry hmem _ hrest =>
        ofText_pair (fun _ => ihKey entry hmem) (fun _ => ihValue entry hmem) hrest
    simp only [inspect, inspectEntries_eq_map, String.toList_append, List.append_assoc]
    change ofText ('{' :: (_ ++ '}' :: rest)) = _
    rw [ofText_enclosed hentry ⟨rfl, by decide⟩ ⟨rfl, by decide⟩ (by decide), tokens,
      tokensEntries_eq_map]
    simp

end MonkeyLang
