import MonkeyLang.Text.Decimal
/-!
# Numerals

Which numerals stand for which words. `Decimal.Spells` is the rule: digits,
perhaps with a sign in front of them, stand for the word whose value they
have in base ten, if there is one. Reading a numeral follows the rule
(`read?_eq_some_iff`), and the decimal digits of a word that is not
negative spell it (`spells_toString`).
-/

namespace MonkeyLang

namespace Decimal

/-- Some characters are digits, and there is one at least. -/
def IsDigits (ds : List Char) : Prop := ds ≠ [] ∧ ∀ c ∈ ds, c.isDigit = true

/-- The numerals of a word. -/
inductive Spells : List Char → Int64 → Prop
  | unsigned {ds : List Char} {n : Int64} :
    IsDigits ds → n.toInt = ofDigits ds → Spells ds n
  | positive {ds : List Char} {n : Int64} :
    IsDigits ds → n.toInt = ofDigits ds → Spells ('+' :: ds) n
  | negative {ds : List Char} {n : Int64} :
    IsDigits ds → n.toInt = -ofDigits ds → Spells ('-' :: ds) n

theorem unsigned?_eq_some_iff {ds : List Char} {m : Nat} :
    unsigned? ds = some m ↔ IsDigits ds ∧ ofDigits ds = m := by
  simp [unsigned?, IsDigits]

/-- A number is the value of at most one word. -/
theorem toWord?_eq_some_iff {z : Int} {n : Int64} : toWord? z = some n ↔ n.toInt = z := by
  have hlo := n.minValue_le_toInt
  have hhi := n.toInt_le
  unfold toWord?
  constructor
  · intro h
    split at h
    · next hz =>
      rw [← Option.some.inj h, Int64.toInt_ofInt_of_le]
      · exact hz.1
      · have := hz.2
        simp only [Int64.toInt_maxValue] at this
        omega
    · cases h
  · rintro rfl
    rw [if_pos ⟨by simpa using hlo, by simpa using hhi⟩, Int64.ofInt_toInt]

/-- What a run of digits is read as. -/
theorem bind_unsigned?_eq_some_iff {ds : List Char} {n : Int64} {f : Nat → Int} :
    ((unsigned? ds).bind fun m => toWord? (f m)) = some n ↔
      IsDigits ds ∧ n.toInt = f (ofDigits ds) := by
  simp only [Option.bind_eq_some_iff, unsigned?_eq_some_iff, toWord?_eq_some_iff]
  constructor
  · rintro ⟨m, ⟨hds, rfl⟩, h⟩
    exact ⟨hds, h⟩
  · rintro ⟨hds, h⟩
    exact ⟨_, ⟨hds, rfl⟩, h⟩

/-- **Reading a numeral gives the word that it spells.** -/
theorem read?_eq_some_iff {literal : List Char} {n : Int64} :
    read? literal = some n ↔ Spells literal n := by
  have hplus : ¬ IsDigits ('+' :: literal.tail) := fun h => by
    exact absurd (h.2 '+' (by simp)) (by decide)
  have hminus : ¬ IsDigits ('-' :: literal.tail) := fun h => by
    exact absurd (h.2 '-' (by simp)) (by decide)
  unfold read?
  split
  · rw [bind_unsigned?_eq_some_iff (f := fun m => -(m : Int))]
    constructor
    · rintro ⟨hds, h⟩
      exact .negative hds h
    · intro h
      cases h with
      | unsigned hds h => exact absurd hds hminus
      | negative hds h => exact ⟨hds, h⟩
  · rw [bind_unsigned?_eq_some_iff (f := fun m => (m : Int))]
    constructor
    · rintro ⟨hds, h⟩
      exact .positive hds h
    · intro h
      cases h with
      | unsigned hds h => exact absurd hds hplus
      | positive hds h => exact ⟨hds, h⟩
  · next hneg hpos =>
    rw [bind_unsigned?_eq_some_iff (f := fun m => (m : Int))]
    constructor
    · rintro ⟨hds, h⟩
      exact .unsigned hds h
    · intro h
      cases h with
      | unsigned hds h => exact ⟨hds, h⟩
      | positive hds h => exact absurd rfl (hpos _)
      | negative hds h => exact absurd rfl (hneg _)

/-! ## The digits of a word -/

theorem ofDigits_toDigits (m : Nat) : ofDigits (Nat.toDigits 10 m) = m := by
  have h := Nat.ofDigitChars_ten_toDigits (n := m)
  rwa [Nat.ofDigitChars_eq_foldl] at h

theorem isDigits_toDigits (m : Nat) : IsDigits (Nat.toDigits 10 m) :=
  ⟨Nat.toDigits_ne_nil, fun _ h => Nat.isDigit_of_mem_toDigits (by omega) (by omega) h⟩

/-- A word that is not negative is shown by its digits. -/
theorem toList_toString {n : Int64} (h : 0 ≤ n) :
    (toString n).toList = Nat.toDigits 10 n.toInt.toNat := by
  have hn : 0 ≤ n.toInt := by simpa [Int64.le_iff_toInt_le] using h
  obtain ⟨m, hm⟩ := Int.eq_ofNat_of_zero_le hn
  change (toString n.toInt).toList = _
  rw [hm]
  exact Nat.toList_repr

/-- **The digits of a word spell it.** -/
theorem spells_toString {n : Int64} (h : 0 ≤ n) : Spells (toString n).toList n := by
  have hn : 0 ≤ n.toInt := by simpa [Int64.le_iff_toInt_le] using h
  rw [toList_toString h]
  exact .unsigned (isDigits_toDigits _) (by rw [ofDigits_toDigits]; omega)

end Decimal

end MonkeyLang
