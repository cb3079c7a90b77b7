/-!
# Decimal literals

Whole numbers in decimal digits, read into 64-bit words. A sign may stand
in front; a number that does not fit into a word is not read at all.
-/

namespace MonkeyLang

namespace Decimal

/-- The number that a run of digits stands for. -/
def ofDigits (digits : List Char) : Nat :=
  digits.foldl (fun n c => 10 * n + (c.toNat - '0'.toNat)) 0

/-- The word with the given value, if there is one. -/
def toWord? (n : Int) : Option Int64 :=
  if Int64.minValue.toInt ≤ n ∧ n ≤ Int64.maxValue.toInt then some (Int64.ofInt n) else none

/-- The number that digits stand for; there has to be one at least, and
nothing else. -/
def unsigned? (digits : List Char) : Option Nat :=
  if digits ≠ [] ∧ digits.all Char.isDigit then some (ofDigits digits) else none

/-- Reads a word: perhaps a sign, then digits, the number being in the
range of words. -/
def read? : List Char → Option Int64
  | '-' :: digits => (unsigned? digits).bind fun n => toWord? (-n)
  | '+' :: digits => (unsigned? digits).bind fun n => toWord? n
  | digits => (unsigned? digits).bind fun n => toWord? n

end Decimal

end MonkeyLang
