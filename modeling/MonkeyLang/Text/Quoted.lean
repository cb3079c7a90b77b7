import MonkeyLang.Text.Invisible
/-!
# Quoted text

The form in which diagnostic texts show a string: between quotes, on one
line, with an escape for each character that would not show as itself.
-/

namespace MonkeyLang

namespace Quoted

/-- A character that shows as itself, or its escape: a letter where it has
one, else its number in hexadecimal digits. -/
def escape (c : Char) : List Char :=
  match c with
  | '"' => ['\\', '"']
  | '\\' => ['\\', '\\']
  | '\n' => ['\\', 'n']
  | '\t' => ['\\', 't']
  | '\r' => ['\\', 'r']
  | '\x00' => ['\\', '0']
  | c =>
    if c.toNat < 0x20 ∨ c.toNat = 0x7F ∨ isInvisible c then
      ['\\', 'u', '{'] ++ Nat.toDigits 16 c.toNat ++ ['}']
    else [c]

/-- A text between quotes. -/
def encode (text : String) : String :=
  String.ofList (['"'] ++ text.toList.flatMap escape ++ ['"'])

end Quoted

end MonkeyLang
