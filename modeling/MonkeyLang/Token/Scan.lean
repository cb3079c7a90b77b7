import MonkeyLang.Text.Blank
import MonkeyLang.Token.Source
/-!
# Tokens of a text

The tokens of a text, cut off its front one at a time, each as long as it
can be. Blanks between them are skipped. A string runs to the next quote
and knows no escapes; one that is never closed is an illegal token and
takes the rest of the text with it. Any other character that begins no
token is an illegal token of its own.

`length_scan_le` says that every cut takes at least one character, which
makes a text a source of tokens.
-/

namespace MonkeyLang

namespace Token

/-- A word begins with a letter or an underscore. -/
def isWordStart (c : Char) : Bool := c.isAlpha || c == '_'

/-- A word goes on with letters, underscores and digits. -/
def isWordRest (c : Char) : Bool := isWordStart c || c.isDigit

/-- The token of a text that follows an opening quote, and what is left
after it. -/
def scanString (text : List Char) : Token × List Char :=
  match text.dropWhile (· != '"') with
  | [] => (⟨.illegal, "\""⟩, [])
  | _ :: after => (⟨.string, String.ofList (text.takeWhile (· != '"'))⟩, after)

/-- The longest token that begins with `first`, of a text that goes on with
`rest`; and what is left of `rest` after it. -/
def scanFrom (first : Char) (rest : List Char) : Token × List Char :=
  match first, rest with
  | '=', '=' :: after => (⟨.eq, "=="⟩, after)
  | '!', '=' :: after => (⟨.notEq, "!="⟩, after)
  | '"', rest => scanString rest
  | first, rest =>
    match TokenKind.ofSymbol? first with
    | some kind => (⟨kind, first.toString⟩, rest)
    | none =>
      if isWordStart first then
        let word := String.ofList (first :: rest.takeWhile isWordRest)
        (⟨TokenKind.ofWord word, word⟩, rest.dropWhile isWordRest)
      else if first.isDigit then
        (⟨.int, String.ofList (first :: rest.takeWhile Char.isDigit)⟩,
          rest.dropWhile Char.isDigit)
      else (⟨.illegal, first.toString⟩, rest)

/-- The first token of a text, and the text after it. -/
def scan (text : List Char) : Token × List Char :=
  match text.dropWhile isBlank with
  | [] => (.endOfInput, [])
  | first :: rest => scanFrom first rest

/-! ## A cut takes at least one character -/

/-- What `dropWhile` leaves is no longer than the list. -/
theorem length_dropWhile_le (p : Char → Bool) (text : List Char) :
    (text.dropWhile p).length ≤ text.length :=
  (List.dropWhile_suffix p).length_le

theorem length_scanString_le (text : List Char) :
    (scanString text).2.length ≤ text.length := by
  have h := length_dropWhile_le (· != '"') text
  unfold scanString
  split
  · simp
  · rename_i heq
    rw [heq] at h
    exact Nat.le_of_succ_le h

theorem length_scanFrom_le (first : Char) (rest : List Char) :
    (scanFrom first rest).2.length ≤ rest.length := by
  unfold scanFrom
  split
  · simp
  · simp
  · exact length_scanString_le _
  · split
    · exact Nat.le_refl _
    · split
      · exact length_dropWhile_le _ _
      · split
        · exact length_dropWhile_le _ _
        · exact Nat.le_refl _

/-- **A cut takes a character at least**, if there is one. -/
theorem length_scan_le (text : List Char) : (scan text).2.length ≤ text.length - 1 := by
  have h := length_dropWhile_le isBlank text
  unfold scan
  split
  · simp
  · rename_i first rest heq
    rw [heq] at h
    have := length_scanFrom_le first rest
    simp only [List.length_cons] at h
    omega

end Token

/-- A text answers with its tokens from the front. -/
instance : TokenSource (List Char) where
  next := Token.scan
  remaining := List.length
  remaining_next_le := Token.length_scan_le
  kind_next_of_remaining_eq_zero text h := by
    rw [List.eq_nil_of_length_eq_zero h]
    rfl

/-- The tokens of a text, without the end of the input. -/
def Token.ofText (text : List Char) : List Token := (TokenSource.drain text).1

end MonkeyLang
