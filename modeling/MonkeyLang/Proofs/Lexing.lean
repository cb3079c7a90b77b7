import MonkeyLang.Token.Scan
/-!
# The tokens of a text

What the first token of a text is and what is left after it, for each way
in which a token is spelled: a symbol of one or two characters, a word, a
number or a string. A word and a number go on for as long as they can, so
these are cut off where the text is `Ended`.
-/

namespace MonkeyLang

namespace Token

/-- What follows does not go on with a word or a number. -/
def Ended (rest : List Char) : Prop := ∀ c ∈ rest.head?, isWordRest c = false

/-! ## One token after the other -/

theorem scanFrom_kind_ne_eof (first : Char) (rest : List Char) :
    (scanFrom first rest).1.kind ≠ .eof := by
  unfold scanFrom
  split
  · nofun
  · nofun
  · unfold scanString
    split <;> nofun
  · split
    · next kind hkind =>
      unfold TokenKind.ofSymbol? at hkind
      split at hkind <;> cases hkind <;> nofun
    · split
      · dsimp only [TokenKind.ofWord]
        split <;> nofun
      · split <;> nofun

/-- A text whose first token is the end of the input is blank. -/
theorem scan_eq_of_eof {text : List Char} (h : (scan text).1.kind = .eof) :
    scan text = (.endOfInput, []) := by
  unfold scan at h ⊢
  split at h
  · rfl
  · exact absurd h (scanFrom_kind_ne_eof _ _)

theorem ofText_eq (text : List Char) :
    ofText text =
      if (scan text).1.kind = .eof then [] else (scan text).1 :: ofText (scan text).2 := by
  unfold ofText
  rw [TokenSource.drain]
  split
  · next h => exact (if_pos h).symm
  · next h => exact (if_neg h).symm

@[simp] theorem ofText_nil : ofText [] = [] := ofText_eq []

theorem ofText_blank {c : Char} (hc : isBlank c = true) (text : List Char) :
    ofText (c :: text) = ofText text := by
  have hscan : scan (c :: text) = scan text := by
    unfold scan
    rw [List.dropWhile_cons_of_pos hc]
  rw [ofText_eq (c :: text), hscan, ← ofText_eq]

theorem ofText_cons {c : Char} (hc : isBlank c = false) (rest : List Char) :
    ofText (c :: rest) = (scanFrom c rest).1 :: ofText (scanFrom c rest).2 := by
  have hscan : scan (c :: rest) = scanFrom c rest := by
    unfold scan
    rw [List.dropWhile_cons_of_neg (by simp [hc])]
  rw [ofText_eq, hscan, if_neg (scanFrom_kind_ne_eof c rest)]

/-! ## Characters that begin no symbol -/

/-- The characters that begin a word, by their numbers. -/
theorem isWordStart_iff {c : Char} :
    isWordStart c = true ↔
      (65 ≤ c.toNat ∧ c.toNat ≤ 90) ∨ (97 ≤ c.toNat ∧ c.toNat ≤ 122) ∨ c.toNat = 95 := by
  have hunfold : isWordStart c = (decide ('A'.val ≤ c.val ∧ c.val ≤ 'Z'.val) ||
    (decide ('a'.val ≤ c.val) && decide (c.val ≤ 'z'.val)) || c == '_') := rfl
  have hunderscore : c = '_' ↔ c.toNat = 95 := Char.toNat_inj.symm
  rw [hunfold]
  simp only [Bool.or_eq_true, Bool.and_eq_true, decide_eq_true_eq, beq_iff_eq, hunderscore,
    UInt32.le_iff_toNat_le, or_assoc]
  rfl

/-- A digit begins no word. -/
theorem isWordStart_eq_false_of_isDigit {c : Char} (hc : c.isDigit = true) :
    isWordStart c = false := by
  rw [← Bool.not_eq_true, isWordStart_iff]
  rw [Char.isDigit_iff_toNat] at hc
  simp only [Char.reduceToNat] at hc
  omega

/-- A character of a word is neither blank nor a symbol nor a quote. -/
theorem plain_of_isWordRest {c : Char} (hc : isWordRest c = true) :
    isBlank c = false ∧ TokenKind.ofSymbol? c = none ∧ c ≠ '=' ∧ c ≠ '!' ∧ c ≠ '"' := by
  have hsymbol : TokenKind.ofSymbol? c = none := by
    unfold TokenKind.ofSymbol?
    split <;> first | rfl | exact absurd hc (by decide)
  refine ⟨?_, hsymbol, ?_, ?_, ?_⟩
  · rw [← Bool.not_eq_true]
    intro hblank
    rw [isWordRest, Bool.or_eq_true, isWordStart_iff, Char.isDigit_iff_toNat] at hc
    simp only [Char.reduceToNat] at hc
    simp only [isBlank, Bool.or_eq_true, Bool.and_eq_true, decide_eq_true_eq, beq_iff_eq] at hblank
    omega
  all_goals
    rintro rfl
    exact absurd hc (by decide)

/-! ## What tokens are cut off -/

/-- The token of a symbol. -/
def symbol (kind : TokenKind) : Token := ⟨kind, kind.name⟩

/-- A run of characters is cut off as a whole where the next one stops it. -/
theorem takeWhile_dropWhile_append {p : Char → Bool} {run rest : List Char}
    (hrun : ∀ c ∈ run, p c = true) (hrest : ∀ c ∈ rest.head?, p c = false) :
    (run ++ rest).takeWhile p = run ∧ (run ++ rest).dropWhile p = rest := by
  rw [List.takeWhile_append_of_pos hrun, List.dropWhile_append_of_pos hrun]
  cases rest with
  | nil => exact ⟨List.append_nil run, rfl⟩
  | cons c rest =>
    have hc : ¬ p c = true := by simp [hrest c rfl]
    rw [List.takeWhile_cons_of_neg hc, List.dropWhile_cons_of_neg hc, List.append_nil]
    exact ⟨rfl, rfl⟩

/-- A symbol of one character is not blank, and is spelled as it is named. -/
theorem plain_of_ofSymbol? {c : Char} {kind : TokenKind}
    (hc : TokenKind.ofSymbol? c = some kind) : isBlank c = false ∧ c.toString = kind.name := by
  unfold TokenKind.ofSymbol? at hc
  split at hc <;> first | (cases hc; exact ⟨rfl, rfl⟩) | cases hc

/-- A symbol of one character; `=` and `!` are none when a `=` follows. -/
theorem scanFrom_symbol {c : Char} {kind : TokenKind} (hc : TokenKind.ofSymbol? c = some kind)
    {rest : List Char} (hnext : c = '=' ∨ c = '!' → rest.head? ≠ some '=') :
    scanFrom c rest = (symbol kind, rest) := by
  unfold scanFrom
  split
  · exact absurd rfl (hnext (.inl rfl))
  · exact absurd rfl (hnext (.inr rfl))
  · cases hc
  · rw [hc, symbol, ← (plain_of_ofSymbol? hc).2]

theorem ofText_symbol {c : Char} {kind : TokenKind} (hc : TokenKind.ofSymbol? c = some kind)
    {rest : List Char} (hnext : c = '=' ∨ c = '!' → rest.head? ≠ some '=') :
    ofText (c :: rest) = symbol kind :: ofText rest := by
  rw [ofText_cons (plain_of_ofSymbol? hc).1, scanFrom_symbol hc hnext]

/-- A symbol of one character that no longer one begins with. -/
theorem ofText_delimiter {c : Char} {kind : TokenKind} (hc : TokenKind.ofSymbol? c = some kind)
    (hshort : c ≠ '=' ∧ c ≠ '!') (rest : List Char) :
    ofText (c :: rest) = symbol kind :: ofText rest :=
  ofText_symbol hc fun h => absurd h (not_or.mpr hshort)

theorem ofText_equal (rest : List Char) :
    ofText ('=' :: '=' :: rest) = symbol .eq :: ofText rest :=
  ofText_cons (by decide) _

theorem ofText_unequal (rest : List Char) :
    ofText ('!' :: '=' :: rest) = symbol .notEq :: ofText rest :=
  ofText_cons (by decide) _

/-- A word, reserved or not. -/
theorem scanFrom_word {first : Char} (hfirst : isWordStart first = true) {word rest : List Char}
    (hword : ∀ c ∈ word, isWordRest c = true) (hrest : Ended rest) :
    scanFrom first (word ++ rest) =
      (⟨TokenKind.ofWord (.ofList (first :: word)), .ofList (first :: word)⟩, rest) := by
  obtain ⟨-, hsymbol, hequal, hbang, hquote⟩ :=
    plain_of_isWordRest (c := first) (by simp [isWordRest, hfirst])
  obtain ⟨htake, hdrop⟩ := takeWhile_dropWhile_append hword hrest
  unfold scanFrom
  split
  · exact absurd rfl hequal
  · exact absurd rfl hbang
  · exact absurd rfl hquote
  · rw [hsymbol]
    simp only [hfirst, if_true, htake, hdrop]

theorem ofText_word {first : Char} (hfirst : isWordStart first = true) {word rest : List Char}
    (hword : ∀ c ∈ word, isWordRest c = true) (hrest : Ended rest) :
    ofText (first :: (word ++ rest)) =
      ⟨TokenKind.ofWord (.ofList (first :: word)), .ofList (first :: word)⟩ :: ofText rest := by
  have hblank := (plain_of_isWordRest (c := first) (by simp [isWordRest, hfirst])).1
  rw [ofText_cons hblank, scanFrom_word hfirst hword hrest]

/-- A number. -/
theorem scanFrom_digits {first : Char} (hfirst : first.isDigit = true) {digits rest : List Char}
    (hdigits : ∀ c ∈ digits, c.isDigit = true) (hrest : ∀ c ∈ rest.head?, c.isDigit = false) :
    scanFrom first (digits ++ rest) = (⟨.int, .ofList (first :: digits)⟩, rest) := by
  obtain ⟨-, hsymbol, hequal, hbang, hquote⟩ :=
    plain_of_isWordRest (c := first) (by simp [isWordRest, hfirst])
  obtain ⟨htake, hdrop⟩ := takeWhile_dropWhile_append hdigits hrest
  unfold scanFrom
  split
  · exact absurd rfl hequal
  · exact absurd rfl hbang
  · exact absurd rfl hquote
  · rw [hsymbol]
    simp only [isWordStart_eq_false_of_isDigit hfirst, Bool.false_eq_true, if_false, hfirst,
      if_true, htake, hdrop]

theorem ofText_digits {first : Char} (hfirst : first.isDigit = true) {digits rest : List Char}
    (hdigits : ∀ c ∈ digits, c.isDigit = true) (hrest : Ended rest) :
    ofText (first :: (digits ++ rest)) = ⟨.int, .ofList (first :: digits)⟩ :: ofText rest := by
  have hblank := (plain_of_isWordRest (c := first) (by simp [isWordRest, hfirst])).1
  have hend : ∀ c ∈ rest.head?, c.isDigit = false := by
    intro c hc
    have hword := hrest c hc
    simp only [isWordRest, Bool.or_eq_false_iff] at hword
    exact hword.2
  rw [ofText_cons hblank, scanFrom_digits hfirst hdigits hend]

/-- What stands in front of the first quote. -/
theorem bne_quote_of_not_mem {text : List Char} (htext : '"' ∉ text) :
    ∀ c ∈ text, (c != '"') = true := by
  intro c hc
  rw [bne_iff_ne]
  rintro rfl
  exact htext hc

/-- A string; it ends at the first quote. -/
theorem scanFrom_string {text : List Char} (htext : '"' ∉ text) (rest : List Char) :
    scanFrom '"' (text ++ '"' :: rest) = (⟨.string, .ofList text⟩, rest) := by
  have hall := bne_quote_of_not_mem htext
  change scanString _ = _
  unfold scanString
  rw [List.dropWhile_append_of_pos hall, List.takeWhile_append_of_pos hall]
  simp

/-- A quote that is not closed; it takes the whole rest. -/
theorem scanFrom_unclosed {text : List Char} (htext : '"' ∉ text) :
    scanFrom '"' text = (⟨.illegal, "\""⟩, []) := by
  have hend : ∀ c ∈ ([] : List Char).head?, (c != '"') = false := nofun
  have hdrop := (takeWhile_dropWhile_append (bne_quote_of_not_mem htext) hend).2
  rw [List.append_nil] at hdrop
  change scanString _ = _
  unfold scanString
  rw [hdrop]

/-- A character that begins nothing else. -/
theorem scanFrom_illegal {c : Char} (hsymbol : TokenKind.ofSymbol? c = none)
    (hword : isWordRest c = false) (hquote : c ≠ '"') (rest : List Char) :
    scanFrom c rest = (⟨.illegal, c.toString⟩, rest) := by
  simp only [isWordRest, Bool.or_eq_false_iff] at hword
  unfold scanFrom
  split
  · cases hsymbol
  · cases hsymbol
  · exact absurd rfl hquote
  · rw [hsymbol]
    simp only [hword.1, hword.2, Bool.false_eq_true, if_false]

theorem ofText_string {text rest : List Char} (htext : '"' ∉ text) :
    ofText ('"' :: (text ++ '"' :: rest)) = ⟨.string, .ofList text⟩ :: ofText rest := by
  rw [ofText_cons (by decide), scanFrom_string htext]

end Token

end MonkeyLang
