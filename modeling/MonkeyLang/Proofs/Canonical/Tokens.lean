import MonkeyLang.Proofs.Lexing
import MonkeyLang.Proofs.Numeral
import MonkeyLang.Tree.Render
/-!
# The tokens of canonical text

`Expr.Readable` are the expressions whose canonical text is code again:
no conditional and no function, since their blocks are written without
braces, and only names, numbers and strings that a text can spell.
`Expr.tokens` lists the tokens of such a text, and `ofText_render` says
that these are what is cut off it, whatever follows, as long as that does
not go on with a word or a number.
-/

namespace MonkeyLang

/-! ## What can be read back -/

/-- A name as a text spells it: a letter or an underscore, then letters,
underscores and digits, and no reserved word. -/
def Token.IsName (name : String) : Prop :=
  ∃ first rest, name.toList = first :: rest ∧ isWordStart first = true ∧
    (∀ c ∈ rest, isWordRest c = true) ∧ TokenKind.ofWord name = .ident

/-- An expression whose canonical text is code for it. -/
inductive Expr.Readable : Expr → Prop where
  | ident {name : String} : Token.IsName name → Readable (.ident name)
  | int {n : Int64} : 0 ≤ n → Readable (.int n)
  | bool (b : Bool) : Readable (.bool b)
  | string {text : String} : '"' ∉ text.toList → Readable (.string text)
  | array {elements : List Expr} : (∀ e ∈ elements, Readable e) → Readable (.array elements)
  | hash {pairs : List (Expr × Expr)} : (∀ pair ∈ pairs, Readable pair.1) →
      (∀ pair ∈ pairs, Readable pair.2) → Readable (.hash pairs)
  | unary (op : UnaryOp) {operand : Expr} : Readable operand → Readable (.unary op operand)
  | binary (op : BinaryOp) {left right : Expr} :
      Readable left → Readable right → Readable (.binary op left right)
  | call {callee : Expr} {arguments : List Expr} :
      Readable callee → (∀ e ∈ arguments, Readable e) → Readable (.call callee arguments)
  | index {left position : Expr} :
      Readable left → Readable position → Readable (.index left position)

/-- Statements whose canonical text is code for them: only the last one
may be an expression, since no semicolon is written behind it. -/
inductive Stmt.ReadableAll : List Stmt → Prop where
  | nil : ReadableAll []
  | last {e : Expr} : e.Readable → ReadableAll [.expr e]
  | bind {name : String} {e : Expr} {ss : List Stmt} :
      Token.IsName name → e.Readable → ReadableAll ss → ReadableAll (.bind name e :: ss)
  | ret {e : Expr} {ss : List Stmt} :
      e.Readable → ReadableAll ss → ReadableAll (.ret e :: ss)

/-! ## Tokens -/

/-- Lists of tokens with a comma between each two. -/
def Token.commaSeparated : List (List Token) → List Token
  | [] => []
  | [ts] => ts
  | ts :: us :: rest => ts ++ .symbol .comma :: commaSeparated (us :: rest)

mutual

/-- The tokens of the canonical text of an expression. Conditionals and
functions, whose text is no code, have none. -/
def Expr.tokens : Expr → List Token
  | .ident name => [⟨.ident, name⟩]
  | .int value => [⟨.int, toString value⟩]
  | .bool true => [⟨.trueWord, "true"⟩]
  | .bool false => [⟨.falseWord, "false"⟩]
  | .string value => [⟨.string, value⟩]
  | .array elements =>
    .symbol .lbracket :: (Token.commaSeparated (Expr.tokensAll elements) ++ [.symbol .rbracket])
  | .hash pairs =>
    .symbol .lbrace :: (Token.commaSeparated (Expr.tokensPairs pairs) ++ [.symbol .rbrace])
  | .unary op operand =>
    .symbol .lparen :: .symbol op.kind :: (operand.tokens ++ [.symbol .rparen])
  | .binary op left right =>
    .symbol .lparen :: (left.tokens ++ .symbol op.kind :: (right.tokens ++ [.symbol .rparen]))
  | .cond _ _ _ => []
  | .function _ _ => []
  | .call callee arguments =>
    callee.tokens ++
      .symbol .lparen :: (Token.commaSeparated (Expr.tokensAll arguments) ++ [.symbol .rparen])
  | .index left position =>
    .symbol .lparen :: (left.tokens ++
      .symbol .lbracket :: (position.tokens ++ [.symbol .rbracket]) ++ [.symbol .rparen])

/-- The tokens of each expression. -/
def Expr.tokensAll : List Expr → List (List Token)
  | [] => []
  | e :: es => e.tokens :: Expr.tokensAll es

/-- The tokens of each pair, with a colon between its two sides. -/
def Expr.tokensPairs : List (Expr × Expr) → List (List Token)
  | [] => []
  | (key, value) :: pairs =>
    (key.tokens ++ .symbol .colon :: value.tokens) :: Expr.tokensPairs pairs

end

/-- The tokens of the canonical text of a statement, its semicolon left
out. A block of its own has no such text. -/
def Stmt.tokens : Stmt → List Token
  | .bind name value =>
    ⟨.letWord, "let"⟩ :: ⟨.ident, name⟩ :: .symbol .assign :: value.tokens
  | .ret value => ⟨.returnWord, "return"⟩ :: value.tokens
  | .expr value => value.tokens
  | .block _ => []

/-- The tokens of the canonical text of some statements. -/
def Stmt.tokensAll : List Stmt → List Token
  | [] => []
  | .expr e :: ss => e.tokens ++ Stmt.tokensAll ss
  | s :: ss => s.tokens ++ .symbol .semicolon :: Stmt.tokensAll ss

/-! ## Lists as maps -/

theorem Expr.renderAll_eq_map (es : List Expr) : Expr.renderAll es = es.map Expr.render := by
  induction es with
  | nil => rfl
  | cons e es ih => rw [Expr.renderAll, ih, List.map_cons]

theorem Expr.renderPairs_eq_map (pairs : List (Expr × Expr)) :
    Expr.renderPairs pairs = pairs.map fun pair => pair.1.render ++ ": " ++ pair.2.render := by
  induction pairs with
  | nil => rfl
  | cons pair pairs ih => rw [Expr.renderPairs, ih, List.map_cons]

theorem Expr.tokensAll_eq_map (es : List Expr) : Expr.tokensAll es = es.map Expr.tokens := by
  induction es with
  | nil => rfl
  | cons e es ih => rw [Expr.tokensAll, ih, List.map_cons]

theorem Expr.tokensPairs_eq_map (pairs : List (Expr × Expr)) :
    Expr.tokensPairs pairs =
      pairs.map fun pair => pair.1.tokens ++ .symbol .colon :: pair.2.tokens := by
  induction pairs with
  | nil => rfl
  | cons pair pairs ih => rw [Expr.tokensPairs, ih, List.map_cons]

/-! ## What is cut off the text of an expression -/

namespace Token

/-- A text that begins with a character no word or number has. -/
theorem ended_cons {c : Char} (hc : isWordRest c = false) (rest : List Char) :
    Ended (c :: rest) := by
  intro d hd
  obtain rfl : c = d := by simpa using hd
  exact hc

/-- A word with a blank behind it. -/
theorem ofText_word_blank {first : Char} (hfirst : isWordStart first = true) {word : List Char}
    (hword : word.all isWordRest = true) (rest : List Char) :
    ofText (first :: (word ++ ' ' :: rest)) =
      ⟨.ofWord (String.ofList (first :: word)), String.ofList (first :: word)⟩ :: ofText rest := by
  have hblank : Ended (' ' :: rest) := ended_cons (by decide) rest
  rw [ofText_word hfirst (List.all_eq_true.mp hword) hblank, ofText_blank (by decide)]

theorem ofText_name {name : String} (h : IsName name) {rest : List Char} (hrest : Ended rest) :
    ofText (name.toList ++ rest) = ⟨.ident, name⟩ :: ofText rest := by
  obtain ⟨first, word, hname, hfirst, hword, hkind⟩ := h
  have hof : String.ofList (first :: word) = name := by rw [← hname, String.ofList_toList]
  rw [hname, List.cons_append, ofText_word hfirst hword hrest, hof, hkind]

theorem ofText_int {n : Int64} (h : 0 ≤ n) {rest : List Char} (hrest : Ended rest) :
    ofText ((toString n).toList ++ rest) = ⟨.int, toString n⟩ :: ofText rest := by
  obtain ⟨hne, hdigits⟩ := Decimal.isDigits_toDigits n.toInt.toNat
  rw [← Decimal.toList_toString h] at hne hdigits
  obtain ⟨first, digits, hn⟩ := List.exists_cons_of_ne_nil hne
  have hof : String.ofList (first :: digits) = toString n := by rw [← hn, String.ofList_toList]
  rw [hn, List.forall_mem_cons] at hdigits
  rw [hn, List.cons_append, ofText_digits hdigits.1 hdigits.2 hrest, hof]

theorem ofText_bool (b : Bool) {rest : List Char} (hrest : Ended rest) :
    ofText ((toString b).toList ++ rest) = (Expr.bool b).tokens ++ ofText rest := by
  cases b with
  | false =>
    exact ofText_word (by decide) (List.all_eq_true.mp (by decide)) hrest
  | true =>
    exact ofText_word (by decide) (List.all_eq_true.mp (by decide)) hrest

theorem ofText_unaryOp (op : UnaryOp) {rest : List Char} (hrest : rest.head? ≠ some '=') :
    ofText (op.symbol.toList ++ rest) = symbol op.kind :: ofText rest := by
  cases op with
  | not => exact ofText_symbol rfl fun _ => hrest
  | negate => exact ofText_symbol rfl fun _ => hrest

/-- An operator with blanks around it. -/
theorem ofText_binaryOp (op : BinaryOp) (rest : List Char) :
    ofText (' ' :: (op.symbol.toList ++ ' ' :: rest)) = symbol op.kind :: ofText rest := by
  rw [ofText_blank (by decide), ← ofText_blank (c := ' ') (by decide) rest]
  cases op with
  | eq => exact ofText_equal _
  | ne => exact ofText_unequal _
  | _ => exact ofText_delimiter rfl (by decide) _

/-- Items with commas between them, if each gives its own tokens. -/
theorem ofText_commaSeparated {α : Type} {text : α → String} {tokens : α → List Token}
    {items : List α}
    (h : ∀ a ∈ items, ∀ ⦃rest⦄, Ended rest →
      ofText ((text a).toList ++ rest) = tokens a ++ ofText rest)
    {rest : List Char} (hrest : Ended rest) :
    ofText ((MonkeyLang.commaSeparated (items.map text)).toList ++ rest) =
      commaSeparated (items.map tokens) ++ ofText rest := by
  induction items with
  | nil => rfl
  | cons a items ih =>
    have ha := h a List.mem_cons_self
    have hitems := ih fun b hb => h b (List.mem_cons_of_mem _ hb)
    cases items with
    | nil => exact ha hrest
    | cons b items =>
      have hcomma := ended_cons (c := ',') (by decide)
      simp only [List.map_cons, MonkeyLang.commaSeparated, String.toList_append,
        List.append_assoc]
      change ofText (_ ++ ',' :: ' ' :: ((MonkeyLang.commaSeparated _).toList ++ rest)) = _
      rw [ha (hcomma _), ofText_delimiter rfl (by decide), ofText_blank (by decide)]
      rw [List.map_cons, List.map_cons] at hitems
      rw [hitems, commaSeparated, List.append_assoc, List.cons_append]

/-- Items with commas between them, in brackets. -/
theorem ofText_enclosed {α : Type} {text : α → String} {tokens : α → List Token}
    {items : List α}
    (h : ∀ a ∈ items, ∀ ⦃rest⦄, Ended rest →
      ofText ((text a).toList ++ rest) = tokens a ++ ofText rest)
    {opening closing : Char} {first last : TokenKind}
    (hopening : TokenKind.ofSymbol? opening = some first ∧ opening ≠ '=' ∧ opening ≠ '!')
    (hclosing : TokenKind.ofSymbol? closing = some last ∧ closing ≠ '=' ∧ closing ≠ '!')
    (hword : isWordRest closing = false) (rest : List Char) :
    ofText (opening :: ((MonkeyLang.commaSeparated (items.map text)).toList ++ closing :: rest)) =
      symbol first :: (commaSeparated (items.map tokens) ++ symbol last :: ofText rest) := by
  rw [ofText_delimiter hopening.1 hopening.2,
    ofText_commaSeparated h (ended_cons hword rest), ofText_delimiter hclosing.1 hclosing.2]

/-- A pair with a colon between key and value. -/
theorem ofText_pair {key value : String} {keyTokens valueTokens : List Token}
    (hkey : ∀ ⦃rest⦄, Ended rest → ofText (key.toList ++ rest) = keyTokens ++ ofText rest)
    (hvalue : ∀ ⦃rest⦄, Ended rest → ofText (value.toList ++ rest) = valueTokens ++ ofText rest)
    {rest : List Char} (hrest : Ended rest) :
    ofText ((key ++ ": " ++ value).toList ++ rest) =
      (keyTokens ++ symbol .colon :: valueTokens) ++ ofText rest := by
  simp only [String.toList_append, List.append_assoc]
  change ofText (_ ++ ':' :: ' ' :: (_ ++ rest)) = _
  rw [hkey (ended_cons (by decide) _), ofText_delimiter rfl (by decide), ofText_blank (by decide),
    hvalue hrest]
  rfl

end Token

namespace Expr

/-- The text of an expression begins with a character other than `=`, so
that a `!` in front of it stays a token of its own. -/
theorem Readable.head_render_ne {e : Expr} (h : e.Readable) (rest : List Char) :
    (e.render.toList ++ rest).head? ≠ some '=' := by
  induction h generalizing rest with
  | @ident name hname =>
    obtain ⟨first, word, hname, hfirst, -⟩ := hname
    rw [render, hname]
    rintro h
    cases h
    exact absurd hfirst (by decide)
  | @int n hn =>
    obtain ⟨hne, hdigits⟩ := Decimal.isDigits_toDigits n.toInt.toNat
    rw [← Decimal.toList_toString hn] at hne hdigits
    obtain ⟨first, digits, hn⟩ := List.exists_cons_of_ne_nil hne
    rw [render, hn]
    rintro h
    cases h
    rw [hn] at hdigits
    exact absurd (hdigits '=' List.mem_cons_self) (by decide)
  | bool b => cases b <;> nofun
  | call _ _ ih =>
    simp only [render, String.toList_append, List.append_assoc]
    exact ih _
  | _ => simp [render]

open Token in
/-- **The tokens of the text of an expression**, whatever follows it. -/
theorem Readable.ofText_render {e : Expr} (h : e.Readable) {rest : List Char}
    (hrest : Ended rest) : ofText (e.render.toList ++ rest) = e.tokens ++ ofText rest := by
  induction h generalizing rest with
  | ident hname => exact ofText_name hname hrest
  | int hn => exact ofText_int hn hrest
  | bool b => exact ofText_bool b hrest
  | @string text htext =>
    simp only [render, String.toList_append, List.append_assoc]
    change ofText ('"' :: (text.toList ++ '"' :: rest)) = _
    rw [ofText_string htext, String.ofList_toList, tokens, List.cons_append, List.nil_append]
  | @array elements _ ih =>
    simp only [render, renderAll_eq_map, String.toList_append, List.append_assoc]
    change ofText ('[' :: (_ ++ ']' :: rest)) = _
    rw [ofText_enclosed ih ⟨rfl, by decide⟩ ⟨rfl, by decide⟩ (by decide), tokens, tokensAll_eq_map]
    simp
  | @hash pairs _ _ ihKey ihValue =>
    have hpair : ∀ pair ∈ pairs, ∀ ⦃rest⦄, Ended rest →
        ofText ((pair.1.render ++ ": " ++ pair.2.render).toList ++ rest) =
          (pair.1.tokens ++ symbol .colon :: pair.2.tokens) ++ ofText rest :=
      fun pair hmem _ hrest =>
        ofText_pair (fun _ => ihKey pair hmem) (fun _ => ihValue pair hmem) hrest
    simp only [render, renderPairs_eq_map, String.toList_append, List.append_assoc]
    change ofText ('{' :: (_ ++ '}' :: rest)) = _
    rw [ofText_enclosed hpair ⟨rfl, by decide⟩ ⟨rfl, by decide⟩ (by decide), tokens,
      tokensPairs_eq_map]
    simp
  | @unary op operand hoperand ih =>
    simp only [render, String.toList_append, List.append_assoc]
    change ofText ('(' :: (_ ++ (_ ++ ')' :: rest))) = _
    rw [ofText_delimiter rfl (by decide), ofText_unaryOp op (hoperand.head_render_ne _),
      ih (ended_cons (by decide) rest), ofText_delimiter rfl (by decide), tokens]
    simp
  | @binary op left right _ _ ihLeft ihRight =>
    simp only [render, String.toList_append, List.append_assoc]
    change ofText ('(' :: (_ ++ ' ' :: (_ ++ ' ' :: (_ ++ ')' :: rest)))) = _
    rw [ofText_delimiter rfl (by decide), ihLeft (ended_cons (by decide) _), ofText_binaryOp,
      ihRight (ended_cons (by decide) rest), ofText_delimiter rfl (by decide), tokens]
    simp
  | @call callee arguments _ _ ihCallee ihArguments =>
    have hclose : Ended (')' :: rest) := ended_cons (by decide) rest
    simp only [render, renderAll_eq_map, String.toList_append, List.append_assoc]
    change ofText (_ ++ '(' :: (_ ++ ')' :: rest)) = _
    rw [ihCallee (ended_cons (by decide) _), ofText_delimiter rfl (by decide),
      ofText_commaSeparated ihArguments hclose, ofText_delimiter rfl (by decide), tokens,
      tokensAll_eq_map]
    simp
  | @index left position _ _ ihLeft ihPosition =>
    simp only [render, String.toList_append, List.append_assoc]
    change ofText ('(' :: (_ ++ '[' :: (_ ++ ']' :: ')' :: rest))) = _
    rw [ofText_delimiter rfl (by decide), ihLeft (ended_cons (by decide) _),
      ofText_delimiter rfl (by decide), ihPosition (ended_cons (by decide) _),
      ofText_delimiter rfl (by decide), ofText_delimiter rfl (by decide), tokens]
    simp

end Expr

/-! ## What is cut off the text of a program -/

open Token in
/-- **The tokens of the text of statements.** -/
theorem Stmt.ReadableAll.ofText_renderAll {ss : List Stmt} (h : Stmt.ReadableAll ss) :
    ofText (Stmt.renderAll ss).toList = Stmt.tokensAll ss := by
  have hsemicolon (rest : List Char) : Ended (';' :: rest) := ended_cons (by decide) rest
  induction h with
  | nil => exact ofText_nil
  | @last e he =>
    have hend : Ended [] := nofun
    have htext := he.ofText_render hend
    simpa [renderAll, Stmt.render, tokensAll] using htext
  | @bind name e ss hname he _ ih =>
    simp only [renderAll, Stmt.render, String.toList_append, List.append_assoc]
    change ofText ('l' :: (['e', 't'] ++ ' ' :: (name.toList ++ ' ' :: '=' :: ' ' ::
      (e.render.toList ++ ';' :: (renderAll ss).toList)))) = _
    have hword : (⟨.ofWord (String.ofList ['l', 'e', 't']),
        String.ofList ['l', 'e', 't']⟩ : Token) = ⟨.letWord, "let"⟩ := rfl
    have hname : ∀ rest, ofText (name.toList ++ ' ' :: rest) = ⟨.ident, name⟩ :: ofText rest := by
      intro rest
      rw [ofText_name hname (ended_cons (by decide) _), ofText_blank (by decide)]
    -- the `=` stands between blanks, so it is not the first half of an `==`
    rw [ofText_word_blank (by decide) (by decide), hword, hname, ofText_symbol rfl (by simp),
      ofText_blank (by decide), he.ofText_render (hsemicolon _), ofText_delimiter rfl (by decide),
      ih]
    simp [tokensAll, Stmt.tokens]
  | @ret e ss he _ ih =>
    simp only [renderAll, Stmt.render, String.toList_append, List.append_assoc]
    change ofText ('r' :: (['e', 't', 'u', 'r', 'n'] ++ ' ' ::
      (e.render.toList ++ ';' :: (renderAll ss).toList))) = _
    have hword : (⟨.ofWord (String.ofList ['r', 'e', 't', 'u', 'r', 'n']),
        String.ofList ['r', 'e', 't', 'u', 'r', 'n']⟩ : Token) = ⟨.returnWord, "return"⟩ := rfl
    rw [ofText_word_blank (by decide) (by decide), hword, he.ofText_render (hsemicolon _),
      ofText_delimiter rfl (by decide), ih]
    simp [tokensAll, Stmt.tokens]

end MonkeyLang
