import MonkeyLang.Proofs.Lexing
import MonkeyLang.Proofs.Numeral
import Mathlib.Data.List.TakeWhile
/-!
# Texts as lexemes

A text falls into lexemes, each with the blanks in front of it, and some
blanks at the end. How a token is written is a matter of the token alone,
apart from three things: a word, a number and the symbols `=` and `!` do
not stop in front of what they could go on with, an illegal character is
one that nothing else begins with, and a quote that is never closed takes
the whole rest. `Token.Spelled` is that rule and `Cut` what it makes of a
text.

Every text is cut in exactly one way, and the tokens supplied for it are
those of its lexemes (`supplies_iff_cut`).
-/

namespace MonkeyLang

namespace TokenKind

/-- The reserved words, and what each stands for. -/
def keywords : List (String × TokenKind) :=
  [("fn", .fnWord), ("let", .letWord), ("true", .trueWord), ("false", .falseWord),
    ("if", .ifWord), ("else", .elseWord), ("return", .returnWord)]

/-- The operators and delimiters. -/
def symbols : List TokenKind :=
  [.assign, .plus, .minus, .bang, .asterisk, .slash, .lt, .gt, .eq, .notEq, .comma, .semicolon,
    .colon, .lparen, .rparen, .lbrace, .rbrace, .lbracket, .rbracket]

end TokenKind

open TokenKind (keywords symbols)

/-! ## How tokens are written -/

namespace Token

/-- A letter or an underscore, then letters, underscores and digits. -/
inductive IsWord : List Char → Prop
  | mk {first : Char} {rest : List Char} :
    isWordStart first = true → (∀ c ∈ rest, isWordRest c = true) → IsWord (first :: rest)

/-- What a token is written as in front of the rest of a text. -/
inductive Spelled : Token → List Char → List Char → Prop
  | string {body rest : List Char} :
    '"' ∉ body → Spelled ⟨.string, .ofList body⟩ ('"' :: (body ++ ['"'])) rest
  | ident {word rest : List Char} :
    IsWord word → (∀ kind, (String.ofList word, kind) ∉ keywords) → Ended rest →
      Spelled ⟨.ident, .ofList word⟩ word rest
  | keyword {word : String} {kind : TokenKind} {rest : List Char} :
    (word, kind) ∈ keywords → Ended rest → Spelled ⟨kind, word⟩ word.toList rest
  | int {digits rest : List Char} :
    Decimal.IsDigits digits → (∀ c ∈ rest.head?, c.isDigit = false) →
      Spelled ⟨.int, .ofList digits⟩ digits rest
  | symbol {kind : TokenKind} {rest : List Char} :
    kind ∈ symbols → (kind = .assign ∨ kind = .bang → rest.head? ≠ some '=') →
      Spelled (symbol kind) kind.name.toList rest
  | illegal {c : Char} {rest : List Char} :
    isBlank c = false → isWordRest c = false → c ≠ '"' →
      (∀ kind ∈ symbols, c ∉ kind.name.toList) → Spelled ⟨.illegal, c.toString⟩ [c] rest
  /-- A quote that is never closed; it is the last token. -/
  | unclosed {body : List Char} : '"' ∉ body → Spelled ⟨.illegal, "\""⟩ ('"' :: body) []

/-! ## Words and symbols -/

theorem ofWord_of_mem_keywords {word : String} {kind : TokenKind} (h : (word, kind) ∈ keywords) :
    TokenKind.ofWord word = kind ∧ IsWord word.toList := by
  simp only [keywords, List.mem_cons, Prod.mk.injEq, List.not_mem_nil, or_false] at h
  rcases h with h | h | h | h | h | h | h
  all_goals
    obtain ⟨rfl, rfl⟩ := h
    exact ⟨rfl, .mk (by decide) (List.all_eq_true.1 (by decide))⟩

/-- A word is reserved or an identifier. -/
theorem mem_keywords_or_eq_ident (word : String) :
    (word, TokenKind.ofWord word) ∈ keywords ∨
      TokenKind.ofWord word = .ident ∧ ∀ kind, (word, kind) ∉ keywords := by
  have hkind : (word, TokenKind.ofWord word) ∈ keywords ∨ TokenKind.ofWord word = .ident := by
    unfold TokenKind.ofWord
    split <;> first | exact .inl (by decide) | exact .inr rfl
  refine hkind.imp_right fun hident => ⟨hident, fun kind hmem => ?_⟩
  obtain rfl : TokenKind.ident = kind := hident ▸ (ofWord_of_mem_keywords hmem).1
  simp [keywords] at hmem

/-- A symbol is one character long, or `==`, or `!=`. -/
theorem ofSymbol?_of_mem_symbols {kind : TokenKind} (h : kind ∈ symbols) :
    kind = .eq ∨ kind = .notEq ∨
      ∃ c, kind.name.toList = [c] ∧ TokenKind.ofSymbol? c = some kind ∧
        (c = '=' ∨ c = '!' → kind = .assign ∨ kind = .bang) := by
  cases kind <;>
    first
    | exact absurd h (by decide)
    | exact .inl rfl
    | exact .inr (.inl rfl)
    | exact .inr (.inr ⟨_, rfl, rfl, by decide⟩)

theorem mem_symbols_of_ofSymbol? {c : Char} {kind : TokenKind}
    (h : TokenKind.ofSymbol? c = some kind) :
    kind ∈ symbols ∧ kind.name.toList = [c] ∧
      (kind = .assign ∨ kind = .bang → c = '=' ∨ c = '!') := by
  unfold TokenKind.ofSymbol? at h
  split at h <;> cases h <;> exact ⟨by decide, rfl, by decide⟩

/-- No symbol has a character that none begins with. -/
theorem not_mem_name_of_ofSymbol?_eq_none {c : Char} (h : TokenKind.ofSymbol? c = none) :
    ∀ kind ∈ symbols, c ∉ kind.name.toList := by
  have hall : ∀ kind ∈ symbols, kind.name.toList.all (TokenKind.ofSymbol? · |>.isSome) = true := by
    decide
  intro kind hkind hc
  have hsome := List.all_eq_true.1 (hall kind hkind) c hc
  rw [h] at hsome
  cases hsome

/-! ## What is cut off first -/

/-- **A token in front of a rest is what is cut off.** -/
theorem Spelled.scanFrom {token : Token} {text rest : List Char} (h : Spelled token text rest) :
    ∃ first more, text = first :: more ∧ isBlank first = false ∧
      Token.scanFrom first (more ++ rest) = (token, rest) := by
  have hword {word : List Char} (hword : IsWord word) (hrest : Ended rest) :
      ∃ first more, word = first :: more ∧ isBlank first = false ∧
        Token.scanFrom first (more ++ rest) =
          (⟨TokenKind.ofWord (.ofList word), .ofList word⟩, rest) := by
    obtain @⟨first, more, hfirst, hmore⟩ := hword
    have hplain := plain_of_isWordRest (c := first) (by simp [isWordRest, hfirst])
    exact ⟨first, more, rfl, hplain.1, scanFrom_word hfirst hmore hrest⟩
  cases h with
  | @string body _ hbody =>
    refine ⟨'"', body ++ ['"'], rfl, by decide, ?_⟩
    rw [List.append_assoc]
    exact scanFrom_string hbody rest
  | ident hname hreserved hrest =>
    obtain ⟨first, more, heq, hblank, hscan⟩ := hword hname hrest
    refine ⟨first, more, heq, hblank, ?_⟩
    obtain hmem | ⟨hident, -⟩ := mem_keywords_or_eq_ident (.ofList text)
    · exact absurd hmem (hreserved _)
    · rw [hscan, hident]
  | @keyword word kind _ hmem hrest =>
    obtain ⟨hkind, hname⟩ := ofWord_of_mem_keywords hmem
    obtain ⟨first, more, heq, hblank, hscan⟩ := hword hname hrest
    refine ⟨first, more, heq, hblank, ?_⟩
    rw [hscan, String.ofList_toList, hkind]
  | @int digits _ hdigits hrest =>
    obtain ⟨hne, hall⟩ := hdigits
    obtain ⟨first, more, rfl⟩ := List.exists_cons_of_ne_nil hne
    have hfirst := hall first List.mem_cons_self
    have hplain := plain_of_isWordRest (c := first) (by simp [isWordRest, hfirst])
    have hmore : ∀ c ∈ more, c.isDigit = true := fun c hc => hall c (List.mem_cons_of_mem _ hc)
    exact ⟨first, more, rfl, hplain.1, scanFrom_digits hfirst hmore hrest⟩
  | @symbol kind _ hkind hnext =>
    obtain rfl | rfl | ⟨c, hname, hsymbol, hc⟩ := ofSymbol?_of_mem_symbols hkind
    · exact ⟨'=', ['='], rfl, by decide, rfl⟩
    · exact ⟨'!', ['='], rfl, by decide, rfl⟩
    · exact ⟨c, [], hname, (plain_of_ofSymbol? hsymbol).1, scanFrom_symbol hsymbol (hnext ∘ hc)⟩
  | @illegal c _ hblank hword hquote hsymbol =>
    have hnone : TokenKind.ofSymbol? c = none := by
      rw [Option.eq_none_iff_forall_ne_some]
      intro kind hkind
      obtain ⟨hmem, hname, -⟩ := mem_symbols_of_ofSymbol? hkind
      exact hsymbol kind hmem (by simp [hname])
    exact ⟨c, [], rfl, hblank, scanFrom_illegal hnone hword hquote rest⟩
  | @unclosed body hbody =>
    refine ⟨'"', body, rfl, by decide, ?_⟩
    rw [List.append_nil]
    exact scanFrom_unclosed hbody

/-- A run that goes on for as long as it can stops in front of what follows
it. -/
theorem head?_dropWhile_eq_false (p : Char → Bool) (text : List Char) :
    ∀ c ∈ (text.dropWhile p).head?, p c = false := by
  intro c hc
  have h := List.head?_dropWhile_not p text
  rwa [hc] at h

theorem spelled_ofSymbol? {c : Char} {kind : TokenKind} {rest : List Char}
    (h : TokenKind.ofSymbol? c = some kind) (hnext : c = '=' ∨ c = '!' → rest.head? ≠ some '=') :
    Spelled ⟨kind, c.toString⟩ [c] rest := by
  obtain ⟨hmem, hname, hshort⟩ := mem_symbols_of_ofSymbol? h
  rw [(plain_of_ofSymbol? h).2, ← hname]
  exact .symbol hmem (hnext ∘ hshort)

theorem spelled_ofWord {word rest : List Char} (h : IsWord word) (hrest : Ended rest) :
    Spelled ⟨TokenKind.ofWord (.ofList word), .ofList word⟩ word rest := by
  obtain hmem | ⟨hident, hfree⟩ := mem_keywords_or_eq_ident (.ofList word)
  · have hspelled := Spelled.keyword hmem hrest
    rwa [String.toList_ofList] at hspelled
  · rw [hident]
    exact .ident h hfree hrest

theorem spelled_scanString (rest : List Char) :
    ∃ text, '"' :: rest = text ++ (scanString rest).2 ∧
      Spelled (scanString rest).1 text (scanString rest).2 := by
  unfold scanString
  split
  · next hend =>
    refine ⟨'"' :: rest, (List.append_nil _).symm, .unclosed fun hmem => ?_⟩
    simpa using List.dropWhile_eq_nil_iff.1 hend _ hmem
  · next quote after hend =>
    have hquote := head?_dropWhile_eq_false (· != '"') rest quote (by rw [hend]; rfl)
    obtain rfl : quote = '"' := by simpa using hquote
    refine ⟨'"' :: (rest.takeWhile (· != '"') ++ ['"']), ?_, .string fun hmem => ?_⟩
    · simp only [List.cons_append, List.append_assoc, List.nil_append, ← hend,
        List.takeWhile_append_dropWhile]
    · simpa using List.mem_takeWhile_imp hmem

/-- **What is cut off is a token in front of the rest.** -/
theorem spelled_scanFrom {first : Char} (hblank : isBlank first = false) (rest : List Char) :
    ∃ text, first :: rest = text ++ (Token.scanFrom first rest).2 ∧
      Spelled (Token.scanFrom first rest).1 text (Token.scanFrom first rest).2 := by
  have hrun (p : Char → Bool) :
      first :: rest = first :: rest.takeWhile p ++ rest.dropWhile p :=
    congrArg (first :: ·) List.takeWhile_append_dropWhile.symm
  have hall (p : Char → Bool) : ∀ c ∈ rest.takeWhile p, p c = true :=
    fun c hc => List.mem_takeWhile_imp hc
  have hend (p : Char → Bool) : ∀ c ∈ (rest.dropWhile p).head?, p c = false :=
    head?_dropWhile_eq_false p rest
  unfold Token.scanFrom
  split
  · exact ⟨['=', '='], rfl, @Spelled.symbol .eq _ (by decide) nofun⟩
  · exact ⟨['!', '='], rfl, @Spelled.symbol .notEq _ (by decide) nofun⟩
  · exact spelled_scanString rest
  · next hquote hequal hbang =>
    cases hsymbol : TokenKind.ofSymbol? first with
    | some kind =>
      refine ⟨[first], rfl, spelled_ofSymbol? hsymbol fun hshort hnext => ?_⟩
      obtain ⟨after, hafter⟩ := List.head?_eq_some_iff.1 hnext
      exact hshort.elim (hequal after · hafter) (hbang after · hafter)
    | none =>
      dsimp only
      split
      · next hstart =>
        exact ⟨_, hrun isWordRest, spelled_ofWord (.mk hstart (hall _)) (hend _)⟩
      · next hstart =>
        split
        · next hdigit =>
          have hdigits : Decimal.IsDigits (first :: rest.takeWhile Char.isDigit) :=
            ⟨List.cons_ne_nil _ _, List.forall_mem_cons.2 ⟨hdigit, hall _⟩⟩
          exact ⟨_, hrun Char.isDigit, .int hdigits (hend _)⟩
        · next hdigit =>
          have hword : isWordRest first = false := by simp [isWordRest, hstart, hdigit]
          have hfree := not_mem_name_of_ofSymbol?_eq_none hsymbol
          exact ⟨[first], rfl, .illegal hblank hword hquote hfree⟩

end Token

/-! ## How texts are cut -/

/-- A token in a text, with the blanks in front of it. -/
structure Lexeme where
  blanks : List Char
  token : Token
  text : List Char

namespace Lexeme

/-- The text that some lexemes and the characters behind them make up. -/
def join (lexemes : List Lexeme) (last : List Char) : List Char :=
  lexemes.foldr (fun l rest => l.blanks ++ (l.text ++ rest)) last

@[simp] theorem join_nil (last : List Char) : join [] last = last := rfl

@[simp] theorem join_cons (l : Lexeme) (lexemes : List Lexeme) (last : List Char) :
    join (l :: lexemes) last = l.blanks ++ (l.text ++ join lexemes last) := rfl

end Lexeme

open Lexeme (join)

/-- A text is cut into lexemes and the blanks behind the last one: each
token is written as it has to be in front of all that follows it. -/
inductive Cut : List Lexeme → List Char → Prop
  | nil {last : List Char} : (∀ c ∈ last, isBlank c = true) → Cut [] last
  | cons {l : Lexeme} {lexemes : List Lexeme} {last : List Char} :
    (∀ c ∈ l.blanks, isBlank c = true) → l.token.Spelled l.text (join lexemes last) →
      Cut lexemes last → Cut (l :: lexemes) last

namespace Token

theorem Spelled.kind_ne_eof {token : Token} {text rest : List Char}
    (h : token.Spelled text rest) : token.kind ≠ .eof := by
  obtain ⟨first, more, -, -, hscan⟩ := h.scanFrom
  have hkind := scanFrom_kind_ne_eof first (more ++ rest)
  rwa [hscan] at hkind

theorem scan_eq_nil_of_blank {text : List Char} (h : ∀ c ∈ text, isBlank c = true) :
    scan text = (.endOfInput, []) := by
  unfold scan
  rw [List.dropWhile_eq_nil_iff.2 h]

/-- A token behind blanks is cut off, and the rest is left. -/
theorem Spelled.scan {token : Token} {blanks text rest : List Char}
    (h : token.Spelled text rest) (hblanks : ∀ c ∈ blanks, isBlank c = true) :
    Token.scan (blanks ++ (text ++ rest)) = (token, rest) ∧
      (blanks ++ (text ++ rest)).takeWhile isBlank = blanks := by
  obtain ⟨first, more, rfl, hfirst, hscan⟩ := h.scanFrom
  have hend : ∀ c ∈ (first :: more ++ rest).head?, isBlank c = false := by
    rintro c ⟨rfl⟩
    exact hfirst
  obtain ⟨htake, hdrop⟩ := takeWhile_dropWhile_append hblanks hend
  refine ⟨?_, htake⟩
  unfold Token.scan
  rw [hdrop]
  exact hscan

theorem Spelled.ofText {token : Token} {blanks text rest : List Char}
    (h : token.Spelled text rest) (hblanks : ∀ c ∈ blanks, isBlank c = true) :
    Token.ofText (blanks ++ (text ++ rest)) = token :: Token.ofText rest := by
  rw [ofText_eq, (h.scan hblanks).1, if_neg h.kind_ne_eof]

end Token

namespace Cut

variable {lexemes lexemes' : List Lexeme} {last last' : List Char}

/-- **The tokens of a text are those that it is cut into.** -/
theorem ofText_join (h : Cut lexemes last) :
    Token.ofText (join lexemes last) = lexemes.map Lexeme.token := by
  induction h with
  | nil hlast => rw [Token.ofText_eq, Lexeme.join_nil, Token.scan_eq_nil_of_blank hlast]; rfl
  | @cons l lexemes last hblanks hspelled _ ih =>
    rw [Lexeme.join_cons, hspelled.ofText hblanks, ih, List.map_cons]

/-- Blanks alone are not cut into any lexeme. -/
theorem join_ne_of_blank (h : Cut lexemes last) (hne : lexemes ≠ [])
    (hblank : ∀ c ∈ last', isBlank c = true) : join lexemes last ≠ last' := by
  rintro rfl
  cases h with
  | nil => exact hne rfl
  | cons hblanks hspelled _ =>
    have hscan := (hspelled.scan hblanks).1
    rw [← Lexeme.join_cons, Token.scan_eq_nil_of_blank hblank] at hscan
    exact hspelled.kind_ne_eof (congrArg (·.1.kind) hscan).symm

/-- **A text is cut in one way only.** -/
theorem unique (h : Cut lexemes last) (h' : Cut lexemes' last')
    (heq : join lexemes last = join lexemes' last') : lexemes = lexemes' ∧ last = last' := by
  induction h generalizing lexemes' last' with
  | nil hlast =>
    cases h' with
    | nil => exact ⟨rfl, heq⟩
    | cons hblanks hspelled hcut =>
      exact absurd heq.symm ((cons hblanks hspelled hcut).join_ne_of_blank nofun hlast)
  | @cons l lexemes last hblanks hspelled hcut ih =>
    cases h' with
    | nil hlast => exact absurd heq ((cons hblanks hspelled hcut).join_ne_of_blank nofun hlast)
    | @cons l' _ _ hblanks' hspelled' hcut' =>
      -- the token and the rest are what is cut off, and the blanks are what
      -- is skipped
      obtain ⟨hscan, htake⟩ := hspelled.scan hblanks
      obtain ⟨hscan', htake'⟩ := hspelled'.scan hblanks'
      rw [← Lexeme.join_cons, heq] at hscan htake
      obtain ⟨htoken, hrest⟩ := Prod.mk.inj (hscan.symm.trans hscan')
      obtain ⟨rfl, rfl⟩ := ih hcut' hrest
      have hblank : l.blanks = l'.blanks := htake.symm.trans htake'
      have htext : l.text = l'.text := by
        rw [Lexeme.join_cons, Lexeme.join_cons, hblank] at heq
        exact List.append_cancel_right (List.append_cancel_left heq)
      obtain ⟨blanks, token, text⟩ := l
      obtain ⟨rfl, rfl, rfl⟩ : blanks = l'.blanks ∧ token = l'.token ∧ text = l'.text :=
        ⟨hblank, htoken, htext⟩
      exact ⟨rfl, rfl⟩

end Cut

/-- **Every text is cut in some way.** -/
theorem exists_cut (text : List Char) :
    ∃ lexemes last, Cut lexemes last ∧ join lexemes last = text := by
  -- on the length of the text: what is cut off is not empty
  induction hn : text.length using Nat.strongRecOn generalizing text with | _ n ih
  have htext : text.takeWhile isBlank ++ text.dropWhile isBlank = text :=
    List.takeWhile_append_dropWhile
  cases hdrop : text.dropWhile isBlank with
  | nil => exact ⟨[], text, .nil (List.dropWhile_eq_nil_iff.1 hdrop), rfl⟩
  | cons first rest =>
    have hfirst : isBlank first = false :=
      Token.head?_dropWhile_eq_false isBlank text first (by rw [hdrop]; rfl)
    obtain ⟨word, hword, hspelled⟩ := Token.spelled_scanFrom hfirst rest
    have hlt : (Token.scanFrom first rest).2.length < n := by
      have hle := Token.length_scanFrom_le first rest
      have hle' := Token.length_dropWhile_le isBlank text
      rw [hdrop, List.length_cons] at hle'
      omega
    obtain ⟨lexemes, last, hcut, hjoin⟩ := ih _ hlt _ rfl
    have hblanks : ∀ c ∈ text.takeWhile isBlank, isBlank c = true :=
      fun c hc => List.mem_takeWhile_imp hc
    refine ⟨⟨text.takeWhile isBlank, (Token.scanFrom first rest).1, word⟩ :: lexemes, last,
      .cons hblanks (hjoin.symm ▸ hspelled) hcut, ?_⟩
    rw [Lexeme.join_cons, hjoin, ← hword, ← hdrop, htext]

/-! ## What is supplied for a text -/

namespace TokenSource

variable {σ : Type} [TokenSource σ]

/-- A source answers with some tokens, none of them the end of the input,
and from then on with the end of the input, however often it is asked. -/
def Supplies (source : σ) (ts : List Token) : Prop :=
  (∀ t ∈ ts, t.kind ≠ .eof) ∧
    ∀ n, take source (ts.length + n) = ts ++ List.replicate n .endOfInput

/-- A source supplies one list of tokens only. -/
theorem Supplies.unique {source : σ} {ts us : List Token} (h : Supplies source ts)
    (h' : Supplies source us) : ts = us := by
  -- both are what is answered before the first end of the input
  have hbefore {ts : List Token} (hts : ∀ t ∈ ts, t.kind ≠ .eof) (n : Nat) :
      (ts ++ List.replicate n Token.endOfInput).takeWhile (fun t => t.kind ≠ .eof) = ts := by
    rw [List.takeWhile_append_of_pos (by simpa using hts)]
    simp [Token.endOfInput]
  have heq : ts ++ List.replicate us.length .endOfInput =
      us ++ List.replicate ts.length .endOfInput := by
    rw [← h.2, ← h'.2, Nat.add_comm]
  rw [← hbefore h.1 us.length, heq, hbefore h'.1]

end TokenSource

open TokenSource (Supplies)

/-- **A text supplies the tokens that it is cut into.** -/
theorem Cut.supplies {lexemes : List Lexeme} {last : List Char} (h : Cut lexemes last) :
    Supplies (join lexemes last) (lexemes.map Lexeme.token) := by
  induction h with
  | @nil last hlast =>
    have hscan (n : Nat) {text : List Char} (htext : ∀ c ∈ text, isBlank c = true) :
        TokenSource.take text n = List.replicate n .endOfInput := by
      induction n generalizing text with
      | zero => rfl
      | succ n ih =>
        have hnext : TokenSource.next text = (.endOfInput, []) :=
          Token.scan_eq_nil_of_blank htext
        rw [TokenSource.take, hnext, ih (by simp), List.replicate_succ]
    exact ⟨by simp, fun n => by simpa using hscan n hlast⟩
  | @cons l lexemes last hblanks hspelled _ ih =>
    have hnext : TokenSource.next (join (l :: lexemes) last) = (l.token, join lexemes last) :=
      (hspelled.scan hblanks).1
    refine ⟨List.forall_mem_cons.2 ⟨hspelled.kind_ne_eof, ih.1⟩, fun n => ?_⟩
    rw [List.map_cons, List.length_cons, Nat.add_right_comm, TokenSource.take, hnext, ih.2,
      List.cons_append]

/-- **The tokens of a text are its lexemes, and it falls into these in one
way only.** No character is lost between them or read twice. -/
theorem supplies_iff_cut (text : List Char) :
    (∀ ts, Supplies text ts ↔
      ∃ lexemes last, Cut lexemes last ∧ join lexemes last = text ∧
        lexemes.map Lexeme.token = ts) ∧
    ∃! d : List Lexeme × List Char, Cut d.1 d.2 ∧ join d.1 d.2 = text := by
  obtain ⟨lexemes, last, hcut, rfl⟩ := exists_cut text
  refine ⟨fun ts => ⟨fun h => ?_, ?_⟩, (lexemes, last), ⟨hcut, rfl⟩, ?_⟩
  · exact ⟨lexemes, last, hcut, rfl, hcut.supplies.unique h⟩
  · rintro ⟨lexemes', last', hcut', heq, rfl⟩
    exact heq ▸ hcut'.supplies
  · rintro ⟨lexemes', last'⟩ ⟨hcut', heq⟩
    obtain ⟨rfl, rfl⟩ := hcut'.unique hcut heq
    rfl

end MonkeyLang
