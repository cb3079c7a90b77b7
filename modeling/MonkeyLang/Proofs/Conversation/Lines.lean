import MonkeyLang.Proofs.Pieces
import MonkeyLang.Repl
/-!
# The lines of a text

A conversation takes its input apart by bytes. Where the input is a text that
is made of whole lines, it gets exactly these: no character but the line break
has the byte of the line break in it (`linesOf_textOf`).

The line break that a line ends with changes nothing about how it is read, and
nor does any blank at its ends (`readText_of_trim_eq`).
-/

namespace MonkeyLang

/-! ## Bytes -/

/-- The bytes of a text in UTF-8. -/
def bytesOf (text : String) : List UInt8 := text.toUTF8.data.toList

theorem bytesOf_eq_flatMap (text : String) :
    bytesOf text = text.toList.flatMap String.utf8EncodeChar := by
  have h : text.toUTF8 = text.toList.utf8Encode := by
    rw [← String.toByteArray_ofList, String.ofList_toList]
    rfl
  rw [bytesOf, h, List.utf8Encode]
  simp

theorem bytesOf_append (text more : String) :
    bytesOf (text ++ more) = bytesOf text ++ bytesOf more := by
  simp only [bytesOf_eq_flatMap, String.toList_append, List.flatMap_append]

/-- A text is what its bytes encode. -/
theorem Repl.decode_bytesOf (text : String) : decode (bytesOf text) = some text := by
  have hbytes : (⟨(bytesOf text).toArray⟩ : ByteArray) = text.toByteArray := rfl
  rw [decode, hbytes, String.fromUTF8?, dif_pos text.isValidUTF8]
  rfl

/-- The byte of a line break is in no other character. -/
theorem eq_newline_of_mem_utf8EncodeChar {c : Char} (h : 10 ∈ String.utf8EncodeChar c) :
    c = '\n' := by
  -- a character of several bytes has none below 128
  have hbyte {n k : Nat} (hk : 128 ≤ k) (hlt : n + k < 256) : (10 : UInt8) ≠ .ofNat (n + k) := by
    intro heq
    have hnat := congrArg UInt8.toNat heq
    rw [UInt8.toNat_ofNat', Nat.mod_eq_of_lt hlt] at hnat
    change 10 = n + k at hnat
    omega
  unfold String.utf8EncodeChar at h
  dsimp only at h
  split at h
  · next hle =>
    have hnat := congrArg UInt8.toNat (List.mem_singleton.1 h)
    rw [UInt8.toNat_ofNat', Nat.mod_eq_of_lt (by omega)] at hnat
    exact Char.toNat_inj.1 hnat.symm
  · split at h
    · simp only [List.mem_cons, List.not_mem_nil, or_false] at h
      rcases h with h | h <;> exact absurd h (hbyte (by decide) (by omega))
    · split at h
      · simp only [List.mem_cons, List.not_mem_nil, or_false] at h
        rcases h with h | h | h <;> exact absurd h (hbyte (by decide) (by omega))
      · simp only [List.mem_cons, List.not_mem_nil, or_false] at h
        rcases h with h | h | h | h <;> exact absurd h (hbyte (by decide) (by omega))

theorem ten_mem_bytesOf {text : String} (h : 10 ∈ bytesOf text) : '\n' ∈ text.toList := by
  rw [bytesOf_eq_flatMap] at h
  obtain ⟨c, hc, hbyte⟩ := List.mem_flatMap.1 h
  exact eq_newline_of_mem_utf8EncodeChar hbyte ▸ hc

/-! ## Lines -/

namespace Repl

/-- The text that is made of some lines, each ended by a line break. -/
def textOf (lines : List String) : String := String.join (lines.map (· ++ "\n"))

@[simp] theorem textOf_nil : textOf [] = "" := rfl

@[simp] theorem textOf_cons (line : String) (lines : List String) :
    textOf (line :: lines) = line ++ "\n" ++ textOf lines := String.join_cons

theorem splitLines_append {line : List UInt8} (h : 10 ∉ line) (rest : List UInt8) :
    splitLines (line ++ 10 :: rest) = (line ++ [10]) :: splitLines rest := by
  induction line with
  | nil => rfl
  | cons byte line ih =>
    obtain ⟨hbyte, hline⟩ := not_or.1 (List.mem_cons.not.1 h)
    rw [List.cons_append, splitLines, if_neg (Ne.symm hbyte), ih hline]
    rfl

/-- **What is read are the lines that the text is made of.** -/
theorem linesOf_textOf {lines : List String} (h : ∀ line ∈ lines, '\n' ∉ line.toList)
    (rest : List UInt8) :
    linesOf (bytesOf (textOf lines) ++ rest) =
      lines.map (fun line => some (line ++ "\n")) ++ linesOf rest := by
  induction lines with
  | nil => rfl
  | cons line lines ih =>
    obtain ⟨hline, hlines⟩ := List.forall_mem_cons.1 h
    have hbytes : bytesOf (textOf (line :: lines)) ++ rest =
        bytesOf line ++ 10 :: (bytesOf (textOf lines) ++ rest) := by
      rw [textOf_cons, bytesOf_append, bytesOf_append, List.append_assoc, List.append_assoc]
      rfl
    have hdecode : decode (bytesOf line ++ [10]) = some (line ++ "\n") := by
      rw [← decode_bytesOf (line ++ "\n"), bytesOf_append]
      rfl
    rw [hbytes, linesOf, splitLines_append (mt ten_mem_bytesOf hline), List.map_cons, hdecode]
    exact congrArg _ (ih hlines)

end Repl

/-! ## Blanks at the ends -/

/-- What is left of a text without the blanks at its ends, and these
blanks. -/
theorem exists_blanks_trim (text : List Char) :
    ∃ before after, (∀ c ∈ before, isBlank c = true) ∧ (∀ c ∈ after, isBlank c = true) ∧
      text = before ++ (trim text ++ after) := by
  have hsplit (text : List Char) : text = text.takeWhile isBlank ++ text.dropWhile isBlank :=
    List.takeWhile_append_dropWhile.symm
  have hblank (text : List Char) : ∀ c ∈ text.takeWhile isBlank, isBlank c = true :=
    fun c hc => List.mem_takeWhile_imp hc
  refine ⟨text.takeWhile isBlank, ((text.dropWhile isBlank).reverse.takeWhile isBlank).reverse,
    hblank text, fun c hc => hblank _ c (List.mem_reverse.1 hc), ?_⟩
  have htrim : trim text ++ ((text.dropWhile isBlank).reverse.takeWhile isBlank).reverse =
      text.dropWhile isBlank := by
    rw [trim, ← List.reverse_append, ← hsplit, List.reverse_reverse]
  rw [htrim]
  exact hsplit text

/-- Blanks at the end do not count. -/
theorem trim_append_blanks {blanks : List Char} (h : ∀ c ∈ blanks, isBlank c = true)
    (text : List Char) : trim (text ++ blanks) = trim text := by
  have hdrop {blanks : List Char} (h : ∀ c ∈ blanks, isBlank c = true) (more : List Char) :
      (blanks ++ more).dropWhile isBlank = more.dropWhile isBlank := by
    rw [List.dropWhile_append, List.dropWhile_eq_nil_iff.2 h]
    rfl
  by_cases htext : ∀ c ∈ text, isBlank c = true
  · have hall : ∀ c ∈ text ++ blanks, isBlank c = true := List.forall_mem_append.2 ⟨htext, h⟩
    rw [trim, trim, List.dropWhile_eq_nil_iff.2 hall, List.dropWhile_eq_nil_iff.2 htext]
  · have hne : text.dropWhile isBlank ≠ [] := mt List.dropWhile_eq_nil_iff.1 htext
    rw [trim, trim, List.dropWhile_append, if_neg (by simpa using hne), List.reverse_append,
      hdrop fun c hc => h c (List.mem_reverse.1 hc)]

namespace Token

/-- The last token of a text is there whatever blanks follow. -/
theorem Spelled.append_blanks {token : Token} {text blanks : List Char}
    (h : token.Spelled text []) (hblanks : ∀ c ∈ blanks, isBlank c = true) :
    ∃ rest, (∀ c ∈ rest, isBlank c = true) ∧
      ∃ text', text ++ blanks = text' ++ rest ∧ token.Spelled text' rest := by
  have hhead (c : Char) (hc : c ∈ blanks.head?) : isBlank c = true :=
    hblanks c (List.mem_of_head? hc)
  have hended : Ended blanks := by
    intro c hc
    rw [← Bool.not_eq_true]
    intro hword
    have hblank := (plain_of_isWordRest hword).1
    rw [hhead c hc] at hblank
    cases hblank
  cases h with
  | string hbody => exact ⟨blanks, hblanks, _, rfl, .string hbody⟩
  | ident hword hfree _ => exact ⟨blanks, hblanks, _, rfl, .ident hword hfree hended⟩
  | keyword hmem _ => exact ⟨blanks, hblanks, _, rfl, .keyword hmem hended⟩
  | int hdigits _ =>
    refine ⟨blanks, hblanks, _, rfl, .int hdigits fun c hc => ?_⟩
    have hrest := hended c hc
    simp only [isWordRest, Bool.or_eq_false_iff] at hrest
    exact hrest.2
  | symbol hmem _ =>
    refine ⟨blanks, hblanks, _, rfl, .symbol hmem fun _ hc => ?_⟩
    exact absurd (hhead '=' hc) (by decide)
  | illegal hblank hword hquote hsymbol =>
    exact ⟨blanks, hblanks, _, rfl, .illegal hblank hword hquote hsymbol⟩
  | @unclosed body hbody =>
    -- the blanks belong to the string that is never closed
    refine ⟨[], fun _ hc => absurd hc List.not_mem_nil, '"' :: (body ++ blanks),
      (List.append_nil _).symm, .unclosed ?_⟩
    refine fun hmem => (List.mem_append.1 hmem).elim hbody fun hmem => ?_
    exact absurd (hblanks _ hmem) (by decide)

theorem ofText_eq_nil_of_blank {blanks : List Char} (h : ∀ c ∈ blanks, isBlank c = true) :
    ofText blanks = [] :=
  (Cut.nil h).ofText_join

/-- **Blanks at the end of a text are no tokens.** -/
theorem ofText_append_blanks (text : List Char) {blanks : List Char}
    (h : ∀ c ∈ blanks, isBlank c = true) : ofText (text ++ blanks) = ofText text := by
  obtain ⟨lexemes, last, hcut, rfl⟩ := exists_cut text
  rw [hcut.ofText_join]
  induction hcut with
  | nil hlast => exact ofText_eq_nil_of_blank (List.forall_mem_append.2 ⟨hlast, h⟩)
  | @cons l lexemes last hl hspelled hcut ih =>
    rw [Lexeme.join_cons, List.append_assoc, List.append_assoc, List.map_cons]
    by_cases hrest : Lexeme.join lexemes last = []
    · -- the last token, with nothing behind it
      rw [hrest] at hspelled ih ⊢
      obtain ⟨rest, hblank, text', htext, hspelled'⟩ := hspelled.append_blanks h
      rw [List.nil_append, htext, hspelled'.ofText hl, ofText_eq_nil_of_blank hblank, ← ih,
        List.nil_append, ofText_eq_nil_of_blank h]
    · rw [(hspelled.append hrest blanks).ofText hl, ih]

/-- The tokens of a text are those between the blanks at its ends. -/
theorem ofText_trim (text : List Char) : ofText (trim text) = ofText text := by
  obtain ⟨before, after, hbefore, hafter, htext⟩ := exists_blanks_trim text
  have h : ofText (before ++ (trim text ++ after)) = ofText (trim text) := by
    rw [ofText_blanks hbefore, ofText_append_blanks _ hafter]
  rwa [← htext, eq_comm] at h

end Token

/-- Texts with the same tokens are read alike. -/
theorem readText_congr {text text' : String}
    (h : Token.ofText text.toList = Token.ofText text'.toList) :
    (readText text).Agrees (readText text') := by
  obtain ⟨hstatements, herrors, hdropped⟩ := readText_agrees text
  obtain ⟨hstatements', herrors', hdropped'⟩ := readText_agrees text'
  rw [h] at hstatements herrors hdropped
  exact ⟨hstatements.trans hstatements'.symm, herrors.trans herrors'.symm,
    hdropped.trans hdropped'.symm⟩

/-- A line break is blank. -/
theorem isBlank_newline : ∀ c ∈ "\n".toList, isBlank c = true := by
  intro c hc
  obtain rfl : c = '\n' := by simpa using hc
  rfl

/-- **The line break at the end of a line makes no difference.** -/
theorem readText_append_newline (line : String) :
    (readText (line ++ "\n")).Agrees (readText line) := by
  refine readText_congr ?_
  rw [String.toList_append]
  exact Token.ofText_append_blanks _ isBlank_newline

/-- A line is read as what is left of it without the blanks at its ends. -/
theorem readText_of_trim_eq {line words : String} (h : trim line.toList = words.toList) :
    (readText line).Agrees (readText words) := by
  refine readText_congr ?_
  rw [← h, Token.ofText_trim]

end MonkeyLang
