import MonkeyLang.Proofs.Lexemes
import MonkeyLang.Proofs.Parser.Parallel
import MonkeyLang.Proofs.Parser.Sources
/-!
# Where leaves come from

A list of tokens that is read in parallel with itself shows which of its
tokens became leaves: each leaf is one of them, and no token is used twice or
out of its turn, however much was dropped on the way. As the tokens that are
cut off a text are spelled in a certain way, so are the leaves of what is
read from it.

The main statement is `read_text_is_well_formed`.
-/

namespace MonkeyLang

open scoped List
open TokenKind (keywords symbols)

/-- A leaf as a text spells it: a name is a word that is not reserved, a
string has no quote in it, and a number no sign. -/
def Leaf.Spellable : Leaf → Prop
  | .name word => Token.IsWord word.toList ∧ ∀ kind, (word, kind) ∉ keywords
  | .string text => '"' ∉ text.toList
  | .int value => 0 ≤ value.toInt ∧ value.toInt ≤ Int64.maxValue.toInt

/-! ## Leaves of tokens -/

namespace Token

variable {t : Token} {leaf : Leaf}

theorem leaf?_eq_none (h : t.kind ∉ [.ident, .string, .int]) : t.leaf? = none := by
  unfold leaf?
  split
  · next hkind => exact absurd (by simp [hkind]) h
  · next hkind => exact absurd (by simp [hkind]) h
  · next hkind => exact absurd (by simp [hkind]) h
  · rfl

/-- A numeral without a sign is no negative number. -/
theorem spellable_of_digits {digits : List Char} (h : Decimal.IsDigits digits)
    {n : Int64} (hn : Decimal.Spells digits n) : (Leaf.int n).Spellable := by
  refine ⟨?_, by simpa using n.toInt_le⟩
  cases hn with
  | unsigned _ hvalue | positive _ hvalue => omega
  | negative _ _ => exact absurd (h.2 '-' List.mem_cons_self) (by decide)

/-- **What a token is as a leaf is spelled like the token.** -/
theorem Spelled.spellable {text rest : List Char} (h : t.Spelled text rest)
    (hleaf : t.leaf? = some leaf) : leaf.Spellable := by
  cases h with
  | string hbody =>
    cases hleaf
    simpa [Leaf.Spellable] using hbody
  | ident hword hreserved _ =>
    cases hleaf
    exact ⟨by simpa using hword, hreserved⟩
  | keyword hmem _ =>
    have hkinds : ∀ entry ∈ keywords, entry.2 ∉ [.ident, .string, .int] := by decide
    rw [leaf?_eq_none (hkinds _ hmem)] at hleaf
    cases hleaf
  | int hdigits _ =>
    obtain ⟨n, hn, rfl⟩ := Option.map_eq_some_iff.1 hleaf
    exact spellable_of_digits hdigits (Decimal.read?_eq_some_iff.1 (by simpa using hn))
  | symbol hmem _ =>
    have hkinds : ∀ kind ∈ symbols, kind ∉ [.ident, .string, .int] := by decide
    rw [leaf?_eq_none (hkinds _ hmem)] at hleaf
    cases hleaf
  | illegal | unclosed => cases hleaf

theorem spellable_of_mem_ofText {text : List Char} (ht : t ∈ ofText text)
    (hleaf : t.leaf? = some leaf) : leaf.Spellable := by
  obtain ⟨lexemes, last, hcut, rfl⟩ := exists_cut text
  rw [hcut.ofText_join] at ht
  induction hcut with
  | nil => cases ht
  | cons _ hspelled _ ih =>
    obtain rfl | ht := List.mem_cons.1 ht
    · exact hspelled.spellable hleaf
    · exact ih ht

end Token

/-! ## Leaves of programs -/

/-- Each token is at the place of itself. -/
theorem Token.leafPairs_self (ts : List Token) :
    ((ts.zip ts).filterMap leafPair?).map Prod.fst = ts.filterMap leaf? := by
  induction ts with
  | nil => rfl
  | cons t ts ih =>
    rw [List.zip_cons_cons, Token.leafPairs_cons, List.map_append, ih, List.filterMap_cons]
    cases h : t.leaf? <;> simp [leafPair?, h]

/-- **No leaf is made up, moved or used twice**, and no block stands alone. -/
theorem leaves_read_sublist (ts : List Token) :
    Stmt.BlocklessAll (read ts).statements ∧
      Stmt.leavesAll (read ts).statements <+ ts.filterMap Token.leaf? := by
  have hself : List.Forall₂ Token.Matches ts ts := List.forall₂_same.2 fun t _ => .refl t
  obtain ⟨-, pairs, hstatements, hpairs⟩ := read_parallel hself
  have htrees := hstatements.together Stmt.lists
  refine ⟨htrees.blockless, ?_⟩
  rw [← Token.leafPairs_self, show Stmt.leavesAll _ = _ from htrees.left]
  exact hpairs.map Prod.fst

/-- **Whatever is read from a text is well formed**, dropped statements or
not. No statement in it, however deep, is a block of its own. Its names are
words that are not reserved, its strings have no quotes, and its numbers are
not negative. From left to right, the names, strings and numbers are among
the tokens of the text that stand for one, in their order, and each token
counts once. -/
theorem read_text_is_well_formed (text : String) :
    Stmt.BlocklessAll (readText text).program.statements ∧
      (∀ leaf ∈ Stmt.leavesAll (readText text).program.statements, leaf.Spellable) ∧
      Stmt.leavesAll (readText text).program.statements <+
        (Token.ofText text.toList).filterMap Token.leaf? := by
  rw [Reading.program, (readText_agrees text).statements]
  obtain ⟨hblockless, hsublist⟩ := leaves_read_sublist (Token.ofText text.toList)
  refine ⟨hblockless, fun leaf hleaf => ?_, hsublist⟩
  obtain ⟨t, ht, htleaf⟩ := List.mem_filterMap.1 (hsublist.subset hleaf)
  exact Token.spellable_of_mem_ofText ht htleaf

end MonkeyLang
