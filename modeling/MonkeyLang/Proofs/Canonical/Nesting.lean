import MonkeyLang.Proofs.Canonical.Tokens
import MonkeyLang.Proofs.Parser.Soundness
/-!
# How deeply canonical text is nested

The parentheses of canonical text count as nesting, too: `Expr.need` is how
deeply the text of an expression is nested, which is more than the depth
of the tree. As deep as that, the tokens of the text are the expression by
the grammar (`Readable.derives`); they are so on the layer of applications
and hence on every other one.
-/

namespace MonkeyLang

open Grammar

mutual

/-- How deeply the canonical text of an expression is nested. -/
def Expr.need : Expr → Nat
  | .array elements => 1 + Expr.needAll elements
  | .hash pairs => 1 + Expr.needPairs pairs
  | .unary _ operand => 2 + operand.need
  | .binary _ left right => max (1 + left.need) (2 + right.need)
  | .call callee arguments => max callee.need (1 + Expr.needAll arguments)
  | .index left position => max (1 + left.need) (2 + position.need)
  | _ => 1

/-- The largest need of some expressions. -/
def Expr.needAll : List Expr → Nat
  | [] => 0
  | e :: es => max e.need (Expr.needAll es)

/-- The largest need of some keys and values. -/
def Expr.needPairs : List (Expr × Expr) → Nat
  | [] => 0
  | (key, value) :: pairs => max (max key.need value.need) (Expr.needPairs pairs)

end

/-- How deeply the canonical text of a statement is nested. -/
def Stmt.need : Stmt → Nat
  | .bind _ value => value.need
  | .ret value => value.need
  | .expr value => value.need
  | .block _ => 0

namespace Expr

/-- The largest need is within a bound if each is. -/
theorem needAll_le_iff {es : List Expr} {n : Nat} :
    Expr.needAll es ≤ n ↔ ∀ e ∈ es, e.need ≤ n := by
  induction es with
  | nil => simp [Expr.needAll]
  | cons e es ih => rw [Expr.needAll, Nat.max_le, ih, List.forall_mem_cons]

theorem lt_needAll_iff {es : List Expr} {n : Nat} :
    n < Expr.needAll es ↔ ∃ e ∈ es, n < e.need := by
  rw [← Nat.not_le, needAll_le_iff]
  simp

theorem needPairs_le_iff {pairs : List (Expr × Expr)} {n : Nat} :
    Expr.needPairs pairs ≤ n ↔ ∀ pair ∈ pairs, pair.1.need ≤ n ∧ pair.2.need ≤ n := by
  induction pairs with
  | nil => simp [Expr.needPairs]
  | cons pair pairs ih => rw [Expr.needPairs, Nat.max_le, Nat.max_le, ih, List.forall_mem_cons]

theorem lt_needPairs_iff {pairs : List (Expr × Expr)} {n : Nat} :
    n < Expr.needPairs pairs ↔ ∃ pair ∈ pairs, n < pair.1.need ∨ n < pair.2.need := by
  rw [← Nat.not_le, needPairs_le_iff]
  simp only [Classical.not_forall, Decidable.not_and_iff_not_or_not, Nat.not_le, exists_prop]

/-- Every expression needs a level of its own. -/
theorem Readable.need_pos {e : Expr} (h : e.Readable) : 0 < e.need := by
  induction h with
  | call _ _ ih => exact Nat.lt_of_lt_of_le ih (Nat.le_max_left _ _)
  | _ => simp only [Expr.need]; omega

end Expr

/-! ## By the grammar -/

/-- Items with commas between them are what the grammar lists. -/
theorem Grammar.listed_commaSeparated {α : Type} {item : List Token → α → Prop}
    {tokens : α → List Token} {items : List α} (h : ∀ a ∈ items, item (tokens a) a) :
    Listed item (Token.commaSeparated (items.map tokens)) items := by
  have hseparated : ∀ (a : α) (as : List α), (∀ b ∈ a :: as, item (tokens b) b) →
      Separated item (Token.commaSeparated ((a :: as).map tokens)) (a :: as) := by
    intro a as
    induction as generalizing a with
    | nil => exact fun h => .last (h a List.mem_cons_self)
    | cons b as ih =>
      intro h
      exact .more (h a List.mem_cons_self) rfl (ih b fun c hc => h c (List.mem_cons_of_mem _ hc))
  cases items with
  | nil => exact .none
  | cons a as => exact .some (hseparated a as h)

namespace Expr

/-- What is an application one level deep is an expression of any layer
as deeply nested as it needs. -/
theorem Readable.expression {e : Expr} (h : e.Readable)
    (happlication : ∀ {n}, e.need ≤ n + 1 → Layered (Expression n) .application e.tokens e)
    {n : Nat} (hn : e.need ≤ n) (l : Layer) : Expression n l e.tokens e := by
  have hpos := h.need_pos
  obtain ⟨m, rfl⟩ : ∃ m, n = m + 1 := ⟨n - 1, by omega⟩
  exact (happlication hn).loosen (by cases l <;> decide)

/-- **The tokens of an expression are the expression by the grammar**, if
that goes as deep as the expression needs. -/
theorem Readable.layered {e : Expr} (h : e.Readable) {n : Nat} (hn : e.need ≤ n + 1) :
    Layered (Expression n) .application e.tokens e := by
  induction h generalizing n with
  | ident _ => exact .primary (.ident rfl)
  | int h => exact .primary (.int rfl (Decimal.spells_toString h))
  | bool b =>
    cases b with
    | false => exact .primary (.falseWord rfl)
    | true => exact .primary (.trueWord rfl)
  | string _ => exact .primary (.string rfl)
  | @array elements helements ih =>
    have hneed : ∀ e ∈ elements, e.need ≤ n := by
      rw [need] at hn
      exact needAll_le_iff.mp (by omega)
    have hlisted : Listed (Expression n .equality) _ elements :=
      listed_commaSeparated fun e he =>
        (helements e he).expression (ih e he) (hneed e he) .equality
    rw [tokens, tokensAll_eq_map]
    exact .primary (.array rfl hlisted rfl)
  | @hash pairs hkeys hvalues ihKey ihValue =>
    have hneed : ∀ pair ∈ pairs, pair.1.need ≤ n ∧ pair.2.need ≤ n := by
      rw [need] at hn
      exact needPairs_le_iff.mp (by omega)
    have hpair : ∀ pair ∈ pairs, Pair (Expression n)
        (pair.1.tokens ++ .symbol .colon :: pair.2.tokens) pair := fun pair hp =>
      .mk ((hkeys pair hp).expression (ihKey pair hp) (hneed pair hp).1 .equality) rfl
        ((hvalues pair hp).expression (ihValue pair hp) (hneed pair hp).2 .equality)
    have hlisted : Listed (Pair (Expression n)) _ pairs := listed_commaSeparated hpair
    rw [tokens, tokensPairs_eq_map]
    exact .primary (.hash rfl (.listed hlisted) rfl)
  | @unary op operand hoperand ih =>
    rw [need] at hn
    obtain ⟨m, rfl⟩ : ∃ m, n = m + 1 := ⟨n - 1, by omega⟩
    have hunary : Layered (Expression m) .unary (.symbol op.kind :: operand.tokens)
        (.unary op operand) :=
      .unary rfl (hoperand.expression ih (by omega) .unary)
    have hgroup : Expression (m + 1) .equality _ _ := hunary.loosen (by decide)
    exact .primary (.group rfl hgroup rfl)
  | @binary op left right hleft hright ihLeft ihRight =>
    rw [need] at hn
    obtain ⟨m, rfl⟩ : ∃ m, n = m + 1 := ⟨n - 1, by omega⟩
    have hbinary : Layered (Expression m) (layerOf op)
        (left.tokens ++ .symbol op.kind :: right.tokens) (.binary op left right) :=
      .binary ((ihLeft (by omega)).loosen (by cases op <;> decide)) rfl
        (hright.expression ihRight (by omega) _)
    have hgroup : Expression (m + 1) .equality _ _ := hbinary.loosen (by cases op <;> decide)
    have htokens : (Expr.binary op left right).tokens = .symbol .lparen ::
        ((left.tokens ++ .symbol op.kind :: right.tokens) ++ [.symbol .rparen]) := by
      rw [tokens, List.append_assoc, List.cons_append]
    rw [htokens]
    exact .primary (.group rfl hgroup rfl)
  | @call callee arguments hcallee harguments ihCallee ihArguments =>
    rw [need] at hn
    have hneed : ∀ e ∈ arguments, e.need ≤ n := needAll_le_iff.mp (by omega)
    have hlisted : Listed (Expression n .equality) _ arguments :=
      listed_commaSeparated fun e he =>
        (harguments e he).expression (ihArguments e he) (hneed e he) .equality
    rw [tokens, tokensAll_eq_map]
    exact .call (ihCallee (by omega)) rfl hlisted rfl
  | @index left position hleft hposition ihLeft ihPosition =>
    rw [need] at hn
    obtain ⟨m, rfl⟩ : ∃ m, n = m + 1 := ⟨n - 1, by omega⟩
    have hindex : Layered (Expression m) .application
        (left.tokens ++ .symbol .lbracket :: (position.tokens ++ [.symbol .rbracket]))
        (.index left position) :=
      .index (ihLeft (by omega)) rfl (hposition.expression ihPosition (by omega) .equality) rfl
    have hgroup : Expression (m + 1) .equality _ _ := hindex.loosen (by decide)
    exact .primary (.group rfl hgroup rfl)

/-- **And so it is an expression of any layer**, as deep as it needs. -/
theorem Readable.derives {e : Expr} (h : e.Readable) {n : Nat} (hn : e.need ≤ n) (l : Layer) :
    Expression n l e.tokens e :=
  h.expression (fun hn => h.layered hn) hn l

end Expr

end MonkeyLang
