import MonkeyLang.Proofs.Canonical.Nesting
import MonkeyLang.Proofs.Parser.Depth
/-!
# Canonical text that is nested too deeply

An expression that needs more levels of nesting than there are is not
read, whatever follows it (`Readable.deepOrRead`). What decides is the first
part that needs too much: the parts in front of it are read, since the
grammar has them, and then its own failure is that of the whole.
-/

namespace MonkeyLang

open Grammar MonkeyLang.Parser

open Precedence (Follows)

/-! ## Lists of items -/

theorem Token.commaSeparated_cons (ts : List Token) (rest : List (List Token)) :
    ∃ tail, Token.commaSeparated (ts :: rest) = ts ++ tail := by
  cases rest with
  | nil => exact ⟨[], (List.append_nil ts).symm⟩
  | cons us rest => exact ⟨_, rfl⟩

/-- A loop over items fails at the first one that is too deep. It has to
fail with an item, and to go on after an item that was read. -/
theorem Parser.tooDeep_of_items {α : Type} {item : Parser (List Token) α}
    {loop : Parser (List Token) (List α)} {tokens : α → List Token} {deep : α → Prop}
    {items : List α}
    (hitem : ∀ a ∈ items, ∀ t rest, (item (.start (t :: (tokens a ++ rest)))).TooDeep →
      (loop (.start (t :: (tokens a ++ rest)))).TooDeep)
    (hnext : ∀ a ∈ items, ∀ t last rest,
      (item (.start (t :: (tokens a ++ .symbol .comma :: rest)))).Yields a
        (.start (last :: .symbol .comma :: rest)) →
      (loop (.start (.symbol .comma :: rest))).TooDeep →
        (loop (.start (t :: (tokens a ++ .symbol .comma :: rest)))).TooDeep)
    (hdeep : ∀ a ∈ items, deep a → ∀ t rest, (item (.start (t :: (tokens a ++ rest)))).TooDeep)
    (hread : ∀ a ∈ items, ¬ deep a → ∀ t rest,
      ∃ last, (item (.start (t :: (tokens a ++ .symbol .comma :: rest)))).Yields a
        (.start (last :: .symbol .comma :: rest)))
    (h : ∃ a ∈ items, deep a) (t : Token) (rest : List Token) :
    (loop (.start (t :: (Token.commaSeparated (items.map tokens) ++ rest)))).TooDeep := by
  induction items generalizing t with
  | nil => simp at h
  | cons a items ih =>
    -- the first item may be the one that fails; else it is read and the loop
    -- goes on
    by_cases ha : deep a
    · obtain ⟨tail, htail⟩ := Token.commaSeparated_cons (tokens a) (items.map tokens)
      rw [List.map_cons, htail, List.append_assoc]
      exact hitem a List.mem_cons_self t _ (hdeep a List.mem_cons_self ha t _)
    · obtain ⟨b, hb, hdeepb⟩ := h
      have hb : b ∈ items := (List.mem_cons.mp hb).resolve_left fun heq => ha (heq ▸ hdeepb)
      have hrest := ih (fun c hc => hitem c (List.mem_cons_of_mem _ hc))
        (fun c hc => hnext c (List.mem_cons_of_mem _ hc))
        (fun c hc => hdeep c (List.mem_cons_of_mem _ hc))
        (fun c hc => hread c (List.mem_cons_of_mem _ hc)) ⟨b, hb, hdeepb⟩ (.symbol .comma)
      obtain ⟨c, items, rfl⟩ := List.exists_cons_of_ne_nil (List.ne_nil_of_mem hb)
      obtain ⟨last, hy⟩ := hread a List.mem_cons_self ha t
        (Token.commaSeparated ((c :: items).map tokens) ++ rest)
      rw [List.map_cons, List.map_cons, Token.commaSeparated, List.append_assoc, List.cons_append]
      exact hnext a List.mem_cons_self t last _ hy hrest

namespace Expr

/-- The text of an expression begins with a token that opens one. -/
theorem Readable.opens {e : Expr} (h : e.Readable) :
    ∃ t ts, e.tokens = t :: ts ∧ t.kind ∈ opening :=
  (h.layered (Nat.le_succ e.need)).opens

/-- An expression that can be read back where `n` levels are enough for
it, and that fails as too deep where they are not. -/
structure DeepOrRead (n : Nat) (e : Expr) : Prop where
  readable : e.Readable
  tooDeep : n < e.need → ∀ {floor : Precedence}, floor.rank ≤ Precedence.unary.rank →
    ∀ rest, (expr n floor (.start (e.tokens ++ rest))).TooDeep

namespace DeepOrRead

variable {n : Nat}

theorem nextExpr_tooDeep {e : Expr} (h : e.DeepOrRead n) (hn : n < e.need) (t : Token)
    (rest : List Token) : (nextExpr (expr n) (.start (t :: (e.tokens ++ rest)))).TooDeep :=
  Parser.nextExpr_tooDeep (h.tooDeep hn (by decide) rest)

theorem nextExpr_yields {e : Expr} (h : e.DeepOrRead n) (hn : ¬ n < e.need) (t : Token)
    (k : TokenKind) (hlowest : Precedence.ofKind k = .lowest) (hne : k ≠ .elseWord)
    (rest : List Token) :
    ∃ last, (nextExpr (expr n) (.start (t :: (e.tokens ++ .symbol k :: rest)))).Yields e
      (.start (last :: .symbol k :: rest)) :=
  nextExpr_complete (expr_complete n) t (h.readable.derives (Nat.not_lt.mp hn) .equality)
    (.of_kind rfl hlowest hne)

end DeepOrRead

/-- Expressions between commas fail as too deep if one of them needs too
much. -/
theorem listed_tooDeep {n : Nat} {es : List Expr} (hes : ∀ e ∈ es, e.DeepOrRead n)
    (hn : n < Expr.needAll es) {close : TokenKind} (hclose : close ∉ opening) (t : Token)
    (rest : List Token) :
    (listed close (nextExpr (expr n))
      (.start (t :: (Token.commaSeparated (es.map tokens) ++ rest)))).TooDeep := by
  have hdeep : ∃ e ∈ es, n < e.need := lt_needAll_iff.mp hn
  refine Parser.listed_tooDeep ?_ ?_
  · obtain ⟨e, es, rfl⟩ : ∃ e es', es = e :: es' := by
      obtain ⟨e, he, -⟩ := hdeep
      exact List.exists_cons_of_ne_nil (List.ne_nil_of_mem he)
    obtain ⟨tail, htail⟩ := Token.commaSeparated_cons e.tokens (es.map tokens)
    obtain ⟨u, us, hu, hopening⟩ := (hes e List.mem_cons_self).readable.opens
    rw [List.map_cons, htail, hu, Cursor.upcoming_start]
    rintro rfl
    exact hclose hopening
  · refine tooDeep_of_items (fun e _ t rest h => separated_tooDeep h) ?_ ?_ ?_ hdeep t rest
    · intro e _ t last rest hy h
      refine separated_tooDeep_of_yields hy ?_ ?_
      · rw [Cursor.upcoming_start]
        rfl
      · rwa [Cursor.advance_start]
    · exact fun e he hlt t rest => (hes e he).nextExpr_tooDeep hlt t rest
    · exact fun e he hle t rest =>
        (hes e he).nextExpr_yields hle t .comma rfl (by decide) rest

/-- The same of the pairs of a hash. -/
theorem pairs_tooDeep {n : Nat} {pairs : List (Expr × Expr)}
    (hkeys : ∀ pair ∈ pairs, pair.1.DeepOrRead n) (hvalues : ∀ pair ∈ pairs, pair.2.DeepOrRead n)
    (hn : n < Expr.needPairs pairs) (t : Token) (rest : List Token) :
    (separatedUntil .rbrace (pair (expr n)) (.start (t :: (Token.commaSeparated
      (pairs.map fun pair => pair.1.tokens ++ .symbol .colon :: pair.2.tokens) ++
        rest)))).TooDeep := by
  have hdeep : ∃ pair ∈ pairs, n < pair.1.need ∨ n < pair.2.need := lt_needPairs_iff.mp hn
  have hopens : ∀ pair ∈ pairs, ∀ t rest, (Cursor.start (t :: ((pair.1.tokens ++
      .symbol .colon :: pair.2.tokens) ++ rest))).upcoming.kind ≠ .rbrace := by
    intro pair hp t rest
    obtain ⟨u, us, hu, hopening⟩ := (hkeys pair hp).readable.opens
    rw [hu, Cursor.upcoming_start]
    intro hk
    rw [show u.kind = .rbrace from hk] at hopening
    exact absurd hopening (by decide)
  refine tooDeep_of_items
    (fun pair hp t rest h => separatedUntil_tooDeep (hopens pair hp t rest) h) ?_ ?_ ?_ hdeep t rest
  · intro pair hp t last rest hy h
    refine separatedUntil_tooDeep_of_yields (hopens pair hp t _) hy (by decide) ?_ ?_
    · rw [Cursor.upcoming_start]
      rfl
    · rwa [Cursor.advance_start]
  · intro pair hp hlt t rest
    rw [List.append_assoc, List.cons_append]
    by_cases hkey : n < pair.1.need
    · exact tooDeep_bind ((hkeys pair hp).nextExpr_tooDeep hkey t _)
    · obtain ⟨last, hy⟩ := (hkeys pair hp).nextExpr_yields hkey t .colon rfl (by decide)
        (pair.2.tokens ++ rest)
      refine tooDeep_bind_of_yields hy (tooDeep_bind_of_yields (expect_complete rfl) ?_)
      exact tooDeep_bind ((hvalues pair hp).nextExpr_tooDeep (hlt.resolve_left hkey) _ rest)
  · intro pair hp hle t rest
    have hkey := (hkeys pair hp).readable.derives (Nat.not_lt.mp fun h => hle (.inl h)) .equality
    have hvalue :=
      (hvalues pair hp).readable.derives (Nat.not_lt.mp fun h => hle (.inr h)) .equality
    exact pair_complete (expr_complete n) t (.mk hkey rfl hvalue) (.of_kind rfl rfl (by decide))

/-- An expression in front of an operator, a call or an index: it fails if
it is too deep itself, and else what is behind it decides. -/
theorem DeepOrRead.tooDeep_of_applied {n : Nat} {left : Expr} (h : left.DeepOrRead (n + 1))
    {floor : Precedence} (hfloor : floor.rank ≤ Precedence.unary.rank) {t : Token}
    (hlt : floor < .ofKind t.kind) (hne : t.kind ≠ .elseWord) {ts : List Token}
    (happlied : left.need ≤ n + 1 → (applied (expr n) left (.start (t :: ts))).TooDeep) :
    (expr (n + 1) floor (.start (left.tokens ++ t :: ts))).TooDeep := by
  by_cases hdeep : n + 1 < left.need
  · exact h.tooDeep hdeep hfloor _
  · have hneed : left.need ≤ n + 1 := Nat.not_lt.mp hdeep
    have hfollows : Follows Layer.application.precedence (t :: ts) := .application hne
    obtain ⟨last, hreach⟩ := level_reaches (expr_complete n) (h.readable.layered hneed)
      floor.above_le_application hfloor hfollows
    exact (extended_tooDeep hlt (happlied hneed)).of_val_eq hreach

/-- What stands in parentheses. -/
theorem tooDeep_group {n : Nat} {floor : Precedence} {ts : List Token}
    (h : (expr n .lowest (.start ts)).TooDeep) :
    (expr (n + 1) floor (.start (.symbol .lparen :: ts))).TooDeep :=
  tooDeep_bind (operand_group_tooDeep rfl h)

/-- Without a level of nesting nothing is read. -/
theorem tooDeep_zero (floor : Precedence) (c : Cursor (List Token)) : (expr 0 floor c).TooDeep :=
  ⟨rfl, List.mem_singleton_self _⟩

/-- An expression without parts needs one level. -/
theorem DeepOrRead.leaf {e : Expr} (h : e.Readable) (hneed : e.need = 1) (n : Nat) :
    e.DeepOrRead n := by
  refine ⟨h, fun hn floor _ rest => ?_⟩
  obtain rfl : n = 0 := by omega
  exact tooDeep_zero _ _

/-- **An expression that needs more levels than there are is too deep**,
whatever stands behind it. -/
theorem Readable.deepOrRead {e : Expr} (h : e.Readable) (n : Nat) : e.DeepOrRead n := by
  induction h generalizing n with
  | ident hname => exact .leaf (.ident hname) rfl n
  | int hnonneg => exact .leaf (.int hnonneg) rfl n
  | bool b => exact .leaf (.bool b) rfl n
  | string htext => exact .leaf (.string htext) rfl n
  | @array elements helements ih =>
    refine ⟨.array helements, fun hn floor _ rest => ?_⟩
    cases n with
    | zero => exact tooDeep_zero _ _
    | succ n =>
      rw [need] at hn
      rw [tokens, tokensAll_eq_map, List.cons_append, List.append_assoc]
      exact tooDeep_bind (operand_array_tooDeep rfl
        (listed_tooDeep (fun e he => ih e he n) (by omega) (by decide) _ _))
  | @hash pairs hkeys hvalues ihKey ihValue =>
    refine ⟨.hash hkeys hvalues, fun hn floor _ rest => ?_⟩
    cases n with
    | zero => exact tooDeep_zero _ _
    | succ n =>
      rw [need] at hn
      rw [tokens, tokensPairs_eq_map, List.cons_append, List.append_assoc]
      exact tooDeep_bind (operand_hash_tooDeep rfl
        (pairs_tooDeep (fun pair hp => ihKey pair hp n) (fun pair hp => ihValue pair hp n)
          (by omega) _ _))
  | @unary op operand hoperand ih =>
    refine ⟨.unary op hoperand, fun hn floor _ rest => ?_⟩
    rw [need] at hn
    rw [tokens, List.cons_append, List.cons_append, List.append_assoc]
    -- one level goes into the parentheses and one into the operator
    rcases n with _ | _ | n
    · exact tooDeep_zero _ _
    · exact tooDeep_group (tooDeep_zero _ _)
    · refine tooDeep_group (tooDeep_bind (operand_unary_tooDeep rfl ?_))
      exact (ih n).tooDeep (by omega) (Nat.le_refl _) _
  | @binary op left right hleft hright ihLeft ihRight =>
    refine ⟨.binary op hleft hright, fun hn floor _ rest => ?_⟩
    rw [need] at hn
    rw [tokens, List.cons_append, List.append_assoc, List.cons_append, List.append_assoc]
    rcases n with _ | _ | n
    · exact tooDeep_zero _ _
    · exact tooDeep_group (tooDeep_zero _ _)
    · refine tooDeep_group ((ihLeft (n + 1)).tooDeep_of_applied (by decide) ?_ ?_ fun hneed => ?_)
      · cases op <;> decide
      · cases op <;> decide
      · refine applied_binary_tooDeep rfl ((ihRight n).tooDeep (by omega) ?_ _)
        cases op <;> decide
  | @call callee arguments hcallee harguments ihCallee ihArguments =>
    refine ⟨.call hcallee harguments, fun hn floor hfloor rest => ?_⟩
    rw [need] at hn
    rw [tokens, tokensAll_eq_map, List.append_assoc, List.cons_append, List.append_assoc]
    cases n with
    | zero => exact tooDeep_zero _ _
    | succ n =>
      -- the callee has no parentheses of its own, so all levels are left for
      -- it
      refine (ihCallee (n + 1)).tooDeep_of_applied hfloor ?_ (by decide) fun hneed => ?_
      · exact Nat.lt_succ_of_le hfloor
      · exact applied_call_tooDeep rfl
          (listed_tooDeep (fun e he => ihArguments e he n) (by omega) (by decide) _ _)
  | @index left position hleft hposition ihLeft ihPosition =>
    refine ⟨.index hleft hposition, fun hn floor _ rest => ?_⟩
    rw [need] at hn
    rw [tokens, List.cons_append, List.append_assoc, List.append_assoc, List.cons_append,
      List.append_assoc]
    rcases n with _ | _ | n
    · exact tooDeep_zero _ _
    · exact tooDeep_group (tooDeep_zero _ _)
    · refine tooDeep_group ((ihLeft (n + 1)).tooDeep_of_applied (by decide) (by decide)
        (by decide) fun hneed => ?_)
      exact applied_index_tooDeep rfl ((ihPosition n).tooDeep (by omega) (by decide) _)

end Expr

end MonkeyLang
