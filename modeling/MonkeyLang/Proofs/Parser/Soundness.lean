import MonkeyLang.Proofs.Grammar
import MonkeyLang.Proofs.Parser.Yields
/-!
# What is read is in the grammar

Every parser that yields a node has read tokens of which the grammar says
that they are the node. The parsers come in the same groups as the rules,
each for any parser `inner` of the expressions inside, so each lemma here
is about one parser and assumes of `inner` that it follows a grammar
(`ExprParser.Sound`). The loop over operators keeps the layer of the
expression built so far (`extended_sound`): what follows never binds more
tightly than that layer, or the operand before would have taken it.
-/

namespace MonkeyLang

open Grammar

namespace Grammar.Layer

/-- How tightly the operators of a layer bind. -/
def precedence : Layer → Precedence
  | .equality => .equality
  | .order => .order
  | .sum => .sum
  | .product => .product
  | .unary => .unary
  | .application => .index

theorem rank_tighter_le {l m : Layer} (h : m.precedence.rank ≤ l.precedence.rank) (hne : m ≠ l) :
    m.precedence.rank < m.tighter.precedence.rank ∧
      m.tighter.precedence.rank ≤ l.precedence.rank := by
  revert h hne
  cases l <;> cases m <;> decide

/-- Only an application can stand in front of an opening parenthesis
without taking it in. -/
theorem application_le_of_not_lt_call {l : Layer}
    (h : ¬ l.precedence < .ofKind .lparen) :
    Layer.application.precedence.rank ≤ l.precedence.rank := by
  revert h
  cases l <;> decide

end Grammar.Layer

namespace Precedence

/-- The layer of the expressions that are read behind something that binds
this tightly. -/
def above : Precedence → Layer
  | .lowest => .equality
  | .equality => .order
  | .order => .sum
  | .sum => .product
  | _ => .unary

/-- Nothing that follows binds more tightly. -/
def Stops (floor : Precedence) (rest : List Token) : Prop :=
  ¬ floor < .ofKind (rest.headD .endOfInput).kind

/-- What goes on with an expression is what binds at all. -/
theorem not_lowest_lt_ofKind_iff {k : TokenKind} : ¬ lowest < ofKind k ↔ k ∉ continuing := by
  cases k <;> decide

theorem stops_lowest_iff {rest : List Token} : lowest.Stops rest ↔ Apart rest := by
  cases rest with
  | nil => simp [Stops, Apart, not_lowest_lt_ofKind_iff, Token.endOfInput, continuing]
  | cons t rest => simp [Stops, Apart, not_lowest_lt_ofKind_iff]

theorem ofKind_kind (op : BinaryOp) : ofKind op.kind = (layerOf op).precedence := by
  cases op <;> rfl

theorem above_ofKind_kind (op : BinaryOp) : (ofKind op.kind).above = (layerOf op).tighter := by
  cases op <;> rfl

/-- An operator that binds more tightly is of the layer above or of one
further in. -/
theorem above_le_of_lt {floor : Precedence} {op : BinaryOp} (h : floor < .ofKind op.kind) :
    floor.above.precedence.rank ≤ (layerOf op).precedence.rank := by
  revert h
  cases floor <;> cases op <;> decide

theorem rank_le_index (p : Precedence) : p.rank ≤ index.rank := by cases p <;> decide

theorem above_le_unary (floor : Precedence) :
    floor.above.precedence.rank ≤ Layer.unary.precedence.rank := by
  cases floor <;> decide

theorem above_le_application (floor : Precedence) :
    floor.above.precedence.rank ≤ Layer.application.precedence.rank := rank_le_index _

/-- What binds at all opens a call or an index, or is an operator. -/
theorem not_lt_ofKind_of_none {floor : Precedence} {k : TokenKind} (hcall : k ≠ .lparen)
    (hindex : k ≠ .lbracket) (hop : BinaryOp.ofKind? k = none) : ¬ floor < .ofKind k := by
  have hk : ofKind k = .lowest := by
    cases k <;> simp_all [ofKind, BinaryOp.ofKind?]
  rw [hk]
  exact Nat.not_lt_zero _

end Precedence

/-- What is of a layer is of every looser layer. -/
theorem Grammar.Layered.loosen {inner : Layer → List Token → Expr → Prop} {l m : Layer}
    {ts : List Token} {e : Expr} (h : Layered inner l ts e)
    (hle : m.precedence.rank ≤ l.precedence.rank) : Layered inner m ts e := by
  by_cases heq : m = l
  · rwa [heq]
  · have hlt := Layer.rank_tighter_le hle heq
    exact .tighter (h.loosen hlt.2)
termination_by l.precedence.rank - m.precedence.rank

/-- No expression is made of no tokens. -/
theorem Grammar.Layered.ne_nil {inner : Layer → List Token → Expr → Prop} {l : Layer}
    {ts : List Token} {e : Expr} (h : Layered inner l ts e) : ts ≠ [] := by
  induction h with
  | primary h => cases h <;> simp
  | tighter _ ih => exact ih
  | _ => simp

namespace Parser

variable {α : Type}

/-- What a parser reads behind the current token follows a rule. -/
def SoundNext (p : Parser (List Token) α) (G : List Token → α → Prop) : Prop :=
  ∀ ⦃t ts a d⦄, (p (.start (t :: ts))).Yields a d →
    ∃ us last rest, ts = us ++ rest ∧ d = .start (last :: rest) ∧ G us a

/-- What a parser of expressions reads follows a grammar, and nothing that
could still belong to it follows. -/
def ExprParser.Sound (inner : ExprParser (List Token)) (G : Layer → List Token → Expr → Prop) :
    Prop :=
  ∀ ⦃floor ts e d⦄, (inner floor (.start ts)).Yields e d →
    ∃ us last rest, ts = us ++ rest ∧ us ≠ [] ∧ d = .start (last :: rest) ∧
      G floor.above us e ∧ floor.Stops rest

/-- The token that is expected is there. -/
theorem expect_sound {k : TokenKind} {t : Token} {ts : List Token} {u : Unit}
    {d : Cursor (List Token)} (hk : k ≠ .eof) (h : (expect k (.start (t :: ts))).Yields u d) :
    ∃ v rest, ts = v :: rest ∧ v.kind = k ∧ d = .start (v :: rest) := by
  obtain ⟨hkind, rfl⟩ := yields_expect_iff.1 h
  cases ts with
  | nil => exact absurd hkind.symm hk
  | cons v rest => exact ⟨v, rest, rfl, hkind, by simp⟩

section Items

variable {item : Parser (List Token) α} {G : List Token → α → Prop}

theorem separated_sound (h : SoundNext item G) {t : Token} {ts : List Token} {as : List α}
    {d : Cursor (List Token)} (hy : (separated item (.start (t :: ts))).Yields as d) :
    ∃ us last rest, ts = us ++ rest ∧ d = .start (last :: rest) ∧ Separated G us as := by
  -- on the number of tokens left: each round of the loop passes over a comma
  induction hn : ts.length using Nat.strongRecOn generalizing t ts as with | _ n ih
  obtain ⟨a, e, hitem, hnext⟩ := yields_separated_iff.1 hy
  obtain ⟨us, last, rest, rfl, rfl, ha⟩ := h hitem
  split at hnext
  · next hcomma =>
    cases rest with
    | nil => cases hcomma
    | cons comma rest =>
      obtain ⟨as, hrest, rfl⟩ := hnext
      obtain ⟨vs, last', rest', rfl, rfl, has⟩ := ih rest.length (by simp at hn; omega) hrest rfl
      exact ⟨us ++ comma :: vs, last', rest', by simp, rfl, .more ha hcomma has⟩
  · obtain ⟨rfl, rfl⟩ := hnext
    exact ⟨us, last, rest, rfl, rfl, .last ha⟩

/-- The list, and the token that closes it. -/
theorem listed_sound (h : SoundNext item G) {close : TokenKind} (hclose : close ≠ .eof) :
    SoundNext (listed close item)
      fun us as => ∃ vs right, us = vs ++ [right] ∧ Listed G vs as ∧ right.kind = close := by
  intro t ts as d hy
  have hy := yields_listed_iff.1 hy
  split at hy
  · next hkind =>
    obtain ⟨rfl, rfl⟩ := hy
    cases ts with
    | nil => exact absurd hkind.symm hclose
    | cons v rest => exact ⟨[v], v, rest, rfl, by simp, [], v, rfl, .none, hkind⟩
  · obtain ⟨e, hitems, hkind, rfl⟩ := hy
    obtain ⟨us, last, rest, rfl, rfl, has⟩ := separated_sound h hitems
    cases rest with
    | nil => exact absurd hkind.symm hclose
    | cons v rest =>
      exact ⟨us ++ [v], v, rest, by simp, by simp, us, v, rfl, .some has, hkind⟩

end Items

theorem yields_integer_iff {literal : String} {c d : Cursor (List Token)} {e : Expr} :
    (integer literal c).Yields e d ↔ ∃ n, Decimal.Spells literal.toList n ∧ .int n = e ∧ c = d := by
  simp only [← Decimal.read?_eq_some_iff, integer]
  cases Decimal.read? literal.toList with
  | none => simp [not_yields_fail]
  | some n => simp [yields_pure_iff]

/-- A name is an identifier. -/
theorem name_sound : SoundNext name Name := by
  intro t ts a d hy
  simp only [name, yields_bind_iff, yields_current_iff, yields_pure_iff] at hy
  obtain ⟨u, e, hexpect, v, e', ⟨rfl, rfl⟩, rfl, rfl⟩ := hy
  obtain ⟨v, rest, rfl, hkind, rfl⟩ := expect_sound (by decide) hexpect
  exact ⟨[v], v, rest, rfl, rfl, .mk hkind⟩

section Phrases

variable {inner : ExprParser (List Token)} {G : Layer → List Token → Expr → Prop}

theorem nextExpr_sound (h : ExprParser.Sound inner G) {t : Token} {ts : List Token} {e : Expr}
    {d : Cursor (List Token)} (hy : (nextExpr inner (.start (t :: ts))).Yields e d) :
    ∃ us last rest, ts = us ++ rest ∧ us ≠ [] ∧ d = .start (last :: rest) ∧ G .equality us e ∧
      Precedence.lowest.Stops rest := by
  simp only [nextExpr, yields_bind_iff, yields_advance_iff, Cursor.advance_start,
    List.tail_cons] at hy
  obtain ⟨u, e, rfl, hy⟩ := hy
  exact h hy

theorem nextExpr_soundNext (h : ExprParser.Sound inner G) :
    SoundNext (nextExpr inner) (G .equality) := by
  intro t ts e d hy
  obtain ⟨us, last, rest, hts, -, hd, he, -⟩ := nextExpr_sound h hy
  exact ⟨us, last, rest, hts, hd, he⟩

theorem pair_sound (h : ExprParser.Sound inner G) : SoundNext (pair inner) (Pair G) := by
  intro t ts a d hy
  simp only [pair, yields_bind_iff, yields_pure_iff] at hy
  obtain ⟨key, c, hyKey, u, c', hyColon, value, c'', hyValue, rfl, rfl⟩ := hy
  obtain ⟨us, last, rest, rfl, rfl, hkey⟩ := nextExpr_soundNext h hyKey
  obtain ⟨colon, rest', rfl, hcolon, rfl⟩ := expect_sound (by decide) hyColon
  obtain ⟨vs, last', rest, rfl, rfl, hvalue⟩ := nextExpr_soundNext h hyValue
  exact ⟨us ++ colon :: vs, last', rest, by simp, rfl, .mk hkey hcolon hvalue⟩

/-- The pairs up to a closing token, which is still ahead. -/
theorem separatedUntil_sound (h : ExprParser.Sound inner G) {close : TokenKind} {t : Token}
    {ts : List Token} {pairs : List (Expr × Expr)} {d : Cursor (List Token)}
    (hy : (separatedUntil close (pair inner) (.start (t :: ts))).Yields pairs d) :
    ∃ us last rest, ts = us ++ rest ∧ d = .start (last :: rest) ∧ Pairs G us pairs := by
  induction hn : ts.length using Nat.strongRecOn generalizing t ts pairs with | _ n ih
  have hy := yields_separatedUntil_iff.1 hy
  split at hy
  · obtain ⟨rfl, rfl⟩ := hy
    exact ⟨[], t, ts, rfl, rfl, .listed .none⟩
  obtain ⟨a, e, hitem, hnext⟩ := hy
  obtain ⟨us, last, rest, rfl, rfl, ha⟩ := pair_sound h hitem
  split at hnext
  · obtain ⟨rfl, rfl⟩ := hnext
    exact ⟨us, last, rest, rfl, rfl, .listed (.some (.last ha))⟩
  obtain ⟨hcomma, as, hrest, rfl⟩ := hnext
  cases rest with
  | nil => cases hcomma
  | cons comma rest =>
    obtain ⟨vs, last', rest', rfl, rfl, has⟩ := ih rest.length (by simp at hn; omega) hrest rfl
    refine ⟨us ++ comma :: vs, last', rest', by simp, rfl, ?_⟩
    -- the comma stands between two pairs, or behind the last one
    cases has with
    | listed has =>
      cases has with
      | none => exact .trailing (.last ha) hcomma
      | some has => exact .listed (.some (.more ha hcomma has))
    | trailing has hlast =>
      have hmore := Pairs.trailing (.more ha hcomma has) hlast
      simpa using hmore

theorem parameters_sound : SoundNext parameters fun us names =>
    ∃ left vs right, us = left :: (vs ++ [right]) ∧ left.kind = .lparen ∧ Listed Name vs names ∧
      right.kind = .rparen := by
  intro t ts names d hy
  simp only [parameters, yields_bind_iff] at hy
  obtain ⟨u, c, hyLeft, hyNames⟩ := hy
  obtain ⟨left, rest, rfl, hleft, rfl⟩ := expect_sound (by decide) hyLeft
  obtain ⟨us, last, rest', rfl, rfl, vs, right, rfl, hnames, hright⟩ :=
    listed_sound name_sound (by decide) hyNames
  exact ⟨left :: (vs ++ [right]), last, rest', rfl, rfl, left, vs, right, rfl, hleft, hnames,
    hright⟩

/-! ## Statements and blocks -/

/-- A statement stands in front of some tokens: with its semicolon, or
without one where nothing goes on with it. -/
def Leads (G : Layer → List Token → Expr → Prop) (ts : List Token) (s : Stmt)
    (rest : List Token) : Prop :=
  ∃ us, us ≠ [] ∧ Statement G us s ∧
    ((∃ semicolon : Token, semicolon.kind = .semicolon ∧ ts = us ++ semicolon :: rest) ∨
      Apart rest ∧ ts = us ++ rest)

theorem Leads.length_lt {ts rest : List Token} {s : Stmt} (h : Leads G ts s rest) :
    rest.length < ts.length := by
  obtain ⟨us, hne, -, ⟨semicolon, -, rfl⟩ | ⟨-, rfl⟩⟩ := h
  · simp
    omega
  · have := List.length_pos_iff.2 hne
    simp
    omega

theorem Leads.mem {ts rest : List Token} {s : Stmt} (h : Leads G ts s rest) {t : Token}
    (ht : t ∈ rest) : t ∈ ts := by
  obtain ⟨us, -, -, ⟨semicolon, -, rfl⟩ | ⟨-, rfl⟩⟩ := h <;> simp [ht]

/-- A statement in front of a body makes a body. -/
theorem Leads.body {ts vs rest : List Token} {s : Stmt} {ss : List Stmt}
    (h : Leads G ts s (vs ++ rest)) (hss : Body G vs ss) :
    ∃ us, ts = us ++ rest ∧ Body G us (s :: ss) := by
  obtain ⟨us, -, hs, ⟨semicolon, hkind, rfl⟩ | ⟨hapart, rfl⟩⟩ := h
  · exact ⟨us ++ semicolon :: vs, by simp, .ended hs hkind hss⟩
  · refine ⟨us ++ vs, by simp, .unended hs ?_ hss⟩
    cases vs with
    | nil => simp [Apart]
    | cons v vs => simpa [Apart] using hapart

/-- The semicolon that may follow is part of the statement. -/
theorem leads_of_skip {us rest : List Token} {s : Stmt} {last : Token} {u : Unit}
    {d : Cursor (List Token)} (hne : us ≠ []) (hs : Statement G us s)
    (hstop : Precedence.lowest.Stops rest)
    (hy : (skip .semicolon (.start (last :: rest))).Yields u d) :
    ∃ last' rest', d = .start (last' :: rest') ∧ Leads G (us ++ rest) s rest' := by
  have hy := yields_skip_iff.1 hy
  split at hy
  · next hkind =>
    cases rest with
    | nil => cases hkind
    | cons semicolon rest =>
      exact ⟨semicolon, rest, by rw [← hy]; simp, us, hne, hs, .inl ⟨semicolon, hkind, rfl⟩⟩
  · exact ⟨last, rest, hy.symm, us, hne, hs, .inr ⟨Precedence.stops_lowest_iff.1 hstop, rfl⟩⟩

theorem statement_sound (h : ExprParser.Sound inner G) {ts : List Token} {s : Stmt}
    {d : Cursor (List Token)} (hy : (statement inner (.start ts)).Yields s d) :
    ∃ last rest, d = .start (last :: rest) ∧ Leads G ts s rest := by
  simp only [statement, yields_bind_iff, yields_current_iff] at hy
  obtain ⟨t, c, ⟨rfl, rfl⟩, hy⟩ := hy
  obtain ⟨p, hp, hy⟩ := exists_eq_of_yields hy
  split at hp <;> subst hp
  · next hword =>
    simp only [yields_bind_iff, yields_pure_iff] at hy
    obtain ⟨x, c, hyName, u, c', hyAssign, e, c'', hyValue, u', d', hySkip, rfl, rfl⟩ := hy
    cases ts with
    | nil => cases hword
    | cons word ts =>
      obtain ⟨us, last, rest, rfl, rfl, hname⟩ := name_sound hyName
      cases hname with
      | mk hident =>
        obtain ⟨assign, rest', rfl, hassign, rfl⟩ := expect_sound (by decide) hyAssign
        obtain ⟨vs, last', rest, rfl, -, rfl, hvalue, hstop⟩ := nextExpr_sound h hyValue
        have hs := Statement.bind hword hident hassign hvalue
        simpa using leads_of_skip (by simp) hs hstop hySkip
  · next hword =>
    simp only [yields_bind_iff, yields_pure_iff] at hy
    obtain ⟨e, c, hyValue, u, d', hySkip, rfl, rfl⟩ := hy
    cases ts with
    | nil => cases hword
    | cons word ts =>
      obtain ⟨us, last, rest, rfl, -, rfl, hvalue, hstop⟩ := nextExpr_sound h hyValue
      simpa using leads_of_skip (by simp) (Statement.ret hword hvalue) hstop hySkip
  · simp only [yields_bind_iff, yields_pure_iff] at hy
    obtain ⟨e, c, hyValue, u, d', hySkip, rfl, rfl⟩ := hy
    obtain ⟨us, last, rest, rfl, hne, rfl, hvalue, hstop⟩ := h hyValue
    exact leads_of_skip hne (.expr hvalue) hstop hySkip

theorem blockBody_sound (h : ExprParser.Sound inner G) {ts : List Token} {ss : List Stmt}
    {d : Cursor (List Token)} (hy : (blockBody (statement inner) (.start ts)).Yields ss d) :
    ∃ us right rest, ts = us ++ right :: rest ∧ right.kind = .rbrace ∧
      d = .start (right :: rest) ∧ Body G us ss := by
  induction hn : ts.length using Nat.strongRecOn generalizing ts ss with | _ n ih
  have hy := yields_blockBody_iff.1 hy
  split at hy
  · next hright =>
    obtain ⟨rfl, rfl⟩ := hy
    cases ts with
    | nil => cases hright
    | cons right rest => exact ⟨[], right, rest, rfl, hright, rfl, .nil⟩
  · obtain ⟨-, s, e, hyHead, ss, hyTail, rfl⟩ := hy
    obtain ⟨last, rest, rfl, hleads⟩ := statement_sound h hyHead
    rw [Cursor.advance_start] at hyTail
    obtain ⟨us, right, rest', rfl, hright, rfl, hss⟩ :=
      ih rest.length (hn ▸ hleads.length_lt) hyTail rfl
    obtain ⟨vs, rfl, hbody⟩ := hleads.body hss
    exact ⟨vs, right, rest', rfl, hright, rfl, hbody⟩

theorem block_sound (h : ExprParser.Sound inner G) : SoundNext (block inner) (Block G) := by
  intro t ts ss d hy
  obtain ⟨u, c, hyLeft, hy⟩ := yields_bind_iff.1 hy
  obtain ⟨u', c', hyAdvance, hyBody⟩ := yields_bind_iff.1 hy
  obtain rfl := yields_advance_iff.1 hyAdvance
  obtain ⟨left, rest, rfl, hleft, rfl⟩ := expect_sound (by decide) hyLeft
  rw [Cursor.advance_start] at hyBody
  obtain ⟨us, right, rest', heq, hright, rfl, hss⟩ := blockBody_sound h hyBody
  obtain rfl : rest = us ++ right :: rest' := heq
  exact ⟨left :: (us ++ [right]), right, rest', by simp, rfl, .mk hleft hss hright⟩

theorem alternative_sound (h : ExprParser.Sound inner G) :
    SoundNext (alternative inner) (Alternative G) := by
  intro t ts ss? d hy
  simp only [alternative, yields_bind_iff, yields_upcoming_iff] at hy
  obtain ⟨k, c, ⟨rfl, rfl⟩, hy⟩ := hy
  rw [yields_ite_iff] at hy
  split at hy
  · next hword =>
    simp only [yields_bind_iff, yields_advance_iff, yields_pure_iff] at hy
    obtain ⟨u, c, rfl, ss, c', hyBlock, rfl, rfl⟩ := hy
    cases ts with
    | nil => cases hword
    | cons word ts =>
      rw [Cursor.advance_start] at hyBlock
      obtain ⟨us, last, rest, rfl, rfl, hss⟩ := block_sound h hyBlock
      exact ⟨word :: us, last, rest, rfl, rfl, .some hword hss⟩
  · obtain ⟨rfl, rfl⟩ := yields_pure_iff.1 hy
    exact ⟨[], t, ts, rfl, rfl, .none⟩

/-! ## Expressions -/

/-- An expression was read up to where `rest` follows: it is of a layer
that nothing behind it binds more tightly than. -/
structure Reached (G : Layer → List Token → Expr → Prop) (l : Layer) (us : List Token) (e : Expr)
    (rest : List Token) : Prop where
  layered : Layered G l us e
  stops : l.precedence.Stops rest

theorem Reached.application {us rest : List Token} {e : Expr} (h : Layered G .application us e) :
    Reached G .application us e rest :=
  ⟨h, Nat.not_lt.2 (Precedence.rank_le_index _)⟩

/-- An operand of one token ends with it. -/
theorem leaf_sound {t : Token} {ts : List Token} {a e : Expr} {d : Cursor (List Token)}
    (ha : Primary G [t] a)
    (hy : ((pure a : Parser (List Token) Expr) (.start (t :: ts))).Yields e d) :
    ∃ us last rest, t :: ts = us ++ rest ∧ d = .start (last :: rest) ∧
      (Primary G us e ∨ Reached G .unary us e rest) := by
  obtain ⟨rfl, rfl⟩ := yields_pure_iff.1 hy
  exact ⟨[t], t, ts, rfl, rfl, .inl ha⟩

/-- An operand is a primary expression, or a unary operator with what it
applies to. -/
theorem operand_sound (h : ExprParser.Sound inner G) {ts : List Token} {e : Expr}
    {d : Cursor (List Token)} (hy : (operand inner (.start ts)).Yields e d) :
    ∃ us last rest, ts = us ++ rest ∧ d = .start (last :: rest) ∧
      (Primary G us e ∨ Reached G .unary us e rest) := by
  simp only [operand, yields_bind_iff, yields_current_iff] at hy
  obtain ⟨t, c, ⟨rfl, rfl⟩, hy⟩ := hy
  cases ts with
  | nil => simp [Token.endOfInput, UnaryOp.ofKind?, not_yields_fail] at hy
  | cons t ts =>
    obtain ⟨p, hp, hy⟩ := exists_eq_of_yields hy
    simp only [Cursor.current_start, List.headD_cons] at hp
    split at hp <;> subst hp
    · next hk => exact leaf_sound (.ident hk) hy
    · next hk =>
      obtain ⟨n, hn, rfl, rfl⟩ := yields_integer_iff.1 hy
      exact leaf_sound (.int hk hn) (yields_pure_iff.2 ⟨rfl, rfl⟩)
    · next hk => exact leaf_sound (.string hk) hy
    · next hk => exact leaf_sound (.trueWord hk) hy
    · next hk => exact leaf_sound (.falseWord hk) hy
    · next hk =>
      simp only [yields_bind_iff, yields_pure_iff] at hy
      obtain ⟨e, c, hyInner, u, c', hyRight, rfl, rfl⟩ := hy
      obtain ⟨us, last, rest, rfl, rfl, he⟩ := nextExpr_soundNext h hyInner
      obtain ⟨right, rest', rfl, hright, rfl⟩ := expect_sound (by decide) hyRight
      exact ⟨_, right, rest', by simp, rfl, .inl (.group hk he hright)⟩
    · next hk =>
      simp only [yields_bind_iff, yields_pure_iff] at hy
      obtain ⟨es, c, hyItems, rfl, rfl⟩ := hy
      obtain ⟨us, last, rest, rfl, rfl, vs, right, rfl, hes, hright⟩ :=
        listed_sound (nextExpr_soundNext h) (by decide) hyItems
      exact ⟨_, last, rest, rfl, rfl, .inl (.array hk hes hright)⟩
    · next hk =>
      simp only [yields_bind_iff, yields_loop_bind_iff, yields_pure_iff] at hy
      obtain ⟨pairs, c, hyPairs, u, c', hyRight, rfl, rfl⟩ := hy
      obtain ⟨us, last, rest, rfl, rfl, hpairs⟩ := separatedUntil_sound h hyPairs
      obtain ⟨right, rest', rfl, hright, rfl⟩ := expect_sound (by decide) hyRight
      exact ⟨_, right, rest', by simp, rfl, .inl (.hash hk hpairs hright)⟩
    · next hk =>
      simp only [yields_bind_iff, yields_pure_iff] at hy
      obtain ⟨u, c, hyLeft, e, c', hyCondition, u', c'', hyRight, body, d', hyBody, other, d'',
        hyOther, rfl, rfl⟩ := hy
      obtain ⟨left, rest, rfl, hleft, rfl⟩ := expect_sound (by decide) hyLeft
      obtain ⟨us, last, rest', rfl, rfl, he⟩ := nextExpr_soundNext h hyCondition
      obtain ⟨right, rest, rfl, hright, rfl⟩ := expect_sound (by decide) hyRight
      obtain ⟨vs, last', rest', rfl, rfl, hbody⟩ := block_sound h hyBody
      obtain ⟨ws, last, rest, rfl, rfl, hother⟩ := alternative_sound h hyOther
      exact ⟨_, last, rest, by simp, rfl, .inl (.cond hk hleft he hright hbody hother)⟩
    · next hk =>
      simp only [yields_bind_iff, yields_pure_iff] at hy
      obtain ⟨names, c, hyNames, body, c', hyBody, rfl, rfl⟩ := hy
      obtain ⟨us, last, rest, rfl, rfl, left, vs, right, rfl, hleft, hnames, hright⟩ :=
        parameters_sound hyNames
      obtain ⟨ws, last', rest', rfl, rfl, hbody⟩ := block_sound h hyBody
      exact ⟨_, last', rest', by simp, rfl, .inl (.function hk hleft hnames hright hbody)⟩
    · exact absurd hy not_yields_fail
    · obtain ⟨p, hp, hy⟩ := exists_eq_of_yields hy
      split at hp <;> subst hp
      · next op hop =>
        simp only [yields_bind_iff, yields_advance_iff, yields_pure_iff,
          Cursor.advance_start, List.tail_cons] at hy
        obtain ⟨u, c, rfl, e, c', hyInner, rfl, rfl⟩ := hy
        obtain ⟨us, last, rest, rfl, -, rfl, he, hstop⟩ := h hyInner
        have hkind := UnaryOp.ofKind?_eq_some_iff.1 hop
        exact ⟨t :: us, last, rest, rfl, rfl, .inr ⟨.unary hkind he, hstop⟩⟩
      · exact absurd hy not_yields_fail

/-- One round of the loop: what stands behind an operand is a call, an
index, or an operator with its right side, and the layer that was reached
is one that may stand to the left of it. -/
theorem applied_sound (h : ExprParser.Sound inner G) {floor : Precedence} {l : Layer} {t : Token}
    {us ts : List Token} {left e : Expr} {d : Cursor (List Token)}
    (hleft : Reached G l us left (t :: ts)) (hfloor : floor < .ofKind t.kind)
    (hy : (applied inner left (.start (t :: ts))).Yields e d) :
    ∃ vs last rest m, ts = vs ++ rest ∧ d = .start (last :: rest) ∧
      Reached G m (us ++ t :: vs) e rest ∧
      floor.above.precedence.rank ≤ m.precedence.rank := by
  simp only [applied, yields_bind_iff, yields_current_iff] at hy
  obtain ⟨t', c, ⟨rfl, rfl⟩, hy⟩ := hy
  obtain ⟨p, hp, hy⟩ := exists_eq_of_yields hy
  simp only [Cursor.current_start, List.headD_cons] at hp
  have hstops := hleft.stops
  simp only [Precedence.Stops, List.headD_cons] at hstops
  split at hp <;> subst hp
  · next hk =>
    obtain ⟨arguments, c, hyItems, hpure⟩ := yields_bind_iff.1 hy
    obtain ⟨rfl, rfl⟩ := yields_pure_iff.1 hpure
    obtain ⟨vs, last, rest, rfl, rfl, ws, right, rfl, hitems, hright⟩ :=
      listed_sound (nextExpr_soundNext h) (by decide) hyItems
    -- a parenthesis binds more tightly than any operator, so only an
    -- application leaves it over
    have hcallee : Layered G .application us left :=
      hleft.layered.loosen (Layer.application_le_of_not_lt_call (hk ▸ hstops))
    exact ⟨_, last, rest, .application, rfl, rfl,
      .application (.call hcallee hk hitems hright), floor.above_le_application⟩
  · next hk =>
    simp only [yields_bind_iff, yields_pure_iff] at hy
    obtain ⟨position, c, hyPosition, u, c', hyRight, rfl, rfl⟩ := hy
    obtain ⟨vs, last, rest, rfl, rfl, hposition⟩ := nextExpr_soundNext h hyPosition
    obtain ⟨right, rest', rfl, hright, rfl⟩ := expect_sound (by decide) hyRight
    rw [hk] at hstops
    have hindexed : Layered G .application us left := hleft.layered.loosen (Nat.not_lt.1 hstops)
    exact ⟨vs ++ [right], right, rest', .application, by simp, rfl,
      .application (.index hindexed hk hposition hright), floor.above_le_application⟩
  · next hcall hindex =>
    obtain ⟨p, hp, hy⟩ := exists_eq_of_yields hy
    split at hp <;> subst hp
    · next op hop =>
      have hkind := BinaryOp.ofKind?_eq_some_iff.1 hop
      simp only [yields_bind_iff, yields_advance_iff, yields_pure_iff, Cursor.advance_start,
        List.tail_cons] at hy
      obtain ⟨u, c, rfl, right, c', hyRight, rfl, rfl⟩ := hy
      obtain ⟨vs, last, rest, rfl, -, rfl, hright, hstop⟩ := h hyRight
      rw [hkind] at hfloor hstops hright hstop
      rw [Precedence.above_ofKind_kind] at hright
      rw [Precedence.ofKind_kind] at hstops hstop
      -- what is to the left binds no less tightly, or it would have taken the
      -- operator itself
      have hoperand : Layered G (layerOf op) us left := hleft.layered.loosen (Nat.not_lt.1 hstops)
      exact ⟨vs, last, rest, layerOf op, rfl, rfl,
        ⟨.binary hoperand hkind hright, hstop⟩, Precedence.above_le_of_lt hfloor⟩
    · next hop => exact absurd hfloor (Precedence.not_lt_ofKind_of_none hcall hindex hop)

/-- The loop over what follows an operand keeps the layer of what was built
so far. -/
theorem extended_sound (h : ExprParser.Sound inner G) {floor : Precedence} {l : Layer}
    {last : Token} {us rest : List Token} {left e : Expr} {d : Cursor (List Token)}
    (hleft : Reached G l us left rest)
    (hfloor : floor.above.precedence.rank ≤ l.precedence.rank)
    (hy : (extended inner floor left (.start (last :: rest))).Yields e d) :
    ∃ vs last' rest', us ++ rest = vs ++ rest' ∧ d = .start (last' :: rest') ∧
      Layered G floor.above vs e ∧ floor.Stops rest' := by
  -- on the number of tokens left; the layer `l` changes from round to round
  induction hn : rest.length using Nat.strongRecOn generalizing l last us rest left with | _ n ih
  have hy := yields_extended_iff.1 hy
  split at hy
  · next hlt =>
    obtain ⟨e', c, hyApplied, hyLoop⟩ := hy
    cases rest with
    | nil => exact absurd hlt (Nat.not_lt_zero _)
    | cons t rest =>
      simp only [Cursor.upcoming_start, List.tail_cons, List.headD_cons] at hlt
      rw [Cursor.advance_start] at hyApplied
      obtain ⟨vs, last', rest', m, rfl, rfl, hnext, hm⟩ := applied_sound h hleft hlt hyApplied
      obtain ⟨ws, last'', rest'', heq, rfl, he, hstop⟩ :=
        ih rest'.length (by simp at hn; omega) hnext hm hyLoop rfl
      exact ⟨ws, last'', rest'', by rw [← heq]; simp, rfl, he, hstop⟩
  · next hlt =>
    obtain ⟨rfl, rfl⟩ := hy
    rw [Cursor.upcoming_start] at hlt
    exact ⟨us, last, rest, rfl, rfl, hleft.layered.loosen hfloor, hlt⟩

end Phrases

/-- **What is read as an expression is one**, at every depth of nesting. -/
theorem expr_sound (n : Nat) : ExprParser.Sound (expr n) (Expression n) := by
  induction n with
  | zero =>
    intro floor ts e d hy
    exact absurd hy not_yields_fail
  | succ n ih =>
    intro floor ts e d hy
    obtain ⟨left, c, hyOperand, hyLoop⟩ := yields_bind_iff.1 hy
    obtain ⟨us, last, rest, rfl, rfl, hleft⟩ := operand_sound ih hyOperand
    have hreached : ∃ l, Reached (Expression n) l us left rest ∧
        Layer.unary.precedence.rank ≤ l.precedence.rank := by
      rcases hleft with hprimary | hunary
      · exact ⟨_, .application (.primary hprimary), by decide⟩
      · exact ⟨_, hunary, Nat.le_refl _⟩
    obtain ⟨l, hl, hrank⟩ := hreached
    obtain ⟨vs, last', rest', heq, rfl, he, hstop⟩ :=
      extended_sound ih hl (Nat.le_trans floor.above_le_unary hrank) hyLoop
    exact ⟨vs, last', rest', heq, Layered.ne_nil he, rfl, he, hstop⟩

end Parser

end MonkeyLang
