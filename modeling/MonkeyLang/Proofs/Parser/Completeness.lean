import MonkeyLang.Proofs.Parser.Soundness
/-!
# What is in the grammar is read

Whatever the grammar says of the tokens in front of a parser, the parser
yields, provided that what follows them does not go on with them
(`Follows`). The lemmas come one for each parser, as the ones on soundness
do. For operators the statement is about the loop and not about its end
(`level_reaches`): having read an expression of some layer, the loop goes
on from it as if the expression had been an operand.
-/

namespace MonkeyLang

open Grammar

/-- The tokens that an expression may begin with. -/
def Grammar.opening : List TokenKind :=
  [.ident, .int, .string, .trueWord, .falseWord, .bang, .minus, .lparen, .lbracket, .lbrace,
    .ifWord, .fnWord]

/-- An expression begins with a token that opens one. -/
theorem Grammar.Layered.opens {inner : Layer → List Token → Expr → Prop} {l : Layer}
    {ts : List Token} {e : Expr} (h : Layered inner l ts e) :
    ∃ t us, ts = t :: us ∧ t.kind ∈ opening := by
  induction h with
  | primary h => cases h <;> exact ⟨_, _, rfl, by simp [opening, *]⟩
  | call _ _ _ _ ih =>
    obtain ⟨t, us, rfl, ht⟩ := ih
    exact ⟨t, _, rfl, ht⟩
  | index _ _ _ _ ih =>
    obtain ⟨t, us, rfl, ht⟩ := ih
    exact ⟨t, _, rfl, ht⟩
  | @unary _ _ op _ hk _ => exact ⟨_, _, rfl, by cases op <;> simp [opening, hk, UnaryOp.kind]⟩
  | binary _ _ _ ih =>
    obtain ⟨t, us, rfl, ht⟩ := ih
    exact ⟨t, _, rfl, ht⟩
  | tighter _ ih => exact ih

namespace Precedence

/-- Nothing that follows goes on with what was read behind something that
binds this tightly. -/
structure Follows (floor : Precedence) (rest : List Token) : Prop where
  stops : floor.Stops rest
  noElse : (rest.headD .endOfInput).kind ≠ .elseWord

/-- A token that neither binds nor goes on with a conditional may follow
anything. -/
theorem Follows.of_kind {floor : Precedence} {k : TokenKind} {t : Token} {rest : List Token}
    (hk : t.kind = k) (hlowest : ofKind k = .lowest) (hne : k ≠ .elseWord) :
    Follows floor (t :: rest) := by
  refine ⟨?_, by simpa [hk] using hne⟩
  simp only [Stops, List.headD_cons, hk, hlowest]
  exact Nat.not_lt_zero _

/-- Nothing binds more tightly than an application. -/
theorem Follows.application {rest : List Token}
    (hne : (rest.headD .endOfInput).kind ≠ .elseWord) :
    Follows Layer.application.precedence rest :=
  ⟨Nat.not_lt.2 (rank_le_index _), hne⟩

theorem Stops.loosen {floor p : Precedence} {rest : List Token} (h : floor.Stops rest)
    (hle : floor.rank ≤ p.rank) : p.Stops rest :=
  fun hlt => h (Nat.lt_of_le_of_lt hle hlt)

theorem rank_le_above {floor : Precedence} (h : floor.rank ≤ unary.rank) :
    floor.rank ≤ floor.above.precedence.rank := by
  revert h
  cases floor <;> decide

theorem lt_ofKind_of_above_le {floor : Precedence} {op : BinaryOp}
    (h : floor.above.precedence.rank ≤ (layerOf op).precedence.rank) : floor < ofKind op.kind := by
  revert h
  cases floor <;> cases op <;> decide

end Precedence

open Precedence (Follows)

namespace Parser

variable {α : Type}

/-- A parser reads what a rule says of the tokens behind the current one,
if what follows them is as it should be. -/
def CompleteNext (p : Parser (List Token) α) (G : List Token → α → Prop)
    (ok : List Token → Prop) : Prop :=
  ∀ ⦃us a rest⦄ (t : Token), G us a → ok rest →
    ∃ last, (p (.start (t :: (us ++ rest)))).Yields a (.start (last :: rest))

/-- A parser of expressions reads what a grammar says. -/
structure ExprParser.Complete (inner : ExprParser (List Token))
    (G : Layer → List Token → Expr → Prop) : Prop where
  yields : ∀ {floor : Precedence} {us : List Token} {e : Expr} {rest : List Token},
    floor.rank ≤ Precedence.unary.rank → G floor.above us e → Follows floor rest →
      ∃ last, (inner floor (.start (us ++ rest))).Yields e (.start (last :: rest))
  opens : ∀ {l : Layer} {us : List Token} {e : Expr}, G l us e →
    ∃ t ts, us = t :: ts ∧ t.kind ∈ opening

theorem expect_complete {k : TokenKind} {t v : Token} {rest : List Token} (h : v.kind = k) :
    (expect k (.start (t :: v :: rest))).Yields () (.start (v :: rest)) :=
  yields_expect_iff.2 ⟨h, Cursor.advance_start _⟩

section Items

variable {item : Parser (List Token) α} {G : List Token → α → Prop} {ok : List Token → Prop}

/-- Items with commas between them, by induction on the rule for them. -/
theorem separated_complete (h : CompleteNext item G ok)
    (hcomma : ∀ {t : Token} {rest : List Token}, t.kind = .comma → ok (t :: rest))
    {us rest : List Token} {as : List α} (hs : Separated G us as) (hok : ok rest)
    (hend : (rest.headD .endOfInput).kind ≠ .comma) (t : Token) :
    ∃ last, (separated item (.start (t :: (us ++ rest)))).Yields as (.start (last :: rest)) := by
  induction hs generalizing t with
  | last ha =>
    obtain ⟨last, hy⟩ := h t ha hok
    refine ⟨last, yields_separated_iff.2 ⟨_, _, hy, ?_⟩⟩
    rw [Cursor.upcoming_start, List.tail_cons, if_neg hend]
    exact ⟨rfl, rfl⟩
  | @more _ _ _ _ comma ha hc _ ih =>
    obtain ⟨last, hy⟩ := h t ha (hcomma hc)
    obtain ⟨last', hrest⟩ := ih comma
    refine ⟨last', ?_⟩
    rw [List.append_assoc, List.cons_append]
    refine yields_separated_iff.2 ⟨_, _, hy, ?_⟩
    rw [Cursor.upcoming_start, List.tail_cons, List.headD_cons, if_pos hc, Cursor.advance_start]
    exact ⟨_, hrest, rfl⟩

theorem listed_complete (h : CompleteNext item G ok)
    (hcomma : ∀ {t : Token} {rest : List Token}, t.kind = .comma → ok (t :: rest))
    {close : TokenKind} (hclose : close ≠ .comma)
    (hok : ∀ {t : Token} {rest : List Token}, t.kind = close → ok (t :: rest))
    (hopens : ∀ {us : List Token} {a : α}, G us a → ∃ t ts, us = t :: ts ∧ t.kind ≠ close)
    {us : List Token} {as : List α} (hs : Listed G us as) (t : Token) {right : Token}
    (hright : right.kind = close) (rest : List Token) :
    (listed close item (.start (t :: (us ++ right :: rest)))).Yields as
      (.start (right :: rest)) := by
  rw [yields_listed_iff]
  cases hs with
  | none =>
    rw [if_pos (by simpa using hright)]
    exact ⟨rfl, Cursor.advance_start _⟩
  | some hs =>
    have hhead : ∃ v vs, us = v :: vs ∧ v.kind ≠ close := by
      cases hs with
      | last ha => exact hopens ha
      | more ha _ _ =>
        obtain ⟨v, vs, rfl, hv⟩ := hopens ha
        exact ⟨v, _, rfl, hv⟩
    obtain ⟨v, vs, rfl, hv⟩ := hhead
    rw [if_neg (by simpa using hv)]
    obtain ⟨last, hy⟩ := separated_complete h hcomma hs (hok hright)
      (by simpa [hright] using hclose) t
    exact ⟨_, hy, by simpa using hright, Cursor.advance_start _⟩

end Items

theorem name_complete : CompleteNext name Name fun _ => True := by
  intro us a rest t hname _
  cases hname with
  | @mk v hk =>
    refine ⟨v, ?_⟩
    simp only [name, yields_bind_iff, yields_current_iff, yields_pure_iff]
    exact ⟨_, _, expect_complete hk, _, _, ⟨rfl, rfl⟩, rfl, rfl⟩

section Phrases

variable {inner : ExprParser (List Token)} {G : Layer → List Token → Expr → Prop}

theorem nextExpr_complete (h : ExprParser.Complete inner G) :
    CompleteNext (nextExpr inner) (G .equality) (Follows .lowest) := by
  intro us e rest t he hok
  have hlowest : Precedence.lowest.rank ≤ Precedence.unary.rank := by decide
  obtain ⟨last, hy⟩ := h.yields hlowest he hok
  refine ⟨last, ?_⟩
  simp only [nextExpr, yields_bind_iff, yields_advance_iff, Cursor.advance_start, List.tail_cons]
  exact ⟨(), _, rfl, hy⟩

theorem pair_complete (h : ExprParser.Complete inner G) :
    CompleteNext (pair inner) (Pair G) (Follows .lowest) := by
  intro us a rest t hpair hok
  cases hpair with
  | @mk us vs key value colon hkey hcolon hvalue =>
    obtain ⟨last, hyKey⟩ := nextExpr_complete h t hkey
      (.of_kind hcolon rfl (by decide))
    obtain ⟨last', hyValue⟩ := nextExpr_complete h colon hvalue hok
    refine ⟨last', ?_⟩
    rw [List.append_assoc, List.cons_append]
    simp only [pair, yields_bind_iff, yields_pure_iff]
    exact ⟨key, _, hyKey, (), _, expect_complete hcolon, value, _, hyValue, rfl, rfl⟩

/-- What a pair begins with closes nothing. -/
theorem pair_opens (h : ExprParser.Complete inner G) {us : List Token} {a : Expr × Expr}
    (hpair : Pair G us a) : ∃ t ts, us = t :: ts ∧ t.kind ∈ opening := by
  cases hpair with
  | mk hkey _ _ =>
    obtain ⟨t, ts, rfl, ht⟩ := h.opens hkey
    exact ⟨t, _, rfl, ht⟩

/-- No pair begins with the brace that closes a hash. -/
theorem yields_separatedUntil_pair_iff (h : ExprParser.Complete inner G) {us rest : List Token}
    {a : Expr × Expr} (hpair : Pair G us a) (t : Token) {as : List (Expr × Expr)}
    {d : Cursor (List Token)} :
    (separatedUntil .rbrace (pair inner) (.start (t :: (us ++ rest)))).Yields as d ↔
      ∃ a e, (pair inner (.start (t :: (us ++ rest)))).Yields a e ∧
        if e.upcoming.kind = .rbrace then [a] = as ∧ e = d
        else e.upcoming.kind = .comma ∧
          ∃ rest, (separatedUntil .rbrace (pair inner) e.advance).Yields rest d ∧
            a :: rest = as := by
  obtain ⟨v, vs, rfl, hv⟩ := pair_opens h hpair
  rw [yields_separatedUntil_iff, if_neg]
  intro hk
  simp only [List.cons_append, Cursor.upcoming_start, List.tail_cons, List.headD_cons] at hk
  simp [hk, opening] at hv

/-- The pairs of a hash up to the brace that closes it, with or without a
comma in front of it. -/
theorem separatedUntil_complete (h : ExprParser.Complete inner G) {us tail rest : List Token}
    {pairs : List (Expr × Expr)} (hs : Separated (Pair G) us pairs) {right : Token}
    (hright : right.kind = .rbrace)
    (htail : tail = right :: rest ∨
      ∃ comma : Token, comma.kind = .comma ∧ tail = comma :: right :: rest) (t : Token) :
    ∃ last, (separatedUntil .rbrace (pair inner) (.start (t :: (us ++ tail)))).Yields pairs
      (.start (last :: right :: rest)) := by
  have hok : Follows .lowest tail := by
    rcases htail with rfl | ⟨comma, hcomma, rfl⟩
    · exact .of_kind hright rfl (by decide)
    · exact .of_kind hcomma rfl (by decide)
  induction hs generalizing t with
  | last ha =>
    obtain ⟨last, hy⟩ := pair_complete h t ha hok
    rcases htail with rfl | ⟨comma, hcomma, rfl⟩
    · refine ⟨last, (yields_separatedUntil_pair_iff h ha t).2 ⟨_, _, hy, ?_⟩⟩
      rw [Cursor.upcoming_start, List.tail_cons, List.headD_cons, if_pos hright]
      exact ⟨rfl, rfl⟩
    · refine ⟨comma, (yields_separatedUntil_pair_iff h ha t).2 ⟨_, _, hy, ?_⟩⟩
      rw [Cursor.upcoming_start, List.tail_cons, List.headD_cons, if_neg (by simp [hcomma]),
        Cursor.advance_start]
      refine ⟨hcomma, [], yields_separatedUntil_iff.2 ?_, rfl⟩
      simp [hright]
  | @more vs ws a as comma ha hcomma _ ih =>
    have hfollows : Follows .lowest (comma :: (ws ++ tail)) := .of_kind hcomma rfl (by decide)
    obtain ⟨last, hy⟩ := pair_complete h t ha hfollows
    obtain ⟨last', hrest⟩ := ih comma
    refine ⟨last', ?_⟩
    rw [List.append_assoc, List.cons_append]
    refine (yields_separatedUntil_pair_iff h ha t).2 ⟨_, _, hy, ?_⟩
    rw [Cursor.upcoming_start, List.tail_cons, List.headD_cons, if_neg (by simp [hcomma]),
      Cursor.advance_start]
    exact ⟨hcomma, _, hrest, rfl⟩

theorem pairs_complete (h : ExprParser.Complete inner G) {us : List Token}
    {pairs : List (Expr × Expr)} (hs : Pairs G us pairs) (t : Token) {right : Token}
    (hright : right.kind = .rbrace) (rest : List Token) :
    ∃ last, (separatedUntil .rbrace (pair inner) (.start (t :: (us ++ right :: rest)))).Yields
      pairs (.start (last :: right :: rest)) := by
  cases hs with
  | listed hs =>
    cases hs with
    | none =>
      refine ⟨t, yields_separatedUntil_iff.2 ?_⟩
      simp [hright]
    | some hs => exact separatedUntil_complete h hs hright (.inl rfl) t
  | @trailing us _ comma hs hcomma =>
    rw [List.append_assoc]
    exact separatedUntil_complete h hs hright (.inr ⟨comma, hcomma, rfl⟩) t

theorem parameters_complete {us : List Token} {names : List String} {left right : Token}
    (hleft : left.kind = .lparen) (hnames : Listed Name us names) (hright : right.kind = .rparen)
    (t : Token) (rest : List Token) :
    (parameters (.start (t :: left :: (us ++ right :: rest)))).Yields names
      (.start (right :: rest)) := by
  refine yields_bind_iff.2 ⟨(), _, expect_complete hleft, ?_⟩
  refine listed_complete name_complete (fun _ => trivial) (by decide) (fun _ => trivial) ?_ hnames
    left hright rest
  rintro us a ⟨hk⟩
  exact ⟨_, [], rfl, by simp [hk]⟩

/-! ## Statements and blocks -/

/-- The tokens that a statement may begin with. -/
def statementOpening : List TokenKind := .letWord :: .returnWord :: opening

theorem statement_opens (h : ExprParser.Complete inner G) {us : List Token} {s : Stmt}
    (hs : Statement G us s) : ∃ t ts, us = t :: ts ∧ t.kind ∈ statementOpening := by
  cases hs with
  | bind hword _ _ _ => exact ⟨_, _, rfl, by simp [statementOpening, hword]⟩
  | ret hword _ => exact ⟨_, _, rfl, by simp [statementOpening, hword]⟩
  | expr he =>
    obtain ⟨t, ts, rfl, ht⟩ := h.opens he
    exact ⟨t, ts, rfl, by simp [statementOpening, ht]⟩

/-- The first token behind a statement neither ends it nor goes on with a
conditional in it. -/
def Fresh (rest : List Token) : Prop :=
  (rest.headD .endOfInput).kind ≠ .semicolon ∧ (rest.headD .endOfInput).kind ≠ .elseWord

theorem Fresh.of_kind {k : TokenKind} {t : Token} {rest : List Token} (hk : t.kind = k)
    (h : k ≠ .semicolon ∧ k ≠ .elseWord) : Fresh (t :: rest) := by
  simpa [Fresh, hk] using h

/-- A body begins with a token that is fresh, and without statements what
follows is. -/
theorem fresh_body (h : ExprParser.Complete inner G) {us rest : List Token} {ss : List Stmt}
    (hss : Body G us ss) (hrest : Fresh rest) : Fresh (us ++ rest) := by
  have hfresh {us : List Token} {s : Stmt} (hs : Statement G us s) (vs : List Token) :
      Fresh (us ++ vs) := by
    obtain ⟨t, ts, rfl, ht⟩ := statement_opens h hs
    constructor <;>
    · intro hk
      simp only [List.cons_append, List.headD_cons] at hk
      simp [hk, statementOpening, opening] at ht
  cases hss with
  | nil => exact hrest
  | ended hs _ _ => simpa using hfresh hs _
  | unended hs _ _ => simpa using hfresh hs _

/-- What stands behind the value of a statement lets it end, with the
semicolon if there is one. -/
theorem leads_split {ts rest : List Token} {s : Stmt} (h : Leads G ts s rest)
    (hfresh : Fresh rest) : ∃ us tail, ts = us ++ tail ∧ Statement G us s ∧ Follows .lowest tail ∧
      ∀ t, ∃ last, (skip .semicolon (.start (t :: tail))).Yields () (.start (last :: rest)) := by
  obtain ⟨us, -, hs, ⟨semicolon, hkind, rfl⟩ | ⟨hapart, rfl⟩⟩ := h
  · refine ⟨us, _, rfl, hs, .of_kind hkind rfl (by decide), fun t => ⟨semicolon, ?_⟩⟩
    exact yields_skip_iff.2 (by simp [hkind])
  · refine ⟨us, rest, rfl, hs, ⟨Precedence.stops_lowest_iff.2 hapart, hfresh.2⟩, fun t => ⟨t, ?_⟩⟩
    rw [yields_skip_iff, if_neg (by simpa using hfresh.1)]

/-- A statement that begins like an expression is one. -/
theorem statement_val_of_opening {c : Cursor (List Token)} (h : c.current.kind ∈ opening) :
    (statement inner c).val = ((do
      let value ← inner .lowest
      skip .semicolon
      return .expr value : Parser (List Token) Stmt) c).val := by
  have hcurrent : (current c).Yields c.current c := yields_current_iff.2 ⟨rfl, rfl⟩
  refine (val_bind_of_yields hcurrent).trans ?_
  generalize c.current.kind = k at h
  split
  · exact absurd h (by decide)
  · exact absurd h (by decide)
  · rfl

/-- A statement is read up to its last token, or up to its semicolon. -/
theorem statement_complete (h : ExprParser.Complete inner G) {ts rest : List Token} {s : Stmt}
    (hs : Leads G ts s rest) (hfresh : Fresh rest) :
    ∃ last, (statement inner (.start ts)).Yields s (.start (last :: rest)) := by
  obtain ⟨us, tail, rfl, hs, hfollows, hskip⟩ := leads_split hs hfresh
  cases hs with
  | @bind vs e word ident assign hword hident hassign he =>
    obtain ⟨last, hyValue⟩ := nextExpr_complete h assign he hfollows
    obtain ⟨last', hySkip⟩ := hskip last
    simp only [statement, yields_bind_iff, yields_current_iff]
    refine ⟨last', _, _, ⟨rfl, rfl⟩, ?_⟩
    simp only [Cursor.current_start, List.cons_append, List.headD_cons, hword]
    simp only [yields_bind_iff, yields_pure_iff]
    obtain ⟨last'', hyName⟩ := name_complete word (.mk hident) trivial
    exact ⟨_, _, hyName, _, _, expect_complete hassign, _, _, hyValue, _, _, hySkip, rfl, rfl⟩
  | @ret vs e word hword he =>
    obtain ⟨last, hyValue⟩ := nextExpr_complete h word he hfollows
    obtain ⟨last', hySkip⟩ := hskip last
    simp only [statement, yields_bind_iff, yields_current_iff]
    refine ⟨last', _, _, ⟨rfl, rfl⟩, ?_⟩
    simp only [Cursor.current_start, List.cons_append, List.headD_cons, hword]
    simp only [yields_bind_iff, yields_pure_iff]
    exact ⟨_, _, hyValue, _, _, hySkip, rfl, rfl⟩
  | expr he =>
    have hlowest : Precedence.lowest.rank ≤ Precedence.unary.rank := by decide
    obtain ⟨last, hyValue⟩ := h.yields hlowest he hfollows
    obtain ⟨last', hySkip⟩ := hskip last
    obtain ⟨t, ts, rfl, ht⟩ := h.opens he
    refine ⟨last', (statement_val_of_opening ht).trans ?_⟩
    refine yields_bind_iff.2 ⟨_, _, hyValue, ?_⟩
    exact yields_bind_iff.2 ⟨_, _, hySkip, yields_pure_iff.2 ⟨rfl, rfl⟩⟩

/-- The first statement of a body leads into the rest of it. -/
theorem leads_of_ended {us vs : List Token} {s : Stmt} {semicolon : Token}
    (h : ExprParser.Complete inner G) (hs : Statement G us s)
    (hk : semicolon.kind = .semicolon) : Leads G (us ++ semicolon :: vs) s vs := by
  obtain ⟨t, ts, rfl, -⟩ := statement_opens h hs
  exact ⟨_, by simp, hs, .inl ⟨semicolon, hk, rfl⟩⟩

theorem leads_of_unended {us vs rest : List Token} {s : Stmt} (h : ExprParser.Complete inner G)
    (hs : Statement G us s) (hvs : Apart vs) (hrest : Apart rest) :
    Leads G (us ++ (vs ++ rest)) s (vs ++ rest) := by
  obtain ⟨t, ts, rfl, -⟩ := statement_opens h hs
  refine ⟨_, by simp, hs, .inr ⟨?_, rfl⟩⟩
  cases vs with
  | nil => exact hrest
  | cons v vs => simpa [Apart] using hvs

theorem current_mem_of_leads (h : ExprParser.Complete inner G) {ts rest : List Token} {s : Stmt}
    (hs : Leads G ts s rest) : (Cursor.start ts).current.kind ∈ statementOpening := by
  obtain ⟨us, -, hstatement, htail⟩ := hs
  obtain ⟨t, vs, rfl, ht⟩ := statement_opens h hstatement
  obtain ⟨-, -, rfl⟩ | ⟨-, rfl⟩ := htail <;> simpa using ht

/-- One round of the loop over the statements of a block. -/
theorem yields_blockBody_cons (h : ExprParser.Complete inner G) {ts rest : List Token} {s : Stmt}
    {ss : List Stmt} {d : Cursor (List Token)} (hs : Leads G ts s rest) (hfresh : Fresh rest)
    (hss : (blockBody (statement inner) (.start rest)).Yields ss d) :
    (blockBody (statement inner) (.start ts)).Yields (s :: ss) d := by
  obtain ⟨last, hy⟩ := statement_complete h hs hfresh
  have hopens := current_mem_of_leads h hs
  rw [yields_blockBody_iff, if_neg]
  · refine ⟨?_, s, _, hy, ss, by rwa [Cursor.advance_start], rfl⟩
    intro hk
    rw [hk] at hopens
    exact absurd hopens (by decide)
  · intro hk
    rw [hk] at hopens
    exact absurd hopens (by decide)

theorem blockBody_complete (h : ExprParser.Complete inner G) {us : List Token} {ss : List Stmt}
    (hss : Body G us ss) {right : Token} (hright : right.kind = .rbrace) (rest : List Token) :
    (blockBody (statement inner) (.start (us ++ right :: rest))).Yields ss
      (.start (right :: rest)) := by
  have hfresh : Fresh (right :: rest) := .of_kind hright (by decide)
  have hapart : Apart (right :: rest) := by simp [Apart, hright, continuing]
  induction hss with
  | nil =>
    rw [yields_blockBody_iff]
    simp [hright]
  | ended hs hk hss ih =>
    rw [List.append_assoc, List.cons_append]
    exact yields_blockBody_cons h (leads_of_ended h hs hk) (fresh_body h hss hfresh) ih
  | unended hs hvs hss ih =>
    rw [List.append_assoc]
    exact yields_blockBody_cons h (leads_of_unended h hs hvs hapart) (fresh_body h hss hfresh) ih

theorem block_complete (h : ExprParser.Complete inner G) :
    CompleteNext (block inner) (Block G) fun _ => True := by
  intro us ss rest t hblock _
  cases hblock with
  | @mk ts _ left right hleft hss hright =>
    refine ⟨right, ?_⟩
    rw [List.cons_append, List.append_assoc]
    refine yields_bind_iff.2 ⟨(), _, expect_complete hleft, ?_⟩
    refine yields_bind_iff.2 ⟨(), _, yields_advance_iff.2 (Cursor.advance_start _), ?_⟩
    exact blockBody_complete h hss hright rest

theorem alternative_complete (h : ExprParser.Complete inner G) :
    CompleteNext (alternative inner) (Alternative G)
      fun rest => (rest.headD .endOfInput).kind ≠ .elseWord := by
  intro us ss? rest t halternative hok
  simp only [alternative, yields_bind_iff, yields_upcoming_iff]
  cases halternative with
  | none =>
    refine ⟨t, _, _, ⟨rfl, rfl⟩, ?_⟩
    rw [yields_ite_iff, if_neg (by simpa using hok)]
    exact yields_pure_iff.2 ⟨rfl, rfl⟩
  | @some us ss word hword hss =>
    obtain ⟨last, hy⟩ : ∃ last, (block inner (.start (word :: (us ++ rest)))).Yields ss
        (.start (last :: rest)) := block_complete h word hss trivial
    refine ⟨last, _, _, ⟨rfl, rfl⟩, ?_⟩
    rw [yields_ite_iff, if_pos (by simpa using hword)]
    simp only [yields_bind_iff, yields_advance_iff, yields_pure_iff]
    exact ⟨(), _, Cursor.advance_start _, ss, _, hy, rfl, rfl⟩

/-! ## Expressions -/

theorem nextExpr_opens (h : ExprParser.Complete inner G) {close : TokenKind}
    (hclose : close ∉ opening) {us : List Token} {e : Expr} (he : G .equality us e) :
    ∃ t ts, us = t :: ts ∧ t.kind ≠ close := by
  obtain ⟨t, ts, rfl, ht⟩ := h.opens he
  exact ⟨t, ts, rfl, fun hk => hclose (hk ▸ ht)⟩

/-- Expressions with commas between them, up to a closing token. -/
theorem arguments_complete (h : ExprParser.Complete inner G) {close : TokenKind}
    (hopening : close ∉ opening) (hlowest : Precedence.ofKind close = .lowest)
    (hcomma : close ≠ .comma) (helse : close ≠ .elseWord) {us : List Token} {es : List Expr}
    (hes : Listed (G .equality) us es) (t : Token) {right : Token} (hright : right.kind = close)
    (rest : List Token) :
    (listed close (nextExpr inner) (.start (t :: (us ++ right :: rest)))).Yields es
      (.start (right :: rest)) :=
  listed_complete (nextExpr_complete h) (fun hk => .of_kind hk rfl (by decide)) hcomma
    (fun hk => .of_kind hk hlowest helse) (nextExpr_opens h hopening) hes t hright rest

/-- An expression in front of a closing token. -/
theorem nextExpr_closed (h : ExprParser.Complete inner G) {us : List Token} {e : Expr}
    (he : G .equality us e) (t : Token) {close : TokenKind}
    (hlowest : Precedence.ofKind close = .lowest) (helse : close ≠ .elseWord) {right : Token}
    (hright : right.kind = close) (rest : List Token) :
    ∃ last, (nextExpr inner (.start (t :: (us ++ right :: rest)))).Yields e
      (.start (last :: right :: rest)) :=
  nextExpr_complete h t he (.of_kind hright hlowest helse)

/-- **An operand is read as the rule for it says**, one case for each
rule. -/
theorem primary_complete (h : ExprParser.Complete inner G) {us rest : List Token} {e : Expr}
    (he : Primary G us e) (hrest : (rest.headD .endOfInput).kind ≠ .elseWord) :
    ∃ last, (operand inner (.start (us ++ rest))).Yields e (.start (last :: rest)) := by
  simp only [operand, yields_bind_iff, yields_current_iff]
  cases he with
  | @ident t hk | @string t hk | @trueWord t hk | @falseWord t hk =>
    refine ⟨t, _, _, ⟨rfl, rfl⟩, ?_⟩
    simp only [Cursor.current_start, List.cons_append, List.headD_cons, hk]
    exact yields_pure_iff.2 ⟨rfl, rfl⟩
  | @int t n hk hn =>
    refine ⟨t, _, _, ⟨rfl, rfl⟩, ?_⟩
    simp only [Cursor.current_start, List.cons_append, List.headD_cons, hk]
    exact yields_integer_iff.2 ⟨n, hn, rfl, rfl⟩
  | @group ts e left right hk he hright =>
    obtain ⟨last, hy⟩ := nextExpr_closed h he left rfl (by decide) hright rest
    refine ⟨right, _, _, ⟨rfl, rfl⟩, ?_⟩
    rw [List.cons_append, List.append_assoc]
    simp only [Cursor.current_start, List.headD_cons, hk, yields_bind_iff, yields_pure_iff]
    exact ⟨_, _, hy, (), _, expect_complete hright, rfl, rfl⟩
  | @array ts es left right hk hes hright =>
    refine ⟨right, _, _, ⟨rfl, rfl⟩, ?_⟩
    rw [List.cons_append, List.append_assoc]
    simp only [Cursor.current_start, List.headD_cons, hk, yields_bind_iff, yields_pure_iff]
    exact ⟨_, _, arguments_complete h (by decide) rfl (by decide) (by decide) hes left hright rest,
      rfl, rfl⟩
  | @hash ts pairs left right hk hpairs hright =>
    obtain ⟨last, hy⟩ := pairs_complete h hpairs left hright rest
    refine ⟨right, _, _, ⟨rfl, rfl⟩, ?_⟩
    rw [List.cons_append, List.append_assoc]
    simp only [Cursor.current_start, List.headD_cons, hk, yields_bind_iff, yields_loop_bind_iff,
      yields_pure_iff]
    exact ⟨_, _, hy, (), _, expect_complete hright, rfl, rfl⟩
  | @cond ts us vs e body other word left right hk hleft he hright hbody hother =>
    obtain ⟨last, hyCondition⟩ := nextExpr_closed h he left rfl (by decide) hright
      (us ++ (vs ++ rest))
    obtain ⟨last', hyBody⟩ : ∃ last, (block inner
        (.start (right :: (us ++ (vs ++ rest))))).Yields body (.start (last :: (vs ++ rest))) :=
      block_complete h right hbody trivial
    obtain ⟨last'', hyOther⟩ := alternative_complete h last' hother hrest
    refine ⟨last'', _, _, ⟨rfl, rfl⟩, ?_⟩
    rw [List.cons_append, List.cons_append, List.append_assoc, List.cons_append,
      List.append_assoc]
    simp only [Cursor.current_start, List.headD_cons, hk, yields_bind_iff, yields_pure_iff]
    exact ⟨(), _, expect_complete hleft, _, _, hyCondition, (), _, expect_complete hright, _, _,
      hyBody, _, _, hyOther, rfl, rfl⟩
  | @function ts us names body word left right hk hleft hnames hright hbody =>
    obtain ⟨last, hyBody⟩ : ∃ last, (block inner (.start (right :: (us ++ rest)))).Yields body
        (.start (last :: rest)) := block_complete h right hbody trivial
    refine ⟨last, _, _, ⟨rfl, rfl⟩, ?_⟩
    rw [List.cons_append, List.cons_append, List.append_assoc, List.cons_append]
    simp only [Cursor.current_start, List.headD_cons, hk, yields_bind_iff, yields_pure_iff]
    exact ⟨_, _, parameters_complete hleft hnames hright word _, _, _, hyBody, rfl, rfl⟩

/-- What the loop makes of a token behind an operand, if it takes it. -/
theorem val_extended_of_yields {floor : Precedence} {left e : Expr} {t u last : Token}
    {ts rest : List Token} (hlt : floor < .ofKind t.kind)
    (hy : (applied inner left (.start (t :: ts))).Yields e (.start (last :: rest))) :
    (extended inner floor left (.start (u :: t :: ts))).val =
      (extended inner floor e (.start (last :: rest))).val := by
  rw [extended, dif_pos (by simpa using hlt)]
  have hadvance : (Cursor.start (u :: t :: ts)).advance = .start (t :: ts) :=
    Cursor.advance_start _
  rw [← hadvance] at hy
  exact (Ahead.val_bind_of_yields hy).2

theorem call_complete (h : ExprParser.Complete inner G) {left : Expr} {us : List Token}
    {arguments : List Expr} {t right : Token} (hk : t.kind = .lparen)
    (hs : Listed (G .equality) us arguments) (hright : right.kind = .rparen)
    (rest : List Token) :
    (applied inner left (.start (t :: (us ++ right :: rest)))).Yields (.call left arguments)
      (.start (right :: rest)) := by
  simp only [applied, yields_bind_iff, yields_current_iff]
  refine ⟨_, _, ⟨rfl, rfl⟩, ?_⟩
  simp only [Cursor.current_start, List.headD_cons, hk]
  exact yields_bind_iff.2 ⟨_, _, arguments_complete h (by decide) rfl (by decide) (by decide) hs t
    hright rest, yields_pure_iff.2 ⟨rfl, rfl⟩⟩

theorem index_complete (h : ExprParser.Complete inner G) {left position : Expr}
    {us : List Token} {t right : Token} (hk : t.kind = .lbracket) (he : G .equality us position)
    (hright : right.kind = .rbracket) (rest : List Token) :
    (applied inner left (.start (t :: (us ++ right :: rest)))).Yields (.index left position)
      (.start (right :: rest)) := by
  obtain ⟨last, hy⟩ := nextExpr_closed h he t rfl (by decide) hright rest
  simp only [applied, yields_bind_iff, yields_current_iff]
  refine ⟨_, _, ⟨rfl, rfl⟩, ?_⟩
  simp only [Cursor.current_start, List.headD_cons, hk, yields_bind_iff, yields_pure_iff]
  exact ⟨_, _, hy, (), _, expect_complete hright, rfl, rfl⟩

/-- The right side of an operator is read up to what binds no more
tightly. -/
theorem binary_complete (h : ExprParser.Complete inner G) (left : Expr) {right : Expr}
    {op : BinaryOp} {us rest : List Token} {t : Token} (hk : t.kind = op.kind)
    (he : G (layerOf op).tighter us right) (hrest : Follows (layerOf op).precedence rest) :
    ∃ last, (applied inner left (.start (t :: (us ++ rest)))).Yields (.binary op left right)
      (.start (last :: rest)) := by
  rw [← Precedence.ofKind_kind] at hrest
  rw [← Precedence.above_ofKind_kind] at he
  obtain ⟨last, hy⟩ := h.yields (by cases op <;> decide) he hrest
  refine ⟨last, ?_⟩
  simp only [applied, yields_bind_iff, yields_current_iff]
  refine ⟨_, _, ⟨rfl, rfl⟩, ?_⟩
  have hbinary : ((do
      advance
      return .binary op left (← inner (.ofKind op.kind)) : Parser (List Token) Expr)
      (.start (t :: (us ++ rest)))).Yields (.binary op left right) (.start (last :: rest)) := by
    simp only [yields_bind_iff, yields_advance_iff, yields_pure_iff]
    exact ⟨(), _, Cursor.advance_start _, _, _, hy, rfl, rfl⟩
  simp only [Cursor.current_start, List.headD_cons, hk]
  cases op <;> exact hbinary

/-- One level of nesting: an operand, and what follows it. -/
def level (inner : ExprParser (List Token)) : ExprParser (List Token) := fun floor => do
  let left ← operand inner
  extended inner floor left

theorem unary_complete (h : ExprParser.Complete inner G) {op : UnaryOp} {us rest : List Token}
    {e : Expr} {t : Token} (hk : t.kind = op.kind) (he : G .unary us e)
    (hrest : Follows .unary rest) :
    ∃ last, (operand inner (.start (t :: (us ++ rest)))).Yields (.unary op e)
      (.start (last :: rest)) := by
  have hunary : Precedence.unary.rank ≤ Precedence.unary.rank := Nat.le_refl _
  obtain ⟨last, hy⟩ := h.yields hunary he hrest
  refine ⟨last, ?_⟩
  simp only [operand, yields_bind_iff, yields_current_iff]
  refine ⟨_, _, ⟨rfl, rfl⟩, ?_⟩
  have hparsed : ((do
      advance
      return .unary op (← inner .unary) : Parser (List Token) Expr)
      (.start (t :: (us ++ rest)))).Yields (.unary op e) (.start (last :: rest)) := by
    simp only [yields_bind_iff, yields_advance_iff, yields_pure_iff]
    exact ⟨(), _, Cursor.advance_start _, _, _, hy, rfl, rfl⟩
  simp only [Cursor.current_start, List.headD_cons, hk]
  cases op <;> exact hparsed

/-- **Having read an expression of a layer, the loop goes on from it.** -/
theorem level_reaches (h : ExprParser.Complete inner G) {l : Layer} {us : List Token} {e : Expr}
    (he : Layered G l us e) {floor : Precedence}
    (hfloor : floor.above.precedence.rank ≤ l.precedence.rank)
    (hunary : floor.rank ≤ Precedence.unary.rank) {rest : List Token}
    (hrest : Follows l.precedence rest) :
    ∃ last, (level inner floor (.start (us ++ rest))).val =
      (extended inner floor e (.start (last :: rest))).val := by
  -- what stands to the left of a bracket or an operator is of the same
  -- `Layered`, so the loop has read it by the induction hypothesis; what
  -- stands to the right is read by `inner`
  induction he generalizing rest with
  | primary he =>
    obtain ⟨last, hy⟩ := primary_complete h he hrest.noElse
    exact ⟨last, val_bind_of_yields hy⟩
  | @call ts us e arguments left right _ hk hs hright ih =>
    have hnext : Follows Layer.application.precedence (left :: (us ++ right :: rest)) :=
      .application (by simp [hk])
    obtain ⟨last, hreach⟩ := ih hfloor hnext
    refine ⟨right, ?_⟩
    rw [List.append_assoc, List.cons_append, List.append_assoc, List.cons_append,
      List.nil_append, hreach]
    exact val_extended_of_yields (hk ▸ Nat.lt_succ_of_le hunary) (call_complete h hk hs hright rest)
  | @index ts us e position left right _ hk hposition hright ih =>
    have hnext : Follows Layer.application.precedence (left :: (us ++ right :: rest)) :=
      .application (by simp [hk])
    obtain ⟨last, hreach⟩ := ih hfloor hnext
    refine ⟨right, ?_⟩
    rw [List.append_assoc, List.cons_append, List.append_assoc, List.cons_append,
      List.nil_append, hreach]
    exact val_extended_of_yields (hk ▸ Nat.lt_succ_of_le (Nat.le_succ_of_le hunary))
      (index_complete h hk hposition hright rest)
  | @unary ts e op t hk he =>
    obtain ⟨last, hy⟩ := unary_complete h hk he hrest
    exact ⟨last, val_bind_of_yields hy⟩
  | @binary ts us e e' op t _ hk hright ih =>
    have hlt : floor < .ofKind t.kind := hk ▸ Precedence.lt_ofKind_of_above_le hfloor
    have hnext : Follows (layerOf op).precedence (t :: (us ++ rest)) := by
      refine ⟨?_, by cases op <;> simp [hk, BinaryOp.kind]⟩
      simp only [Precedence.Stops, List.headD_cons, hk, Precedence.ofKind_kind]
      exact Nat.lt_irrefl _
    obtain ⟨last, hreach⟩ := ih hfloor hnext
    obtain ⟨last', hy⟩ := binary_complete h e hk hright hrest
    refine ⟨last', ?_⟩
    rw [List.append_assoc, List.cons_append, hreach]
    exact val_extended_of_yields hlt hy
  | @tighter l ts e _ ih =>
    have hle : l.precedence.rank ≤ l.tighter.precedence.rank := by cases l <;> decide
    exact ih (Nat.le_trans hfloor hle) ⟨hrest.stops.loosen hle, hrest.noElse⟩

theorem level_complete (h : ExprParser.Complete inner G) {floor : Precedence} {us : List Token}
    {e : Expr} {rest : List Token} (hunary : floor.rank ≤ Precedence.unary.rank)
    (he : Layered G floor.above us e) (hrest : Follows floor rest) :
    ∃ last, (level inner floor (.start (us ++ rest))).Yields e (.start (last :: rest)) := by
  obtain ⟨last, hreach⟩ := level_reaches h he (Nat.le_refl _) hunary
    ⟨hrest.stops.loosen (Precedence.rank_le_above hunary), hrest.noElse⟩
  refine ⟨last, hreach.trans ?_⟩
  -- nothing that follows binds more tightly than `floor`, so the loop ends
  -- here
  have hstop : (extended inner floor e (.start (last :: rest))).Yields e
      (.start (last :: rest)) := by
    rw [yields_extended_iff, Cursor.upcoming_start, List.tail_cons, if_neg hrest.stops]
    exact ⟨rfl, rfl⟩
  exact hstop

end Phrases

/-- **Every expression is read as what it is**, at every depth of nesting. -/
theorem expr_complete (n : Nat) : ExprParser.Complete (expr n) (Expression n) := by
  induction n with
  | zero => exact ⟨fun _ he => he.elim, fun he => he.elim⟩
  | succ n ih => exact ⟨level_complete ih, Layered.opens⟩

end Parser

end MonkeyLang
