import Mathlib.Data.List.Forall2
import MonkeyLang.Proofs.Leaves
import MonkeyLang.Proofs.Parser.Comparison
/-!
# Parses in parallel

Two lists of tokens that match, kind by kind, are read in parallel: what a
parser does with the one it does with the other, and it makes trees of one
shape of them. Their leaves come in pairs, each from a pair of tokens at the
same place, and the pairs stand in the order of the places
(`readFrom_parallel`).

A parser is judged by the pairs that were in sight where it was started. What
it gives and what is left behind it has to fit into these one after the
other, so nothing can be read twice, or before its time. Most parsers are
done with the token under consideration when they are started, and only the
pairs behind it are in sight; the others are given that token, too.
-/

namespace MonkeyLang

open scoped List

/-! ## Pairs of tokens -/

/-- Two tokens between which a parse can tell by names and strings only. -/
structure Token.Matches (t u : Token) : Prop where
  kind : t.kind = u.kind
  literal : t.kind ∈ [.int, .illegal] → t.literal = u.literal

theorem Token.Matches.refl (t : Token) : t.Matches t := ⟨rfl, fun _ => rfl⟩

/-- Two tokens as a pair of leaves, if both are leaves. -/
def Token.leafPair? (p : Token × Token) : Option (Leaf × Leaf) :=
  p.1.leaf?.bind fun a => p.2.leaf?.map fun b => (a, b)

theorem Token.leafPairs_cons (p : Token × Token) (ps : List (Token × Token)) :
    (p :: ps).filterMap Token.leafPair? =
      (Token.leafPair? p).toList ++ ps.filterMap Token.leafPair? := by
  rw [List.filterMap_cons]
  cases Token.leafPair? p <;> rfl

namespace Cursor

/-- The same place in two lists whose tokens match. -/
structure Matches (c d : Cursor (List Token)) : Prop where
  current : c.current.Matches d.current
  upcoming : c.upcoming.Matches d.upcoming
  source : List.Forall₂ Token.Matches c.source d.source

/-- The pairs that follow the tokens under consideration. -/
def pairsBehind (c d : Cursor (List Token)) : Pairing :=
  ((c.upcoming, d.upcoming) :: c.source.zip d.source).filterMap Token.leafPair?

/-- The pairs from the tokens under consideration on. -/
def pairsAhead (c d : Cursor (List Token)) : Pairing :=
  (Token.leafPair? (c.current, d.current)).toList ++ c.pairsBehind d

variable {c d : Cursor (List Token)}

theorem pairsBehind_sublist : c.pairsBehind d <+ c.pairsAhead d := List.sublist_append_right _ _

theorem Matches.advance (h : c.Matches d) :
    c.advance.Matches d.advance ∧ c.advance.pairsAhead d.advance = c.pairsBehind d := by
  obtain ⟨t, t', ts⟩ := c
  obtain ⟨u, u', us⟩ := d
  cases h.source with
  | nil => exact ⟨⟨h.upcoming, .refl _, .nil⟩, (Token.leafPairs_cons _ _).symm⟩
  | cons hnext hrest => exact ⟨⟨h.upcoming, hnext, hrest⟩, (Token.leafPairs_cons _ _).symm⟩

/-- Skipping the remains of a statement may leave pairs out. -/
theorem Matches.skipStatement (h : c.Matches d) :
    c.skipStatement.Matches d.skipStatement ∧
      c.skipStatement.pairsBehind d.skipStatement <+ c.pairsBehind d := by
  fun_induction Cursor.skipStatement c generalizing d with
  | case1 c hstop =>
    rw [h.current.kind, h.upcoming.kind] at hstop
    rw [Cursor.skipStatement, if_pos hstop]
    exact ⟨h, .refl _⟩
  | case2 c hstop heof =>
    rw [skipStatement_of_eof (h.current.kind ▸ heof)]
    exact ⟨h, .refl _⟩
  | case3 c hstop heof ih =>
    obtain ⟨hnext, hpairs⟩ := h.advance
    obtain ⟨hskip, hsublist⟩ := ih hnext
    rw [h.current.kind, h.upcoming.kind] at hstop
    rw [h.current.kind] at heof
    rw [Cursor.skipStatement.eq_def d, if_neg hstop, dif_neg heof]
    exact ⟨hskip, hsublist.trans (hpairs ▸ pairsBehind_sublist)⟩

end Cursor

/-! ## Parallel ends -/

section Ends

variable {α β : Type} {W : Pairing → α → α → Prop} {W' : Pairing → β → β → Prop}
  {before : Pairing}

/-- What fits into what was left behind some pairs fits in behind them. -/
theorem sublist_of_append {pairs more left last : Pairing} (h : pairs ++ left <+ before)
    (hmore : more ++ last <+ left) : pairs ++ more ++ last <+ before := by
  rw [List.append_assoc]
  exact (hmore.append_left pairs).trans h

/-- Two parses have ended with the same errors at the same place, either both
with a node or both without. The pairs of the nodes and of what is left
stand one behind the other among those that were there before. -/
inductive Parsed.Parallel (W : Pairing → α → α → Prop) (before : Pairing) :
    Parsed (List Token) α → Parsed (List Token) α → Prop
  | gave {a b : α} {pairs : Pairing} {errors : List SyntaxError} {dropped : Nat}
    {c d : Cursor (List Token)} : W pairs a b → c.Matches d →
      pairs ++ c.pairsBehind d <+ before →
      Parallel W before ⟨some a, errors, dropped, c⟩ ⟨some b, errors, dropped, d⟩
  | failed {errors : List SyntaxError} {dropped : Nat} {c d : Cursor (List Token)} :
    c.Matches d → c.pairsBehind d <+ before →
      Parallel W before ⟨none, errors, dropped, c⟩ ⟨none, errors, dropped, d⟩

/-- Two parses that have ended in parallel have reached the same place. -/
theorem Parsed.Parallel.matches {r q : Parsed (List Token) α} (h : r.Parallel W before q) :
    r.cursor.Matches q.cursor := by
  cases h with
  | gave _ hmatches _ => exact hmatches
  | failed hmatches _ => exact hmatches

/-- More pairs may have been there before. -/
theorem Parsed.Parallel.mono {more : Pairing} {r q : Parsed (List Token) α}
    (h : r.Parallel W before q) (hmore : before <+ more) : r.Parallel W more q := by
  cases h with
  | gave hnodes hmatches hpairs => exact .gave hnodes hmatches (hpairs.trans hmore)
  | failed hmatches hpairs => exact .failed hmatches (hpairs.trans hmore)

theorem Parsed.Parallel.imp {W' : Pairing → α → α → Prop} {r q : Parsed (List Token) α}
    (h : r.Parallel W before q) (hW : ∀ pairs a b, W pairs a b → W' pairs a b) :
    r.Parallel W' before q := by
  cases h with
  | gave hnodes hmatches hpairs => exact .gave (hW _ _ _ hnodes) hmatches hpairs
  | failed hmatches hpairs => exact .failed hmatches hpairs

/-- A statement of a block, which may be dropped, and those behind it. -/
theorem Parsed.Parallel.cons {r q : Parsed (List Token) α}
    {rest rest' : Parsed (List Token) (List α)} (h : r.Parallel W before q)
    (hrest : rest.Parallel (InTurn W) (r.cursor.pairsBehind q.cursor) rest') :
    (r.cons rest).Parallel (InTurn W) before (q.cons rest') := by
  cases h with
  | gave hnodes hmatches hpairs =>
    cases hrest with
    | gave hnodes' hmatches' hpairs' =>
      exact .gave (.cons hnodes hnodes') hmatches' (sublist_of_append hpairs hpairs')
    | failed hmatches' hpairs' =>
      exact .failed hmatches' (hpairs'.trans ((List.sublist_append_right _ _).trans hpairs))
  | failed hmatches hpairs =>
    cases hrest with
    | gave hnodes' hmatches' hpairs' => exact .gave hnodes' hmatches' (hpairs'.trans hpairs)
    | failed hmatches' hpairs' => exact .failed hmatches' (hpairs'.trans hpairs)

namespace Ahead

variable {c d : Cursor (List Token)}

/-- What goes on after two successes takes up the pairs behind them. -/
theorem parallel_bind {r : Ahead c α} {q : Ahead d α}
    {next : α → (c' : Cursor (List Token)) → c'.left ≤ c.left → Ahead c' β}
    {next' : α → (d' : Cursor (List Token)) → d'.left ≤ d.left → Ahead d' β}
    (h : r.val.Parallel W before q.val)
    (hnext : ∀ pairs a b c' d' hc hd, W pairs a b → c'.Matches d' →
      (next a c' hc).val.Parallel (fun more => W' (pairs ++ more)) (c'.pairsBehind d')
        (next' b d' hd).val) :
    (r.bind next).val.Parallel W' before (q.bind next').val := by
  obtain ⟨⟨node?, errors, dropped, c'⟩, hc⟩ := r
  obtain ⟨⟨node?', errors', dropped', d'⟩, hd⟩ := q
  cases h with
  | failed hmatches hpairs => exact .failed hmatches hpairs
  | @gave a b pairs _ _ _ _ hnodes hmatches hpairs =>
    have hrest := hnext pairs a b c' d' hc hd hnodes hmatches
    simp only [Ahead.bind]
    revert hrest
    obtain ⟨⟨node?, errors', dropped', c''⟩, hc'⟩ := next a c' hc
    obtain ⟨⟨node?', errors'', dropped'', d''⟩, hd'⟩ := next' b d' hd
    intro hrest
    cases hrest with
    | gave hnodes' hmatches' hpairs' =>
      exact .gave hnodes' hmatches' (sublist_of_append hpairs hpairs')
    | failed hmatches' hpairs' =>
      exact .failed hmatches' (hpairs'.trans ((List.sublist_append_right _ _).trans hpairs))

theorem parallel_map {r : Ahead c α} {q : Ahead d α} {f g : α → β}
    (h : r.val.Parallel W before q.val) (hfg : ∀ pairs a b, W pairs a b → W' pairs (f a) (g b)) :
    (r.map f).val.Parallel W' before (q.map g).val := by
  obtain ⟨⟨node?, errors, dropped, c'⟩, hc⟩ := r
  obtain ⟨⟨node?', errors', dropped', d'⟩, hd⟩ := q
  cases h with
  | gave hnodes hmatches hpairs => exact .gave (hfg _ _ _ hnodes) hmatches hpairs
  | failed hmatches hpairs => exact .failed hmatches hpairs

end Ahead

end Ends

namespace Parser

theorem val_advance_bind {α : Type} {c : Cursor (List Token)} (p : Parser (List Token) α) :
    ((advance >>= fun _ => p) c).val = (p c.advance).val := by
  change ((Ahead.pure () c.advance).afterAdvance.bind _).val = _
  simp [Ahead.afterAdvance, Ahead.pure, Ahead.bind]

theorem val_expect_bind {α : Type} {c : Cursor (List Token)} (wanted : TokenKind)
    (p : Parser (List Token) α) :
    ((expect wanted >>= fun _ => p) c).val =
      if c.upcoming.kind = wanted then (p c.advance).val
      else (Ahead.fail (.unexpected wanted c.upcoming.kind) c).val := by
  have hexpect : expect wanted c =
      (if c.upcoming.kind = wanted then advance else fail (.unexpected wanted c.upcoming.kind)) c :=
    Ahead.pure_bind (c := c) c.upcoming.kind fun found d _ =>
      (if found = wanted then advance else fail (.unexpected wanted found)) d
  change ((expect wanted c).bind _).val = _
  rw [hexpect]
  split
  · exact val_advance_bind p
  · rfl

theorem val_skip_bind {α : Type} {c : Cursor (List Token)} (kind : TokenKind)
    (p : Parser (List Token) α) :
    ((skip kind >>= fun _ => p) c).val =
      if c.upcoming.kind = kind then (p c.advance).val else (p c).val := by
  have hskip : skip kind c = (if c.upcoming.kind = kind then advance else pure ()) c :=
    Ahead.pure_bind (c := c) c.upcoming.kind fun found d _ =>
      (if found = kind then advance else pure ()) d
  change ((skip kind c).bind _).val = _
  rw [hskip]
  split
  · exact val_advance_bind p
  · exact congrArg Subtype.val (Ahead.pure_bind (c := c) () fun _ d _ => p d)

variable {α β : Type} {W : Pairing → α → α → Prop} {W' : Pairing → β → β → Prop}
  {start : Cursor (List Token) → Cursor (List Token) → Pairing}

/-- Wherever two parsers are started together, they end in parallel. -/
def Parallel (start : Cursor (List Token) → Cursor (List Token) → Pairing)
    (W : Pairing → α → α → Prop) (p q : Parser (List Token) α) : Prop :=
  ∀ c d, c.Matches d → (p c).val.Parallel W (start c d) (q d).val

namespace Parallel

open Cursor (pairsBehind pairsAhead)

/-- What is in sight behind a pair is in sight with it. -/
theorem behind {p q : Parser (List Token) α} {pairs : Pairing}
    (h : Parallel pairsBehind W p q) :
    Parallel (fun c d => pairs ++ c.pairsBehind d) W p q :=
  fun _ _ hmatches => (h _ _ hmatches).mono (List.sublist_append_right _ _)

theorem ahead {p q : Parser (List Token) α} (h : Parallel pairsBehind W p q) :
    Parallel pairsAhead W p q :=
  fun _ _ hmatches => (h _ _ hmatches).mono Cursor.pairsBehind_sublist

/-- A leaf that is taken from the token under consideration. -/
theorem pure {a b : α} {pairs : Pairing} (h : W pairs a b) :
    Parallel (fun c d => pairs ++ c.pairsBehind d) W (pure a) (pure b) :=
  fun _ _ hmatches => .gave h hmatches (.refl _)

theorem imp {W' : Pairing → α → α → Prop} {p q : Parser (List Token) α}
    (h : Parallel start W p q) (hW : ∀ pairs a b, W pairs a b → W' pairs a b) :
    Parallel start W' p q :=
  fun _ _ hmatches => (h _ _ hmatches).imp hW

/-- A tree whose leaves are all accounted for. -/
theorem done {a b : α} (h : W [] a b) : Parallel pairsBehind W (Pure.pure a) (Pure.pure b) :=
  pure h

theorem fail (e : SyntaxError) (hstart : ∀ c d, pairsBehind c d <+ start c d) :
    Parallel start W (fail e) (fail e) :=
  fun _ _ hmatches => .failed hmatches (hstart _ _)

/-- One parser behind the other; the pairs of the first come in front of those
of the second. -/
theorem bind {p q : Parser (List Token) α} {f g : α → Parser (List Token) β}
    (h : Parallel start W p q)
    (hnext : ∀ pairs a b, W pairs a b →
      Parallel pairsBehind (fun more => W' (pairs ++ more)) (f a) (g b)) :
    Parallel start W' (p >>= f) (q >>= g) :=
  fun _ _ hmatches => Ahead.parallel_bind (h _ _ hmatches)
    fun pairs a b _ _ _ _ hnodes hmatches' => hnext pairs a b hnodes _ _ hmatches'

/-- A parser that looks at the kind of the token under consideration. -/
theorem kind {f g : Token → Parser (List Token) α}
    (hkind : ∀ t u, t.kind = u.kind → g t = g u) (h : ∀ t, Parallel start W (f t) (g t)) :
    Parallel start W (current >>= f) (current >>= g) := by
  intro c d hmatches
  have hstep := h c.current c d hmatches
  rw [hkind _ _ hmatches.current.kind] at hstep
  change ((Ahead.pure c.current c).bind _).val.Parallel W _ ((Ahead.pure d.current d).bind _).val
  rwa [Ahead.pure_bind, Ahead.pure_bind]

/-- A parser that looks at the token under consideration. -/
theorem current {f g : Token → Parser (List Token) α} (h : ∀ t u, t.Matches u →
      Parallel (fun c d => (Token.leafPair? (t, u)).toList ++ c.pairsBehind d) W (f t) (g u)) :
    Parallel pairsAhead W (current >>= f) (current >>= g) := by
  intro c d hmatches
  change ((Ahead.pure c.current c).bind _).val.Parallel W _ ((Ahead.pure d.current d).bind _).val
  rw [Ahead.pure_bind, Ahead.pure_bind]
  exact h _ _ hmatches.current _ _ hmatches

/-- A parser that looks at the kind of the token that follows. -/
theorem upcoming {f g : TokenKind → Parser (List Token) α}
    (h : ∀ found, Parallel start W (f found) (g found)) :
    Parallel start W (upcoming >>= f) (upcoming >>= g) := by
  intro c d hmatches
  change ((Ahead.pure c.upcoming.kind c).bind _).val.Parallel W _
    ((Ahead.pure d.upcoming.kind d).bind _).val
  rw [Ahead.pure_bind, Ahead.pure_bind, hmatches.upcoming.kind]
  exact h _ _ _ hmatches

theorem ite {P : Prop} [Decidable P] {p p' q q' : Parser (List Token) α}
    (h : P → Parallel start W p q) (h' : ¬ P → Parallel start W p' q') :
    Parallel start W (if P then p else p') (if P then q else q') := by
  split
  · exact h ‹_›
  · exact h' ‹_›

/-- Moving on brings the token that follows under consideration. -/
theorem advance {p q : Parser (List Token) α} (h : Parallel pairsAhead W p q) :
    Parallel pairsBehind W (advance >>= fun _ => p) (advance >>= fun _ => q) := by
  intro c d hmatches
  rw [val_advance_bind, val_advance_bind, ← hmatches.advance.2]
  exact h _ _ hmatches.advance.1

/-- Behind what was expected a parser may be done with it or not. -/
theorem expect {wanted : TokenKind} {p q : Parser (List Token) α}
    (h : ∀ c d, c.Matches d → c.current.kind = wanted →
      (p c).val.Parallel W (c.pairsAhead d) (q d).val) :
    Parallel pairsBehind W (expect wanted >>= fun _ => p) (expect wanted >>= fun _ => q) := by
  intro c d hmatches
  rw [val_expect_bind, val_expect_bind, hmatches.upcoming.kind]
  split
  · next hfound =>
    rw [← hmatches.advance.2]
    exact h _ _ hmatches.advance.1 (hmatches.upcoming.kind.trans hfound)
  · exact .failed hmatches (.refl _)

/-- What was expected is passed over. -/
theorem past {wanted : TokenKind} {p q : Parser (List Token) α}
    (h : Parallel pairsBehind W p q) :
    Parallel pairsBehind W (Parser.expect wanted >>= fun _ => p)
      (Parser.expect wanted >>= fun _ => q) :=
  .expect fun _ _ hmatches _ => h.ahead _ _ hmatches

theorem skip {kind : TokenKind} {p q : Parser (List Token) α} (h : Parallel pairsBehind W p q) :
    Parallel pairsBehind W (Parser.skip kind >>= fun _ => p)
      (Parser.skip kind >>= fun _ => q) := by
  intro c d hmatches
  rw [val_skip_bind, val_skip_bind, hmatches.upcoming.kind]
  split
  · rw [← hmatches.advance.2]
    exact h.ahead _ _ hmatches.advance.1
  · exact h _ _ hmatches

/-! ## Loops -/

section

variable {item : Parser (List Token) α}

/-- Items go together one by one, by induction on the rounds of the
loop. -/
theorem separated (h : Parallel pairsBehind W item item) :
    Parallel pairsBehind (InTurn W) (separated item) (separated item) := by
  intro c d hmatches
  fun_induction Parser.separated item c generalizing d with
  | case1 c ih =>
    rw [Parser.separated]
    refine Ahead.parallel_bind (h _ _ hmatches) fun pairs a b c' d' hc hd hnodes hmatches' => ?_
    simp only [hmatches'.upcoming.kind]
    split
    · next hcomma =>
      obtain ⟨hnext, hpairs⟩ := hmatches'.advance
      have hrest := ih c' hc (hmatches'.upcoming.kind.trans hcomma) _ hnext
      exact Ahead.parallel_map (hrest.mono (hpairs ▸ Cursor.pairsBehind_sublist))
        fun _ _ _ hlast => .cons hnodes hlast
    · exact .gave (.cons hnodes .nil) hmatches' (.refl _)

theorem separatedUntil (close : TokenKind) (h : Parallel pairsBehind W item item) :
    Parallel pairsBehind (InTurn W) (separatedUntil close item) (separatedUntil close item) := by
  intro c d hmatches
  fun_induction Parser.separatedUntil close item c generalizing d with
  | case1 c hclose =>
    rw [Parser.separatedUntil, if_pos (hmatches.upcoming.kind ▸ hclose)]
    exact .gave .nil hmatches (.refl _)
  | case2 c hclose ih =>
    rw [Parser.separatedUntil, if_neg (hmatches.upcoming.kind ▸ hclose)]
    refine Ahead.parallel_bind (h _ _ hmatches) fun pairs a b c' d' hc hd hnodes hmatches' => ?_
    simp only [hmatches'.upcoming.kind]
    split
    · exact .gave (.cons hnodes .nil) hmatches' (.refl _)
    split
    · next hcomma =>
      obtain ⟨hnext, hpairs⟩ := hmatches'.advance
      have hrest := ih c' hc (hmatches'.upcoming.kind.trans hcomma) _ hnext
      exact Ahead.parallel_map (hrest.mono (hpairs ▸ Cursor.pairsBehind_sublist))
        fun _ _ _ hlast => .cons hnodes hlast
    · exact .failed hmatches' (.refl _)

theorem listed {close : TokenKind} (h : Parallel pairsBehind W item item) :
    Parallel pairsBehind (InTurn W) (listed close item) (listed close item) :=
  .upcoming fun _ => .ite (fun _ => .advance (done .nil).ahead) fun _ =>
    (separated h).bind fun pairs as bs hs => .past (done (by rwa [List.append_nil]))

/-- And so do the statements of a block, those left out that are
dropped. -/
theorem blockBody (h : Parallel pairsAhead W item item) :
    Parallel pairsAhead (InTurn W) (blockBody item) (blockBody item) := by
  intro c d hmatches
  induction c using blockBody_statements item generalizing d with
  | closed c hclose =>
    rw [blockBody_of_rbrace item hclose,
      blockBody_of_rbrace item (hmatches.current.kind ▸ hclose)]
    exact .gave .nil hmatches Cursor.pairsBehind_sublist
  | ended c heof =>
    rw [blockBody_of_eof item heof, blockBody_of_eof item (hmatches.current.kind ▸ heof)]
    exact .failed hmatches Cursor.pairsBehind_sublist
  | statement c hclose heof ih =>
    have hstatement := h _ _ hmatches
    obtain ⟨hnext, hpairs⟩ := hstatement.matches.advance
    have hval := val_blockBody item hclose heof rfl
    rw [hmatches.current.kind] at hclose heof
    have hval' := val_blockBody item hclose heof rfl
    rw [hval, hval']
    exact hstatement.cons (hpairs ▸ ih _ hnext)

end

/-! ## Expressions and statements -/

theorem name : Parallel pairsBehind Leaf.viewName.Pairs name name := by
  refine Parallel.expect fun c d hmatches hident => ?_
  have hpairs : c.pairsAhead d =
      [(.name c.current.literal, .name d.current.literal)] ++ c.pairsBehind d := by
    rw [Cursor.pairsAhead, Token.leafPair?, Token.leaf?, Token.leaf?, ← hmatches.current.kind,
      hident]
    rfl
  rw [hpairs]
  exact .gave ⟨rfl, rfl, rfl, trivial⟩ hmatches (.refl _)

theorem parameters : Parallel pairsBehind Leaf.viewNames.Pairs parameters parameters :=
  Parallel.past (name.listed.imp fun _ _ _ => InTurn.together Leaf.lists)

theorem integer (literal : String) :
    Parallel (fun c d => (Token.leafPair? (⟨.int, literal⟩, ⟨.int, literal⟩)).toList ++
      c.pairsBehind d) Expr.view.Pairs (integer literal) (integer literal) := by
  unfold Parser.integer Token.leafPair? Token.leaf?
  cases Decimal.read? literal.toList with
  | none => exact fail _ fun _ _ => .refl _
  | some value => exact pure ⟨rfl, rfl, rfl, trivial⟩

section

variable {inner : ExprParser (List Token)}
  (h : ∀ floor, Parallel pairsAhead Expr.view.Pairs (inner floor) (inner floor))

include h

theorem nextExpr : Parallel pairsBehind Expr.view.Pairs (nextExpr inner) (nextExpr inner) :=
  Parallel.advance (h _)

theorem statement : Parallel pairsAhead Stmt.view.Pairs (statement inner) (statement inner) := by
  refine Parallel.kind (fun t u htu => by simp only [htu]) fun t => ?_
  split
  · refine Parallel.ahead (name.bind fun pairs name name' hname => Parallel.past ?_)
    refine (nextExpr h).bind fun more a b hvalue => Parallel.skip (done ?_)
    simpa using Stmt.pairs_bind hname hvalue
  · refine Parallel.ahead ((nextExpr h).bind fun pairs a b hvalue => Parallel.skip (done ?_))
    simpa using Stmt.pairs_ret hvalue
  · refine (h _).bind fun pairs a b hvalue => Parallel.skip (done ?_)
    simpa using Stmt.pairs_expr hvalue

theorem block : Parallel pairsBehind Stmt.viewAll.Pairs (block inner) (block inner) :=
  Parallel.past (Parallel.advance
    ((statement h).blockBody.imp fun _ _ _ => InTurn.together Stmt.lists))

theorem pair : Parallel pairsBehind Expr.viewPair.Pairs (pair inner) (pair inner) := by
  refine (nextExpr h).bind fun pairs key key' hkey => Parallel.past ?_
  refine (nextExpr h).bind fun more value value' hvalue => done ?_
  simpa using Expr.pairs_pair (a := (key, value)) hkey hvalue

theorem alternative :
    Parallel pairsBehind Stmt.viewElse.Pairs (alternative inner) (alternative inner) := by
  refine Parallel.upcoming fun found => Parallel.ite (fun _ => ?_) fun _ => ?_
  · refine Parallel.advance (Parallel.ahead ((block h).bind fun pairs as bs hs => done ?_))
    simpa using Stmt.pairs_some hs
  · exact done ⟨rfl, rfl, rfl, trivial⟩

/-- Only names, strings and numbers are taken from the token that an operand
begins with. -/
theorem operand : Parallel pairsAhead Expr.view.Pairs (operand inner) (operand inner) := by
  refine Parallel.current fun t u htu => ?_
  obtain ⟨kind, literal⟩ := t
  obtain ⟨_, literal'⟩ := u
  obtain ⟨rfl, hliteral⟩ := htu
  dsimp only
  split
  · exact pure ⟨rfl, rfl, rfl, trivial⟩
  · obtain rfl : literal = literal' := hliteral (by simp)
    exact integer literal
  · exact pure ⟨rfl, rfl, rfl, trivial⟩
  · exact pure ⟨rfl, rfl, rfl, trivial⟩
  · exact pure ⟨rfl, rfl, rfl, trivial⟩
  · refine (nextExpr h).bind fun pairs a b he => past (done ?_)
    rwa [List.append_nil]
  · refine ((nextExpr h).listed.imp fun _ _ _ => InTurn.together Expr.lists).bind
      fun pairs as bs hs => done ?_
    simpa using Expr.pairs_array hs
  · refine (((pair h).separatedUntil _).imp fun _ _ _ => InTurn.together Expr.listsPairs).bind
      fun pairs as bs hs => past (done ?_)
    simpa using Expr.pairs_hash hs
  · refine past ((nextExpr h).bind fun pairs a b hcondition => past ?_)
    refine (block h).bind fun more as bs hthen => ?_
    refine (alternative h).bind fun last as' bs' helse => done ?_
    simpa using Expr.pairs_cond hcondition hthen helse
  · refine parameters.bind fun pairs ps qs hnames => ?_
    refine (block h).bind fun more as bs hbody => done ?_
    simpa using Expr.pairs_function hnames hbody
  · obtain rfl : literal = literal' := hliteral (by simp)
    exact fail _ fun _ _ => List.sublist_append_right _ _
  · split
    · refine .behind (advance ((h _).bind fun pairs a b he => done ?_))
      simpa using Expr.pairs_unary _ he
    · exact fail _ fun _ _ => List.sublist_append_right _ _

/-- What is applied comes behind the operand before it. -/
theorem applied {pairs : Pairing} {left left' : Expr} (hleft : Expr.view.Pairs pairs left left') :
    Parallel pairsBehind (fun more => Expr.view.Pairs (pairs ++ more)) (applied inner left)
      (applied inner left') := by
  refine kind (fun t u htu => by simp only [htu]) fun t => ?_
  dsimp only
  split
  · refine ((nextExpr h).listed.imp fun _ _ _ => InTurn.together Expr.lists).bind
      fun more as bs hs => done ?_
    simpa using Expr.pairs_call hleft hs
  · refine (nextExpr h).bind fun more a b hposition => past (done ?_)
    simpa using Expr.pairs_index hleft hposition
  · split
    · refine advance ((h _).bind fun more a b hright => done ?_)
      simpa using Expr.pairs_binary _ hleft hright
    · exact done (by rwa [List.append_nil])

theorem extended (floor : Precedence) {pairs : Pairing} {left left' : Expr}
    (hleft : Expr.view.Pairs pairs left left') :
    Parallel pairsBehind (fun more => Expr.view.Pairs (pairs ++ more))
      (extended inner floor left) (extended inner floor left') := by
  intro c d hmatches
  fun_induction Parser.extended inner floor left c generalizing d left' pairs with
  | case1 left c hlt ih =>
    rw [Parser.extended, dif_pos (hmatches.upcoming.kind ▸ hlt)]
    obtain ⟨hnext, hpairs⟩ := hmatches.advance
    refine Ahead.parallel_bind ((applied h hleft _ _ hnext).mono
      (hpairs ▸ Cursor.pairsBehind_sublist)) fun more e e' c' d' hc hd he hmatches' => ?_
    exact (ih e c' hc he _ hmatches').imp fun _ _ _ hlast => by rwa [← List.append_assoc]
  | case2 left c hlt =>
    rw [Parser.extended, dif_neg (hmatches.upcoming.kind ▸ hlt)]
    exact .gave (by rwa [List.append_nil]) hmatches (.refl _)

end

/-- **Expressions are read in parallel**, at whatever level. -/
theorem expr (n : Nat) (floor : Precedence) :
    Parallel pairsAhead Expr.view.Pairs (expr n floor) (expr n floor) := by
  induction n generalizing floor with
  | zero => exact fail _ fun _ _ => Cursor.pairsBehind_sublist
  | succ n ih => exact (operand ih).bind fun pairs left left' hleft => extended ih floor hleft

theorem topStatement : Parallel pairsAhead Stmt.view.Pairs topStatement topStatement :=
  statement (expr nestingLimit)

end Parallel

end Parser

/-! ## Programs -/

/-- Two programs were read with the same errors, and the pairs of their
statements stand among those that were there before. -/
structure Reading.Parallel (before : Pairing) (r q : Reading (List Token)) : Prop where
  errors : r.errors = q.errors
  statements : ∃ pairs, InTurn Stmt.view.Pairs pairs r.statements q.statements ∧ pairs <+ before

section

variable {before : Pairing} {r q : Parsed (List Token) Stmt}

theorem Parsed.Parallel.resume (h : r.Parallel Stmt.view.Pairs before q) :
    r.resume.Matches q.resume := by
  cases h with
  | gave _ hmatches _ => exact hmatches.advance.1
  | failed hmatches _ => exact hmatches.skipStatement.1.advance.1

/-- A statement, which may be dropped, and the reading behind it. -/
theorem Reading.Parallel.cons {rest rest' : Reading (List Token)}
    (h : r.Parallel Stmt.view.Pairs before q)
    (hrest : rest.Parallel (r.resume.pairsAhead q.resume) rest') :
    (r.before rest).Parallel before (q.before rest') := by
  obtain ⟨herrors, pairs, hstatements, hpairs⟩ := hrest
  cases h with
  | @gave a b first _ _ _ _ hnode hmatches hfirst =>
    refine ⟨congrArg (_ ++ ·) herrors, first ++ pairs, .cons hnode hstatements, .trans ?_ hfirst⟩
    exact (hmatches.advance.2 ▸ hpairs).append_left first
  | failed hmatches hfailed =>
    obtain ⟨hskip, hskipped⟩ := hmatches.skipStatement
    refine ⟨congrArg (_ ++ ·) herrors, pairs, hstatements, .trans ?_ (hskipped.trans hfailed)⟩
    exact hskip.advance.2 ▸ hpairs

end

/-- **Statement by statement, programs are read in parallel.** -/
theorem readFrom_parallel {c d : Cursor (List Token)} (h : c.Matches d) :
    (readFrom c).Parallel (c.pairsAhead d) (readFrom d) := by
  rw [← readWith_topStatement, ← readWith_topStatement]
  induction c using readWith_statements (Parser.topStatement (σ := List Token)) generalizing d with
  | ended c heof =>
    rw [readWith_of_eof _ heof, readWith_of_eof _ (h.current.kind ▸ heof)]
    exact ⟨rfl, [], .nil, List.nil_sublist _⟩
  | statement c heof ih =>
    have hstatement := Parser.Parallel.topStatement c d h
    rw [readWith_eq _ heof, readWith_eq (c := d) _ (h.current.kind ▸ heof)]
    exact .cons hstatement (ih hstatement.resume)

/-- **Lists whose tokens match are read in parallel.** -/
theorem read_parallel {ts us : List Token} (h : List.Forall₂ Token.Matches ts us) :
    (read ts).Parallel ((ts.zip us).filterMap Token.leafPair?) (read us) := by
  have hstart : (Cursor.start ts).Matches (.start us) ∧
      (Cursor.start ts).pairsAhead (.start us) = (ts.zip us).filterMap Token.leafPair? := by
    cases h with
    | nil => exact ⟨⟨.refl _, .refl _, .nil⟩, rfl⟩
    | cons hfirst h =>
      refine ⟨?_, ?_⟩
      · cases h with
        | nil => exact ⟨hfirst, .refl _, .nil⟩
        | cons hsecond h => exact ⟨hfirst, hsecond, h⟩
      · rw [List.zip_cons_cons, Token.leafPairs_cons]
        cases h <;> rfl
  rw [← hstart.2]
  exact readFrom_parallel hstart.1

end MonkeyLang
