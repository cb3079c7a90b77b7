import MonkeyLang.Parser.Program
/-!
# A logic for parsers

What a parser does may depend on where it is started: most may not stand on
the end of the input. A `Judgment` says something of two parsers, one over
each of two sources, that are started where one condition holds of the two
tokens in sight and that succeed where another holds, and it comes with one
rule for each way to build a parser. The parsers for expressions and
statements are built in these ways, and so every judgment holds of them
(`Judgment.expr`, `Judgment.topStatement`): none of them moves on from the
end of the input, except in a block, whose statements may end there.

The number in a judgment bounds how deeply blocks may be nested in what is
read.
-/

namespace MonkeyLang

/-- Two tokens that mean the same to a parse: their literals differ at most
where literals do not count. -/
structure Token.Alike (t u : Token) : Prop where
  kind : t.kind = u.kind
  literal : t.kind ∈ [.ident, .int, .string, .illegal] → t.literal = u.literal

theorem Token.Alike.refl (t : Token) : t.Alike t := ⟨rfl, fun _ => rfl⟩

/-- What may be known of the two tokens in sight: the kind of the one under
consideration, and that of the one that follows. -/
abbrev Window := TokenKind → TokenKind → Prop

namespace Window

/-- Anything. -/
def anywhere : Window := fun _ _ => True

/-- The end of the input is not reached yet. -/
def inside : Window := fun current _ => current ≠ .eof

/-- The token under consideration is of a given kind. -/
def on (kind : TokenKind) : Window := fun current _ => current = kind

theorem inside_of_on {kind : TokenKind} (hkind : kind ≠ .eof) (k l : TokenKind)
    (h : on kind k l) : inside k l :=
  fun hk => hkind (h.symm.trans hk)

end Window

open Window (anywhere inside on inside_of_on)

namespace Parser

variable {σ τ : Type} [TokenSource σ] [TokenSource τ] {α β : Type}

/-- A statement about pairs of parsers for phrases with at most so many
blocks inside one another, the first of each pair being started where one
condition holds and succeeding where the other does. -/
structure Judgment (σ τ : Type) [TokenSource σ] [TokenSource τ] where
  holds : Nat → Window → Window → ∀ {α : Type}, Parser σ α → Parser τ α → Prop
  succ : ∀ {n : Nat} {s f : Window} {α : Type} {p : Parser σ α} {q : Parser τ α},
    holds n s f p q → holds (n + 1) s f p q
  weaken : ∀ {n : Nat} {s s' f f' : Window} {α : Type} {p : Parser σ α} {q : Parser τ α},
    (∀ k l, s' k l → s k l) → (∀ k l, f k l → f' k l) → holds n s f p q → holds n s' f' p q
  done : ∀ {n : Nat} {s : Window} {α : Type} (a : α), holds n s s (pure a) (pure a)
  fail : ∀ {n : Nat} {s f : Window} {α : Type} (e : SyntaxError),
    holds n s f (fail e : Parser σ α) (fail e)
  bind : ∀ {n : Nat} {s m f : Window} {α β : Type} {p : Parser σ α} {q : Parser τ α}
    {p' : α → Parser σ β} {q' : α → Parser τ β}, holds n s m p q →
      (∀ a, holds n m f (p' a) (q' a)) → holds n s f (p >>= p') (q >>= q')
  current : ∀ {n : Nat} {s f : Window} {α : Type} {p : Token → Parser σ α}
    {q : Token → Parser τ α},
    (∀ t u : Token, t.Alike u → (∃ l, s t.kind l) → q t = q u) →
      (∀ t : Token, holds n (fun k l => s k l ∧ k = t.kind) f (p t) (q t)) →
        holds n s f (current >>= p) (current >>= q)
  upcoming : ∀ {n : Nat} {s f : Window} {α : Type} {p : TokenKind → Parser σ α}
    {q : TokenKind → Parser τ α}, (∀ k l, s k l → k ≠ .eof) →
      (∀ kind, holds n (fun k l => s k l ∧ l = kind) f (p kind) (q kind)) →
        holds n s f (upcoming >>= p) (upcoming >>= q)
  advance : ∀ {n : Nat} {s : Window}, (∀ k l, s k l → k ≠ .eof) →
    holds n s (fun l _ => ∃ k, s k l) advance advance
  separated : ∀ {n : Nat} {α : Type} {p : Parser σ α} {q : Parser τ α},
    holds n inside inside p q → holds n inside inside (separated p) (separated q)
  separatedUntil : ∀ {n : Nat} {α : Type} {p : Parser σ α} {q : Parser τ α} (close : TokenKind),
    holds n inside inside p q →
      holds n inside inside (separatedUntil close p) (separatedUntil close q)
  blockBody : ∀ {n : Nat} {α : Type} {p : Parser σ α} {q : Parser τ α},
    holds n inside inside p q → holds (n + 1) anywhere inside (blockBody p) (blockBody q)
  extended : ∀ {n : Nat} {inner : ExprParser σ} {inner' : ExprParser τ} (floor : Precedence),
    (∀ left, holds n inside inside (applied inner left) (applied inner' left)) →
      ∀ left, holds n inside inside (extended inner floor left) (extended inner' floor left)

namespace Judgment

variable (J : Judgment σ τ) {n : Nat} {s f : Window}

theorem ite {P : Prop} [Decidable P] {p p' : Parser σ α} {q q' : Parser τ α}
    (h : P → J.holds n s f p q) (h' : ¬ P → J.holds n s f p' q') :
    J.holds n s f (if P then p else p') (if P then q else q') := by
  split
  · exact h ‹_›
  · exact h' ‹_›

/-- What may be started somewhere may be started where more is known. -/
theorem started {s' : Window} {p : Parser σ α} {q : Parser τ α} (hs : ∀ k l, s k l → s' k l)
    (h : J.holds n s' f p q) : J.holds n s f p q :=
  J.weaken hs (fun _ _ h => h) h

/-- A parser that stays inside has nothing to do for that. -/
theorem done_inside (hs : ∀ k l, s k l → k ≠ .eof) (a : α) :
    J.holds n s inside (pure a) (pure a) :=
  J.weaken (fun _ _ h => h) hs (J.done a)

/-- On a token that is not the end of the input a parser is inside. -/
theorem done_on {kind : TokenKind} (hkind : kind ≠ .eof) (a : α) :
    J.holds n (on kind) inside (pure a) (pure a) :=
  J.done_inside (inside_of_on hkind) a

/-- Behind a token that was expected it is known which one it is. -/
theorem expect (kind : TokenKind) (hs : ∀ k l, s k l → k ≠ .eof) :
    J.holds n s (on kind) (expect kind) (expect kind) := by
  refine J.upcoming hs fun found => J.ite (fun hfound => ?_) fun _ => J.fail _
  refine J.weaken (fun _ _ h => h) ?_ (J.advance fun k l h => hs k l h.1)
  rintro l - ⟨k, -, rfl⟩
  exact hfound

theorem skip {kind : TokenKind} (hkind : kind ≠ .eof) :
    J.holds n inside inside (skip kind) (skip kind) := by
  refine J.upcoming (fun _ _ h => h) fun found => J.ite (fun hfound => ?_) fun _ => ?_
  · refine J.weaken (fun _ _ h => h) ?_ (J.advance fun k l h => h.1)
    rintro l - ⟨k, -, rfl⟩
    exact hfound ▸ hkind
  · exact J.done_inside (fun _ _ h => h.1) ()

theorem listed {close : TokenKind} (hclose : close ≠ .eof) {item : Parser σ α}
    {item' : Parser τ α} (h : J.holds n inside inside item item') :
    J.holds n inside inside (listed close item) (listed close item') := by
  refine J.upcoming (fun _ _ h => h) fun found => J.ite (fun hfound => ?_) fun _ => ?_
  · refine J.bind (J.advance fun k l h => h.1) fun _ => J.done_inside ?_ []
    rintro l - ⟨k, -, rfl⟩
    exact hfound ▸ hclose
  · refine J.bind (J.started (fun _ _ h => h.1) (J.separated h)) fun as => ?_
    exact J.bind (J.expect _ fun _ _ h => h) fun _ => J.done_on hclose as

theorem name : J.holds n inside inside name name := by
  refine J.bind (J.expect .ident fun _ _ h => h) fun _ => ?_
  refine J.current ?_ fun t => J.done_inside (fun k l h => inside_of_on (by decide) k l h.1) _
  rintro t u htu ⟨l, ht⟩
  exact congrArg pure (htu.literal (by simp [show t.kind = .ident from ht]))

theorem parameters : J.holds n inside inside parameters parameters :=
  J.bind (J.expect _ fun _ _ h => h) fun _ =>
    J.started (inside_of_on (by decide)) (J.listed (by decide) J.name)

theorem integer (hs : ∀ k l, s k l → k ≠ .eof) (literal : String) :
    J.holds n s inside (integer literal) (integer literal) := by
  unfold Parser.integer
  cases Decimal.read? literal.toList with
  | none => exact J.fail _
  | some value => exact J.done_inside hs _

/-- The semicolon that may end a statement is passed on to. -/
theorem ended (a : α) : J.holds n inside inside (Parser.skip .semicolon >>= fun _ => pure a)
    (Parser.skip .semicolon >>= fun _ => pure a) :=
  J.bind (J.skip (by decide)) fun _ => J.done a

section

variable {inner : ExprParser σ} {inner' : ExprParser τ}
  (h : ∀ floor, J.holds n anywhere inside (inner floor) (inner' floor))

include h

/-- An expression that follows begins behind a token that is not the end of
the input. -/
theorem nextExpr (hs : ∀ k l, s k l → k ≠ .eof) :
    J.holds n s inside (nextExpr inner) (nextExpr inner') :=
  J.bind (J.advance hs) fun _ => J.started (fun _ _ _ => trivial) (h _)

/-- A statement is told by its first token, and has one expression. -/
theorem statement : J.holds n inside inside (statement inner) (statement inner') := by
  refine J.current (fun t u htu _ => by simp only [htu.kind]) fun t => ?_
  split
  · refine J.bind (J.started (fun _ _ h => h.1) J.name) fun name => ?_
    refine J.bind (J.expect .assign fun _ _ h => h) fun _ => ?_
    exact J.bind (J.nextExpr h (inside_of_on (by decide))) fun value => J.ended _
  · exact J.bind (J.nextExpr h fun _ _ h => h.1) fun value => J.ended _
  · exact J.bind (J.started (fun _ _ _ => trivial) (h _)) fun value => J.ended _

/-- A block is one deeper than its statements. -/
theorem block (hs : ∀ k l, s k l → k ≠ .eof) :
    J.holds (n + 1) s inside (block inner) (block inner') := by
  refine J.bind (J.expect .lbrace hs) fun _ => ?_
  refine J.bind (J.advance (inside_of_on (by decide))) fun _ => ?_
  exact J.started (fun _ _ _ => trivial) (J.blockBody (J.statement h))

theorem alternative :
    J.holds (n + 1) inside inside (alternative inner) (alternative inner') := by
  refine J.upcoming (fun _ _ h => h) fun found => J.ite (fun hfound => ?_) fun _ => ?_
  · refine J.bind (J.advance fun _ _ h => h.1) fun _ => J.bind (J.block h ?_) fun body => J.done _
    rintro l - ⟨k, -, rfl⟩ rfl
    exact absurd hfound (by decide)
  · exact J.done_inside (fun _ _ h => h.1) _

theorem pair : J.holds n inside inside (pair inner) (pair inner') := by
  refine J.bind (J.nextExpr h fun _ _ h => h) fun key => ?_
  refine J.bind (J.expect .colon fun _ _ h => h) fun _ => ?_
  exact J.bind (J.nextExpr h (inside_of_on (by decide))) fun value => J.done _

/-- What an operand begins with is looked at wherever the parser stands. -/
theorem operand : J.holds (n + 1) anywhere inside (operand inner) (operand inner') := by
  have hsucc (floor : Precedence) := J.succ (h floor)
  refine J.current ?_ fun t => ?_
  · rintro ⟨k, literal⟩ ⟨_, literal'⟩ ⟨rfl, hliteral⟩ -
    by_cases hk : k ∈ [.ident, .int, .string, .illegal]
    · rw [show literal = literal' from hliteral hk]
    · cases k with
      | ident | int | string | illegal => exact absurd (by decide) hk
      | _ => rfl
  have hon {kind : TokenKind} (hkind : t.kind = kind) (hne : kind ≠ .eof) :
      ∀ k l, anywhere k l ∧ k = t.kind → k ≠ .eof := by
    rintro k l ⟨-, rfl⟩
    exact hkind ▸ hne
  split
  · next hk => exact J.done_inside (hon hk (by decide)) _
  · next hk => exact J.integer (hon hk (by decide)) _
  · next hk => exact J.done_inside (hon hk (by decide)) _
  · next hk => exact J.done_inside (hon hk (by decide)) _
  · next hk => exact J.done_inside (hon hk (by decide)) _
  · next hk =>
    refine J.bind (J.nextExpr hsucc (hon hk (by decide))) fun e => ?_
    exact J.bind (J.expect _ fun _ _ h => h) fun _ => J.done_on (by decide) _
  · next hk =>
    have hitem := J.nextExpr hsucc (s := inside) fun _ _ h => h
    exact J.bind (J.started (hon hk (by decide)) (J.listed (by decide) hitem)) fun es => J.done _
  · next hk =>
    refine J.bind (J.started (hon hk (by decide)) (J.separatedUntil .rbrace (J.pair hsucc)))
      fun pairs => ?_
    exact J.bind (J.expect _ fun _ _ h => h) fun _ => J.done_on (by decide) _
  · next hk =>
    refine J.bind (J.expect .lparen (hon hk (by decide))) fun _ => ?_
    refine J.bind (J.nextExpr hsucc (inside_of_on (by decide))) fun condition => ?_
    refine J.bind (J.expect .rparen fun _ _ h => h) fun _ => ?_
    refine J.bind (J.block h (inside_of_on (by decide))) fun consequence => ?_
    exact J.bind (J.alternative h) fun alternative => J.done _
  · next hk =>
    refine J.bind (J.started (hon hk (by decide)) J.parameters) fun parameters => ?_
    exact J.bind (J.block h fun _ _ h => h) fun body => J.done _
  · exact J.fail _
  · split
    · next op hop =>
      refine J.bind (J.advance (hon rfl ?_)) fun _ => ?_
      · rintro heof
        rw [heof] at hop
        cases hop
      · exact J.bind (J.started (fun _ _ _ => trivial) (hsucc _)) fun e => J.done _
    · exact J.fail _

theorem applied (left : Expr) :
    J.holds n inside inside (applied inner left) (applied inner' left) := by
  refine J.current (fun t u htu _ => by simp only [htu.kind]) fun t => ?_
  dsimp only
  split
  · have hitem := J.nextExpr h (s := inside) fun _ _ h => h
    exact J.bind (J.started (fun _ _ h => h.1) (J.listed (by decide) hitem)) fun es => J.done _
  · refine J.bind (J.nextExpr h fun _ _ h => h.1) fun position => ?_
    exact J.bind (J.expect _ fun _ _ h => h) fun _ => J.done_on (by decide) _
  · split
    · refine J.bind (J.advance fun _ _ h => h.1) fun _ => ?_
      exact J.bind (J.started (fun _ _ _ => trivial) (h _)) fun e => J.done _
    · exact J.done_inside (fun _ _ h => h.1) _

/-- An operand and what follows it. -/
theorem extendedOperand (floor : Precedence) :
    J.holds (n + 1) anywhere inside
      (Parser.operand inner >>= fun left => Parser.extended inner floor left)
      (Parser.operand inner' >>= fun left => Parser.extended inner' floor left) :=
  J.bind (J.operand h) (J.extended floor (J.applied fun floor => J.succ (h floor)))

end

/-- **Every judgment holds of the parser for expressions**, wherever it is
started. -/
theorem expr (n : Nat) (floor : Precedence) :
    J.holds n anywhere inside (expr n floor) (expr n floor) := by
  induction n generalizing floor with
  | zero => exact J.fail _
  | succ n ih => exact J.extendedOperand ih floor

theorem topStatement : J.holds nestingLimit inside inside topStatement topStatement :=
  J.statement (J.expr nestingLimit)

end Judgment

end Parser

end MonkeyLang
