import Mathlib.Data.List.DropRight
import MonkeyLang.Proofs.Parser.Comparison
import MonkeyLang.Proofs.Parser.Sources
/-!
# What a parse asks for

A source that keeps its answers shows how often it was asked. What was asked
and what a parse can still learn together do not grow by a step, as long as
there is something to learn; only a step from the end of the input is on top
of that. Such a step is made by a block, whose last statement was given up at
the end of the input, before the block itself is given up there, and once by
the reading of a program before it ends. As blocks are inside one another no
more deeply than expressions, this bounds what is asked for
(`requests_le`).
-/

namespace MonkeyLang

variable {σ : Type} [TokenSource σ] {α β : Type}

/-- A source and the answers it has given, from the first one on. -/
structure Recorded (σ : Type) where
  source : σ
  answers : List Token

namespace Recorded

/-- A source that was not asked yet. -/
def new (source : σ) : Recorded σ := ⟨source, []⟩

instance : TokenSource (Recorded σ) where
  next r := ((TokenSource.next r.source).1,
    ⟨(TokenSource.next r.source).2, r.answers ++ [(TokenSource.next r.source).1]⟩)
  remaining r := TokenSource.remaining r.source
  remaining_next_le r := TokenSource.remaining_next_le r.source
  kind_next_of_remaining_eq_zero r := TokenSource.kind_next_of_remaining_eq_zero r.source

theorem answer_new (source : σ) (answers : List Token) (i : Nat) :
    TokenSource.answer (⟨source, answers⟩ : Recorded σ) i = TokenSource.answer source i := by
  induction i generalizing source answers with
  | zero => rfl
  | succ i ih => exact ih _ _

/-- Keeping the answers does not change them. -/
theorem read_new_agrees (source : σ) : (read (new source)).Agrees (read source) :=
  TokenSource.read_agrees (answer_new source [])

end Recorded

/-- The answers that the reading of a source has asked for. -/
def answersRead (source : σ) : List Token := (read (Recorded.new source)).cursor.source.answers

/-! ## What a step costs -/

namespace Cursor

theorem upcoming_eq_eof_of_left {c : Cursor σ} (h : c.left = 0) : c.upcoming.kind = .eof :=
  Decidable.of_not_not fun hne => left_ne_zero_of_upcoming hne h

theorem current_eq_eof_of_left {c : Cursor σ} (h : c.left = 0) : c.current.kind = .eof :=
  Decidable.of_not_not fun hne => left_ne_zero_of_current hne h

variable {c : Cursor (Recorded σ)}

/-- What was asked for, and what there is still to learn. -/
def charge (c : Cursor (Recorded σ)) : Nat := c.source.answers.length + c.left

theorem length_answers_advance (c : Cursor (Recorded σ)) :
    c.advance.source.answers.length = c.source.answers.length + 1 :=
  List.length_append

/-- As long as there is something to learn a step costs nothing. -/
theorem charge_advance_le (h : c.left ≠ 0) : c.advance.charge ≤ c.charge := by
  have hle := c.left_advance_le
  simp only [charge, length_answers_advance]
  omega

/-- After that it costs one request. -/
theorem charge_advance_le_succ (c : Cursor (Recorded σ)) : c.advance.charge ≤ c.charge + 1 := by
  have hle := c.left_advance_le
  simp only [charge, length_answers_advance]
  omega

/-- There is no more to learn at first than the source holds. -/
theorem charge_start_le (source : σ) :
    (start (Recorded.new source)).charge ≤ TokenSource.remaining source + 2 := by
  have hfirst := TokenSource.remaining_next_le source
  have hsecond := TokenSource.remaining_next_le (TokenSource.next source).2
  have hend := TokenSource.kind_next_of_remaining_eq_zero source
  have hend' := TokenSource.kind_next_of_remaining_eq_zero (TokenSource.next source).2
  have hanswers : (start (Recorded.new source)).source.answers.length = 2 := rfl
  have hleft : (start (Recorded.new source)).left ≤ TokenSource.remaining source := by
    change (if TokenSource.remaining (TokenSource.next (TokenSource.next source).2).2 ≠ 0 then
      TokenSource.remaining (TokenSource.next (TokenSource.next source).2).2 + 2
      else if (TokenSource.next (TokenSource.next source).2).1.kind ≠ .eof then 2
      else if (TokenSource.next source).1.kind ≠ .eof then 1 else 0) ≤ _
    grind
  simp only [charge, hanswers]
  omega

/-- The answers were those of a source in their order, from the first one on,
and the answers to come are those behind them. -/
def Follows (source : σ) (c : Cursor (Recorded σ)) : Prop :=
  ∀ count, c.source.answers ++ TokenSource.take c.source.source count =
    TokenSource.take source (c.source.answers.length + count)

theorem follows_start (source : σ) : (start (Recorded.new source)).Follows source := by
  intro count
  change _ = TokenSource.take source (2 + count)
  rw [Nat.add_comm]
  rfl

theorem Follows.advance {source : σ} (h : c.Follows source) : c.advance.Follows source := by
  intro count
  have hnext := h (count + 1)
  rw [length_answers_advance, Nat.add_assoc, Nat.add_comm 1, ← hnext]
  exact List.append_assoc _ _ _

end Cursor

/-! ## Blocks given up at the end -/

/-- How many blocks were given up at the end of the input, one right after
the other, as the last thing that was recorded. -/
def unclosed (errors : List SyntaxError) : Nat :=
  (errors.rtakeWhile (· = .unexpected .rbrace .eof)).length

theorem unclosed_le_append (errors errors' : List SyntaxError) :
    unclosed errors' ≤ unclosed (errors ++ errors') := by
  unfold unclosed List.rtakeWhile
  rw [List.reverse_append, List.takeWhile_append]
  split
  · next hall => simp [hall]
  · exact le_rfl

theorem unclosed_concat (errors : List SyntaxError) :
    unclosed (errors ++ [.unexpected .rbrace .eof]) = unclosed errors + 1 := by
  simp [unclosed]

/-- A parse that read phrases with at most `n` blocks inside one another
asked for no more than it could learn from, up to one request for each
block that was given up last, and for each of the `n`. If there was such a
request then the parse failed where there is nothing more to learn. -/
structure Ahead.Thrifty (n : Nat) {c : Cursor (Recorded σ)} (r : Ahead c α) : Prop where
  blocks : r.val.cursor.charge ≤ c.charge + n
  errors : r.val.cursor.charge ≤ c.charge + unclosed r.val.errors
  spent : c.charge < r.val.cursor.charge → r.val.node? = none ∧ r.val.cursor.left = 0

namespace Ahead

variable {c : Cursor (Recorded σ)} {n : Nat}

/-- What did not cost anything is thrifty. -/
theorem Thrifty.of_le {r : Ahead c α} (h : r.val.cursor.charge ≤ c.charge) : r.Thrifty n where
  blocks := by omega
  errors := by omega
  spent hlt := by omega

theorem Thrifty.succ {r : Ahead c α} (h : r.Thrifty n) : r.Thrifty (n + 1) :=
  ⟨Nat.le_succ_of_le h.blocks, h.errors, h.spent⟩

theorem Thrifty.le_of_node {r : Ahead c α} (h : r.Thrifty n) (hnode : r.val.node? ≠ none) :
    r.val.cursor.charge ≤ c.charge :=
  Nat.le_of_not_lt fun hlt => hnode (h.spent hlt).1

theorem Thrifty.le_of_left {r : Ahead c α} (h : r.Thrifty n) (hleft : r.val.cursor.left ≠ 0) :
    r.val.cursor.charge ≤ c.charge :=
  Nat.le_of_not_lt fun hlt => hleft (h.spent hlt).2

/-- What ends like something that started where no more was paid, with errors
in front of its own, is as thrifty as that. -/
theorem Thrifty.of_end {d : Cursor (Recorded σ)} {q : Ahead d β} (h : q.Thrifty n)
    (hle : d.charge ≤ c.charge) {r : Ahead c α} (errors : List SyntaxError)
    (hnode : q.val.node? = none → r.val.node? = none)
    (herrors : r.val.errors = errors ++ q.val.errors) (hcursor : r.val.cursor = q.val.cursor) :
    r.Thrifty n := by
  have happend := unclosed_le_append errors q.val.errors
  have hblocks := h.blocks
  have hunclosed := h.errors
  constructor
  · rw [hcursor]
    omega
  · rw [hcursor, herrors]
    omega
  · rw [hcursor]
    intro hlt
    obtain ⟨hnone, hleft⟩ := h.spent (Nat.lt_of_le_of_lt hle hlt)
    exact ⟨hnode hnone, hleft⟩

theorem Thrifty.bind {r : Ahead c α} {next : α → (d : Cursor (Recorded σ)) → d.left ≤ c.left →
      Ahead d β} (h : r.Thrifty n)
    (hnext : ∀ a hle, r.val.node? = some a → (next a r.val.cursor hle).Thrifty n) :
    (r.bind next).Thrifty n := by
  have hpaid := h.le_of_node
  obtain ⟨⟨node?, errors, dropped, d⟩, hle⟩ := r
  cases node? with
  | none => exact h.of_end le_rfl [] (fun _ => rfl) rfl rfl
  | some a => exact (hnext a hle rfl).of_end (hpaid nofun) errors id rfl rfl

/-- **A block pays for the token that it passes at the end of the input.**
It goes on one token behind a statement, and where the statement came to
the end of the input it is given up there. -/
theorem Thrifty.of_block {r : Ahead c β} (h : r.Thrifty n)
    {rest : Ahead r.val.cursor.advance (List β)} (hrest : rest.Thrifty (n + 1))
    (hend : r.val.cursor.left = 0 →
      rest = Ahead.fail (.unexpected .rbrace .eof) r.val.cursor.advance)
    {q : Ahead c (List β)} (hq : q.val = r.val.cons rest.val) : q.Thrifty (n + 1) := by
  have hnode (hnone : rest.val.node? = none) : q.val.node? = none := by
    rw [hq]
    exact congrArg (Option.map _) hnone
  have herrors : q.val.errors = r.val.errors ++ rest.val.errors := congrArg Parsed.errors hq
  have hcursor : q.val.cursor = rest.val.cursor := by
    rw [hq]
    rfl
  by_cases hleft : r.val.cursor.left = 0
  · have hpaid := r.val.cursor.charge_advance_le_succ
    have hblocks := h.blocks
    have hunclosed := h.errors
    have hspent : r.val.cursor.advance.left = 0 := by
      have := r.val.cursor.left_advance_le
      omega
    obtain rfl := hend hleft
    have hcursor : q.val.cursor = r.val.cursor.advance := hcursor
    have herrors : q.val.errors = r.val.errors ++ [.unexpected .rbrace .eof] := herrors
    refine ⟨?_, ?_, fun _ => ⟨hnode rfl, hcursor ▸ hspent⟩⟩
    · rw [hcursor]
      omega
    · rw [hcursor, herrors, unclosed_concat]
      omega
  · have hpaid := Nat.le_trans (Cursor.charge_advance_le hleft) (h.le_of_left hleft)
    exact hrest.of_end hpaid r.val.errors hnode herrors hcursor

end Ahead

namespace Parser

/-- Blocks inside a block may be one fewer inside one another. -/
theorem thrifty_blockBody {source : σ} {n : Nat} {p q : Parser (Recorded σ) α}
    (h : ∀ {c : Cursor (Recorded σ)}, c.Follows source → c.current.kind ≠ .eof →
      (p c).val = (q c).val ∧ (p c).Thrifty n ∧ (p c).val.cursor.Follows source)
    {c : Cursor (Recorded σ)} (hc : c.Follows source) :
    (blockBody p c).val = (blockBody q c).val ∧ Ahead.Thrifty (n + 1) (blockBody p c) ∧
      (blockBody p c).val.cursor.Follows source := by
  induction c using blockBody_statements p with
  | closed c hclose =>
    rw [blockBody_of_rbrace p hclose, blockBody_of_rbrace q hclose]
    exact ⟨rfl, .of_le le_rfl, hc⟩
  | ended c heof =>
    rw [blockBody_of_eof p heof, blockBody_of_eof q heof]
    exact ⟨rfl, .of_le le_rfl, hc⟩
  | statement c hclose heof ih =>
    obtain ⟨heq, hthrifty, hfollows⟩ := h hc heof
    obtain ⟨hrest, hthrifty', hfollows'⟩ := ih hfollows.advance
    have hval := val_blockBody p hclose heof rfl
    refine ⟨?_, ?_, ?_⟩
    · rw [hval, val_blockBody q hclose heof rfl, ← heq]
      simp only [hrest]
    · refine hthrifty.of_block hthrifty' (fun hleft => ?_) hval
      exact blockBody_of_eof p (Cursor.upcoming_eq_eof_of_left hleft)
    · rw [hval]
      exact hfollows'

/-- Parsers are thrifty: where they start inside, or look at the token they
start on, they move on only as long as there is something to learn. -/
def thrift (source : σ) : Comparison (Recorded σ) (Recorded σ) where
  meet c d := c = d ∧ c.Follows source
  agree n _ _ _ r q := r.val = q.val ∧ r.Thrifty n ∧ r.val.cursor.Follows source
  meets h _ := ⟨congrArg Parsed.cursor h.1, h.2.2⟩
  current h := h.1 ▸ .refl _
  upcoming h _ := by rw [h.1]
  advance h _ := ⟨congrArg Cursor.advance h.1, h.2.advance⟩
  succ h := ⟨h.1, h.2.1.succ, h.2.2⟩
  pure a h := ⟨by rw [h.1], .of_le le_rfl, h.2⟩
  fail e h := ⟨by rw [h.1], .of_le le_rfl, h.2⟩
  bind {n _ _ _ _ r q next next'} h hnext := by
    have hthrifty := h.2.1.bind fun a hle ha => (hnext a hle (h.1 ▸ q.property) ha).2.1
    obtain ⟨⟨node?, errors, dropped, c'⟩, hc⟩ := r
    obtain ⟨⟨_, _, _, _⟩, hd⟩ := q
    obtain ⟨rfl, rfl, rfl, rfl⟩ := h.1
    cases node? with
    | none => exact ⟨rfl, hthrifty, h.2.2⟩
    | some a =>
      obtain ⟨heq, -, hfollows⟩ := hnext a hc hd rfl
      exact ⟨by simp only [Ahead.bind, heq], hthrifty, hfollows⟩
  map g h := by
    refine ⟨by simp only [Ahead.map, h.1], ?_, h.2.2⟩
    refine h.2.1.of_end le_rfl [] (fun hnone => ?_) rfl rfl
    exact congrArg (Option.map g) hnone
  afterAdvance _ hin h :=
    have hpaid := Cursor.charge_advance_le (Cursor.left_ne_zero_of_current hin)
    ⟨h.1, h.2.1.of_end hpaid [] id rfl rfl, h.2.2⟩
  blockBody h c d hmeet := by
    obtain ⟨rfl, hfollows⟩ := hmeet
    exact thrifty_blockBody (fun hc hin => (h ⟨rfl, hc⟩ hin).1) hfollows

theorem thrifty_topStatement {source : σ} {c : Cursor (Recorded σ)} (h : c.Follows source)
    (hin : c.current.kind ≠ .eof) :
    (topStatement c).Thrifty nestingLimit ∧ (topStatement c).val.cursor.Follows source :=
  ((thrift source).judgment.topStatement ⟨rfl, h⟩ hin).agree.2

end Parser

/-! ## Programs -/

/-- What is skipped of a statement costs nothing. -/
theorem Cursor.skipStatement_thrifty {source : σ} {c : Cursor (Recorded σ)}
    (h : c.Follows source) :
    c.skipStatement.Follows source ∧ c.skipStatement.charge ≤ c.charge := by
  refine skipStatement_steps (motive := fun d : Cursor (Recorded σ) =>
    d.Follows source ∧ d.charge ≤ c.charge) ⟨h, le_rfl⟩ fun d hd heof => ?_
  have hstep := charge_advance_le (left_ne_zero_of_current heof)
  exact ⟨hd.1.advance, Nat.le_trans hstep hd.2⟩

/-- Going on after a statement costs nothing, as long as reading does not end
there. -/
theorem Parsed.resume_thrifty {source : σ} {r : Parsed (Recorded σ) Stmt}
    (h : r.cursor.Follows source) :
    r.resume.Follows source ∧ r.resume.charge ≤ r.cursor.charge + 1 ∧
      (r.resume.current.kind ≠ .eof → r.resume.charge ≤ r.cursor.charge) := by
  have hadvance {c : Cursor (Recorded σ)} (hc : c.Follows source)
      (hle : c.charge ≤ r.cursor.charge) : c.advance.Follows source ∧
        c.advance.charge ≤ r.cursor.charge + 1 ∧
          (c.advance.current.kind ≠ .eof → c.advance.charge ≤ r.cursor.charge) := by
    have hsucc := c.charge_advance_le_succ
    refine ⟨hc.advance, by omega, fun heof => ?_⟩
    have hstep := Cursor.charge_advance_le (Cursor.left_ne_zero_of_upcoming heof)
    omega
  unfold resume
  split
  · exact hadvance h le_rfl
  · obtain ⟨hfollows, hle⟩ := Cursor.skipStatement_thrifty h
    exact hadvance hfollows hle

/-- Where there is nothing more to learn, reading ends. -/
theorem Parsed.resume_of_left {σ : Type} [TokenSource σ] {r : Parsed σ Stmt}
    (h : r.cursor.left = 0) : r.resume.current.kind = .eof := by
  have hend : r.cursor.advance.current.kind = .eof := Cursor.upcoming_eq_eof_of_left h
  unfold resume
  split
  · exact hend
  · rw [Cursor.skipStatement_of_eof (Cursor.current_eq_eof_of_left h)]
    exact hend

/-- A reading asks for as much as its statements do, and for one token more at
the end. -/
theorem thrifty_readFrom {source : σ} {c : Cursor (Recorded σ)} (h : c.Follows source) :
    (readFrom c).cursor.charge ≤ c.charge + nestingLimit + 1 ∧
      (readFrom c).cursor.charge ≤ c.charge + unclosed (readFrom c).errors + 1 ∧
        (readFrom c).cursor.Follows source := by
  rw [← readWith_topStatement]
  induction c using readWith_statements (Parser.topStatement (σ := Recorded σ)) with
  | ended c heof =>
    rw [readWith_of_eof _ heof]
    exact ⟨Nat.le_add_right_of_le (Nat.le_add_right _ _),
      Nat.le_add_right_of_le (Nat.le_add_right _ _), h⟩
  | statement c heof ih =>
    obtain ⟨hthrifty, hfollows⟩ := Parser.thrifty_topStatement h heof
    obtain ⟨hresume, hone, hnone⟩ := Parsed.resume_thrifty hfollows
    obtain ⟨hblocks, herrors, hend⟩ := ih hresume
    have hfirst := hthrifty.blocks
    have hfirst' := hthrifty.errors
    rw [readWith_eq _ heof]
    by_cases hstop : (Parser.topStatement c).val.resume.current.kind = .eof
    · simp only [readWith_of_eof _ hstop, Parsed.before, List.append_nil] at hend ⊢
      exact ⟨by omega, by omega, hend⟩
    · -- the statement did not come to the end of the input, and so it was paid for
      have hpaid := hthrifty.le_of_left fun hleft => hstop (Parsed.resume_of_left hleft)
      have hle := Nat.le_trans (hnone hstop) hpaid
      have happend := unclosed_le_append (Parser.topStatement c).val.errors
        (readWith Parser.topStatement (Parser.topStatement c).val.resume).errors
      dsimp only [Parsed.before]
      exact ⟨by omega, by omega, hend⟩

/-- **What a parse asks for is bounded.** The parse of a list of tokens,
which always comes to an end, asks for no more tokens than there are,
three, and one for each level of nesting. It asks for them in their order
and for none twice. Those beyond the list and the end of the input that is
in sight behind it are one for the reading as a whole, and at most one for
each of the blocks that are given up there at last. -/
theorem requests_le (tokens : List Token) :
    (read (Recorded.new tokens)).Agrees (read tokens) ∧
      (answersRead tokens).length ≤ tokens.length + nestingLimit + 3 ∧
      answersRead tokens = TokenSource.take tokens (answersRead tokens).length ∧
      (answersRead tokens).length ≤ tokens.length + 2 + unclosed (read tokens).errors + 1 := by
  have hagrees := Recorded.read_new_agrees tokens
  obtain ⟨hblocks, herrors, hfollows⟩ :
      (read (Recorded.new tokens)).cursor.charge ≤ _ ∧
        (read (Recorded.new tokens)).cursor.charge ≤
          _ + unclosed (read (Recorded.new tokens)).errors + 1 ∧ _ :=
    thrifty_readFrom (Cursor.follows_start tokens)
  have hstart : (Cursor.start (Recorded.new tokens)).charge ≤ tokens.length + 2 :=
    Cursor.charge_start_le tokens
  have hcharge : (answersRead tokens).length ≤ (read (Recorded.new tokens)).cursor.charge :=
    Nat.le_add_right _ _
  refine ⟨hagrees, by omega, ?_, ?_⟩
  · have hlast := hfollows 0
    rwa [TokenSource.take, List.append_nil, Nat.add_zero] at hlast
  · rw [← hagrees.errors]
    omega

end MonkeyLang
