import MonkeyLang.Proofs.Lexing
import MonkeyLang.Proofs.Parser.Comparison
/-!
# Only the tokens count

Two cursors mirror each other when the same tokens lie ahead of them, each
followed by its own source. What a parser makes of two such cursors is the
same node, the same errors and the same number of dropped statements, and
the places reached mirror each other again: that is a comparison of parsers
(`Parser.mirroring`), and so it holds of the reading of a whole program. It
does not matter whether the tokens come from a list or are cut off a text
while the parse goes on (`readText_agrees`).
-/

namespace MonkeyLang

variable {σ τ : Type} [TokenSource σ] [TokenSource τ] {α β : Type}

namespace Cursor

/-- The token that lies some places ahead of a cursor. -/
def token (c : Cursor σ) : Nat → Token
  | 0 => c.current
  | i + 1 => c.advance.token i

/-- The same tokens lie ahead of both cursors. -/
def Mirrors (c : Cursor σ) (d : Cursor τ) : Prop := ∀ i, c.token i = d.token i

namespace Mirrors

variable {c : Cursor σ} {d : Cursor τ}

theorem current (h : c.Mirrors d) : c.current = d.current := h 0

theorem upcoming (h : c.Mirrors d) : c.upcoming = d.upcoming := h 1

theorem advance (h : c.Mirrors d) : c.advance.Mirrors d.advance := fun i => h (i + 1)

end Mirrors

end Cursor

/-- Both ends are the same, and so is what lies ahead of them. -/
structure Ahead.Mirrors {c : Cursor σ} {d : Cursor τ} (r : Ahead c α) (q : Ahead d α) : Prop where
  node? : r.val.node? = q.val.node?
  errors : r.val.errors = q.val.errors
  dropped : r.val.dropped = q.val.dropped
  cursor : r.val.cursor.Mirrors q.val.cursor

namespace Ahead

variable {c : Cursor σ} {d : Cursor τ}

theorem mirrors_pure (h : c.Mirrors d) (a : α) : (Ahead.pure a c).Mirrors (Ahead.pure a d) :=
  ⟨rfl, rfl, rfl, h⟩

theorem mirrors_fail (h : c.Mirrors d) (e : SyntaxError) :
    (Ahead.fail e c : Ahead c α).Mirrors (Ahead.fail e d) :=
  ⟨rfl, rfl, rfl, h⟩

/-- What goes on from both ends goes on with the same node, if there is
one. -/
theorem Mirrors.bind {r : Ahead c α} {q : Ahead d α}
    {f : α → (c' : Cursor σ) → c'.left ≤ c.left → Ahead c' β}
    {g : α → (d' : Cursor τ) → d'.left ≤ d.left → Ahead d' β} (h : r.Mirrors q)
    (hfg : ∀ a hc hd, r.val.node? = some a →
      (f a r.val.cursor hc).Mirrors (g a q.val.cursor hd)) :
    (r.bind f).Mirrors (q.bind g) := by
  obtain ⟨⟨node?, errors, dropped, c'⟩, hc⟩ := r
  obtain ⟨⟨node?', errors', dropped', d'⟩, hd⟩ := q
  obtain ⟨rfl, rfl, rfl, hcursor⟩ := h
  cases node? with
  | none => exact ⟨rfl, rfl, rfl, hcursor⟩
  | some a =>
    obtain ⟨hnode, herrors, hdropped, hcursor'⟩ := hfg a hc hd rfl
    exact ⟨hnode, congrArg (errors ++ ·) herrors, congrArg (dropped + ·) hdropped, hcursor'⟩

theorem Mirrors.map {r : Ahead c α} {q : Ahead d α} (h : r.Mirrors q) (f : α → β) :
    (r.map f).Mirrors (q.map f) :=
  ⟨congrArg (Option.map f) h.node?, h.errors, h.dropped, h.cursor⟩

theorem Mirrors.afterAdvance {r : Ahead c.advance α} {q : Ahead d.advance α} (h : r.Mirrors q) :
    r.afterAdvance.Mirrors q.afterAdvance :=
  ⟨h.node?, h.errors, h.dropped, h.cursor⟩

end Ahead

namespace Parser

/-- The statements of two blocks are the same, by induction on those of the
first one. -/
theorem mirrors_blockBody {p : Parser σ α} {q : Parser τ α} {c : Cursor σ} {d : Cursor τ}
    (h : ∀ {c d}, c.Mirrors d → c.current.kind ≠ .eof → (p c).Mirrors (q d))
    (hcd : c.Mirrors d) : Ahead.Mirrors (blockBody p c) (blockBody q d) := by
  induction c using blockBody_statements p generalizing d with
  | closed c hclose =>
    rw [blockBody_of_rbrace p hclose, blockBody_of_rbrace q (hcd.current ▸ hclose)]
    exact Ahead.mirrors_pure hcd _
  | ended c heof =>
    rw [blockBody_of_eof p heof, blockBody_of_eof q (hcd.current ▸ heof)]
    exact Ahead.mirrors_fail hcd _
  | statement c hclose heof ih =>
    have hitem := h hcd heof
    have hrest := ih hitem.cursor.advance
    have hval := val_blockBody p hclose heof rfl
    have hval' := val_blockBody q (hcd.current ▸ hclose) (hcd.current ▸ heof) rfl
    constructor
    · rw [hval, hval', Parsed.cons, Parsed.cons, hitem.node?, hrest.node?]
    · rw [hval, hval', Parsed.cons, Parsed.cons, hitem.errors, hrest.errors]
    · rw [hval, hval', Parsed.cons, Parsed.cons, hitem.node?, hitem.dropped, hrest.dropped]
    · rw [hval, hval']
      exact hrest.cursor

/-- Parses of the same tokens end alike. -/
def mirroring : Comparison σ τ where
  meet := Cursor.Mirrors
  agree _ _ _ _ := Ahead.Mirrors
  current h := h.current ▸ .refl _
  upcoming h _ := congrArg Token.kind h.upcoming
  advance h _ := h.advance
  meets h _ := h.cursor
  succ := id
  pure a h := Ahead.mirrors_pure h a
  fail e h := Ahead.mirrors_fail h e
  bind h hnext := h.bind hnext
  map g h := h.map g
  afterAdvance _ _ h := h.afterAdvance
  blockBody h _ _ hcd := mirrors_blockBody (fun hcd hin => (h hcd hin).1) hcd

end Parser

/-! ## Programs -/

/-- Two parses made the same of their input. -/
structure Parsed.Agrees (r : Parsed σ α) (q : Parsed τ α) : Prop where
  node? : r.node? = q.node?
  errors : r.errors = q.errors
  dropped : r.dropped = q.dropped

/-- Two readings made the same of their input. -/
structure Reading.Agrees (r : Reading σ) (q : Reading τ) : Prop where
  statements : r.statements = q.statements
  errors : r.errors = q.errors
  dropped : r.dropped = q.dropped

omit [TokenSource σ] [TokenSource τ] in
/-- A statement, which may be dropped, and the reading behind it. -/
theorem Reading.Agrees.before {r : Parsed σ Stmt} {q : Parsed τ Stmt} (h : r.Agrees q)
    {rest : Reading σ} {rest' : Reading τ} (hrest : rest.Agrees rest') :
    (r.before rest).Agrees (q.before rest') := by
  unfold Parsed.before
  rw [h.node?, h.errors, h.dropped, hrest.statements, hrest.errors, hrest.dropped]
  exact ⟨rfl, rfl, rfl⟩

/-- Both readings resume at the same token, also after a failure. -/
theorem Ahead.Mirrors.resume {c : Cursor σ} {d : Cursor τ} {r : Ahead c Stmt} {q : Ahead d Stmt}
    (h : r.Mirrors q) : r.val.resume.Mirrors q.val.resume := by
  unfold Parsed.resume
  rw [h.node?]
  split
  · exact h.cursor.advance
  · exact (Parser.mirroring.meet_skipStatement h.cursor).advance

/-- **Nothing counts but the tokens ahead**, by induction on the statements
that are read. -/
theorem readFrom_agrees {c : Cursor σ} {d : Cursor τ} (h : c.Mirrors d) :
    (readFrom c).Agrees (readFrom d) := by
  rw [← readWith_topStatement, ← readWith_topStatement]
  induction c using readWith_statements (Parser.topStatement (σ := σ)) generalizing d with
  | ended c heof =>
    rw [readWith_of_eof _ heof, readWith_of_eof _ (h.current ▸ heof)]
    exact ⟨rfl, rfl, rfl⟩
  | statement c heof ih =>
    have hstatement := (Parser.mirroring.judgment.topStatement h heof).agree
    rw [readWith_eq _ heof, readWith_eq (c := d) _ (h.current ▸ heof)]
    exact .before ⟨hstatement.node?, hstatement.errors, hstatement.dropped⟩ (ih hstatement.resume)

/-! ## Sources -/

namespace TokenSource

/-- The answer of a source to one of the requests to come. -/
def answer (source : σ) : Nat → Token
  | 0 => (next source).1
  | i + 1 => answer (next source).2 i

/-- A cursor has the first two answers in sight, and comes to each of the
others in its turn. -/
theorem mirrors_start {source : σ} {source' : τ} (h : ∀ i, answer source i = answer source' i) :
    (Cursor.start source).Mirrors (Cursor.start source') := by
  -- with two tokens in sight, what lies ahead is two places behind the answers
  have htoken {υ : Type} [TokenSource υ] (c : Cursor υ) (i : Nat) :
      c.token (i + 2) = answer c.source i := by
    induction i generalizing c with
    | zero => rfl
    | succ i ih => exact ih c.advance
  intro i
  match i with
  | 0 => exact h 0
  | 1 => exact h 1
  | i + 2 =>
    rw [htoken, htoken]
    exact h (i + 2)

/-- Sources that answer alike are read alike. -/
theorem read_agrees {source : σ} {source' : τ} (h : ∀ i, answer source i = answer source' i) :
    (read source).Agrees (read source') :=
  readFrom_agrees (mirrors_start h)

/-- A list answers with its tokens, and with the end of the input from then
on. -/
theorem answer_list (ts : List Token) (i : Nat) : answer ts i = ts.getD i .endOfInput := by
  induction i generalizing ts with
  | zero => cases ts <;> rfl
  | succ i ih =>
    cases ts with
    | nil => exact ih []
    | cons t ts => exact ih ts

/-- A text answers as the list of its tokens does. -/
theorem answer_text (text : List Char) (i : Nat) :
    answer text i = (Token.ofText text).getD i .endOfInput := by
  induction i generalizing text with
  | zero =>
    rw [Token.ofText_eq]
    change (Token.scan text).1 = _
    split
    · next heof => rw [Token.scan_eq_of_eof heof]; rfl
    · rfl
  | succ i ih =>
    rw [Token.ofText_eq]
    change answer (Token.scan text).2 i = _
    rw [ih]
    split
    · next heof => rw [Token.scan_eq_of_eof heof]; simp
    · rfl

end TokenSource

/-- **A text is read as the list of its tokens.** -/
theorem readText_agrees (text : String) :
    (readText text).Agrees (read (Token.ofText text.toList)) :=
  TokenSource.read_agrees fun i => by
    rw [TokenSource.answer_text, TokenSource.answer_list]

end MonkeyLang
