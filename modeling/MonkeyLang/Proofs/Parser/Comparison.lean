import MonkeyLang.Proofs.Parser.Judgment
import MonkeyLang.Proofs.Parser.Programs
/-!
# Parses side by side

Two parses that stand at corresponding places, each over a source of its
own, end in corresponding ways. What corresponds is up to the `Comparison`:
it says at which places two parses may stand together and how they may have
ended, and shows that this is kept by what a parse can do in one go. The
loops, and with them a whole judgment about parsers, follow once for all
(`Comparison.judgment`). Only the loop over the statements of a block is
left to each comparison, since there a parse moves on even from the end of
the input.
-/

namespace MonkeyLang

open Window (anywhere inside)

variable {σ τ : Type} [TokenSource σ] [TokenSource τ] {α β : Type}

/-- A token that follows and is not the end of the input can be moved on
to. -/
theorem Cursor.current_advance_ne_eof {c : Cursor σ} {kind : TokenKind}
    (h : c.upcoming.kind = kind) (hkind : kind ≠ .eof) : c.advance.current.kind ≠ .eof :=
  fun heof => hkind (h.symm.trans heof)

namespace Ahead

variable {c : Cursor σ}

/-- What goes on after a success in place goes on from there. -/
theorem pure_bind (a : α) (next : α → (d : Cursor σ) → d.left ≤ c.left → Ahead d β) :
    (Ahead.pure a c).bind next = next a c (Nat.le_refl _) :=
  Subtype.ext (by simp [Ahead.pure, Ahead.bind])

/-- After a success what is known of the two tokens in sight holds. -/
def Finishes (f : Window) (r : Ahead c α) : Prop :=
  r.val.node? ≠ none → f r.val.cursor.current.kind r.val.cursor.upcoming.kind

theorem finishes_fail (f : Window) (e : SyntaxError) : (Ahead.fail e c : Ahead c α).Finishes f :=
  fun h => absurd rfl h

theorem Finishes.bind {f : Window} {r : Ahead c α}
    {next : α → (d : Cursor σ) → d.left ≤ c.left → Ahead d β}
    (h : ∀ a hle, r.val.node? = some a → (next a r.val.cursor hle).Finishes f) :
    (r.bind next).Finishes f := by
  obtain ⟨⟨node?, errors, dropped, d⟩, hle⟩ := r
  cases node? with
  | none => exact fun hnode => absurd rfl hnode
  | some a => exact h a hle rfl

theorem Finishes.map {f : Window} {r : Ahead c α} (h : r.Finishes f) (g : α → β) :
    (r.map g).Finishes f := by
  intro hnode
  refine h fun hnone => hnode ?_
  rw [Ahead.map, hnone, Option.map_none]

theorem Finishes.afterAdvance {f : Window} {r : Ahead c.advance α} (h : r.Finishes f) :
    r.afterAdvance.Finishes f := h

end Ahead

/-! ## The statements of a block -/

/-- What a statement of a block, which may be dropped, adds to those behind
it. -/
def Parsed.cons (first : Parsed σ α) (rest : Parsed σ (List α)) : Parsed σ (List α) :=
  ⟨rest.node?.map (first.node?.toList ++ ·), first.errors ++ rest.errors,
    first.dropped + first.node?.elim 1 (fun _ => 0) + rest.dropped, rest.cursor⟩

namespace Parser

/-- At its closing brace a block ends. -/
theorem blockBody_of_rbrace (item : Parser σ α) {c : Cursor σ}
    (h : c.current.kind = .rbrace) : blockBody item c = Ahead.pure [] c := by
  rw [blockBody, if_pos h]

/-- At the end of the input a block is given up. -/
theorem blockBody_of_eof (item : Parser σ α) {c : Cursor σ} (h : c.current.kind = .eof) :
    blockBody item c = Ahead.fail (.unexpected .rbrace .eof) c := by
  rw [blockBody, if_neg (by simp [h]), dif_pos h]

/-- Anywhere else it has a statement, which may be dropped, and goes on one
token behind it. -/
theorem val_blockBody (item : Parser σ α) {c d : Cursor σ} (hclose : c.current.kind ≠ .rbrace)
    (heof : c.current.kind ≠ .eof) (hd : (item c).val.cursor.advance = d) :
    (blockBody item c).val = (item c).val.cons (blockBody item d).val := by
  subst hd
  rw [blockBody, if_neg hclose, dif_neg heof]
  unfold attempt Parsed.cons
  rcases item c with ⟨⟨node?, errors, dropped, d⟩, hle⟩
  cases node? <;> rfl

/-- The statements of a block, one by one. -/
theorem blockBody_statements (item : Parser σ α) {motive : Cursor σ → Prop}
    (closed : ∀ c, c.current.kind = .rbrace → motive c)
    (ended : ∀ c, c.current.kind = .eof → motive c)
    (statement : ∀ c, c.current.kind ≠ .rbrace → c.current.kind ≠ .eof →
      motive (item c).val.cursor.advance → motive c) (c : Cursor σ) : motive c := by
  fun_induction blockBody item c with
  | case1 c hclose => exact closed c hclose
  | case2 c _ heof => exact ended c heof
  | case3 c hclose heof ih => exact statement c hclose heof (ih _ (item c).property)

/-- A block ends on its closing brace, whatever its statements are. -/
theorem finishes_blockBody (item : Parser σ α) (c : Cursor σ) :
    (blockBody item c).Finishes inside := by
  fun_induction blockBody item c with
  | case1 c hclose => exact fun _ heof => absurd (hclose.symm.trans heof) (by decide)
  | case2 c _ _ => exact Ahead.finishes_fail _ _
  | case3 c _ _ ih => exact .bind fun s? hle _ => ((ih _ hle).map _).afterAdvance

/-- How two parses that stand together go on together. -/
structure Comparison (σ τ : Type) [TokenSource σ] [TokenSource τ] where
  /-- The places at which two parses may stand together. -/
  meet : Cursor σ → Cursor τ → Prop
  /-- How they may have ended, with at most so many blocks inside one
  another. -/
  agree : Nat → ∀ {α : Type} {c : Cursor σ} {d : Cursor τ}, Ahead c α → Ahead d α → Prop
  current : ∀ {c : Cursor σ} {d : Cursor τ}, meet c d → c.current.Alike d.current
  upcoming : ∀ {c : Cursor σ} {d : Cursor τ}, meet c d → c.current.kind ≠ .eof →
    c.upcoming.kind = d.upcoming.kind
  advance : ∀ {c : Cursor σ} {d : Cursor τ}, meet c d → c.current.kind ≠ .eof →
    meet c.advance d.advance
  /-- After a success they stand together again. -/
  meets : ∀ {n : Nat} {α : Type} {c : Cursor σ} {d : Cursor τ} {r : Ahead c α} {q : Ahead d α},
    agree n r q → r.val.node? ≠ none → meet r.val.cursor q.val.cursor
  succ : ∀ {n : Nat} {α : Type} {c : Cursor σ} {d : Cursor τ} {r : Ahead c α} {q : Ahead d α},
    agree n r q → agree (n + 1) r q
  pure : ∀ {n : Nat} {α : Type} {c : Cursor σ} {d : Cursor τ} (a : α), meet c d →
    agree n (Ahead.pure a c) (Ahead.pure a d)
  fail : ∀ {n : Nat} {α : Type} {c : Cursor σ} {d : Cursor τ} (e : SyntaxError), meet c d →
    agree n (Ahead.fail e c : Ahead c α) (Ahead.fail e d : Ahead d α)
  bind : ∀ {n : Nat} {α β : Type} {c : Cursor σ} {d : Cursor τ} {r : Ahead c α} {q : Ahead d α}
    {next : α → (c' : Cursor σ) → c'.left ≤ c.left → Ahead c' β}
    {next' : α → (d' : Cursor τ) → d'.left ≤ d.left → Ahead d' β}, agree n r q →
      (∀ a hc hd, r.val.node? = some a →
        agree n (next a r.val.cursor hc) (next' a q.val.cursor hd)) →
          agree n (r.bind next) (q.bind next')
  map : ∀ {n : Nat} {α β : Type} {c : Cursor σ} {d : Cursor τ} {r : Ahead c α} {q : Ahead d α}
    (g : α → β), agree n r q → agree n (r.map g) (q.map g)
  afterAdvance : ∀ {n : Nat} {α : Type} {c : Cursor σ} {d : Cursor τ} {r : Ahead c.advance α}
    {q : Ahead d.advance α}, meet c d → c.current.kind ≠ .eof → agree n r q →
      agree n r.afterAdvance q.afterAdvance
  blockBody : ∀ {n : Nat} {α : Type} {p : Parser σ α} {q : Parser τ α},
    (∀ {c d}, meet c d → c.current.kind ≠ .eof →
      agree n (p c) (q d) ∧ (p c).Finishes inside) →
        ∀ {c d}, meet c d → agree (n + 1) (blockBody p c) (blockBody q d)

namespace Comparison

variable (C : Comparison σ τ) {c : Cursor σ} {d : Cursor τ} {n : Nat} {f m : Window}

/-- Skipping the remains of a statement does not part them. -/
theorem meet_skipStatement (h : C.meet c d) : C.meet c.skipStatement d.skipStatement := by
  have hkind {c : Cursor σ} {d : Cursor τ} (h : C.meet c d) := (C.current h).kind
  fun_induction Cursor.skipStatement c generalizing d with
  | case1 c hstop =>
    by_cases heof : c.current.kind = .eof
    · rwa [Cursor.skipStatement_of_eof (hkind h ▸ heof)]
    · rw [hkind h, C.upcoming h heof] at hstop
      rwa [Cursor.skipStatement, if_pos hstop]
  | case2 c hstop heof => rwa [Cursor.skipStatement_of_eof (hkind h ▸ heof)]
  | case3 c hstop heof ih =>
    have hnext := ih (C.advance h heof)
    rw [hkind h, C.upcoming h heof] at hstop
    rw [hkind h] at heof
    rwa [Cursor.skipStatement.eq_def d, if_neg hstop, dif_neg heof]

/-- Two parses have ended as they may, and after a success what is known of
the tokens in sight holds. -/
structure Ends (n : Nat) (f : Window) (r : Ahead c α) (q : Ahead d α) : Prop where
  agree : C.agree n r q
  finishes : r.Finishes f

variable {C}

theorem Ends.pure (h : C.meet c d) (hf : f c.current.kind c.upcoming.kind) (a : α) :
    C.Ends n f (Ahead.pure a c) (Ahead.pure a d) :=
  ⟨C.pure a h, fun _ => hf⟩

theorem Ends.fail (h : C.meet c d) (e : SyntaxError) :
    C.Ends n f (Ahead.fail e c : Ahead c α) (Ahead.fail e d) :=
  ⟨C.fail e h, Ahead.finishes_fail f e⟩

theorem Ends.bind {r : Ahead c α} {q : Ahead d α}
    {next : α → (c' : Cursor σ) → c'.left ≤ c.left → Ahead c' β}
    {next' : α → (d' : Cursor τ) → d'.left ≤ d.left → Ahead d' β} (h : C.Ends n m r q)
    (hnext : ∀ a {c' d'} hc hd, C.meet c' d' → m c'.current.kind c'.upcoming.kind →
      C.Ends n f (next a c' hc) (next' a d' hd)) :
    C.Ends n f (r.bind next) (q.bind next') := by
  have hend (a : α) (hc hd) (ha : r.val.node? = some a) :
      C.Ends n f (next a r.val.cursor hc) (next' a q.val.cursor hd) := by
    have hnode : r.val.node? ≠ none := ha ▸ Option.some_ne_none a
    exact hnext a hc hd (C.meets h.agree hnode) (h.finishes hnode)
  exact ⟨C.bind h.agree fun a hc hd ha => (hend a hc hd ha).agree,
    .bind fun a hc ha => (hend a hc q.property ha).finishes⟩

theorem Ends.map {r : Ahead c α} {q : Ahead d α} (h : C.Ends n f r q) (g : α → β) :
    C.Ends n f (r.map g) (q.map g) :=
  ⟨C.map g h.agree, h.finishes.map g⟩

theorem Ends.afterAdvance (hmeet : C.meet c d) (hin : c.current.kind ≠ .eof)
    {r : Ahead c.advance α} {q : Ahead d.advance α} (h : C.Ends n f r q) :
    C.Ends n f r.afterAdvance q.afterAdvance :=
  ⟨C.afterAdvance hmeet hin h.agree, h.finishes⟩

/-! ## Loops -/

section

variable {item : Parser σ α} {item' : Parser τ α}

theorem Ends.separated (h : ∀ {c d}, C.meet c d → c.current.kind ≠ .eof →
      C.Ends n inside (item c) (item' d)) (hmeet : C.meet c d) (hin : c.current.kind ≠ .eof) :
    C.Ends n inside (separated item c) (separated item' d) := by
  fun_induction Parser.separated item c generalizing d with
  | case1 c ih =>
    rw [Parser.separated]
    refine (h hmeet hin).bind fun a c' d' hc hd hmeet' hin' => ?_
    simp only [C.upcoming hmeet' hin']
    split
    · next hcomma =>
      rw [← C.upcoming hmeet' hin'] at hcomma
      have hnext := Cursor.current_advance_ne_eof hcomma (by decide)
      exact ((ih c' hc hcomma (C.advance hmeet' hin') hnext).map _).afterAdvance hmeet' hin'
    · exact .pure hmeet' hin' _

theorem Ends.separatedUntil (close : TokenKind) (h : ∀ {c d}, C.meet c d →
      c.current.kind ≠ .eof → C.Ends n inside (item c) (item' d)) (hmeet : C.meet c d)
    (hin : c.current.kind ≠ .eof) :
    C.Ends n inside (separatedUntil close item c) (separatedUntil close item' d) := by
  fun_induction Parser.separatedUntil close item c generalizing d with
  | case1 c hclose =>
    rw [Parser.separatedUntil, if_pos (C.upcoming hmeet hin ▸ hclose)]
    exact .pure hmeet hin _
  | case2 c hclose ih =>
    rw [Parser.separatedUntil, if_neg (C.upcoming hmeet hin ▸ hclose)]
    refine (h hmeet hin).bind fun a c' d' hc hd hmeet' hin' => ?_
    simp only [C.upcoming hmeet' hin']
    split
    · exact .pure hmeet' hin' _
    split
    · next hcomma =>
      rw [← C.upcoming hmeet' hin'] at hcomma
      have hnext := Cursor.current_advance_ne_eof hcomma (by decide)
      exact ((ih c' hc hcomma (C.advance hmeet' hin') hnext).map _).afterAdvance hmeet' hin'
    · exact .fail hmeet' _

end

theorem Ends.extended {inner : ExprParser σ} {inner' : ExprParser τ} (floor : Precedence)
    (h : ∀ left {c d}, C.meet c d → c.current.kind ≠ .eof →
      C.Ends n inside (applied inner left c) (applied inner' left d))
    (left : Expr) (hmeet : C.meet c d) (hin : c.current.kind ≠ .eof) :
    C.Ends n inside (extended inner floor left c) (extended inner' floor left d) := by
  fun_induction Parser.extended inner floor left c generalizing d with
  | case1 left c hlt ih =>
    rw [Parser.extended, dif_pos (C.upcoming hmeet hin ▸ hlt)]
    have hnext : c.advance.current.kind ≠ .eof := Precedence.ne_eof_of_lt_ofKind hlt
    refine .afterAdvance hmeet hin ?_
    exact (h left (C.advance hmeet hin) hnext).bind fun e c' d' hc _ => ih e c' hc
  | case2 left c hlt =>
    rw [Parser.extended, dif_neg (C.upcoming hmeet hin ▸ hlt)]
    exact .pure hmeet hin _

/-! ## The judgment -/

variable (C)

/-- **What is kept in one go is kept by every parser.** -/
def judgment : Judgment σ τ where
  holds n s f _ p q := ∀ {c d}, C.meet c d → s c.current.kind c.upcoming.kind →
    C.Ends n f (p c) (q d)
  succ h _ _ hmeet hs := ⟨C.succ (h hmeet hs).agree, (h hmeet hs).finishes⟩
  weaken hs hf h _ _ hmeet hs' :=
    ⟨(h hmeet (hs _ _ hs')).agree, fun hnode => hf _ _ ((h hmeet (hs _ _ hs')).finishes hnode)⟩
  done a _ _ hmeet hs := .pure hmeet hs a
  fail e _ _ hmeet _ := .fail hmeet e
  bind h hnext _ _ hmeet hs := (h hmeet hs).bind fun a _ _ _ _ => hnext a
  current heq h c d hmeet hs := by
    have hq := heq _ _ (C.current hmeet) ⟨_, hs⟩
    have hstep := h c.current hmeet ⟨hs, rfl⟩
    rw [hq] at hstep
    change C.Ends _ _ ((Ahead.pure c.current c).bind _) ((Ahead.pure d.current d).bind _)
    rw [Ahead.pure_bind, Ahead.pure_bind]
    exact hstep
  upcoming hin h c d hmeet hs := by
    have hstep := h c.upcoming.kind hmeet ⟨hs, rfl⟩
    change C.Ends _ _ ((Ahead.pure c.upcoming.kind c).bind _)
      ((Ahead.pure d.upcoming.kind d).bind _)
    rw [Ahead.pure_bind, Ahead.pure_bind, ← C.upcoming hmeet (hin _ _ hs)]
    exact hstep
  advance hin c d hmeet hs :=
    .afterAdvance hmeet (hin _ _ hs) (.pure (C.advance hmeet (hin _ _ hs)) ⟨_, hs⟩ ())
  separated h _ _ := .separated h
  separatedUntil close h _ _ := .separatedUntil close h
  blockBody h _ _ hmeet _ :=
    ⟨C.blockBody (fun hmeet hin => ⟨(h hmeet hin).agree, (h hmeet hin).finishes⟩) hmeet,
      finishes_blockBody _ _⟩
  extended floor h left _ _ := .extended floor h left

end Comparison

end Parser

end MonkeyLang
