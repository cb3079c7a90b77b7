import MonkeyLang.Proofs.Parser.Yields
/-!
# Parsing in front of a barrier

A parser that meets no block does not get past a semicolon, nor past the end
of the input or a word that begins a statement: it ends at such a barrier or
before it, and what it makes of the tokens up to there depends on what
follows only by the kind of the barrier, which its errors may mention. If it
fails on the barrier itself, then because the last token in front of it
demands an expression. `Parser.Confined` says so, with what has to hold of
the tokens up to the barrier where the parser starts and of those where it
succeeds: most parsers look at the token that follows, and so must not stand
on the barrier itself. As with any such triple there is one rule for each way
to build a parser, and from the rules the parsers for expressions and
statements are confined (`confined_expr`, `confined_statement`).

Blocks are what makes a difference, since the statements inside them have
barriers of their own; so the tokens that open one are left out.
-/

namespace MonkeyLang

variable {α β : Type}

/-- A token that neither opens a block nor ends the input. -/
structure Token.Inner (t : Token) : Prop where
  ne_eof : t.kind ≠ .eof
  ne_ifWord : t.kind ≠ .ifWord
  ne_fnWord : t.kind ≠ .fnWord

namespace TokenKind

/-- What holds a parse up: these begin no expression, go on with none and
stand nowhere inside one, blocks apart. -/
def barriers : List TokenKind := [.semicolon, .eof, .letWord, .returnWord]

/-- What an expression has to follow. -/
def demanding : List TokenKind :=
  [.assign, .returnWord, .bang, .plus, .minus, .asterisk, .slash, .lt, .gt, .eq, .notEq, .comma,
    .colon, .lparen, .lbracket, .lbrace]

end TokenKind

open TokenKind (barriers demanding)

/-- The kind of the first of some tokens, or of the end of the input. -/
def Token.firstKind (ts : List Token) : TokenKind := (ts.headD .endOfInput).kind

/-- The last token, if there is one, is still in need of an expression. -/
def Token.Dangling (ts : List Token) : Prop := ∀ t ∈ ts.getLast?, t.kind ∈ demanding

open Token (firstKind Dangling)

theorem Token.Dangling.of_suffix {ts us : List Token} (h : Dangling us) (hus : us <:+ ts)
    (hne : us ≠ []) : Dangling ts := by
  obtain ⟨ws, rfl⟩ := hus
  intro t ht
  rw [List.getLast?_append, List.getLast?_eq_some_getLast hne, Option.some_or,
    ← List.getLast?_eq_some_getLast hne] at ht
  exact h t ht

/-- A parse that started at `ts`, with something behind them that begins as
`fence` says, ended without getting past it, and the same way whatever it
was: only the errors may depend on the kind it begins with. If the parse
succeeded, `finish` holds of the tokens that are left. -/
def Settles (fence : List TokenKind) (ts : List Token) (finish : List Token → Prop)
    (run : List Token → Parsed (List Token) α) : Prop :=
  ∃ node? dropped us, ∃ errors : TokenKind → List SyntaxError, us <:+ ts ∧
    (node? ≠ none → finish us) ∧ (node? = none → us = [] → Dangling ts) ∧
      ∀ tail, firstKind tail ∈ fence →
        run tail = ⟨node?, errors (firstKind tail), dropped, .start (us ++ tail)⟩

namespace Settles

variable {fence : List TokenKind} {ts us : List Token} {finish finish' : List Token → Prop}
  {run : List Token → Parsed (List Token) α}

theorem of_suffix (h : Settles fence us finish run) (hus : us <:+ ts) (hne : us ≠ []) :
    Settles fence ts finish run := by
  obtain ⟨node?, dropped, vs, errors, hvs, hfinish, hopen, hrun⟩ := h
  refine ⟨node?, dropped, vs, errors, hvs.trans hus, hfinish, fun hnode hnil => ?_, hrun⟩
  exact (hopen hnode hnil).of_suffix hus hne

theorem of_eq {run' : List Token → Parsed (List Token) α} (h : Settles fence ts finish run)
    (heq : ∀ tail, firstKind tail ∈ fence → run' tail = run tail) :
    Settles fence ts finish run' := by
  obtain ⟨node?, dropped, us, errors, hus, hfinish, hopen, hrun⟩ := h
  exact ⟨node?, dropped, us, errors, hus, hfinish, hopen,
    fun tail htail => (heq tail htail).trans (hrun tail htail)⟩

theorem map (h : Settles fence ts finish run) (f : α → β) :
    Settles fence ts finish fun tail =>
      ⟨(run tail).node?.map f, (run tail).errors, (run tail).dropped, (run tail).cursor⟩ := by
  obtain ⟨node?, dropped, us, errors, hus, hfinish, hopen, hrun⟩ := h
  refine ⟨node?.map f, dropped, us, errors, hus, fun hnode => hfinish ?_, fun hnode => hopen ?_,
    fun tail htail => ?_⟩
  · rintro rfl
    exact hnode rfl
  · simpa using hnode
  · simp only [hrun tail htail]

/-- **What goes on after a success goes on in front of the barrier.** -/
theorem bind {r : (tail : List Token) → Ahead (.start (ts ++ tail)) α}
    {next : (tail : List Token) → α → (d : Cursor (List Token)) →
      d.left ≤ (Cursor.start (ts ++ tail)).left → Ahead d β}
    (h : Settles fence ts finish fun tail => (r tail).val)
    (hfinish : ∀ us, finish us → us ≠ [])
    (hnext : ∀ a us, us <:+ ts → finish us → ∃ run, Settles fence us finish' run ∧
      ∀ tail hle, firstKind tail ∈ fence →
        (next tail a (.start (us ++ tail)) hle).val = run tail) :
    Settles fence ts finish' fun tail => ((r tail).bind (next tail)).val := by
  obtain ⟨node?, dropped, us, errors, hus, hleft, hopen, hrun⟩ := h
  cases node? with
  | none =>
    refine ⟨none, dropped, us, errors, hus, fun hnode => absurd rfl hnode, fun _ => hopen rfl,
      fun tail htail => ?_⟩
    have hval : (r tail).val = _ := hrun tail htail
    revert hval
    dsimp only
    rcases r tail with ⟨_, hle⟩
    rintro rfl
    rfl
  | some a =>
    have hin := hleft nofun
    obtain ⟨run, ⟨node?, dropped', vs, errors', hvs, hleft', hopen', hrun'⟩, heq⟩ :=
      hnext a us hus hin
    refine ⟨node?, dropped + dropped', vs, fun kind => errors kind ++ errors' kind, hvs.trans hus,
      hleft', fun hnode hnil => (hopen' hnode hnil).of_suffix hus (hfinish us hin),
      fun tail htail => ?_⟩
    have hval : (r tail).val = _ := hrun tail htail
    revert hval
    dsimp only
    rcases r tail with ⟨_, hle⟩
    rintro rfl
    simp only [Ahead.bind, heq _ _ htail, hrun' tail htail]

end Settles

namespace Parser

section

variable (fence : List TokenKind)

/-- **The parser does not get past the barrier.** It is started where
`start` holds of the tokens up to there, and where it succeeds `finish`
holds of those that are left. -/
def Confined (start finish : List Token → Prop) (p : Parser (List Token) α) : Prop :=
  ∀ ts, (∀ t ∈ ts, t.Inner) → start ts →
    Settles fence ts finish fun tail => (p (.start (ts ++ tail))).val

end

/-- Anywhere up to the barrier, the barrier itself included. -/
def Anywhere (_ : List Token) : Prop := True

/-- In front of the barrier. -/
def Inside (ts : List Token) : Prop := ts ≠ []

/-- Inside, on a token of a given kind. -/
def On (kind : TokenKind) (ts : List Token) : Prop := ∃ t us, ts = t :: us ∧ t.kind = kind

/-- Inside, on a token that demands an expression. -/
def Demanding (ts : List Token) : Prop := ∃ t us, ts = t :: us ∧ t.kind ∈ demanding

/-- Inside, with a token of a given kind to follow. -/
def Before (kind : TokenKind) (ts : List Token) : Prop :=
  ∃ t u us, ts = t :: u :: us ∧ u.kind = kind

theorem inside_of_on {kind : TokenKind} (ts : List Token) (h : On kind ts) : Inside ts := by
  obtain ⟨t, us, rfl, -⟩ := h
  exact List.cons_ne_nil t us

theorem inside_of_demanding (ts : List Token) (h : Demanding ts) : Inside ts := by
  obtain ⟨t, us, rfl, -⟩ := h
  exact List.cons_ne_nil t us

theorem demanding_of_on {kind : TokenKind} (hkind : kind ∈ demanding) (ts : List Token)
    (h : On kind ts) : Demanding ts := by
  obtain ⟨t, us, rfl, rfl⟩ := h
  exact ⟨t, us, rfl, hkind⟩

/-! ## The rules -/

section Rules

variable {fence : List TokenKind} {start start' finish finish' : List Token → Prop}
  {p : Parser (List Token) α} {f : α → Parser (List Token) β}

theorem confined_pure (a : α) : Confined fence start start (pure a : Parser _ α) :=
  fun ts _ hstart => ⟨some a, 0, ts, fun _ => [], List.suffix_rfl, fun _ => hstart, nofun,
    fun _ _ => rfl⟩

/-- A failure on the barrier itself has nothing in front of it. -/
theorem confined_fail (e : SyntaxError) :
    Confined fence start finish (fail e : Parser _ α) := by
  refine fun ts _ _ => ⟨none, 0, ts, fun _ => [e], List.suffix_rfl, fun hnode => absurd rfl hnode,
    fun _ hnil => ?_, fun _ _ => rfl⟩
  rw [hnil]
  exact nofun

theorem Confined.bind (h : Confined fence start finish p) (hfinish : ∀ us, finish us → us ≠ [])
    (hf : ∀ a, Confined fence finish finish' (f a)) :
    Confined fence start finish' (p >>= f) := by
  intro ts hts hstart
  refine (h ts hts hstart).bind hfinish fun a us hus hleft =>
    ⟨_, hf a us ?_ hleft, fun _ _ _ => rfl⟩
  exact fun t ht => hts t (hus.subset ht)

theorem Confined.weaken (h : Confined fence start finish p)
    (hstart : ∀ ts, start' ts → start ts) : Confined fence start' finish p :=
  fun ts hts hs => h ts hts (hstart ts hs)

/-- Inside, the token under consideration is one of those up to the
barrier. -/
theorem confined_current {f : Token → Parser (List Token) α}
    (hf : ∀ t, t.Inner → Confined fence (On t.kind) finish (f t)) :
    Confined fence Inside finish (current >>= f) := by
  intro ts hts hne
  obtain ⟨t, us, rfl⟩ := List.exists_cons_of_ne_nil hne
  refine (hf t (hts t List.mem_cons_self) _ hts ⟨t, us, rfl, rfl⟩).of_eq fun tail _ => ?_
  exact val_bind_of_yields (yields_current_iff.2 ⟨Cursor.current_start _, rfl⟩)

/-- **What is demanded may be missing**, and then the token that demands it
is the last one in front of the barrier. -/
theorem Confined.demanded (h : Confined fence Anywhere Inside p) :
    Confined fence Demanding Inside (advance >>= fun _ => p) := by
  rintro ts hts ⟨t, us, rfl, ht⟩
  obtain ⟨node?, dropped, vs, errors, hvs, hleft, hopen, hrun⟩ :=
    h us (fun u hu => hts u (.tail _ hu)) trivial
  refine ⟨node?, dropped, vs, errors, hvs.trans (List.suffix_cons t us), hleft,
    fun hnode hnil => ?_, fun tail htail => ?_⟩
  · by_cases hus : us = []
    · subst hus
      simpa [Dangling] using ht
    · exact (hopen hnode hnil).of_suffix (List.suffix_cons t us) hus
  · exact (val_bind_of_yields (a := ()) (yields_advance_iff.2 (Cursor.advance_start _))).trans
      (hrun tail htail)

end Rules

/-! ## What follows -/

/-- Inside, what follows is the barrier or one of the tokens up to it. -/
theorem upcoming_of_inside {ts : List Token} (hne : Inside ts) :
    (∀ tail, (Cursor.start (ts ++ tail)).upcoming.kind = firstKind tail) ∨
      ∃ found, Before found ts ∧ ∀ tail, (Cursor.start (ts ++ tail)).upcoming.kind = found := by
  obtain ⟨t, us, rfl⟩ := List.exists_cons_of_ne_nil hne
  cases us with
  | nil => exact .inl fun tail => by simp [firstKind]
  | cons u us => exact .inr ⟨u.kind, ⟨t, u, us, rfl, rfl⟩, fun tail => by simp⟩

/-- In either case its kind is settled by that of the barrier. -/
theorem exists_upcoming_eq {ts : List Token} (hne : Inside ts) :
    ∃ found : TokenKind → TokenKind,
      ∀ tail, (Cursor.start (ts ++ tail)).upcoming.kind = found (firstKind tail) := by
  rcases upcoming_of_inside hne with hend | ⟨found, -, hfound⟩
  · exact ⟨id, hend⟩
  · exact ⟨fun _ => found, hfound⟩

section Tokens

variable {fence : List TokenKind} (hfence : fence ⊆ barriers) {finish : List Token → Prop}

include hfence

/-- What is no barrier follows before every barrier or before none. -/
theorem before_or_upcoming_ne {ts : List Token} (hne : Inside ts) {kind : TokenKind}
    (hkind : kind ∉ barriers) :
    (Before kind ts ∧ ∀ tail, (Cursor.start (ts ++ tail)).upcoming.kind = kind) ∨
      ∀ tail, firstKind tail ∈ fence → (Cursor.start (ts ++ tail)).upcoming.kind ≠ kind := by
  rcases upcoming_of_inside hne with hend | ⟨found, hbefore, hfound⟩
  · refine .inr fun tail htail => ?_
    rw [hend]
    exact fun h => hkind (h ▸ hfence htail)
  · by_cases heq : found = kind
    · subst heq
      exact .inl ⟨hbefore, hfound⟩
    · exact .inr fun tail _ => hfound tail ▸ heq

theorem confined_expect {kind : TokenKind} (hkind : kind ∉ barriers) :
    Confined fence Inside (On kind) (expect kind) := by
  intro ts hts hne
  rcases before_or_upcoming_ne hfence hne hkind with ⟨⟨t, u, us, rfl, hu⟩, heq⟩ | hother
  · refine ⟨some (), 0, u :: us, fun _ => [], List.suffix_cons t _, fun _ => ⟨u, us, rfl, hu⟩,
      nofun, fun tail _ => ?_⟩
    exact yields_expect_iff.2 ⟨heq tail, Cursor.advance_start _⟩
  · obtain ⟨found, hfound⟩ := exists_upcoming_eq hne
    refine ⟨none, 0, ts, fun k => [.unexpected kind (found k)], List.suffix_rfl,
      fun hnode => absurd rfl hnode, fun _ hnil => absurd hnil hne, fun tail htail => ?_⟩
    have hval := val_bind_of_yields (yields_upcoming_iff.2 ⟨hfound tail, rfl⟩)
      (f := fun k => if k = kind then advance else fail (.unexpected kind k))
    refine hval.trans ?_
    rw [if_neg (hfound tail ▸ hother tail htail)]
    rfl

/-! ## Loops -/

section Loops

variable {item : Parser (List Token) α}

/-- Items have fewer tokens left in front of the barrier than there were. -/
theorem Confined.separated (h : Confined fence Demanding Inside item) :
    Confined fence Demanding Inside (separated item) := by
  intro ts hts hstart
  have hcomma : TokenKind.comma ∉ barriers := by decide
  induction hn : ts.length using Nat.strongRecOn generalizing ts with | _ n ih
  have hunfold (tail : List Token) :=
    congrArg Subtype.val (Parser.separated.eq_1 item (.start (ts ++ tail)))
  refine (Settles.bind (h ts hts hstart) (fun _ h => h) fun a us hus hin => ?_).of_eq
    fun tail _ => hunfold tail
  have hus' : ∀ t ∈ us, t.Inner := fun t ht => hts t (hus.subset ht)
  rcases before_or_upcoming_ne hfence hin hcomma with
    ⟨⟨t, u, vs, rfl, hu⟩, heq⟩ | hother
  · have hlt : (u :: vs).length < n := hn ▸ hus.length_le
    have hdemanding : Demanding (u :: vs) := ⟨u, vs, rfl, by simp [hu, demanding]⟩
    have hrest := ih _ hlt (u :: vs) (fun t ht => hus' t (.tail _ ht)) hdemanding rfl
    refine ⟨_, (hrest.map (a :: ·)).of_suffix (List.suffix_cons t _) (List.cons_ne_nil _ _),
      fun tail hle _ => ?_⟩
    rw [dif_pos (heq tail)]
    rfl
  · refine ⟨_, confined_pure [a] us hus' hin, fun tail hle htail => ?_⟩
    rw [dif_neg (hother tail htail)]
    rfl

theorem Confined.listed {close : TokenKind} (hclose : close ∉ barriers)
    (h : Confined fence Demanding Inside item) :
    Confined fence Demanding Inside (listed close item) := by
  intro ts hts hstart
  have hin := inside_of_demanding ts hstart
  have hunfold (tail : List Token) := val_bind_of_yields (c := .start (ts ++ tail))
    (yields_upcoming_iff.2 ⟨rfl, rfl⟩)
    (f := fun k => if k = close then advance >>= fun _ => pure []
      else Parser.separated item >>= fun items => expect close >>= fun _ => pure items)
  rcases before_or_upcoming_ne hfence hin hclose with ⟨⟨t, u, us, rfl, hu⟩, heq⟩ | hother
  · refine ⟨some [], 0, u :: us, fun _ => [], List.suffix_cons t _, fun _ => List.cons_ne_nil _ _,
      nofun, fun tail _ => (hunfold tail).trans ?_⟩
    rw [if_pos (heq tail)]
    exact val_bind_of_yields (a := ()) (yields_advance_iff.2 (Cursor.advance_start _))
  · have hitems : Confined fence Demanding Inside
        (Parser.separated item >>= fun items => expect close >>= fun _ => pure items) :=
      (h.separated hfence).bind (fun _ h => h) fun items =>
        (confined_expect hfence hclose).bind inside_of_on fun _ =>
          (confined_pure items).weaken inside_of_on
    refine (hitems ts hts hstart).of_eq fun tail htail => (hunfold tail).trans ?_
    rw [if_neg (hother tail htail)]

theorem Confined.separatedUntil {close : TokenKind} (hclose : close ∉ barriers)
    (h : Confined fence Demanding Inside item) :
    Confined fence Demanding Inside (separatedUntil close item) := by
  intro ts hts hstart
  have hcomma : TokenKind.comma ∉ barriers := by decide
  induction hn : ts.length using Nat.strongRecOn generalizing ts with | _ n ih
  have hin := inside_of_demanding ts hstart
  have hunfold (tail : List Token) := congrArg Subtype.val
    (Parser.separatedUntil.eq_1 close item (.start (ts ++ tail)))
  rcases before_or_upcoming_ne hfence hin hclose with ⟨-, heq⟩ | hother
  · refine (confined_pure [] ts hts hin).of_eq fun tail _ => (hunfold tail).trans ?_
    rw [if_pos (heq tail)]
    rfl
  refine Settles.of_eq (Settles.bind (h ts hts hstart) (fun _ h => h) fun a us hus hin => ?_)
    fun tail htail => (hunfold tail).trans (by rw [if_neg (hother tail htail)])
  have hus' : ∀ t ∈ us, t.Inner := fun t ht => hts t (hus.subset ht)
  rcases before_or_upcoming_ne hfence hin hclose with ⟨-, heq⟩ | hother
  · refine ⟨_, confined_pure [a] us hus' hin, fun tail hle _ => ?_⟩
    rw [if_pos (heq tail)]
    rfl
  rcases before_or_upcoming_ne hfence hin hcomma with
    ⟨⟨t, u, vs, rfl, hu⟩, heq⟩ | hother'
  · have hlt : (u :: vs).length < n := hn ▸ hus.length_le
    have hdemanding : Demanding (u :: vs) := ⟨u, vs, rfl, by simp [hu, demanding]⟩
    have hrest := ih _ hlt (u :: vs) (fun t ht => hus' t (.tail _ ht)) hdemanding rfl
    refine ⟨_, (hrest.map (a :: ·)).of_suffix (List.suffix_cons t _) (List.cons_ne_nil _ _),
      fun tail hle htail => ?_⟩
    rw [if_neg (hother tail htail), dif_pos (heq tail)]
    rfl
  · obtain ⟨found, hfound⟩ := exists_upcoming_eq hin
    refine ⟨fun tail => ⟨none, [.unexpected .comma (found (firstKind tail))], 0,
        .start (us ++ tail)⟩, ⟨none, 0, us, fun k => [.unexpected .comma (found k)],
        List.suffix_rfl, fun hnode => absurd rfl hnode, fun _ hnil => absurd hnil hin,
        fun _ _ => rfl⟩, fun tail hle htail => ?_⟩
    rw [if_neg (hother tail htail), dif_neg (hother' tail htail), hfound]
    rfl

theorem Confined.extended {inner : ExprParser (List Token)} {floor : Precedence}
    (h : ∀ left, Confined fence Inside Inside (applied inner left)) (left : Expr) :
    Confined fence Inside Inside (extended inner floor left) := by
  intro ts hts hne
  induction hn : ts.length using Nat.strongRecOn generalizing ts left with | _ n ih
  have hunfold (tail : List Token) := congrArg Subtype.val
    (Parser.extended.eq_1 inner floor left (.start (ts ++ tail)))
  -- a barrier binds nothing, so what is taken up is one of the tokens in
  -- front of it
  have hbarrier {kind : TokenKind} (hkind : kind ∈ fence) : ¬ floor < .ofKind kind := by
    have hlowest : Precedence.ofKind kind = .lowest := by
      revert kind
      exact fun hkind => (by decide : ∀ kind ∈ barriers, Precedence.ofKind kind = .lowest) _
        (hfence hkind)
    rw [hlowest]
    exact Nat.not_lt_zero _
  have hdone (hstop : ∀ tail, firstKind tail ∈ fence →
      ¬ floor < .ofKind (Cursor.start (ts ++ tail)).upcoming.kind) :
      Settles fence ts Inside fun tail =>
        (Parser.extended inner floor left (.start (ts ++ tail))).val := by
    refine (confined_pure left ts hts hne).of_eq fun tail htail => (hunfold tail).trans ?_
    rw [dif_neg (hstop tail htail)]
    rfl
  rcases upcoming_of_inside hne with hend | ⟨found, ⟨t, u, us, rfl, -⟩, hfound⟩
  · exact hdone fun tail htail => by
      rw [hend]
      exact hbarrier htail
  by_cases hlt : floor < .ofKind found
  · have hus : ∀ t ∈ u :: us, t.Inner := fun t ht => hts t (.tail _ ht)
    have happlied : Settles fence (u :: us) Inside fun tail =>
        (((applied inner left (.start (u :: us ++ tail))).bind
          fun e d _ => Parser.extended inner floor e d)).val := by
      refine Settles.bind (h left (u :: us) hus (List.cons_ne_nil _ _)) (fun _ h => h)
        fun e vs hvs hin => ?_
      have hvs' : ∀ t ∈ vs, t.Inner := fun t ht => hus t (hvs.subset ht)
      have hshort : vs.length < n := hn ▸ Nat.lt_succ_of_le hvs.length_le
      exact ⟨_, ih _ hshort e vs hvs' hin rfl, fun _ _ _ => rfl⟩
    refine (happlied.of_suffix (List.suffix_cons t _) (List.cons_ne_nil _ _)).of_eq
      fun tail _ => (hunfold tail).trans ?_
    rw [dif_pos (by rwa [hfound])]
    rfl
  · exact hdone fun tail _ => by rwa [hfound]

end Loops

end Tokens

/-! ## Expressions and statements -/

/-- No expression begins with a barrier. -/
theorem val_operand_of_barrier {σ : Type} [TokenSource σ] (inner : ExprParser σ) {c : Cursor σ}
    (h : c.current.kind ∈ barriers) :
    (operand inner c).val = ⟨none, [.noExpression c.current.kind], 0, c⟩ := by
  refine (val_bind_of_yields (yields_current_iff.2 ⟨rfl, rfl⟩)).trans ?_
  generalize c.current = t at h
  obtain ⟨kind, literal⟩ := t
  simp only [barriers, List.mem_cons, List.not_mem_nil, or_false] at h
  rcases h with rfl | rfl | rfl | rfl <;> rfl

section Expressions

variable {fence : List TokenKind} (hfence : fence ⊆ barriers)
  {inner : ExprParser (List Token)} (h : ∀ floor, Confined fence Anywhere Inside (inner floor))

include hfence in
theorem confined_name : Confined fence Inside Inside name := by
  refine (confined_expect hfence (by decide)).bind inside_of_on fun _ => ?_
  exact (confined_current fun t _ => (confined_pure _).weaken inside_of_on).weaken inside_of_on

include h in
theorem confined_nextExpr : Confined fence Demanding Inside (nextExpr inner) := (h .lowest).demanded

include hfence h

theorem confined_pair : Confined fence Demanding Inside (pair inner) := by
  refine (confined_nextExpr h).bind (fun _ h => h) fun key => ?_
  refine (confined_expect hfence (by decide)).bind inside_of_on fun _ => ?_
  refine ((confined_nextExpr h).weaken (demanding_of_on (by decide))).bind (fun _ h => h) ?_
  exact fun value => confined_pure _

/-- Of the operands, only those with a block have barriers in them. -/
theorem confined_operand_inside : Confined fence Inside Inside (operand inner) := by
  refine confined_current fun t ht => ?_
  have hpure (e : Expr) : Confined fence (On t.kind) Inside (pure e) :=
    (confined_pure e).weaken inside_of_on
  have hvalue := confined_nextExpr h
  split
  · exact hpure _
  · unfold Parser.integer
    cases Decimal.read? t.literal.toList with
    | none => exact confined_fail _
    | some value => exact hpure _
  · exact hpure _
  · exact hpure _
  · exact hpure _
  · next hk =>
    refine (hvalue.weaken (demanding_of_on (by simp [hk, demanding]))).bind (fun _ h => h)
      fun e => ?_
    exact (confined_expect hfence (by decide)).bind inside_of_on fun _ =>
      (confined_pure e).weaken inside_of_on
  · next hk =>
    refine ((hvalue.listed hfence (by decide)).weaken
      (demanding_of_on (by simp [hk, demanding]))).bind (fun _ h => h) fun es => ?_
    exact confined_pure _
  · next hk =>
    refine (((confined_pair hfence h).separatedUntil hfence (by decide)).weaken
      (demanding_of_on (by simp [hk, demanding]))).bind (fun _ h => h) fun pairs => ?_
    exact (confined_expect hfence (by decide)).bind inside_of_on fun _ =>
      (confined_pure _).weaken inside_of_on
  · next hif => exact absurd hif ht.ne_ifWord
  · next hfn => exact absurd hfn ht.ne_fnWord
  · exact confined_fail _
  · split
    · next op hop =>
      have hdemanding : t.kind ∈ demanding := by
        rw [UnaryOp.ofKind?_eq_some_iff.1 hop]
        cases op <;> decide
      refine Confined.weaken (Confined.demanded ?_) (demanding_of_on hdemanding)
      exact (h _).bind (fun _ h => h) fun e => confined_pure _
    · exact confined_fail _

/-- On the barrier itself there is none. -/
theorem confined_operand : Confined fence Anywhere Inside (operand inner) := by
  intro ts hts _
  by_cases hnil : ts = []
  · subst hnil
    refine ⟨none, 0, [], fun k => [.noExpression k], List.suffix_rfl, fun hnode => absurd rfl hnode,
      fun _ _ => nofun, fun tail htail => ?_⟩
    have hcurrent : (Cursor.start tail).current.kind = firstKind tail := by simp [firstKind]
    rw [← hcurrent] at htail ⊢
    exact val_operand_of_barrier inner (hfence htail)
  · exact confined_operand_inside hfence h ts hts hnil

theorem confined_applied (left : Expr) :
    Confined fence Inside Inside (applied inner left) := by
  refine confined_current fun t _ => ?_
  have hvalue := confined_nextExpr h
  dsimp only
  split
  · next hk =>
    refine ((hvalue.listed hfence (by decide)).weaken
      (demanding_of_on (by simp [hk, demanding]))).bind (fun _ h => h) fun es => ?_
    exact confined_pure _
  · next hk =>
    refine (hvalue.weaken (demanding_of_on (by simp [hk, demanding]))).bind (fun _ h => h)
      fun e => ?_
    exact (confined_expect hfence (by decide)).bind inside_of_on fun _ =>
      (confined_pure _).weaken inside_of_on
  · split
    · next op hop =>
      have hdemanding : t.kind ∈ demanding := by
        rw [BinaryOp.ofKind?_eq_some_iff.1 hop]
        cases op <;> decide
      refine Confined.weaken (Confined.demanded ?_) (demanding_of_on hdemanding)
      exact (h _).bind (fun _ h => h) fun e => confined_pure _
    · exact (confined_pure _).weaken inside_of_on

/-- A statement ends as its last expression and what may follow that do. -/
theorem confined_statement {finish : List Token → Prop}
    (hend : ∀ s : Stmt, Confined fence Inside finish (skip .semicolon >>= fun _ => pure s)) :
    Confined fence Inside finish (statement inner) := by
  refine confined_current fun t _ => ?_
  have hvalue := confined_nextExpr h
  split
  · refine Confined.weaken ?_ inside_of_on
    refine (confined_name hfence).bind (fun _ h => h) fun x => ?_
    refine (confined_expect hfence (by decide)).bind inside_of_on fun _ => ?_
    exact (hvalue.weaken (demanding_of_on (by decide))).bind (fun _ h => h) fun e => hend _
  · next hk =>
    exact (hvalue.weaken (demanding_of_on (by simp [hk, demanding]))).bind (fun _ h => h)
      fun e => hend _
  · exact ((h .lowest).weaken fun _ _ => trivial).bind (fun _ h => h) fun e => hend _

end Expressions

/-- **Expressions are confined**, however deep they may be nested. -/
theorem confined_expr {fence : List TokenKind} (hfence : fence ⊆ barriers) (n : Nat)
    (floor : Precedence) : Confined fence Anywhere Inside (expr n floor) := by
  induction n generalizing floor with
  | zero => exact confined_fail _
  | succ n ih =>
    refine (confined_operand hfence ih).bind (fun _ h => h) fun left => ?_
    exact Confined.extended hfence (confined_applied hfence ih) left

/-! ## The end of a statement -/

theorem yields_skip_pure {σ : Type} [TokenSource σ] (kind : TokenKind) (a : α) (c : Cursor σ) :
    ((skip kind >>= fun _ => pure a : Parser σ α) c).Yields a
      (if c.upcoming.kind = kind then c.advance else c) :=
  yields_bind_iff.2 ⟨(), _, yields_skip_iff.2 rfl, yields_pure_iff.2 ⟨rfl, rfl⟩⟩

/-- The semicolon may be passed on to, but not passed. -/
theorem confined_skip_semicolon (a : α) :
    Confined [.semicolon] Inside Anywhere (skip .semicolon >>= fun _ => pure a) := by
  intro ts hts hne
  obtain ⟨t, us, rfl⟩ := List.exists_cons_of_ne_nil hne
  by_cases hskip : us = [] ∨ Before .semicolon (t :: us)
  · refine ⟨some a, 0, us, fun _ => [], List.suffix_cons t us, fun _ => trivial, nofun,
      fun tail htail => (yields_skip_pure _ a _).trans ?_⟩
    have hsemicolon : (Cursor.start (t :: us ++ tail)).upcoming.kind = .semicolon := by
      rcases hskip with rfl | ⟨_, _, _, heq, hu⟩
      · simpa [firstKind] using htail
      · cases heq
        simpa using hu
    rw [if_pos hsemicolon, Cursor.advance_start]
    rfl
  · refine ⟨some a, 0, t :: us, fun _ => [], List.suffix_rfl, fun _ => trivial, nofun,
      fun tail _ => (yields_skip_pure _ a _).trans ?_⟩
    obtain ⟨u, us, rfl⟩ := List.exists_cons_of_ne_nil (not_or.1 hskip).1
    rw [if_neg fun hu => (not_or.1 hskip).2 ⟨t, u, us, rfl, by simpa using hu⟩]

/-- Where no semicolon is the barrier, none is passed on to. -/
theorem confined_skip_inside {fence : List TokenKind} (hfence : .semicolon ∉ fence) (a : α) :
    Confined fence Inside Inside (skip .semicolon >>= fun _ => pure a) := by
  intro ts hts hne
  obtain ⟨t, us, rfl⟩ := List.exists_cons_of_ne_nil hne
  by_cases hskip : Before .semicolon (t :: us)
  · obtain ⟨_, u, us, heq, hu⟩ := hskip
    cases heq
    refine ⟨some a, 0, u :: us, fun _ => [], List.suffix_cons t _, fun _ => List.cons_ne_nil _ _,
      nofun, fun tail _ => (yields_skip_pure _ a _).trans ?_⟩
    rw [if_pos (by simpa using hu), Cursor.advance_start]
    rfl
  · refine ⟨some a, 0, t :: us, fun _ => [], List.suffix_rfl, fun _ => hne, nofun,
      fun tail htail => (yields_skip_pure _ a _).trans ?_⟩
    rw [if_neg fun hu => ?_]
    cases us with
    | nil => exact hfence (by simpa [firstKind, ← hu] using htail)
    | cons u us => exact hskip ⟨t, u, us, rfl, by simpa using hu⟩

/-! ## Statements of a program -/

section

variable {σ : Type} [TokenSource σ] {c d : Cursor σ} {errors : List SyntaxError} {dropped : Nat}

theorem val_bind_of_none {p : Parser σ α} {f : α → Parser σ β}
    (h : (p c).val = ⟨none, errors, dropped, d⟩) :
    ((p >>= f) c).val = ⟨none, errors, dropped, d⟩ := by
  change ((p c).bind fun a d _ => f a d).val = _
  revert h
  rcases p c with ⟨_, hle⟩
  rintro rfl
  rfl

/-- No statement begins with a semicolon. -/
theorem val_topStatement_of_semicolon (h : c.current.kind = .semicolon) :
    (topStatement c).val = ⟨none, [.noExpression .semicolon], 0, c⟩ := by
  have hoperand : (expr nestingLimit .lowest c).val = ⟨none, [.noExpression .semicolon], 0, c⟩ := by
    rw [← h]
    exact val_bind_of_none (val_operand_of_barrier _ (by simp [h, barriers]))
  refine (val_bind_of_yields (yields_current_iff.2 ⟨rfl, rfl⟩)).trans ?_
  rw [h]
  exact val_bind_of_none hoperand

end

/-- **A statement ends at the next semicolon that is in no block**, or
before it. -/
theorem confined_topStatement : Confined [.semicolon] Anywhere Anywhere topStatement := by
  intro ts hts _
  by_cases hnil : ts = []
  · subst hnil
    refine ⟨none, 0, [], fun _ => [.noExpression .semicolon], List.suffix_rfl,
      fun hnode => absurd rfl hnode, fun _ _ => nofun, fun tail htail => ?_⟩
    exact val_topStatement_of_semicolon (by simpa [firstKind] using htail)
  · exact confined_statement (by decide) (confined_expr (by decide) nestingLimit)
      confined_skip_semicolon ts hts hnil

/-- **A statement ends before the next word that begins one**, and before
the end of the input. -/
theorem confined_topStatement_inside :
    Confined [.eof, .letWord, .returnWord] Inside Inside topStatement :=
  confined_statement (by decide) (confined_expr (by decide) nestingLimit)
    (confined_skip_inside (by decide))

end Parser

end MonkeyLang
