import MonkeyLang.Proofs.Parser.Programs
/-!
# How deeply expressions are nested

The left side of an operator, the callee of a call and what is indexed are
read on the level of the whole; all other parts of an expression are read one
level further down. `Expr.nest` counts these levels, and the parser for
expressions of so many levels gives no expression that takes more of them
(`Parser.expr_gives`). The statements of a block count although it went on
after those that were dropped, so this holds of every program that is read.
-/

namespace MonkeyLang

/-! ## Levels -/

mutual

/-- How many levels of nesting an expression takes. -/
def Expr.nest : Expr → Nat
  | .array elements => 1 + Expr.nestAll elements
  | .hash pairs => 1 + Expr.nestPairs pairs
  | .unary _ operand => 1 + operand.nest
  | .binary _ left right => max left.nest (1 + right.nest)
  | .cond condition consequence alternative =>
    1 + max condition.nest (max (Stmt.nestAll consequence) (Stmt.nestElse alternative))
  | .function _ body => 1 + Stmt.nestAll body
  | .call callee arguments => max callee.nest (1 + Expr.nestAll arguments)
  | .index left position => max left.nest (1 + position.nest)
  | _ => 1

/-- The most that any of some expressions takes. -/
def Expr.nestAll : List Expr → Nat
  | [] => 0
  | e :: es => max e.nest (Expr.nestAll es)

/-- The most that any of some keys and values takes. -/
def Expr.nestPairs : List (Expr × Expr) → Nat
  | [] => 0
  | (key, value) :: pairs => max (max key.nest value.nest) (Expr.nestPairs pairs)

/-- The most that any expression of a statement takes. -/
def Stmt.nest : Stmt → Nat
  | .bind _ value => value.nest
  | .ret value => value.nest
  | .expr value => value.nest
  | .block body => Stmt.nestAll body

/-- The most that any expression of some statements takes. -/
def Stmt.nestAll : List Stmt → Nat
  | [] => 0
  | s :: ss => max s.nest (Stmt.nestAll ss)

/-- The most that any expression of the block behind an `else` takes, if there
is one. -/
def Stmt.nestElse : Option (List Stmt) → Nat
  | none => 0
  | some body => Stmt.nestAll body

end

mutual

/-- An expression and all the expressions in it. -/
def Expr.within : Expr → List Expr
  | .array elements => .array elements :: Expr.withinAll elements
  | .hash pairs => .hash pairs :: Expr.withinPairs pairs
  | .unary op operand => .unary op operand :: operand.within
  | .binary op left right => .binary op left right :: (left.within ++ right.within)
  | .cond condition consequence alternative =>
    .cond condition consequence alternative ::
      (condition.within ++ Stmt.withinAll consequence ++ Stmt.withinElse alternative)
  | .function parameters body => .function parameters body :: Stmt.withinAll body
  | .call callee arguments => .call callee arguments :: (callee.within ++ Expr.withinAll arguments)
  | .index left position => .index left position :: (left.within ++ position.within)
  | e => [e]

/-- Some expressions and all the expressions in them. -/
def Expr.withinAll : List Expr → List Expr
  | [] => []
  | e :: es => e.within ++ Expr.withinAll es

/-- Some keys and values and all the expressions in them. -/
def Expr.withinPairs : List (Expr × Expr) → List Expr
  | [] => []
  | (key, value) :: pairs => key.within ++ value.within ++ Expr.withinPairs pairs

/-- All the expressions in a statement. -/
def Stmt.within : Stmt → List Expr
  | .bind _ value => value.within
  | .ret value => value.within
  | .expr value => value.within
  | .block body => Stmt.withinAll body

/-- All the expressions in some statements. -/
def Stmt.withinAll : List Stmt → List Expr
  | [] => []
  | s :: ss => s.within ++ Stmt.withinAll ss

/-- All the expressions in the block behind an `else`, if there is one. -/
def Stmt.withinElse : Option (List Stmt) → List Expr
  | none => []
  | some body => Stmt.withinAll body

end

/-- The most is within a bound if each is. -/
theorem Expr.nestAll_le_iff {es : List Expr} {n : Nat} :
    Expr.nestAll es ≤ n ↔ ∀ e ∈ es, e.nest ≤ n := by
  induction es with
  | nil => simp [Expr.nestAll]
  | cons e es ih => rw [Expr.nestAll, Nat.max_le, ih, List.forall_mem_cons]

theorem Expr.nestPairs_le_iff {pairs : List (Expr × Expr)} {n : Nat} :
    Expr.nestPairs pairs ≤ n ↔ ∀ pair ∈ pairs, pair.1.nest ≤ n ∧ pair.2.nest ≤ n := by
  induction pairs with
  | nil => simp [Expr.nestPairs]
  | cons pair pairs ih => rw [Expr.nestPairs, Nat.max_le, Nat.max_le, ih, List.forall_mem_cons]

theorem Stmt.nestAll_le_iff {ss : List Stmt} {n : Nat} :
    Stmt.nestAll ss ≤ n ↔ ∀ s ∈ ss, s.nest ≤ n := by
  induction ss with
  | nil => simp [Stmt.nestAll]
  | cons s ss ih => rw [Stmt.nestAll, Nat.max_le, ih, List.forall_mem_cons]

mutual

/-- What is in an expression takes no more levels than the whole. -/
theorem Expr.nest_le_of_mem_within {n : Nat} (e : Expr) (h : e.nest ≤ n) :
    ∀ part ∈ e.within, part.nest ≤ n := by
  cases e with
  | ident | int | bool | string => simpa [Expr.within] using h
  | array es =>
    have hes : Expr.nestAll es ≤ n := Nat.le_trans (Nat.le_add_left _ _) h
    exact List.forall_mem_cons.2 ⟨h, Expr.nest_le_of_mem_withinAll es hes⟩
  | hash pairs =>
    have hpairs : Expr.nestPairs pairs ≤ n := Nat.le_trans (Nat.le_add_left _ _) h
    exact List.forall_mem_cons.2 ⟨h, Expr.nest_le_of_mem_withinPairs pairs hpairs⟩
  | unary op e =>
    have he : e.nest ≤ n := Nat.le_trans (Nat.le_add_left _ _) h
    exact List.forall_mem_cons.2 ⟨h, Expr.nest_le_of_mem_within e he⟩
  | binary op l r =>
    obtain ⟨hl, hr⟩ : l.nest ≤ n ∧ 1 + r.nest ≤ n := Nat.max_le.1 h
    exact List.forall_mem_cons.2 ⟨h, List.forall_mem_append.2
      ⟨Expr.nest_le_of_mem_within l hl, Expr.nest_le_of_mem_within r (by omega)⟩⟩
  | cond c t a =>
    have hparts : 1 + max c.nest (max (Stmt.nestAll t) (Stmt.nestElse a)) ≤ n := h
    refine List.forall_mem_cons.2 ⟨h,
      List.forall_mem_append.2 ⟨List.forall_mem_append.2 ⟨?_, ?_⟩, ?_⟩⟩
    · exact Expr.nest_le_of_mem_within c (by omega)
    · exact Stmt.nest_le_of_mem_withinAll t (by omega)
    · exact Stmt.nest_le_of_mem_withinElse a (by omega)
  | function parameters body =>
    have hbody : Stmt.nestAll body ≤ n := Nat.le_trans (Nat.le_add_left _ _) h
    exact List.forall_mem_cons.2 ⟨h, Stmt.nest_le_of_mem_withinAll body hbody⟩
  | call f es =>
    obtain ⟨hf, hes⟩ : f.nest ≤ n ∧ 1 + Expr.nestAll es ≤ n := Nat.max_le.1 h
    exact List.forall_mem_cons.2 ⟨h, List.forall_mem_append.2
      ⟨Expr.nest_le_of_mem_within f hf, Expr.nest_le_of_mem_withinAll es (by omega)⟩⟩
  | index l i =>
    obtain ⟨hl, hi⟩ : l.nest ≤ n ∧ 1 + i.nest ≤ n := Nat.max_le.1 h
    exact List.forall_mem_cons.2 ⟨h, List.forall_mem_append.2
      ⟨Expr.nest_le_of_mem_within l hl, Expr.nest_le_of_mem_within i (by omega)⟩⟩

theorem Expr.nest_le_of_mem_withinAll {n : Nat} (es : List Expr) (h : Expr.nestAll es ≤ n) :
    ∀ part ∈ Expr.withinAll es, part.nest ≤ n := by
  cases es with
  | nil => exact List.forall_mem_nil _
  | cons e es =>
    obtain ⟨he, hes⟩ : e.nest ≤ n ∧ Expr.nestAll es ≤ n := Nat.max_le.1 h
    exact List.forall_mem_append.2
      ⟨Expr.nest_le_of_mem_within e he, Expr.nest_le_of_mem_withinAll es hes⟩

theorem Expr.nest_le_of_mem_withinPairs {n : Nat} (pairs : List (Expr × Expr))
    (h : Expr.nestPairs pairs ≤ n) : ∀ part ∈ Expr.withinPairs pairs, part.nest ≤ n := by
  match pairs, h with
  | [], _ => exact List.forall_mem_nil _
  | (key, value) :: pairs, h =>
    have hparts : max (max key.nest value.nest) (Expr.nestPairs pairs) ≤ n := h
    refine List.forall_mem_append.2 ⟨List.forall_mem_append.2 ⟨?_, ?_⟩, ?_⟩
    · exact Expr.nest_le_of_mem_within key (by omega)
    · exact Expr.nest_le_of_mem_within value (by omega)
    · exact Expr.nest_le_of_mem_withinPairs pairs (by omega)

theorem Stmt.nest_le_of_mem_within {n : Nat} (s : Stmt) (h : s.nest ≤ n) :
    ∀ part ∈ s.within, part.nest ≤ n := by
  cases s with
  | bind name value => exact Expr.nest_le_of_mem_within value h
  | ret value => exact Expr.nest_le_of_mem_within value h
  | expr value => exact Expr.nest_le_of_mem_within value h
  | block body => exact Stmt.nest_le_of_mem_withinAll body h

theorem Stmt.nest_le_of_mem_withinAll {n : Nat} (ss : List Stmt) (h : Stmt.nestAll ss ≤ n) :
    ∀ part ∈ Stmt.withinAll ss, part.nest ≤ n := by
  cases ss with
  | nil => exact List.forall_mem_nil _
  | cons s ss =>
    obtain ⟨hs, hss⟩ : s.nest ≤ n ∧ Stmt.nestAll ss ≤ n := Nat.max_le.1 h
    exact List.forall_mem_append.2
      ⟨Stmt.nest_le_of_mem_within s hs, Stmt.nest_le_of_mem_withinAll ss hss⟩

theorem Stmt.nest_le_of_mem_withinElse {n : Nat} (alternative : Option (List Stmt))
    (h : Stmt.nestElse alternative ≤ n) : ∀ part ∈ Stmt.withinElse alternative, part.nest ≤ n := by
  cases alternative with
  | none => exact List.forall_mem_nil _
  | some body => exact Stmt.nest_le_of_mem_withinAll body h

end

/-! ## What parsers give -/

variable {σ : Type} [TokenSource σ] {α β : Type} {P : α → Prop} {Q : β → Prop}

/-- If a parse succeeds then with a node of which something holds. -/
def Ahead.Gives {c : Cursor σ} (P : α → Prop) (r : Ahead c α) : Prop :=
  ∀ a, r.val.node? = some a → P a

namespace Ahead

variable {c : Cursor σ}

theorem gives_pure {a : α} (h : P a) : (Ahead.pure a c).Gives P := by
  rintro _ ⟨⟩
  exact h

theorem gives_fail (e : SyntaxError) : (Ahead.fail e c).Gives P := nofun

/-- What goes on may rely on what was given. -/
theorem Gives.bind {r : Ahead c α} (h : r.Gives P)
    {next : α → (d : Cursor σ) → d.left ≤ c.left → Ahead d β}
    (hnext : ∀ a d hle, P a → (next a d hle).Gives Q) : (r.bind next).Gives Q := by
  obtain ⟨⟨node?, errors, dropped, d⟩, hle⟩ := r
  cases node? with
  | none => exact nofun
  | some a => exact hnext a d hle (h a rfl)

theorem Gives.map {r : Ahead c α} (h : r.Gives P) {g : α → β} (hg : ∀ a, P a → Q (g a)) :
    (r.map g).Gives Q := by
  intro b hb
  obtain ⟨a, ha, rfl⟩ := Option.map_eq_some_iff.1 hb
  exact hg a (h a ha)

theorem Gives.afterAdvance {r : Ahead c.advance α} (h : r.Gives P) : r.afterAdvance.Gives P := h

end Ahead

namespace Parser

/-- Wherever it is started, if a parser succeeds then with a node of which
something holds. -/
def Gives (P : α → Prop) (p : Parser σ α) : Prop := ∀ c, (p c).Gives P

theorem gives_pure {a : α} (h : P a) : (pure a : Parser σ α).Gives P := fun _ =>
  Ahead.gives_pure h

theorem gives_fail (e : SyntaxError) : (fail e : Parser σ α).Gives P := fun _ =>
  Ahead.gives_fail e

theorem Gives.bind {p : Parser σ α} {f : α → Parser σ β} (h : p.Gives P)
    (hf : ∀ a, P a → (f a).Gives Q) : (p >>= f).Gives Q :=
  fun c => (h c).bind fun a d _ ha => hf a ha d

/-- Whatever the first parser gives. -/
theorem gives_bind {p : Parser σ α} {f : α → Parser σ β} (hf : ∀ a, (f a).Gives Q) :
    (p >>= f).Gives Q :=
  Gives.bind (P := fun _ => True) (fun _ _ _ => trivial) fun a _ => hf a

/-- What is said of an item is said of each that a loop gives, by induction
on the rounds. -/
theorem Gives.separated {item : Parser σ α} (h : item.Gives P) :
    Gives (∀ a ∈ ·, P a) (separated item) := by
  intro c
  fun_induction Parser.separated item c with
  | case1 c ih =>
    refine (h c).bind fun a d hle ha => ?_
    split
    · next hcomma =>
      exact ((ih d hle hcomma).map fun as has => List.forall_mem_cons.2 ⟨ha, has⟩).afterAdvance
    · exact Ahead.gives_pure (List.forall_mem_singleton.2 ha)

theorem Gives.separatedUntil {item : Parser σ α} (close : TokenKind) (h : item.Gives P) :
    Gives (∀ a ∈ ·, P a) (separatedUntil close item) := by
  intro c
  fun_induction Parser.separatedUntil close item c with
  | case1 c hclose => exact Ahead.gives_pure (List.forall_mem_nil _)
  | case2 c hclose ih =>
    refine (h c).bind fun a d hle ha => ?_
    split
    · exact Ahead.gives_pure (List.forall_mem_singleton.2 ha)
    split
    · next hcomma =>
      exact ((ih d hle hcomma).map fun as has => List.forall_mem_cons.2 ⟨ha, has⟩).afterAdvance
    · exact Ahead.gives_fail _

theorem Gives.listed {item : Parser σ α} {close : TokenKind} (h : item.Gives P) :
    Gives (∀ a ∈ ·, P a) (listed close item) := by
  refine gives_bind fun found => ?_
  split
  · exact gives_bind fun _ => gives_pure (List.forall_mem_nil _)
  · exact h.separated.bind fun items hitems => gives_bind fun _ => gives_pure hitems

/-- What is said of the statements of a block is said of those that could be
read. -/
theorem Gives.blockBody {item : Parser σ α} (h : item.Gives P) :
    Gives (∀ a ∈ ·, P a) (blockBody item) := by
  intro c
  fun_induction Parser.blockBody item c with
  | case1 c hclose => exact Ahead.gives_pure (List.forall_mem_nil _)
  | case2 c hclose heof => exact Ahead.gives_fail _
  | case3 c hclose heof ih =>
    have hattempt : (attempt item c).Gives (∀ a ∈ ·, P a) := by
      have hitem := h c
      revert hitem
      unfold attempt
      rcases item c with ⟨⟨_ | a, errors, dropped, d⟩, hle⟩ <;> rintro hitem _ ⟨⟩
      · exact nofun
      · rintro _ ⟨⟩
        exact hitem a rfl
    refine hattempt.bind fun s? d hle hs => ((ih d hle).map fun as has => ?_).afterAdvance
    exact List.forall_mem_append.2 ⟨fun a ha => hs a (Option.mem_toList.1 ha), has⟩

/-! ## Expressions and statements -/

section

variable {inner : ExprParser σ} {n : Nat} (h : ∀ floor, (inner floor).Gives (·.nest ≤ n))

include h

theorem nextExpr_gives : (nextExpr inner).Gives (·.nest ≤ n) :=
  gives_bind fun _ => h _

/-- A statement takes what its expression does. -/
theorem statement_gives : (statement inner).Gives (·.nest ≤ n) := by
  refine gives_bind fun t => ?_
  split
  · refine gives_bind fun name => gives_bind fun _ => ?_
    exact (nextExpr_gives h).bind fun value hvalue => gives_bind fun _ => gives_pure hvalue
  · exact (nextExpr_gives h).bind fun value hvalue => gives_bind fun _ => gives_pure hvalue
  · exact (h _).bind fun value hvalue => gives_bind fun _ => gives_pure hvalue

theorem block_gives : (block inner).Gives (Stmt.nestAll · ≤ n) :=
  gives_bind fun _ => gives_bind fun _ c body hbody =>
    Stmt.nestAll_le_iff.2 ((statement_gives h).blockBody c body hbody)

theorem pair_gives :
    (pair inner).Gives fun pair => pair.1.nest ≤ n ∧ pair.2.nest ≤ n :=
  (nextExpr_gives h).bind fun _ hkey => gives_bind fun _ =>
    (nextExpr_gives h).bind fun _ hvalue => gives_pure ⟨hkey, hvalue⟩

theorem alternative_gives : (alternative inner).Gives (Stmt.nestElse · ≤ n) := by
  refine gives_bind fun found => ?_
  split
  · exact gives_bind fun _ => (block_gives h).bind fun body hbody => gives_pure hbody
  · exact gives_pure (Nat.zero_le n)

/-- The parts of an operand are one level further down. -/
theorem operand_gives : (operand inner).Gives (·.nest ≤ n + 1) := by
  have hleaf : 1 ≤ n + 1 := Nat.le_add_left 1 n
  refine gives_bind fun t => ?_
  split
  · exact gives_pure hleaf
  · unfold integer
    split
    · exact gives_pure hleaf
    · exact gives_fail _
  · exact gives_pure hleaf
  · exact gives_pure hleaf
  · exact gives_pure hleaf
  · exact (nextExpr_gives h).bind fun e he => gives_bind fun _ => gives_pure (Nat.le_succ_of_le he)
  · refine (nextExpr_gives h).listed.bind fun es hes => gives_pure ?_
    have hparts := Expr.nestAll_le_iff.2 hes
    simp only [Expr.nest]
    omega
  · refine ((pair_gives h).separatedUntil .rbrace).bind fun pairs hpairs =>
      gives_bind fun _ => gives_pure ?_
    have hparts := Expr.nestPairs_le_iff.2 hpairs
    simp only [Expr.nest]
    omega
  · refine gives_bind fun _ => (nextExpr_gives h).bind fun c hc => gives_bind fun _ => ?_
    refine (block_gives h).bind fun t ht => (alternative_gives h).bind fun a ha => gives_pure ?_
    simp only [Expr.nest]
    omega
  · refine gives_bind fun _ => (block_gives h).bind fun body hbody => gives_pure ?_
    simp only [Expr.nest]
    omega
  · exact gives_fail _
  · split
    · refine gives_bind fun _ => (h _).bind fun e he => gives_pure ?_
      simp only [Expr.nest]
      omega
    · exact gives_fail _

/-- The operand before stays on its level; what is applied to it is one
further down. -/
theorem applied_gives {left : Expr} (hleft : left.nest ≤ n + 1) :
    (applied inner left).Gives (·.nest ≤ n + 1) := by
  refine gives_bind fun t => ?_
  dsimp only
  split
  · refine (nextExpr_gives h).listed.bind fun es hes => gives_pure ?_
    have hparts := Expr.nestAll_le_iff.2 hes
    simp only [Expr.nest]
    omega
  · refine (nextExpr_gives h).bind fun i hi => gives_bind fun _ => gives_pure ?_
    simp only [Expr.nest]
    omega
  · split
    · refine gives_bind fun _ => (h _).bind fun r hr => gives_pure ?_
      simp only [Expr.nest]
      omega
    · exact gives_pure hleft

/-- Every round leaves an operand on its level, by induction on the
rounds. -/
theorem extended_gives (floor : Precedence) {left : Expr} (hleft : left.nest ≤ n + 1) :
    Gives (·.nest ≤ n + 1) (extended inner floor left) := by
  intro c
  fun_induction Parser.extended inner floor left c with
  | case1 left c hlt ih =>
    exact ((applied_gives h hleft c.advance).bind fun e d hle he => ih e d hle he).afterAdvance
  | case2 left c hlt => exact Ahead.gives_pure hleft

end

/-- **An expression takes no more levels than there are.** -/
theorem expr_gives (n : Nat) (floor : Precedence) :
    (expr (σ := σ) n floor).Gives (·.nest ≤ n) := by
  induction n generalizing floor with
  | zero => exact gives_fail _
  | succ n ih => exact (operand_gives ih).bind fun left hleft => extended_gives ih floor hleft

end Parser

/-- What holds of every statement that a parser gives holds of every statement
that is read with it. -/
theorem forall_mem_readWith {P : Stmt → Prop} {item : Parser σ Stmt} (h : item.Gives P)
    (c : Cursor σ) : ∀ s ∈ (readWith item c).statements, P s := by
  induction c using readWith_statements item with
  | ended c heof =>
    rw [readWith_of_eof _ heof]
    exact List.forall_mem_nil _
  | statement c heof ih =>
    rw [readWith_eq _ heof]
    exact List.forall_mem_append.2 ⟨fun s hs => h c s (Option.mem_toList.1 hs), ih⟩

/-- **Whatever is read, no expression takes more levels than the limit
allows.** -/
theorem nestAll_read_le (source : σ) : Stmt.nestAll (read source).statements ≤ nestingLimit := by
  rw [read, ← readWith_topStatement]
  refine Stmt.nestAll_le_iff.2 (forall_mem_readWith ?_ _)
  exact Parser.statement_gives (Parser.expr_gives nestingLimit)

end MonkeyLang
