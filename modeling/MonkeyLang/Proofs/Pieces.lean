import MonkeyLang.Proofs.Eval.Depth
import MonkeyLang.Proofs.Eval.Keeps
import MonkeyLang.Proofs.Lexemes
import MonkeyLang.Proofs.Parser.Sources
import MonkeyLang.Proofs.Recognition
import MonkeyLang.Session
/-!
# Programs in pieces

A text that ends with a semicolon and a text behind it are read one after
the other as they are read together. No token reaches over the semicolon
(`Token.ofText_append`), no phrase of the grammar ends with one, so that a
program goes on behind it as if it began there (`Grammar.Body.append`), and
statements are evaluated one after the other in one scope
(`Stmt.evalAll_append`).

What a program comes to is told here without a depth of calls: it `Ends`,
or `Results` in a value, if it does so within some depth, and then in that
value only (`Program.Results.unique`). The main statement is
`readText_append_and_results`: running a program in pieces is running it as
a whole.
-/

namespace MonkeyLang

/-! ## No token reaches over a semicolon -/

namespace Token

variable {token : Token} {text rest : List Char}

/-- A token that something follows is spelled the same when more follows. -/
theorem Spelled.append (h : token.Spelled text rest) (hne : rest ≠ []) (more : List Char) :
    token.Spelled text (rest ++ more) := by
  obtain ⟨c, rest, rfl⟩ := List.exists_cons_of_ne_nil hne
  cases h with
  | string hbody => exact .string hbody
  | ident hword hfree hend => exact .ident hword hfree hend
  | keyword hmem hend => exact .keyword hmem hend
  | int hdigits hend => exact .int hdigits hend
  | symbol hmem hnext => exact .symbol hmem hnext
  | illegal hblank hword hquote hsymbol => exact .illegal hblank hword hquote hsymbol

/-- A semicolon is spelled the same whatever follows. -/
theorem Spelled.of_semicolon (h : token.Spelled text rest) (hkind : token.kind = .semicolon)
    (rest' : List Char) : token.Spelled text rest' := by
  cases h with
  | keyword hmem _ =>
    have hfree : ∀ entry ∈ TokenKind.keywords, entry.2 ≠ .semicolon := by decide
    exact absurd hkind (hfree _ hmem)
  | symbol hmem _ =>
    obtain rfl : _ = TokenKind.semicolon := hkind
    exact .symbol hmem nofun
  | _ => cases hkind

theorem ofText_blanks {blanks : List Char} (h : ∀ c ∈ blanks, isBlank c = true)
    (more : List Char) : ofText (blanks ++ more) = ofText more := by
  induction blanks with
  | nil => rfl
  | cons c blanks ih =>
    obtain ⟨hc, hblanks⟩ := List.forall_mem_cons.1 h
    rw [List.cons_append, ofText_blank hc, ih hblanks]

theorem ofText_append_of_cut {lexemes : List Lexeme} {last : List Char} (h : Cut lexemes last)
    (hsemicolon : ∃ l ∈ lexemes.getLast?, l.token.kind = .semicolon) (more : List Char) :
    ofText (Lexeme.join lexemes last ++ more) = lexemes.map Lexeme.token ++ ofText more := by
  induction h with
  | nil => obtain ⟨_, ⟨⟩, _⟩ := hsemicolon
  | @cons l lexemes last hblanks hspelled hcut ih =>
    rw [Lexeme.join_cons, List.append_assoc, List.append_assoc, List.map_cons, List.cons_append]
    by_cases hne : lexemes = []
    · -- the last lexeme: behind the semicolon there are only blanks
      subst hne
      obtain ⟨_, ⟨rfl⟩, hkind⟩ := hsemicolon
      cases hcut with | nil hlast
      rw [(hspelled.of_semicolon hkind _).ofText hblanks, Lexeme.join_nil,
        ofText_blanks hlast]
      rfl
    · have hrest : Lexeme.join lexemes last ≠ [] := hcut.join_ne_of_blank hne nofun
      rw [(hspelled.append hrest more).ofText hblanks, ih ?_]
      rwa [List.getLast?_cons_of_ne_nil hne] at hsemicolon

/-- **The tokens of two texts, the first of which ends with a semicolon.** -/
theorem ofText_append {text : List Char}
    (hsemicolon : ∃ t ∈ (ofText text).getLast?, t.kind = .semicolon) (more : List Char) :
    ofText (text ++ more) = ofText text ++ ofText more := by
  obtain ⟨lexemes, last, hcut, rfl⟩ := exists_cut text
  rw [hcut.ofText_join] at hsemicolon ⊢
  refine ofText_append_of_cut hcut ?_ more
  obtain ⟨t, ht, hkind⟩ := hsemicolon
  rw [List.getLast?_map] at ht
  obtain ⟨l, hl, rfl⟩ := Option.map_eq_some_iff.1 ht
  exact ⟨l, hl, hkind⟩

/-- The end of the input is no token of a text. -/
theorem kind_ne_eof_of_mem_ofText {text : List Char} : ∀ t ∈ ofText text, t.kind ≠ .eof := by
  obtain ⟨lexemes, last, hcut, rfl⟩ := exists_cut text
  rw [hcut.ofText_join]
  exact hcut.supplies.1

end Token

/-! ## No phrase ends with a semicolon -/

namespace Grammar

/-- The last of some tokens is there and is no semicolon. -/
def Closes (ts : List Token) : Prop := ∃ t ∈ ts.getLast?, t.kind ≠ .semicolon

theorem closes_singleton {t : Token} {kind : TokenKind} (hkind : t.kind = kind)
    (hne : kind ≠ .semicolon) : Closes [t] := ⟨t, rfl, hkind ▸ hne⟩

theorem Closes.append {us : List Token} (h : Closes us) (ts : List Token) :
    Closes (ts ++ us) := by
  obtain ⟨t, ht, hkind⟩ := h
  refine ⟨t, ?_, hkind⟩
  rw [List.getLast?_append, Option.mem_def.1 ht]
  rfl

theorem Closes.cons {ts : List Token} (h : Closes ts) (t : Token) : Closes (t :: ts) :=
  h.append [t]

section

variable {inner : Layer → List Token → Expr → Prop}

theorem Block.closes {ts : List Token} {ss : List Stmt} (h : Block inner ts ss) : Closes ts := by
  cases h with
  | mk _ _ hright => exact ((closes_singleton hright nofun).append _).cons _

theorem Primary.closes {ts : List Token} {e : Expr} (h : Primary inner ts e) : Closes ts := by
  cases h with
  | ident ht => exact closes_singleton ht nofun
  | int ht _ => exact closes_singleton ht nofun
  | string ht => exact closes_singleton ht nofun
  | trueWord ht => exact closes_singleton ht nofun
  | falseWord ht => exact closes_singleton ht nofun
  | group _ _ hright => exact ((closes_singleton hright nofun).append _).cons _
  | array _ _ hright => exact ((closes_singleton hright nofun).append _).cons _
  | hash _ _ hright => exact ((closes_singleton hright nofun).append _).cons _
  | @cond _ us vs _ _ _ _ _ right _ _ _ _ hblock hother =>
    have hend : Closes (us ++ vs) := by
      cases hother with
      | none =>
        rw [List.append_nil]
        exact hblock.closes
      | some _ hblock' => exact (hblock'.closes.cons _).append _
    exact (((hend.cons right).append _).cons _).cons _
  | function _ _ _ _ hblock => exact (((hblock.closes.cons _).append _).cons _).cons _

theorem Layered.closes (hinner : ∀ layer ts e, inner layer ts e → Closes ts) {layer : Layer}
    {ts : List Token} {e : Expr} (h : Layered inner layer ts e) : Closes ts := by
  induction h with
  | primary h => exact h.closes
  | call _ _ _ hright _ => exact (((closes_singleton hright nofun).append _).cons _).append _
  | index _ _ _ hright _ => exact (((closes_singleton hright nofun).append _).cons _).append _
  | unary _ hoperand => exact (hinner _ _ _ hoperand).cons _
  | binary _ _ hright _ => exact ((hinner _ _ _ hright).cons _).append _
  | tighter _ ih => exact ih

theorem Statement.closes (hinner : ∀ layer ts e, inner layer ts e → Closes ts) {ts : List Token}
    {s : Stmt} (h : Statement inner ts s) : Closes ts := by
  cases h with
  | bind _ _ _ he => exact (((hinner _ _ _ he).cons _).cons _).cons _
  | ret _ he => exact (hinner _ _ _ he).cons _
  | expr he => exact hinner _ _ _ he

/-- Statements may follow where there are none yet, or a semicolon is last. -/
theorem Body.append (hinner : ∀ layer ts e, inner layer ts e → Closes ts) {ts us : List Token}
    {ss ss' : List Stmt} (h : Body inner ts ss) (hts : ¬ Closes ts) (h' : Body inner us ss') :
    Body inner (ts ++ us) (ss ++ ss') := by
  induction h with
  | nil => exact h'
  | @ended ts rest s ss semicolon hs hsemicolon _ ih =>
    rw [List.append_assoc]
    exact .ended hs hsemicolon (ih fun hrest => hts ((hrest.cons _).append _))
  | @unended ts rest s ss hs hapart _ ih =>
    rw [List.append_assoc]
    refine .unended hs ?_ (ih fun hrest => hts (hrest.append _))
    cases rest with
    | nil =>
      -- then the statement would be the last one, and end without a semicolon
      rw [List.append_nil] at hts
      exact absurd (hs.closes hinner) hts
    | cons t rest => exact hapart

end

theorem Expression.closes : ∀ (n : Nat) (layer : Layer) (ts : List Token) (e : Expr),
    Expression n layer ts e → Closes ts
  | n + 1, _, _, _, h => Layered.closes (Expression.closes n) h

end Grammar

/-- **What is read behind a semicolon is read as if nothing were in
front.** -/
theorem readText_append {text more : String} (h : (readText text).errors = [])
    (hmore : (readText more).errors = [])
    (hsemicolon : ∃ t ∈ (Token.ofText text.toList).getLast?, t.kind = .semicolon) :
    (readText (text ++ more)).errors = [] ∧
      (readText (text ++ more)).statements =
        (readText text).statements ++ (readText more).statements := by
  have hderives {text : String} (h : (readText text).errors = []) :
      Grammar.Body (Grammar.Expression nestingLimit) (Token.ofText text.toList)
        (readText text).statements := by
    have hread := readText_agrees text
    rw [hread.errors] at h
    rw [hread.statements]
    exact derives_of_errors_eq_nil Token.kind_ne_eof_of_mem_ofText h
  have hopen : ¬ Grammar.Closes (Token.ofText text.toList) := by
    rintro ⟨t, ht, hkind⟩
    obtain ⟨u, hu, hsemi⟩ := hsemicolon
    exact hkind (Option.mem_unique ht hu ▸ hsemi)
  have hbody := (hderives h).append (Grammar.Expression.closes _) hopen (hderives hmore)
  have hread := readText_agrees (text ++ more)
  rw [String.toList_append, Token.ofText_append hsemicolon] at hread
  obtain ⟨herrors, hstatements⟩ := readFrom_of_derives hbody
  exact ⟨hread.errors.trans herrors, hread.statements.trans hstatements⟩

/-! ## Statements one after the other -/

section

variable {apply : Applier} {scope : ScopeId} {ss : List Stmt} {last v : Value} {reason : Unwind}
variable {s s₁ : Store}

/-- Statements that end leave off where those behind them begin. -/
theorem Stmt.evalAll_append (h : Stmt.evalAll apply scope last ss s = some (.ok v, s₁))
    (ss' : List Stmt) :
    Stmt.evalAll apply scope last (ss ++ ss') s = Stmt.evalAll apply scope v ss' s₁ := by
  induction ss generalizing last s with
  | nil => cases h; rfl
  | cons st ss ih =>
    obtain ⟨w, s₂, hst, hss⟩ := Eval.bind_eq_ok_iff.1 h
    exact (Eval.bind_of_ok hst).trans (ih hss)

/-- Where statements stop early, those behind them are not reached. -/
theorem Stmt.evalAll_append_of_error
    (h : Stmt.evalAll apply scope last ss s = some (.error reason, s₁)) (ss' : List Stmt) :
    Stmt.evalAll apply scope last (ss ++ ss') s = some (.error reason, s₁) := by
  induction ss generalizing last s with
  | nil => cases h
  | cons st ss ih =>
    obtain hst | ⟨w, s₂, hst, hss⟩ := Eval.bind_eq_error_iff.1 h
    · exact Eval.bind_of_error hst
    · exact (Eval.bind_of_ok hst).trans (ih hss)

/-- What came before some statements does not matter to them. -/
theorem Stmt.evalAll_of_ne_nil (hne : ss ≠ []) (last last' : Value) :
    Stmt.evalAll apply scope last ss = Stmt.evalAll apply scope last' ss := by
  obtain ⟨st, ss, rfl⟩ := List.exists_cons_of_ne_nil hne
  rfl

end

namespace Program

variable {p p' whole : Program} {scope : ScopeId} {s s₁ s' : Store} {v w : Value}
variable {reason : Unwind}

/-- What the statements of a program come to, within some depth of calls:
a value, or what stopped them early. -/
def Ends (p : Program) (scope : ScopeId) (s : Store) (outcome : Except Unwind Value)
    (s' : Store) : Prop :=
  ∃ depth, Stmt.evalAll (Value.apply depth) scope .null p.statements s = some (outcome, s')

/-- What a run of a program comes to, within some depth of calls. -/
def Results (p : Program) (scope : ScopeId) (s : Store) (v : Value) (s' : Store) : Prop :=
  ∃ depth, p.run depth scope s = some (v, s')

theorem run_upto {depth depth' : Nat} (hle : depth ≤ depth')
    (h : p.run depth scope s = some (v, s')) : p.run depth' scope s = some (v, s') :=
  (Stmt.evalAll_upto (Value.apply_upto hle) p.statements).atCall.settle h

/-- A run comes to one result only, in one store. -/
theorem Results.unique (h : p.Results scope s v s') (h' : p.Results scope s w s₁) :
    v = w ∧ s' = s₁ := by
  obtain ⟨depth, h⟩ := h
  obtain ⟨depth', h'⟩ := h'
  have hrun := run_upto (Nat.le_max_left depth depth') h
  have hrun' := run_upto (Nat.le_max_right depth depth') h'
  rw [hrun, Option.some.injEq, Prod.mk.injEq] at hrun'
  exact hrun'

/-- A program whose statements end has a result in the store they leave. -/
theorem Ends.results (h : p.Ends scope s (.ok v) s₁) : p.Results scope s v s₁ := by
  obtain ⟨depth, h⟩ := h
  refine ⟨depth, ?_⟩
  unfold run Eval.settle Eval.atCall
  rw [h]

theorem Ends.exists_results_of_error (h : p.Ends scope s (.error reason) s₁) :
    ∃ w, p.Results scope s w s₁ := by
  obtain ⟨depth, h⟩ := h
  unfold Results run Eval.settle Eval.atCall
  cases reason with
  | returned v => exact ⟨v, depth, by rw [h]⟩
  | failed e => exact ⟨e.toValue, depth, by rw [h]⟩

/-- Two runs that are the same at every depth from some depth on. -/
theorem results_iff_of_run_eq (depth : Nat)
    (h : ∀ depth', depth ≤ depth' → p.run depth' scope s = p'.run depth' scope s₁) :
    p.Results scope s w s' ↔ p'.Results scope s₁ w s' := by
  have hle := Nat.le_max_left depth
  have hle' := Nat.le_max_right depth
  constructor
  · rintro ⟨depth', hrun⟩
    exact ⟨_, (h _ (hle depth')).symm.trans (run_upto (hle' depth') hrun)⟩
  · rintro ⟨depth', hrun⟩
    exact ⟨_, (h _ (hle depth')).trans (run_upto (hle' depth') hrun)⟩

/-- A program goes on with the statements of another one where its first
statements end. -/
theorem Ends.results_iff (h : p.Ends scope s (.ok v) s₁)
    (hwhole : whole.statements = p.statements ++ p'.statements) (hne : p'.statements ≠ []) :
    whole.Results scope s w s' ↔ p'.Results scope s₁ w s' := by
  obtain ⟨depth, h⟩ := h
  refine results_iff_of_run_eq depth fun depth' hle => ?_
  have hfirst := Stmt.evalAll_upto (Value.apply_upto hle) p.statements _ _ h
  unfold run Eval.settle Eval.atCall
  rw [hwhole, Stmt.evalAll_append hfirst, Stmt.evalAll_of_ne_nil hne v .null]

/-- A program whose first statements stop early does not get to the others. -/
theorem Ends.results_iff_of_error (h : p.Ends scope s (.error reason) s₁)
    (hwhole : whole.statements = p.statements ++ p'.statements) :
    whole.Results scope s w s' ↔ p.Results scope s w s' := by
  obtain ⟨depth, h⟩ := h
  refine results_iff_of_run_eq depth fun depth' hle => ?_
  have hfirst := Stmt.evalAll_upto (Value.apply_upto hle) p.statements _ _ h
  unfold run Eval.settle Eval.atCall
  rw [hwhole, Stmt.evalAll_append_of_error hfirst, hfirst]

end Program

/-- **Running a program in pieces is running it as a whole.** Two texts
without syntax errors, the first of which ends with a semicolon and the
second of which has some statement, are without errors as one text, which
has the statements of both. Where the statements of the first end, running
the second from there on has the result that the whole has; where they stop
early, the whole has the result that the first has. -/
theorem readText_append_and_results (text more : String) (h : (readText text).errors = [])
    (hmore : (readText more).errors = [])
    (hsemicolon : ∃ t ∈ (Token.ofText text.toList).getLast?, t.kind = .semicolon)
    (hne : (readText more).statements ≠ []) :
    let p := (readText text).program
    let p' := (readText more).program
    let whole := (readText (text ++ more)).program
    (readText (text ++ more)).errors = [] ∧ whole.statements = p.statements ++ p'.statements ∧
      ∀ scope s s₁,
        (∀ v, p.Ends scope s (.ok v) s₁ →
          p.Results scope s v s₁ ∧
          ∀ w s', p'.Results scope s₁ w s' ↔ whole.Results scope s w s') ∧
        ∀ reason, p.Ends scope s (.error reason) s₁ →
          (∃ w, p.Results scope s w s₁) ∧
          ∀ w s', whole.Results scope s w s' ↔ p.Results scope s w s' := by
  intro p p' whole
  obtain ⟨herrors, hwhole⟩ : (readText (text ++ more)).errors = [] ∧
      whole.statements = p.statements ++ p'.statements := readText_append h hmore hsemicolon
  refine ⟨herrors, hwhole, fun scope s s₁ => ⟨fun v hends => ?_, fun reason hends => ?_⟩⟩
  · exact ⟨hends.results, fun w s' => (hends.results_iff hwhole hne).symm⟩
  · exact ⟨hends.exists_results_of_error, fun w s' =>
      hends.results_iff_of_error hwhole⟩

/-- A function with nested blocks and a `return` in front of its calls; and
a `return` at the top, behind which nothing is run. -/
theorem results_of_function_and_calls :
    let text := "let f = fn(x) \x7b if (x) \x7b return [x]; \x7d \x7d;"
    let s₁ : Store := ⟨#[⟨⟨[("f", .function ⟨0⟩ ⟨["x"],
      [.expr (.cond (.ident "x") [.ret (.array [.ident "x"])] none)], ⟨0⟩⟩)]⟩, none⟩], 1⟩
    ((readText text).errors = [] ∧ (readText "f(2) == f(2)").errors = [] ∧
      (∃ t ∈ (Token.ofText text.toList).getLast?, t.kind = .semicolon) ∧
      (readText "f(2) == f(2)").statements ≠ []) ∧
    ((readText text).program.Ends ⟨0⟩ Session.new.store (.ok .null) s₁ ∧
      ∃ s', (readText (text ++ "f(2) == f(2)")).program.Results ⟨0⟩ Session.new.store
        (.bool false) s') ∧
    (readText ("return 1;" ++ "f(2)")).program.Results ⟨0⟩ Session.new.store (.int 1)
      Session.new.store := by
  intro text s₁
  have hread : (readText text).errors = [] ∧ (readText text).program =
      ⟨[.bind "f" (.function ["x"]
        [.expr (.cond (.ident "x") [.ret (.array [.ident "x"])] none)])]⟩ := by decide +kernel
  have hcalls : (readText "f(2) == f(2)").errors = [] ∧ (readText "f(2) == f(2)").program =
      ⟨[.expr (.binary .eq (.call (.ident "f") [.int 2]) (.call (.ident "f") [.int 2]))]⟩ := by
    decide +kernel
  have hlast : ∃ t ∈ (Token.ofText text.toList).getLast?, t.kind = .semicolon :=
    ⟨⟨.semicolon, ";"⟩, by decide +kernel, rfl⟩
  have hne : (readText "f(2) == f(2)").statements ≠ [] := by
    change (readText "f(2) == f(2)").program.statements ≠ []
    rw [hcalls.2]
    exact List.cons_ne_nil _ _
  have hends : (readText text).program.Ends ⟨0⟩ Session.new.store (.ok .null) s₁ :=
    ⟨1, by rw [hread.2]; rfl⟩
  let inner : Scope := ⟨⟨[("x", .int 2)]⟩, some ⟨0⟩⟩
  let s' : Store := ⟨s₁.scopes ++ #[inner, inner], 3⟩
  have hresults : (readText "f(2) == f(2)").program.Results ⟨0⟩ s₁ (.bool false) s' :=
    ⟨2, by rw [hcalls.2]; with_unfolding_all rfl⟩
  have hreturn : (readText "return 1;").errors = [] ∧ (readText "return 1;").program =
      ⟨[.ret (.int 1)]⟩ := by decide +kernel
  have hcall : (readText "f(2)").errors = [] ∧ (readText "f(2)").program =
      ⟨[.expr (.call (.ident "f") [.int 2])]⟩ := by decide +kernel
  have hstops : (readText "return 1;").program.Ends ⟨0⟩ Session.new.store
      (.error (.returned (.int 1))) Session.new.store := ⟨1, by rw [hreturn.2]; rfl⟩
  refine ⟨⟨hread.1, hcalls.1, hlast, hne⟩, ⟨hends, s', ?_⟩, ?_⟩
  · have hrun := readText_append_and_results text "f(2) == f(2)" hread.1 hcalls.1 hlast hne
    exact ((hrun.2.2 _ _ _).1 _ hends).2 _ _ |>.1 hresults
  · have hlast' : ∃ t ∈ (Token.ofText "return 1;".toList).getLast?, t.kind = .semicolon :=
      ⟨⟨.semicolon, ";"⟩, by decide +kernel, rfl⟩
    have hne' : (readText "f(2)").statements ≠ [] := by
      change (readText "f(2)").program.statements ≠ []
      rw [hcall.2]
      exact List.cons_ne_nil _ _
    have hrun := readText_append_and_results "return 1;" "f(2)" hreturn.1 hcall.1 hlast' hne'
    exact (((hrun.2.2 _ _ _).2 _ hstops).2 _ _).2 ⟨1, by rw [hreturn.2]; rfl⟩

end MonkeyLang
