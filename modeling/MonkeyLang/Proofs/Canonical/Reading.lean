import MonkeyLang.Proofs.Canonical.Depth
import MonkeyLang.Proofs.Parser.Sources
import MonkeyLang.Proofs.Recognition
/-!
# Canonical text is read back

The canonical text of a program whose statements can be read back is read
as that program again, as long as no statement needs more nesting than the
limit allows. If one does, that is what the reading reports
(`readText_render`).
-/

namespace MonkeyLang

open Grammar MonkeyLang.Parser

/-- A program whose canonical text is code for it. -/
def Program.Readable (p : Program) : Prop := Stmt.ReadableAll p.statements

namespace Stmt.ReadableAll

variable {ss : List Stmt}

/-- The tokens of the text are the statements by the grammar. -/
theorem body (h : Stmt.ReadableAll ss) {n : Nat} (hn : ∀ s ∈ ss, s.need ≤ n) :
    Body (Expression n) (Stmt.tokensAll ss) ss := by
  induction h with
  | nil => exact .nil
  | last he =>
    rw [List.forall_mem_singleton] at hn
    exact .unended (.expr (he.derives hn .equality)) nofun .nil
  | bind _ he _ ih =>
    rw [List.forall_mem_cons] at hn
    exact .ended (.bind rfl rfl rfl (he.derives hn.1 .equality)) rfl (ih hn.2)
  | ret he _ ih =>
    rw [List.forall_mem_cons] at hn
    exact .ended (.ret rfl (he.derives hn.1 .equality)) rfl (ih hn.2)

/-- Nothing that begins the text of statements goes on with another one. -/
theorem fresh (h : Stmt.ReadableAll ss) : Fresh (Stmt.tokensAll ss) := by
  -- the grammar says so of statements at any depth of nesting that is enough
  -- for them
  obtain ⟨n, hn⟩ : ∃ n, ∀ s ∈ ss, s.need ≤ n := by
    clear h
    induction ss with
    | nil => exact ⟨0, nofun⟩
    | cons s ss ih =>
      obtain ⟨n, hn⟩ := ih
      refine ⟨max s.need n, List.forall_mem_cons.mpr ⟨Nat.le_max_left _ _, fun t ht => ?_⟩⟩
      exact Nat.le_trans (hn t ht) (Nat.le_max_right _ _)
  have hfresh : Fresh (Stmt.tokensAll ss ++ []) :=
    fresh_body (expr_complete n) (h.body hn) (by simp [Fresh, Token.endOfInput])
  rwa [List.append_nil] at hfresh

end Stmt.ReadableAll

/-! ## Statements that are nested too deeply -/

/-- A statement whose expression is too deep is not read, and the reading
reports it. -/
theorem nestingTooDeep_mem_of_tooDeep {c : Cursor (List Token)} (heof : c.current.kind ≠ .eof)
    (h : (topStatement c).TooDeep) : .nestingTooDeep ∈ (readFrom c).errors := by
  rw [readFrom, dif_neg heof]
  split
  next step _ heq =>
    rw [heq] at h
    obtain ⟨hnode, hrecorded⟩ := h
    split
    · exact List.mem_append_left _ hrecorded
    · exact List.mem_append_left _ hrecorded

section Statements

variable {e : Expr} (he : e.Readable) (hn : nestingLimit < e.need) (rest : List Token)

include he hn

theorem bind_tooDeep (name : String) :
    (topStatement (.start ((Stmt.bind name e).tokens ++ rest))).TooDeep := by
  refine tooDeep_current ?_
  obtain ⟨last, hy⟩ : ∃ last, (Parser.name (.start (⟨.letWord, "let"⟩ ::
      ([⟨.ident, name⟩] ++ .symbol .assign :: (e.tokens ++ rest))))).Yields name
        (.start (last :: .symbol .assign :: (e.tokens ++ rest))) :=
    name_complete _ (.mk rfl) trivial
  refine tooDeep_bind_of_yields hy (tooDeep_bind_of_yields (expect_complete rfl) ?_)
  exact tooDeep_bind ((he.deepOrRead nestingLimit).nextExpr_tooDeep hn _ rest)

theorem ret_tooDeep : (topStatement (.start ((Stmt.ret e).tokens ++ rest))).TooDeep := by
  refine tooDeep_current ?_
  exact tooDeep_bind ((he.deepOrRead nestingLimit).nextExpr_tooDeep hn _ rest)

theorem expr_tooDeep : (topStatement (.start ((Stmt.expr e).tokens ++ rest))).TooDeep := by
  have hlowest : Precedence.lowest.rank ≤ Precedence.unary.rank := by decide
  have hdeep := (he.deepOrRead nestingLimit).tooDeep hn hlowest rest
  obtain ⟨t, ts, htokens, hopening⟩ := he.opens
  have hcurrent : (Cursor.start (e.tokens ++ rest)).current.kind ∈ opening := by
    rw [htokens]
    exact hopening
  exact (tooDeep_bind hdeep).of_val_eq (statement_val_of_opening hcurrent)

end Statements

/-- A statement that ends in a semicolon is read, or is reported as too
deep; after it the reading goes on with the others. -/
theorem nestingTooDeep_mem_of_ended {s : Stmt} {ss : List Stmt} {t : Token} {ts : List Token}
    (htokens : s.tokens = t :: ts) (hk : t.kind ≠ .eof) (hss : Stmt.ReadableAll ss)
    (hread : s.need ≤ nestingLimit → Statement (Expression nestingLimit) s.tokens s)
    (hdeep : nestingLimit < s.need → ∀ rest, (topStatement (.start (s.tokens ++ rest))).TooDeep)
    (hrest : s.need ≤ nestingLimit →
      .nestingTooDeep ∈ (readFrom (.start (Stmt.tokensAll ss))).errors) :
    .nestingTooDeep ∈
      (readFrom (.start (s.tokens ++ .symbol .semicolon :: Stmt.tokensAll ss))).errors := by
  have heof : (Cursor.start (s.tokens ++ .symbol .semicolon :: Stmt.tokensAll ss)).current.kind ≠
      .eof := by
    rw [htokens]
    exact hk
  by_cases hneed : s.need ≤ nestingLimit
  · have hcomplete := expr_complete nestingLimit
    have hleads : Leads _ (s.tokens ++ .symbol .semicolon :: Stmt.tokensAll ss) s _ :=
      leads_of_ended hcomplete (hread hneed) rfl
    obtain ⟨last, hy⟩ := statement_complete hcomplete hleads hss.fresh
    obtain ⟨herrors, -⟩ := readFrom_of_yields heof hy
    rw [herrors, Cursor.advance_start]
    exact hrest hneed
  · exact nestingTooDeep_mem_of_tooDeep heof (hdeep (Nat.not_le.mp hneed) _)

/-- **Statements one of which is too deep** are reported as such. -/
theorem nestingTooDeep_mem {ss : List Stmt} (h : Stmt.ReadableAll ss)
    (hdeep : ∃ s ∈ ss, nestingLimit < s.need) :
    .nestingTooDeep ∈ (readFrom (.start (Stmt.tokensAll ss))).errors := by
  induction h with
  | nil => simp at hdeep
  | @last e he =>
    obtain ⟨t, ts, htokens, hopening⟩ := he.opens
    have hneed : nestingLimit < e.need := by simpa [Stmt.need] using hdeep
    refine nestingTooDeep_mem_of_tooDeep ?_ (expr_tooDeep he hneed [])
    rw [Stmt.tokensAll, htokens]
    intro hk
    rw [show t.kind = .eof from hk] at hopening
    exact absurd hopening (by decide)
  | @bind name e ss _ he hss ih =>
    simp only [List.mem_cons, exists_eq_or_imp] at hdeep
    refine nestingTooDeep_mem_of_ended (s := .bind name e) rfl (by decide) hss ?_ ?_ fun hn => ?_
    · exact fun hn => .bind rfl rfl rfl (he.derives hn .equality)
    · exact fun hn rest => bind_tooDeep he hn rest name
    · exact ih (hdeep.resolve_left (Nat.not_lt.mpr hn))
  | @ret e ss he hss ih =>
    simp only [List.mem_cons, exists_eq_or_imp] at hdeep
    refine nestingTooDeep_mem_of_ended (s := .ret e) rfl (by decide) hss ?_ ?_ fun hn => ?_
    · exact fun hn => .ret rfl (he.derives hn .equality)
    · exact fun hn rest => ret_tooDeep he hn rest
    · exact ih (hdeep.resolve_left (Nat.not_lt.mpr hn))

/-! ## The text of a program -/

/-- **Canonical text is read back as the same program**, without errors,
if no statement needs more nesting than the limit allows; and if one does,
the reading reports that something is nested too deeply. -/
theorem readText_render {p : Program} (h : p.Readable) :
    ((∀ s ∈ p.statements, s.need ≤ nestingLimit) →
      (readText p.render).errors = [] ∧ (readText p.render).program = p) ∧
    ((∃ s ∈ p.statements, nestingLimit < s.need) →
      .nestingTooDeep ∈ (readText p.render).errors) := by
  -- the text is read like the list of its tokens
  have hagrees := readText_agrees p.render
  rw [Program.render, Stmt.ReadableAll.ofText_renderAll h] at hagrees
  obtain ⟨hstatements, herrors, -⟩ := hagrees
  rw [Program.render, Reading.program, hstatements, herrors]
  constructor
  · intro hneed
    have hbody : Body (Expression nestingLimit) (Stmt.tokensAll p.statements) p.statements :=
      h.body hneed
    obtain ⟨hread, hprogram⟩ := readFrom_of_derives hbody
    exact ⟨hread, congrArg Program.mk hprogram⟩
  · intro hdeep
    exact nestingTooDeep_mem h hdeep

/-- The text `let x = (-5);(x[0])` is read back. With 128 times a `!` in
front of `true`, each in parentheses of its own, the limit is passed. -/
theorem readText_render_index_and_nots :
    (readText (Program.render ⟨[.bind "x" (.unary .negate (.int 5)),
        .expr (.index (.ident "x") (.int 0))]⟩)).errors = [] ∧
      .nestingTooDeep ∈ (readText (Program.render
        ⟨[.expr ((List.replicate 128 UnaryOp.not).foldr .unary (.bool true))]⟩)).errors := by
  have hname : Token.IsName "x" := ⟨'x', [], by decide, by decide, nofun, by decide⟩
  have hshallow : Program.Readable ⟨[.bind "x" (.unary .negate (.int 5)),
      .expr (.index (.ident "x") (.int 0))]⟩ :=
    .bind hname (.unary _ (.int (by decide))) (.last (.index (.ident hname) (.int (by decide))))
  have hnots : ∀ n, ((List.replicate n UnaryOp.not).foldr Expr.unary (.bool true)).Readable := by
    intro n
    induction n with
    | zero => exact .bool true
    | succ n ih => exact .unary .not ih
  have hdeep : Program.Readable
      ⟨[.expr ((List.replicate 128 UnaryOp.not).foldr .unary (.bool true))]⟩ := .last (hnots 128)
  exact ⟨((readText_render hshallow).1 (by decide)).1,
    (readText_render hdeep).2 ⟨_, List.mem_singleton_self _, by decide +kernel⟩⟩

end MonkeyLang
