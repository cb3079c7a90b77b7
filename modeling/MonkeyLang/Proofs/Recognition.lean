import MonkeyLang.Proofs.Parser.Balance
import MonkeyLang.Proofs.Parser.Completeness
import MonkeyLang.Tree.Equality
/-!
# The language of the parser

A list of tokens is read without errors exactly if it is a program of the
grammar, and then it is read as that program (`read_eq_iff_derives`).
-/

namespace MonkeyLang

open Grammar MonkeyLang.Parser

/-! ## Programs -/

/-- What a reading makes of a statement in front of the others. -/
theorem readFrom_of_yields {σ : Type} [TokenSource σ] {c d : Cursor σ} {s : Stmt}
    (heof : c.current.kind ≠ .eof) (hy : (topStatement c).Yields s d) :
    (readFrom c).errors = (readFrom d.advance).errors ∧
      (readFrom c).statements = s :: (readFrom d.advance).statements := by
  obtain ⟨hstatements, herrors⟩ := readFrom_of_some heof hy
  exact ⟨herrors, hstatements⟩

/-- A reading without errors read its first statement without any. -/
theorem exists_yields_of_errors_eq_nil {σ : Type} [TokenSource σ] {c : Cursor σ}
    (heof : c.current.kind ≠ .eof) (h : (readFrom c).errors = []) :
    ∃ s d, (topStatement c).Yields s d := by
  refine (balanced_topStatement c).exists_yields ?_
  rw [readFrom, dif_neg heof] at h
  split at h
  next step _ heq =>
    rw [heq]
    split at h
    · exact (List.append_eq_nil_iff.1 h).1
    · exact (List.append_eq_nil_iff.1 h).1

/-- **What is read without errors is in the grammar.** -/
theorem derives_of_errors_eq_nil {ts : List Token} (hts : ∀ t ∈ ts, t.kind ≠ .eof)
    (h : (readFrom (.start ts)).errors = []) :
    Body (Expression nestingLimit) ts (readFrom (.start ts)).statements := by
  -- on the number of tokens: every statement takes some
  induction hn : ts.length using Nat.strongRecOn generalizing ts with | _ n ih
  cases ts with
  | nil =>
    rw [readFrom_start_nil]
    exact .nil
  | cons t ts =>
    have heof : (Cursor.start (t :: ts)).current.kind ≠ .eof := by simpa using hts t (by simp)
    obtain ⟨s, d, hy⟩ := exists_yields_of_errors_eq_nil heof h
    obtain ⟨last, rest, rfl, hleads⟩ := statement_sound (expr_sound nestingLimit) hy
    obtain ⟨herrors, hstatements⟩ := readFrom_of_yields heof hy
    rw [Cursor.advance_start] at herrors hstatements
    -- without an error in the first statement, all errors are those of the
    -- others
    have hrest : ∀ u ∈ rest, u.kind ≠ .eof := fun u hu => hts u (hleads.mem hu)
    have hbody := ih rest.length (hn ▸ hleads.length_lt) hrest (herrors ▸ h) rfl
    rw [← List.append_nil rest] at hleads
    obtain ⟨us, heq, hus⟩ := hleads.body hbody
    rw [hstatements, heq, List.append_nil]
    exact hus

/-- **What is in the grammar is read, without errors.** -/
theorem readFrom_of_derives {ts : List Token} {ss : List Stmt}
    (h : Body (Expression nestingLimit) ts ss) :
    (readFrom (.start ts)).errors = [] ∧ (readFrom (.start ts)).statements = ss := by
  have hcomplete := expr_complete nestingLimit
  have hstep {ts rest : List Token} {s : Stmt} {ss : List Stmt}
      (hs : Leads (Expression nestingLimit) ts s rest)
      (hss : Body (Expression nestingLimit) rest ss)
      (ih : (readFrom (.start rest)).errors = [] ∧ (readFrom (.start rest)).statements = ss) :
      (readFrom (.start ts)).errors = [] ∧ (readFrom (.start ts)).statements = s :: ss := by
    have hfresh : Fresh (rest ++ []) := fresh_body hcomplete hss (by simp [Fresh, Token.endOfInput])
    rw [List.append_nil] at hfresh
    obtain ⟨last, hy⟩ := statement_complete hcomplete hs hfresh
    have hopens := current_mem_of_leads hcomplete hs
    have heof : (Cursor.start ts).current.kind ≠ .eof := by
      intro hk
      rw [hk] at hopens
      exact absurd hopens (by decide)
    obtain ⟨herrors, hstatements⟩ := readFrom_of_yields heof hy
    rw [Cursor.advance_start] at herrors hstatements
    exact ⟨herrors.trans ih.1, by rw [hstatements, List.tail_cons, ih.2]⟩
  induction h with
  | nil =>
    rw [readFrom_start_nil]
    exact ⟨rfl, rfl⟩
  | ended hs hk hss ih => exact hstep (leads_of_ended hcomplete hs hk) hss ih
  | unended hs hus hss ih =>
    have hend : Apart [] := by simp [Apart]
    have hleads := leads_of_unended hcomplete hs hus hend
    rw [List.append_nil] at hleads
    exact hstep hleads hss ih

/-- **The parser accepts its grammar and builds the tree that the grammar
assigns.** A list of tokens is read without errors as a program if and only
if it is that program, nested at most as deeply as the limit says. -/
theorem read_eq_iff_derives (ts : List Token) (hts : ∀ t ∈ ts, t.kind ≠ .eof) (p : Program) :
    (read ts).errors = [] ∧ (read ts).program = p ↔ Derives nestingLimit ts p := by
  constructor
  · rintro ⟨herrors, rfl⟩
    exact derives_of_errors_eq_nil hts herrors
  · intro h
    obtain ⟨herrors, hstatements⟩ := readFrom_of_derives h
    exact ⟨herrors, by simp only [Reading.program, read, hstatements]⟩

/-- Both sides hold of `-a * b(1) == c; {d: 2,}`. -/
theorem derives_equality_of_product :
    let ts : List Token := [⟨.minus, "-"⟩, ⟨.ident, "a"⟩, ⟨.asterisk, "*"⟩, ⟨.ident, "b"⟩,
      ⟨.lparen, "("⟩, ⟨.int, "1"⟩, ⟨.rparen, ")"⟩, ⟨.eq, "=="⟩, ⟨.ident, "c"⟩, ⟨.semicolon, ";"⟩,
      ⟨.lbrace, "\x7b"⟩, ⟨.ident, "d"⟩, ⟨.colon, ":"⟩, ⟨.int, "2"⟩, ⟨.comma, ","⟩,
      ⟨.rbrace, "\x7d"⟩]
    let p : Program := ⟨[.expr (.binary .eq (.binary .mul (.unary .negate (.ident "a"))
      (.call (.ident "b") [.int 1])) (.ident "c")), .expr (.hash [(.ident "d", .int 2)])]⟩
    (∀ t ∈ ts, t.kind ≠ .eof) ∧ ((read ts).errors = [] ∧ (read ts).program = p) ∧
      Derives nestingLimit ts p := by
  intro ts p
  have hts : ∀ t ∈ ts, t.kind ≠ .eof := by decide
  have hread : (read ts).errors = [] ∧ (read ts).program = p := by decide +kernel
  exact ⟨hts, hread, (read_eq_iff_derives ts hts p).1 hread⟩

end MonkeyLang
