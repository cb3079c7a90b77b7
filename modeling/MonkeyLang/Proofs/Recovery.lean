import MonkeyLang.Proofs.Parser.Confined
import MonkeyLang.Tree.Equality
/-!
# Errors stay in their statement

A statement without blocks that cannot be read is skipped up to its
semicolon and no further: neither the parser for statements nor the skipping
of what it leaves gets past a semicolon. So what is in front of a semicolon
and what is behind it are read apart, whatever the one in front is
(`read_append_semicolon`).
-/

namespace MonkeyLang

open MonkeyLang.Parser (confined_topStatement)

variable {semicolon : Token}

/-- Skipping a statement ends in front of the semicolon, or on it, and at
the same place whatever is behind it. -/
theorem exists_skipStatement_eq (hkind : semicolon.kind = .semicolon) {ts : List Token}
    (hts : ∀ t ∈ ts, t.Inner) :
    ∃ us, us <:+ ts ∧ ∀ rest,
      (Cursor.start (ts ++ semicolon :: rest)).skipStatement =
        .start (us ++ semicolon :: rest) := by
  induction ts with
  | nil =>
    refine ⟨[], List.suffix_rfl, fun rest => ?_⟩
    rw [Cursor.skipStatement, if_pos (.inl (by simpa using hkind))]
  | cons t ts ih =>
    obtain ⟨us, hus, hskip⟩ := ih fun u hu => hts u (.tail _ hu)
    have hupcoming (rest : List Token) :
        (Cursor.start (t :: ts ++ semicolon :: rest)).upcoming =
          (Cursor.start (t :: ts ++ [semicolon])).upcoming := by
      cases ts <;> simp
    by_cases hstop : t.kind = .semicolon ∨
        (Cursor.start (t :: ts ++ [semicolon])).upcoming.kind = .letWord ∨
        (Cursor.start (t :: ts ++ [semicolon])).upcoming.kind = .returnWord
    · refine ⟨t :: ts, List.suffix_rfl, fun rest => ?_⟩
      rw [Cursor.skipStatement, hupcoming, if_pos (by simpa using hstop)]
    · refine ⟨us, hus.trans (List.suffix_cons t ts), fun rest => ?_⟩
      have heof : (Cursor.start (t :: ts ++ semicolon :: rest)).current.kind ≠ .eof := by
        simpa using (hts t List.mem_cons_self).ne_eof
      rw [Cursor.skipStatement, hupcoming, if_neg (by simpa using hstop), dif_neg heof]
      simpa using hskip rest

/-- **What is read up to a semicolon does not depend on what is behind
it.** -/
theorem exists_readFrom_eq (hkind : semicolon.kind = .semicolon) {ts : List Token}
    (hts : ∀ t ∈ ts, t.Inner) :
    ∃ ss es, ∀ rest,
      (readFrom (.start (ts ++ semicolon :: rest))).statements =
        ss ++ (readFrom (.start rest)).statements ∧
      (readFrom (.start (ts ++ semicolon :: rest))).errors =
        es ++ (readFrom (.start rest)).errors := by
  -- on the number of tokens: every statement takes some, and so does skipping
  -- one
  induction hn : ts.length using Nat.strongRecOn generalizing ts with | _ n ih
  have heof (rest : List Token) : (Cursor.start (ts ++ semicolon :: rest)).current.kind ≠ .eof := by
    cases ts with
    | nil => simp [hkind]
    | cons t ts => simpa using (hts t List.mem_cons_self).ne_eof
  -- one token further on than where the first statement ends
  have hnext {us : List Token} (hus : us <:+ ts) : ∃ ss es, ∀ rest,
      (readFrom (Cursor.start (us ++ semicolon :: rest)).advance).statements =
        ss ++ (readFrom (.start rest)).statements ∧
      (readFrom (Cursor.start (us ++ semicolon :: rest)).advance).errors =
        es ++ (readFrom (.start rest)).errors := by
    cases us with
    | nil => exact ⟨[], [], fun rest => by simp⟩
    | cons u us =>
      have hlt : us.length < n := hn ▸ hus.length_le
      obtain ⟨ss, es, hread⟩ := ih _ hlt (fun t ht => hts t (hus.subset (.tail _ ht))) rfl
      exact ⟨ss, es, fun rest => by simpa using hread rest⟩
  obtain ⟨node?, dropped, us, errors, hus, -, -, hrun⟩ := confined_topStatement ts hts trivial
  have hrun (rest : List Token) :=
    hrun (semicolon :: rest) (by simpa [Token.firstKind] using hkind)
  cases node? with
  | some s =>
    obtain ⟨ss, es, hread⟩ := hnext hus
    refine ⟨s :: ss, errors semicolon.kind ++ es, fun rest => ?_⟩
    obtain ⟨hstatements, herrors⟩ := readFrom_of_some (heof rest) (hrun rest)
    obtain ⟨hstatements', herrors'⟩ := hread rest
    rw [hstatements, herrors, hstatements', herrors', List.cons_append, List.append_assoc]
    exact ⟨rfl, rfl⟩
  | none =>
    obtain ⟨vs, hvs, hskip⟩ :=
      exists_skipStatement_eq hkind fun t ht => hts t (hus.subset ht)
    obtain ⟨ss, es, hread⟩ := hnext (hvs.trans hus)
    refine ⟨ss, errors semicolon.kind ++ es, fun rest => ?_⟩
    obtain ⟨hstatements, herrors⟩ := readFrom_of_none (heof rest) (hrun rest)
    obtain ⟨hstatements', herrors'⟩ := hread rest
    rw [hstatements, herrors, hskip, hstatements', herrors', List.append_assoc]
    exact ⟨rfl, rfl⟩

/-- What follows some tokens is read as if they were not there, and they are
read as if nothing followed. -/
def ReadApart (ts : List Token) : Prop :=
  ∀ us, (read (ts ++ us)).statements = (read ts).statements ++ (read us).statements ∧
    (read (ts ++ us)).errors = (read ts).errors ++ (read us).errors

/-- Tokens that open no block are read apart with a semicolon behind them. -/
theorem ReadApart.of_unblocked (hkind : semicolon.kind = .semicolon) {ts : List Token}
    (hts : ∀ t ∈ ts, t.kind ≠ .eof ∧ t.kind ≠ .ifWord ∧ t.kind ≠ .fnWord) :
    ReadApart (ts ++ [semicolon]) := by
  intro us
  obtain ⟨ss, es, hread⟩ := exists_readFrom_eq hkind fun t ht =>
    ⟨(hts t ht).1, (hts t ht).2.1, (hts t ht).2.2⟩
  obtain ⟨hstatements, herrors⟩ := hread []
  rw [readFrom_start_nil, List.append_nil] at hstatements herrors
  unfold read
  rw [hstatements, herrors, List.append_assoc]
  exact hread us

/-- **Parsing is compositional at semicolons.** Whatever is in front of a
semicolon, as long as it opens no block, is read as if nothing were behind,
and what is behind as if nothing were in front: the statements and the
errors of the one come before those of the other. -/
theorem read_append_semicolon (ts us : List Token) (semicolon : Token)
    (hkind : semicolon.kind = .semicolon)
    (hts : ∀ t ∈ ts, t.kind ≠ .eof ∧ t.kind ≠ .ifWord ∧ t.kind ≠ .fnWord) :
    (read (ts ++ [semicolon] ++ us)).program.statements =
        (read (ts ++ [semicolon])).program.statements ++ (read us).program.statements ∧
      (read (ts ++ [semicolon] ++ us)).errors =
        (read (ts ++ [semicolon])).errors ++ (read us).errors :=
  ReadApart.of_unblocked hkind hts us

/-- A `let` without `=` that goes on with stray brackets and another
semicolon, in front of a statement that can be read. -/
theorem read_append_broken_let :
    let ts : List Token := [⟨.letWord, "let"⟩, ⟨.ident, "x"⟩, ⟨.int, "5"⟩, ⟨.rparen, ")"⟩,
      ⟨.semicolon, ";"⟩, ⟨.lbrace, "\x7b"⟩, ⟨.illegal, "@"⟩]
    let us : List Token := [⟨.ident, "y"⟩]
    (∀ t ∈ ts, t.kind ≠ .eof ∧ t.kind ≠ .ifWord ∧ t.kind ≠ .fnWord) ∧
      (read (ts ++ [⟨.semicolon, ";"⟩] ++ us)).program.statements = [.expr (.ident "y")] ∧
      (read (ts ++ [⟨.semicolon, ";"⟩] ++ us)).errors =
        [.unexpected .assign .int, .illegalToken "@"] := by
  intro ts us
  have hts : ∀ t ∈ ts, t.kind ≠ .eof ∧ t.kind ≠ .ifWord ∧ t.kind ≠ .fnWord := by decide
  have hfirst : (read (ts ++ [⟨.semicolon, ";"⟩])).program.statements = [] ∧
      (read (ts ++ [⟨.semicolon, ";"⟩])).errors =
        [.unexpected .assign .int, .illegalToken "@"] := by decide +kernel
  have hsecond : (read us).program.statements = [.expr (.ident "y")] ∧ (read us).errors = [] := by
    decide +kernel
  obtain ⟨hstatements, herrors⟩ := read_append_semicolon ts us ⟨.semicolon, ";"⟩ rfl hts
  exact ⟨hts, by rw [hstatements, hfirst.1, hsecond.1]; rfl,
    by rw [herrors, hfirst.2, hsecond.2]; rfl⟩

end MonkeyLang
