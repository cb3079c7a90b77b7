import MonkeyLang.Proofs.Parser.Confined
import MonkeyLang.Proofs.Recognition
/-!
# Where reading resumes

What is skipped of a statement that cannot be read ends before the next word
that begins a statement, unless the statement was given up on that very word:
skipping looks at the token that follows, and not at the one it starts from.
So a statement that begins with such a word is read whatever stands in front
of it, or else it is lost, and which of the two depends on what stands in
front alone: it is lost if the reading of that `BreaksOff`, being given up at
the end of the input where an expression is called for. The main statement is
`read_append_statement`.
-/

namespace MonkeyLang

open Grammar
open MonkeyLang.Parser (topStatement confined_topStatement confined_topStatement_inside)
open Token (firstKind)
open TokenKind (barriers demanding)

/-! ## Readings that break off -/

section

variable {σ : Type} [TokenSource σ] {c d : Cursor σ} {errors : List SyntaxError} {dropped : Nat}

/-- A statement is given up at the end of the input: the first one to be
read, or a later one. -/
inductive BreaksOff : Cursor σ → Prop
  | here {c : Cursor σ} : c.current.kind ≠ .eof → (topStatement c).val.node? = none →
    (topStatement c).val.cursor.current.kind = .eof → BreaksOff c
  | afterStatement {c : Cursor σ} : c.current.kind ≠ .eof → (topStatement c).val.node? ≠ none →
    BreaksOff (topStatement c).val.cursor.advance → BreaksOff c
  | afterFailure {c : Cursor σ} : c.current.kind ≠ .eof → (topStatement c).val.node? = none →
    BreaksOff (topStatement c).val.cursor.skipStatement.advance → BreaksOff c

theorem BreaksOff.ne_eof (h : BreaksOff c) : c.current.kind ≠ .eof := by
  cases h <;> assumption

theorem breaksOff_of_some {s : Stmt} (heof : c.current.kind ≠ .eof)
    (h : (topStatement c).val = ⟨some s, errors, dropped, d⟩) :
    BreaksOff c ↔ BreaksOff d.advance := by
  constructor
  · intro hc
    cases hc with
    | here _ hnode _ => simp [h] at hnode
    | afterStatement _ _ hnext => simpa only [h] using hnext
    | afterFailure _ hnode _ => simp [h] at hnode
  · intro hd
    exact .afterStatement heof (by simp [h]) (by simpa only [h] using hd)

theorem breaksOff_of_none (heof : c.current.kind ≠ .eof)
    (h : (topStatement c).val = ⟨none, errors, dropped, d⟩) :
    BreaksOff c ↔ d.current.kind = .eof ∨ BreaksOff d.skipStatement.advance := by
  constructor
  · intro hc
    cases hc with
    | here _ _ hend => exact .inl (by simpa only [h] using hend)
    | afterStatement _ hnode _ => simp [h] at hnode
    | afterFailure _ _ hnext => exact .inr (by simpa only [h] using hnext)
  · rintro (hd | hd)
    · exact .here heof (by simp [h]) (by simpa only [h] using hd)
    · exact .afterFailure heof (by simp [h]) (by simpa only [h] using hd)

end

/-! ## What stands in front -/

/-- Nothing, or a word that begins a statement and what follows it. -/
def BeginsOrEnds (tail : List Token) : Prop :=
  tail = [] ∨ firstKind tail = .letWord ∨ firstKind tail = .returnWord

theorem BeginsOrEnds.mem {tail : List Token} (h : BeginsOrEnds tail) :
    firstKind tail ∈ [.eof, .letWord, .returnWord] := by
  rcases h with rfl | h | h
  · decide
  · simp [h]
  · simp [h]

theorem current_ne_eof_of_inner {us : List Token} (hus : ∀ t ∈ us, t.Inner) (hne : us ≠ [])
    (tail : List Token) : (Cursor.start (us ++ tail)).current.kind ≠ .eof := by
  obtain ⟨u, us, rfl⟩ := List.exists_cons_of_ne_nil hne
  simpa using (hus u List.mem_cons_self).ne_eof

/-- At the end of the input skipping ends. -/
theorem skipStatement_start_nil : (Cursor.start ([] : List Token)).skipStatement = .start [] := by
  rw [Cursor.skipStatement, if_neg (by decide), dif_pos (by rfl)]

/-- Skipping that starts in front of a word leaves off in front of it. -/
theorem exists_resumption_eq {us : List Token} (hus : ∀ t ∈ us, t.Inner) (hne : us ≠ []) :
    ∃ vs, vs <:+ us.tail ∧ ∀ tail, BeginsOrEnds tail →
      (Cursor.start (us ++ tail)).skipStatement.advance = .start (vs ++ tail) := by
  induction us with
  | nil => exact absurd rfl hne
  | cons t us ih =>
    have heof := current_ne_eof_of_inner hus hne
    by_cases hsemicolon : t.kind = .semicolon
    · refine ⟨us, List.suffix_rfl, fun tail _ => ?_⟩
      rw [Cursor.skipStatement, if_pos (.inl (by simpa using hsemicolon)), Cursor.advance_start]
      rfl
    cases us with
    | nil =>
      refine ⟨[], List.suffix_rfl, fun tail htail => ?_⟩
      rw [Cursor.skipStatement]
      rcases htail with rfl | hword
      · have hopen : ¬ (t.kind = .semicolon ∨ Token.endOfInput.kind = .letWord ∨
            Token.endOfInput.kind = .returnWord) := not_or.2 ⟨hsemicolon, by decide⟩
        rw [if_neg (by simpa using hopen), dif_neg (heof []), Cursor.advance_start]
        exact congrArg Cursor.advance skipStatement_start_nil
      · rw [if_pos (.inr (by simpa [firstKind] using hword)), Cursor.advance_start]
        rfl
    | cons u us =>
      by_cases hword : u.kind = .letWord ∨ u.kind = .returnWord
      · refine ⟨u :: us, List.suffix_rfl, fun tail _ => ?_⟩
        rw [Cursor.skipStatement, if_pos (.inr (by simpa using hword)), Cursor.advance_start]
        rfl
      · obtain ⟨vs, hvs, hskip⟩ := ih (fun v hv => hus v (.tail _ hv)) (List.cons_ne_nil u us)
        refine ⟨vs, hvs.trans (List.suffix_cons u us), fun tail htail => ?_⟩
        rw [Cursor.skipStatement, if_neg (by simpa using ⟨hsemicolon, not_or.1 hword⟩),
          dif_neg (heof tail), Cursor.advance_start]
        exact hskip tail htail

/-- How what follows `ts` is read: from its first word on, behind the
statements `ss`; or with that word skipped, and then the last token of `ts`
demands an expression. -/
structure ReadsOn (ts : List Token) (ss : List Stmt) : Prop where
  read : ¬ BreaksOff (.start ts) → ∀ tail, BeginsOrEnds tail →
    (readFrom (.start (ts ++ tail))).statements = ss ++ (readFrom (.start tail)).statements
  lost : BreaksOff (.start ts) → ∀ tail, BeginsOrEnds tail →
    (readFrom (.start (ts ++ tail))).statements =
      ss ++ (readFrom (Cursor.start tail).skipStatement.advance).statements
  dangling : BreaksOff (.start ts) → Token.Dangling ts

/-- What holds of the tokens that are left after a statement holds of those
it was read from, with the statement in front. -/
theorem ReadsOn.of_suffix {ts ws : List Token} {front ss : List Stmt} (h : ReadsOn ws ss)
    (hws : ws <:+ ts) (hbreaks : BreaksOff (.start ts) ↔ BreaksOff (.start ws))
    (hstep : ∀ tail, BeginsOrEnds tail → (readFrom (.start (ts ++ tail))).statements =
      front ++ (readFrom (.start (ws ++ tail))).statements) : ReadsOn ts (front ++ ss) where
  read hts tail htail := by
    rw [hstep tail htail, h.read (fun hws => hts (hbreaks.2 hws)) tail htail, List.append_assoc]
  lost hts tail htail := by
    rw [hstep tail htail, h.lost (hbreaks.1 hts) tail htail, List.append_assoc]
  dangling hts := by
    have hbreaks := hbreaks.1 hts
    refine (h.dangling hbreaks).of_suffix hws ?_
    rintro rfl
    exact hbreaks.ne_eof rfl

section

variable {ts us : List Token} {errors : TokenKind → List SyntaxError} {dropped : Nat}
  {ss : List Stmt} (hts : ∀ t ∈ ts, t.Inner) (hnil : ts ≠ []) (hus : us <:+ ts) (hne : us ≠ [])

include hts hnil hus hne

/-- Behind a statement reading goes on one token further on. -/
theorem ReadsOn.after_statement {s : Stmt}
    (hrun : ∀ tail, BeginsOrEnds tail → (topStatement (.start (ts ++ tail))).val =
      ⟨some s, errors (firstKind tail), dropped, .start (us ++ tail)⟩)
    (h : ReadsOn us.tail ss) : ReadsOn ts ([s] ++ ss) := by
  have heof := current_ne_eof_of_inner hts hnil
  have hadvance (tail : List Token) :
      (Cursor.start (us ++ tail)).advance = .start (us.tail ++ tail) := by
    rw [Cursor.advance_start, List.tail_append_of_ne_nil hne]
  have hbreaks := breaksOff_of_some (heof []) (hrun [] (.inl rfl))
  rw [hadvance, List.append_nil, List.append_nil] at hbreaks
  refine h.of_suffix ((List.tail_suffix us).trans hus) hbreaks fun tail htail => ?_
  rw [(readFrom_of_some (heof tail) (hrun tail htail)).1, hadvance]
  rfl

/-- After a failure in front of what follows it goes on where skipping
leaves off. -/
theorem ReadsOn.after_failure {ws : List Token} (hws : ws <:+ us.tail)
    (hrun : ∀ tail, BeginsOrEnds tail → (topStatement (.start (ts ++ tail))).val =
      ⟨none, errors (firstKind tail), dropped, .start (us ++ tail)⟩)
    (hskip : ∀ tail, BeginsOrEnds tail →
      (Cursor.start (us ++ tail)).skipStatement.advance = .start (ws ++ tail))
    (h : ReadsOn ws ss) : ReadsOn ts ([] ++ ss) := by
  have heof := current_ne_eof_of_inner hts hnil
  have hopen := current_ne_eof_of_inner (fun t ht => hts t (hus.subset ht)) hne []
  have hbreaks := breaksOff_of_none (heof []) (hrun [] (.inl rfl))
  rw [or_iff_right hopen, hskip [] (.inl rfl), List.append_nil, List.append_nil] at hbreaks
  refine h.of_suffix ((hws.trans (List.tail_suffix us)).trans hus) hbreaks fun tail htail => ?_
  rw [(readFrom_of_none (heof tail) (hrun tail htail)).1, hskip tail htail]
  rfl

end

/-- A failure right in front of what follows breaks off. -/
theorem ReadsOn.broken {ts : List Token} {errors : TokenKind → List SyntaxError} {dropped : Nat}
    (hts : ∀ t ∈ ts, t.Inner) (hnil : ts ≠ []) (hdangling : Token.Dangling ts)
    (hrun : ∀ tail, BeginsOrEnds tail → (topStatement (.start (ts ++ tail))).val =
      ⟨none, errors (firstKind tail), dropped, .start tail⟩) : ReadsOn ts [] := by
  have heof := current_ne_eof_of_inner hts hnil
  have hbreaks := (breaksOff_of_none (heof []) (hrun [] (.inl rfl))).2 (.inl rfl)
  rw [List.append_nil] at hbreaks
  refine ⟨fun h => absurd hbreaks h, fun _ tail htail => ?_, fun _ => hdangling⟩
  rw [(readFrom_of_none (heof tail) (hrun tail htail)).1]
  rfl

/-- **What follows is read on, or its first word is skipped.** -/
theorem exists_readsOn {ts : List Token} (hts : ∀ t ∈ ts, t.Inner) : ∃ ss, ReadsOn ts ss := by
  -- on the number of tokens: every statement takes some, and so does skipping
  -- one
  induction hn : ts.length using Nat.strongRecOn generalizing ts with | _ n ih
  by_cases hnil : ts = []
  · subst hnil
    exact ⟨[], fun _ _ _ => rfl, fun h => absurd rfl h.ne_eof, fun h => absurd rfl h.ne_eof⟩
  obtain ⟨node?, dropped, us, errors, hus, hinside, hdangling, hrun⟩ :=
    confined_topStatement_inside ts hts hnil
  have hrun (tail : List Token) (htail : BeginsOrEnds tail) :
      (topStatement (.start (ts ++ tail))).val =
        ⟨node?, errors (firstKind tail), dropped, .start (us ++ tail)⟩ := hrun tail htail.mem
  have hnext {ws : List Token} (hws : ws <:+ us.tail) (hne : us ≠ []) : ∃ ss, ReadsOn ws ss := by
    have hlt : ws.length < us.length := by
      obtain ⟨u, us, rfl⟩ := List.exists_cons_of_ne_nil hne
      exact Nat.lt_succ_of_le hws.length_le
    have hsuffix := (hws.trans (List.tail_suffix us)).trans hus
    have hshort : ws.length < n := hn ▸ Nat.lt_of_lt_of_le hlt hus.length_le
    exact ih _ hshort (fun t ht => hts t (hsuffix.subset ht)) rfl
  cases node? with
  | some s =>
    have hne : us ≠ [] := hinside nofun
    obtain ⟨ss, hss⟩ := hnext List.suffix_rfl hne
    exact ⟨_, hss.after_statement hts hnil hus hne hrun⟩
  | none =>
    by_cases hne : us = []
    · subst hne
      exact ⟨[], .broken hts hnil (hdangling rfl rfl) hrun⟩
    · obtain ⟨ws, hws, hskip⟩ := exists_resumption_eq (fun t ht => hts t (hus.subset ht)) hne
      obtain ⟨ss, hss⟩ := hnext hws hne
      exact ⟨_, hss.after_failure hts hnil hus hne hws hrun hskip⟩

/-! ## The statement behind -/

variable {us : List Token} {s : Stmt} {semicolon : Token}

/-- A statement with its semicolon is read, where it is all there is. -/
theorem readFrom_statement (hus : Statement (Expression nestingLimit) us s)
    (hkind : semicolon.kind = .semicolon) :
    (readFrom (.start (us ++ [semicolon]))).statements = [s] :=
  (readFrom_of_derives (.ended hus hkind .nil)).2

/-- **A statement ends before the first barrier behind its first token**, or
on it. -/
theorem exists_cursor_eq {ts : List Token} (hts : ∀ t ∈ ts, t.Inner) (hnil : ts ≠ []) {b : Token}
    (hb : b.kind ∈ barriers) (ws : List Token) :
    ∃ us, (topStatement (.start (ts ++ b :: ws))).val.cursor = .start (us ++ b :: ws) := by
  by_cases hsemicolon : b.kind = .semicolon
  · obtain ⟨node?, dropped, us, errors, -, -, -, hrun⟩ := confined_topStatement ts hts trivial
    exact ⟨us, congrArg Parsed.cursor (hrun (b :: ws) (by simpa [firstKind] using hsemicolon))⟩
  · obtain ⟨node?, dropped, us, errors, -, -, -, hrun⟩ :=
      confined_topStatement_inside ts hts hnil
    refine ⟨us, congrArg Parsed.cursor (hrun (b :: ws) ?_)⟩
    simpa [firstKind, barriers, hsemicolon] using hb

theorem start_ne_start_singleton (us ws : List Token) (b last : Token)
    (hkind : semicolon.kind = .semicolon) :
    Cursor.start (us ++ b :: (ws ++ [semicolon])) ≠ .start [last] := by
  intro h
  have hupcoming := congrArg (fun c => c.upcoming.kind) h
  have hsource := congrArg Cursor.source h
  rcases us with - | ⟨u, - | ⟨v, us⟩⟩
  · cases ws with
    | nil => simp [hkind, Token.endOfInput] at hupcoming
    | cons w ws => exact List.append_ne_nil_of_right_ne_nil ws (List.cons_ne_nil _ _) hsource
  · exact List.append_ne_nil_of_right_ne_nil ws (List.cons_ne_nil _ _) hsource
  · exact List.append_ne_nil_of_right_ne_nil us (List.cons_ne_nil _ _) hsource

theorem exists_first_barrier {ts : List Token} {t : Token} (ht : t ∈ ts) (hb : t.kind ∈ barriers) :
    ∃ vs b ws, ts = vs ++ b :: ws ∧ b.kind ∈ barriers ∧ ∀ u ∈ vs, u.kind ∉ barriers := by
  obtain ⟨b, hfind⟩ : ∃ b, ts.find? (fun t => decide (t.kind ∈ barriers)) = some b :=
    Option.isSome_iff_exists.1 (List.find?_isSome.2 ⟨t, ht, by simpa using hb⟩)
  obtain ⟨hb, vs, ws, heq, hvs⟩ := List.find?_eq_some_iff_append.1 hfind
  exact ⟨vs, b, ws, heq, by simpa using hb, by simpa using hvs⟩

/-- A statement without blocks has no barrier inside it: it would not be
read beyond one. -/
theorem not_mem_barriers_of_mem_tail (hus : Statement (Expression nestingLimit) us s)
    (hword : firstKind us = .letWord ∨ firstKind us = .returnWord)
    (hblocks : ∀ t ∈ us, t.kind ≠ .ifWord ∧ t.kind ≠ .fnWord) :
    ∀ t ∈ us.tail, t.kind ∉ barriers := by
  obtain ⟨head, rest, rfl⟩ : ∃ head rest, us = head :: rest := by
    refine List.exists_cons_of_ne_nil ?_
    rintro rfl
    exact absurd hword (by decide)
  intro t ht htb
  obtain ⟨vs, b, ws, rfl, hb, hvs⟩ := exists_first_barrier ht htb
  have hinner : ∀ t ∈ head :: vs, t.Inner := by
    intro t ht
    have hblock := hblocks t (List.cons_subset_cons head (List.subset_append_left vs _) ht)
    refine ⟨fun heof => ?_, hblock.1, hblock.2⟩
    rcases List.mem_cons.1 ht with rfl | ht
    · simp [firstKind, heof] at hword
    · exact hvs t ht (by simp [heof, barriers])
  -- the statement ends before the barrier, and yet it is read up to its
  -- semicolon
  let semicolon : Token := ⟨.semicolon, ";"⟩
  obtain ⟨us, hcursor⟩ := exists_cursor_eq hinner (List.cons_ne_nil head vs) hb (ws ++ [semicolon])
  have hcomplete := Parser.expr_complete nestingLimit
  have hleads : Parser.Leads (Expression nestingLimit) (head :: (vs ++ b :: ws) ++ [semicolon]) s
      [] := Parser.leads_of_ended hcomplete hus rfl
  rw [List.cons_append, List.append_assoc] at hleads
  obtain ⟨last, hyields⟩ := Parser.statement_complete hcomplete hleads
    (by simp [Parser.Fresh, Token.endOfInput])
  refine start_ne_start_singleton us ws b last rfl (hcursor.symm.trans ?_)
  exact congrArg Parsed.cursor hyields

/-- Skipping from the first token of a statement ends on its semicolon. -/
theorem skipStatement_start (hkind : semicolon.kind = .semicolon) {t : Token} {vs : List Token}
    (ht : t.kind ≠ .semicolon ∧ t.kind ≠ .eof) (hvs : ∀ u ∈ vs, u.kind ∉ barriers) :
    (Cursor.start (t :: vs ++ [semicolon])).skipStatement = .start [semicolon] := by
  have heof : (Cursor.start (t :: vs ++ [semicolon])).current.kind ≠ .eof := by simpa using ht.2
  induction vs generalizing t with
  | nil =>
    have hopen : ¬ (t.kind = .semicolon ∨ semicolon.kind = .letWord ∨
        semicolon.kind = .returnWord) := by simp [ht.1, hkind]
    rw [Cursor.skipStatement, if_neg (by simpa using hopen), dif_neg heof, Cursor.advance_start,
      Cursor.skipStatement, if_pos (.inl (by simpa using hkind))]
    rfl
  | cons u vs ih =>
    rw [List.forall_mem_cons] at hvs
    have hu : u.kind ≠ .semicolon ∧ u.kind ≠ .eof ∧ u.kind ≠ .letWord ∧ u.kind ≠ .returnWord := by
      simpa [barriers] using hvs.1
    have hopen : ¬ (t.kind = .semicolon ∨ u.kind = .letWord ∨ u.kind = .returnWord) := by
      simp [ht.1, hu.2.2.1, hu.2.2.2]
    rw [Cursor.skipStatement, if_neg (by simpa using hopen), dif_neg heof, Cursor.advance_start]
    exact ih ⟨hu.1, hu.2.1⟩ hvs.2 (by simpa using hu.2.1)

/-- **A statement that begins with a word is read or lost.** Tokens that open
no block stand in front of a `let` or a `return` with its semicolon. Unless
the reading of these tokens breaks off, the statement is read behind what is
read of them. If it breaks off, the last of them is one that demands an
expression, and the statement is lost, as long as it opens no block. -/
theorem read_append_statement (ts us : List Token) (s : Stmt) (semicolon : Token)
    (hts : ∀ t ∈ ts, t.kind ≠ .eof ∧ t.kind ≠ .ifWord ∧ t.kind ≠ .fnWord)
    (hus : Statement (Expression nestingLimit) us s)
    (hword : firstKind us = .letWord ∨ firstKind us = .returnWord)
    (hkind : semicolon.kind = .semicolon) :
    (¬ BreaksOff (.start ts) → (read (ts ++ us ++ [semicolon])).program.statements =
      (read ts).program.statements ++ [s]) ∧
    (BreaksOff (.start ts) → (∃ t ∈ ts.getLast?, t.kind ∈ demanding) ∧
      ((∀ t ∈ us, t.kind ≠ .ifWord ∧ t.kind ≠ .fnWord) →
        (read (ts ++ us ++ [semicolon])).program.statements = (read ts).program.statements)) := by
  obtain ⟨ss, hss⟩ := exists_readsOn fun t ht => ⟨(hts t ht).1, (hts t ht).2.1, (hts t ht).2.2⟩
  have htail : BeginsOrEnds (us ++ [semicolon]) := by
    refine .inr ?_
    cases us with
    | nil => exact absurd hword (by decide)
    | cons u us => exact hword
  simp only [Reading.program, read, List.append_assoc]
  constructor
  · intro hbreaks
    have halone := hss.read hbreaks [] (.inl rfl)
    rw [readFrom_start_nil, List.append_nil, List.append_nil] at halone
    rw [hss.read hbreaks _ htail, readFrom_statement hus hkind, halone]
  · intro hbreaks
    have halone := hss.lost hbreaks [] (.inl rfl)
    rw [skipStatement_start_nil, Cursor.advance_start, List.tail_nil, readFrom_start_nil,
      List.append_nil, List.append_nil] at halone
    refine ⟨?_, fun hblocks => ?_⟩
    · have hne : ts ≠ [] := by
        rintro rfl
        exact hbreaks.ne_eof rfl
      have hlast := List.getLast?_eq_some_getLast hne
      exact ⟨_, hlast, hss.dangling hbreaks _ hlast⟩
    · have hskip : (Cursor.start (us ++ [semicolon])).skipStatement = .start [semicolon] := by
        have hopen := not_mem_barriers_of_mem_tail hus hword hblocks
        cases us with
        | nil => exact absurd hword (by decide)
        | cons word us =>
          have hword : word.kind = .letWord ∨ word.kind = .returnWord := hword
          exact skipStatement_start hkind (by rcases hword with h | h <;> simp [h]) hopen
      rw [hss.lost hbreaks _ htail, hskip, Cursor.advance_start, List.tail_cons,
        readFrom_start_nil, halone, List.append_nil]

/-- The statement `let y = 1;` behind an opening parenthesis is not read. -/
theorem let_behind_parenthesis_is_lost :
    let ts : List Token := [⟨.lparen, "("⟩]
    let us : List Token := [⟨.letWord, "let"⟩, ⟨.ident, "y"⟩, ⟨.assign, "="⟩, ⟨.int, "1"⟩]
    (∀ t ∈ ts, t.kind ≠ .eof ∧ t.kind ≠ .ifWord ∧ t.kind ≠ .fnWord) ∧
      Statement (Expression nestingLimit) us (.bind "y" (.int 1)) ∧
      (read (ts ++ us ++ [⟨.semicolon, ";"⟩])).program.statements.getLast? ≠
        some (.bind "y" (.int 1)) := by
  intro ts us
  have hone : Layered (Expression 255) .equality [⟨.int, "1"⟩] (.int 1) :=
    (Layered.primary (.int rfl (Decimal.read?_eq_some_iff.1 (by decide)))).loosen (by decide)
  exact ⟨by decide, .bind rfl rfl rfl hone, by decide +kernel⟩

/-- Behind `let x 5` the statement `return true;` is read, and behind `-` it
is lost. -/
theorem return_behind_broken_let_and_minus :
    let us : List Token := [⟨.returnWord, "return"⟩, ⟨.trueWord, "true"⟩]
    let broken : List Token := [⟨.letWord, "let"⟩, ⟨.ident, "x"⟩, ⟨.int, "5"⟩]
    let unfinished : List Token := [⟨.minus, "-"⟩]
    (¬ BreaksOff (.start broken) ∧
      (read (broken ++ us ++ [⟨.semicolon, ";"⟩])).program.statements = [.ret (.bool true)]) ∧
    BreaksOff (.start unfinished) ∧
      (read (unfinished ++ us ++ [⟨.semicolon, ";"⟩])).program.statements = [] := by
  intro us broken unfinished
  have htrue : Layered (Expression 255) .equality [⟨.trueWord, "true"⟩] (.bool true) :=
    (Layered.primary (.trueWord rfl)).loosen (by decide)
  have hus : Statement (Expression nestingLimit) us (.ret (.bool true)) := .ret rfl htrue
  obtain ⟨hread, hopen⟩ := read_append_statement broken us (.ret (.bool true)) ⟨.semicolon, ";"⟩
    (by decide) hus (.inr rfl) rfl
  obtain ⟨-, hlost⟩ := read_append_statement unfinished us (.ret (.bool true)) ⟨.semicolon, ";"⟩
    (by decide) hus (.inr rfl) rfl
  -- the last token of the broken statement demands nothing
  have hbroken : ¬ BreaksOff (.start broken) := by
    intro hbreaks
    obtain ⟨t, ht, hdemands⟩ := (hopen hbreaks).1
    cases ht
    exact absurd hdemands (by decide)
  have hunfinished : BreaksOff (.start unfinished) :=
    .here (by decide) (by decide +kernel) (by decide +kernel)
  have hnothing : (read broken).program.statements = [] ∧
      (read unfinished).program.statements = [] := by decide +kernel
  rw [hnothing.1] at hread
  rw [hnothing.2] at hlost
  exact ⟨⟨hbroken, hread hbroken⟩, hunfinished, (hlost hunfinished).2 (by decide)⟩

end MonkeyLang
