import Mathlib.Data.List.GetD
import Mathlib.Logic.Function.Iterate
import MonkeyLang.Proofs.Parser.Requests
import MonkeyLang.Proofs.Parser.Yields
import MonkeyLang.Tree.Equality
/-!
# Behind the end of the input

Tokens may go on behind an end of the input. Two readings whose sources are
alike up to an end of the input go on side by side until one of them passes
it. A parse that passes it does so from a block that is given up, and fails
(`Ahead.Cut`); a reading passes it when it goes on behind a statement that
could not be read (`Reading.Cut`). So the tokens behind some ends of the input
count only if the reading of those before them passes as many ends as there
are, and a reading that drops no statement passes none (`read_append_ends`).
-/

namespace MonkeyLang

variable {σ τ : Type} [TokenSource σ] [TokenSource τ] {α β : Type}

/-! ## Places -/

namespace Cursor

/-- The place so many steps behind the start of a source. -/
def reached (source : σ) (steps : Nat) : Cursor σ := advance^[steps] (start source)

theorem advance_reached (source : σ) (k : Nat) :
    (reached source k).advance = reached source (k + 1) :=
  (Function.iterate_succ_apply' _ _ _).symm

theorem reached_succ (source : σ) (k : Nat) :
    reached source (k + 1) = reached (TokenSource.next source).2 k :=
  Function.iterate_succ_apply _ _ _

@[simp] theorem current_reached (source : σ) (k : Nat) :
    (reached source k).current = TokenSource.answer source k := by
  induction k generalizing source with
  | zero => rfl
  | succ k ih =>
    rw [reached_succ, ih]
    rfl

@[simp] theorem upcoming_reached (source : σ) (k : Nat) :
    (reached source k).upcoming = TokenSource.answer source (k + 1) := by
  rw [← current_reached, ← advance_reached]
  rfl

theorem length_answers_reached (source : σ) (k : Nat) :
    (reached (Recorded.new source) k).source.answers.length = k + 2 := by
  induction k with
  | zero => rfl
  | succ k ih => rw [← advance_reached, length_answers_advance, ih]

/-- The place behind the first tokens of a list is the start of the others. -/
theorem reached_append (tokens rest : List Token) :
    reached (tokens ++ rest) tokens.length = start rest := by
  induction tokens with
  | nil => rfl
  | cons t tokens ih =>
    rw [List.length_cons, reached_succ]
    exact ih

end Cursor

open Cursor (reached)

/-- One source has come to its end at a place, and up to there another one is
like it. -/
structure TokenSource.AlikeTo (last : Nat) (source : σ) (source' : τ) : Prop where
  alike : ∀ i ≤ last, (answer source i).Alike (answer source' i)
  ended : ∀ i, last ≤ i → (answer source i).kind = .eof

namespace TokenSource.AlikeTo

variable {last : Nat} {source : σ} {source' : τ} (h : AlikeTo last source source') {k : Nat}

include h

theorem current_eq_eof (hk : last ≤ k) : (reached source k).current.kind = .eof := by
  rw [Cursor.current_reached]
  exact h.ended k hk

/-- A place that is not the end of the input is before the last one. -/
theorem lt_last (hin : (reached source k).current.kind ≠ .eof) : k < last :=
  Nat.lt_of_not_le fun hk => hin (h.current_eq_eof hk)

theorem alike_current (hk : k ≤ last) :
    (reached source k).current.Alike (reached source' k).current := by
  rw [Cursor.current_reached, Cursor.current_reached]
  exact h.alike k hk

theorem alike_upcoming (hk : k < last) :
    (reached source k).upcoming.Alike (reached source' k).upcoming := by
  rw [Cursor.upcoming_reached, Cursor.upcoming_reached]
  exact h.alike (k + 1) hk

end TokenSource.AlikeTo

/-! ## Parses -/

/-- Two parses have ended in the same way at a place up to the last one that
their sources have in common, or the first of them went past it and failed. -/
inductive Ahead.Cut (last : Nat) (source : σ) (source' : τ) {c : Cursor σ} {d : Cursor τ}
    (r : Ahead c α) (q : Ahead d α) : Prop where
  | together (k : Nat) (hk : k ≤ last) (hr : r.val.cursor = reached source k)
      (hq : q.val = ⟨r.val.node?, r.val.errors, r.val.dropped, reached source' k⟩)
  | passed (k : Nat) (hk : last < k) (hr : r.val.cursor = reached source k)
      (hnode : r.val.node? = none)

namespace Ahead.Cut

variable {last : Nat} {source : σ} {source' : τ} {c : Cursor σ} {d : Cursor τ}

theorem bind {r : Ahead c α} {q : Ahead d α}
    {next : α → (c' : Cursor σ) → c'.left ≤ c.left → Ahead c' β}
    {next' : α → (d' : Cursor τ) → d'.left ≤ d.left → Ahead d' β} (h : Cut last source source' r q)
    (hnext : ∀ a hc hd, r.val.node? = some a →
      Cut last source source' (next a r.val.cursor hc) (next' a q.val.cursor hd)) :
    Cut last source source' (r.bind next) (q.bind next') := by
  obtain ⟨⟨node?, errors, dropped, c'⟩, hc⟩ := r
  obtain ⟨⟨node?', errors', dropped', d'⟩, hd⟩ := q
  cases h with
  | together k hk hr hq =>
    obtain ⟨rfl, rfl, rfl, rfl⟩ := hq
    cases node? with
    | none => exact .together k hk hr rfl
    | some a =>
      cases hnext a hc hd rfl with
      | together k' hk' hr' hq' => exact .together k' hk' hr' (by simp only [Ahead.bind, hq'])
      | passed k' hk' hr' hnode' => exact .passed k' hk' hr' hnode'
  | passed k hk hr hnode =>
    obtain rfl := hnode
    exact .passed k hk hr rfl

theorem map {r : Ahead c α} {q : Ahead d α} (h : Cut last source source' r q) (g : α → β) :
    Cut last source source' (r.map g) (q.map g) := by
  cases h with
  | together k hk hr hq => exact .together k hk hr (by simp only [Ahead.map, hq])
  | passed k hk hr hnode => exact .passed k hk hr (congrArg (Option.map g) hnode)

theorem afterAdvance {r : Ahead c.advance α} {q : Ahead d.advance α}
    (h : Cut last source source' r q) : Cut last source source' r.afterAdvance q.afterAdvance := by
  cases h with
  | together k hk hr hq => exact .together k hk hr hq
  | passed k hk hr hnode => exact .passed k hk hr hnode

end Ahead.Cut

namespace Parser

variable {last : Nat} {source : σ} {source' : τ}

/-- A block that comes to the last place is given up one token behind it, even
where what follows there is different. -/
theorem cut_blockBody (h : TokenSource.AlikeTo last source source') {p : Parser σ α}
    {q : Parser τ α} (hitem : ∀ {k}, k ≤ last → (reached source k).current.kind ≠ .eof →
      Ahead.Cut last source source' (p (reached source k)) (q (reached source' k)))
    {k : Nat} (hk : k ≤ last) : Ahead.Cut last source source'
      (blockBody p (reached source k)) (blockBody q (reached source' k)) := by
  generalize hc : reached source k = c
  induction c using blockBody_statements p generalizing k with
  | closed c hclose =>
    obtain rfl := hc
    have hclose' := (h.alike_current hk).kind.symm.trans hclose
    rw [blockBody_of_rbrace p hclose, blockBody_of_rbrace q hclose']
    exact .together k hk rfl rfl
  | ended c heof =>
    obtain rfl := hc
    have heof' := (h.alike_current hk).kind.symm.trans heof
    rw [blockBody_of_eof p heof, blockBody_of_eof q heof']
    exact .together k hk rfl rfl
  | statement c hclose heof ih =>
    obtain rfl := hc
    have hkind := (h.alike_current hk).kind
    -- a statement that ends at the last place or behind it is the last one of
    -- the first block
    have hpassed {k' : Nat} (hk' : last ≤ k')
        (hr : (p (reached source k)).val.cursor = reached source k') :
        Ahead.Cut last source source' (blockBody p (reached source k))
          (blockBody q (reached source' k)) := by
      have hval := val_blockBody p hclose heof (by rw [hr, Cursor.advance_reached])
      rw [blockBody_of_eof p (h.current_eq_eof (Nat.le_succ_of_le hk'))] at hval
      exact .passed (k' + 1) (Nat.lt_succ_of_le hk') (by rw [hval]; rfl) (by rw [hval]; rfl)
    cases hitem hk heof with
    | together k' hk' hr hq =>
      obtain hlt | rfl := Nat.lt_or_eq_of_le hk'
      · have hadvance : (p (reached source k)).val.cursor.advance = reached source (k' + 1) := by
          rw [hr, Cursor.advance_reached]
        have hadvance' : (q (reached source' k)).val.cursor.advance = reached source' (k' + 1) := by
          rw [hq, Cursor.advance_reached]
        have hval := val_blockBody p hclose heof rfl
        have hval' := val_blockBody q (hkind ▸ hclose) (hkind ▸ heof) hadvance'
        cases ih hlt hadvance.symm with
        | together l hl hr' hq' =>
          refine .together l hl (by rw [hval]; exact hr') ?_
          rw [hval', hval, hq, hq']
          rfl
        | passed l hl hr' hnode =>
          refine .passed l hl (by rw [hval]; exact hr') ?_
          rw [hval]
          exact congrArg (Option.map _) hnode
      · exact hpassed le_rfl hr
    | passed k' hk' hr hnode => exact hpassed (Nat.le_of_lt hk') hr

/-- Parsers go on side by side up to the last place, and fail behind it. -/
def cut (h : TokenSource.AlikeTo last source source') : Comparison σ τ where
  meet c d := ∃ k ≤ last, c = reached source k ∧ d = reached source' k
  agree _ _ _ _ r q := r.Cut last source source' q
  current := by
    rintro _ _ ⟨k, hk, rfl, rfl⟩
    exact h.alike_current hk
  upcoming := by
    rintro _ _ ⟨k, hk, rfl, rfl⟩ hin
    exact (h.alike_upcoming (h.lt_last hin)).kind
  advance := by
    rintro _ _ ⟨k, hk, rfl, rfl⟩ hin
    exact ⟨k + 1, h.lt_last hin, Cursor.advance_reached _ _, Cursor.advance_reached _ _⟩
  meets := by
    rintro n α c d r q (⟨k, hk, hr, hq⟩ | ⟨k, hk, hr, hnode⟩) hne
    · exact ⟨k, hk, hr, by rw [hq]⟩
    · exact absurd hnode hne
  succ := id
  pure := by
    rintro n α _ _ a ⟨k, hk, rfl, rfl⟩
    exact .together k hk rfl rfl
  fail := by
    rintro n α _ _ e ⟨k, hk, rfl, rfl⟩
    exact .together k hk rfl rfl
  bind h hnext := h.bind hnext
  map g h := h.map g
  afterAdvance _ _ h := h.afterAdvance
  blockBody := by
    rintro n α p q hitem _ _ ⟨k, hk, rfl, rfl⟩
    exact cut_blockBody h (fun hk' hin => (hitem ⟨_, hk', rfl, rfl⟩ hin).1) hk

end Parser

/-! ## Readings -/

/-- A reading is one reading followed by another. -/
structure Reading.Joins {υ : Type} (whole : Reading τ) (first : Reading σ) (rest : Reading υ) :
    Prop where
  statements : whole.statements = first.statements ++ rest.statements
  errors : whole.errors = first.errors ++ rest.errors
  dropped : whole.dropped = first.dropped + rest.dropped

omit [TokenSource σ] [TokenSource τ] in
theorem Reading.Joins.before {υ : Type} {r : Parsed σ Stmt} {q : Parsed τ Stmt} (h : r.Agrees q)
    {rest : Reading σ} {rest' : Reading τ} {last : Reading υ} (hrest : rest'.Joins rest last) :
    (q.before rest').Joins (r.before rest) last := by
  unfold Parsed.before
  rw [h.node?, h.errors, h.dropped, hrest.statements, hrest.errors, hrest.dropped]
  exact ⟨(List.append_assoc ..).symm, (List.append_assoc ..).symm, (Nat.add_assoc ..).symm⟩

/-- Two readings have ended in the same way up to the last place that their
sources have in common, or the first of them passed it: by one token, and then
the second goes on from there, or by more. -/
inductive Reading.Cut (last : Nat) (source : σ) (source' : τ) (r : Reading σ) (q : Reading τ) :
    Prop where
  | together (k : Nat) (hk : k ≤ last) (hr : r.cursor = reached source k) (hq : r.Agrees q)
  | onward (hr : r.cursor = reached source (last + 1))
      (hq : q.Joins r (readFrom (reached source' (last + 1))))
  | passed (k : Nat) (hk : last + 1 < k) (hr : r.cursor = reached source k)

section

variable {last : Nat} {source : σ} {source' : τ} (h : TokenSource.AlikeTo last source source')

include h

/-- Behind a statement both readings go on one token further, or the first has
passed the last place by more than that. -/
theorem Parsed.resume_cut {c : Cursor σ} {d : Cursor τ} {r : Ahead c Stmt} {q : Ahead d Stmt}
    (hcut : r.Cut last source source' q) :
    (∃ k ≤ last + 1, r.val.resume = reached source k ∧ q.val.resume = reached source' k ∧
      r.val.Agrees q.val) ∨ ∃ k, last + 1 < k ∧ r.val.resume = reached source k := by
  obtain ⟨⟨node?, errors, dropped, c'⟩, hc⟩ := r
  obtain ⟨⟨node?', errors', dropped', d'⟩, hd⟩ := q
  cases hcut with
  | together k hk hr hq =>
    obtain ⟨rfl, rfl, rfl, rfl⟩ := hq
    obtain rfl : c' = _ := hr
    left
    cases node? with
    | some s =>
      exact ⟨k + 1, Nat.succ_le_succ hk, Cursor.advance_reached _ _, Cursor.advance_reached _ _,
        rfl, rfl, rfl⟩
    | none =>
      obtain ⟨l, hl, hskip, hskip'⟩ := (Parser.cut h).meet_skipStatement ⟨k, hk, rfl, rfl⟩
      refine ⟨l + 1, Nat.succ_le_succ hl, ?_, ?_, rfl, rfl, rfl⟩
      · exact (congrArg Cursor.advance hskip).trans (Cursor.advance_reached _ _)
      · exact (congrArg Cursor.advance hskip').trans (Cursor.advance_reached _ _)
  | passed k hk hr hnode =>
    obtain rfl : c' = _ := hr
    obtain rfl : node? = none := hnode
    have hskip := Cursor.skipStatement_of_eof (h.current_eq_eof (Nat.le_of_lt hk))
    refine .inr ⟨k + 1, Nat.succ_lt_succ hk, ?_⟩
    exact (congrArg Cursor.advance hskip).trans (Cursor.advance_reached _ _)

/-- **Readings go on side by side up to the last place.** -/
theorem cut_readFrom {k : Nat} (hk : k ≤ last) :
    (readFrom (reached source k)).Cut last source source' (readFrom (reached source' k)) := by
  rw [← readWith_topStatement, ← readWith_topStatement]
  generalize hc : reached source k = c
  induction c using readWith_statements (Parser.topStatement (σ := σ)) generalizing k with
  | ended c heof =>
    obtain rfl := hc
    rw [readWith_of_eof _ heof, readWith_of_eof _ ((h.alike_current hk).kind ▸ heof)]
    exact .together k hk rfl ⟨rfl, rfl, rfl⟩
  | statement c heof ih =>
    obtain rfl := hc
    have hcut := ((Parser.cut h).judgment.topStatement ⟨k, hk, rfl, rfl⟩ heof).agree
    have hread := readWith_eq Parser.topStatement heof
    rw [(h.alike_current hk).kind] at heof
    rw [hread, readWith_eq (c := reached source' k) _ heof]
    obtain ⟨l, hl, hresume, hresume', hagrees⟩ | ⟨l, hl, hresume⟩ := Parsed.resume_cut h hcut
    · obtain hlt | rfl := Nat.lt_or_eq_of_le hl
      · have hrest := ih (Nat.le_of_lt_succ hlt) hresume.symm
        rw [← hresume'] at hrest
        cases hrest with
        | together m hm hr hq => exact .together m hm hr (.before hagrees hq)
        | onward hr hq => exact .onward hr (.before hagrees hq)
        | passed m hm hr => exact .passed m hm hr
      · -- the first reading ends behind the last place, and the second goes on there
        have hstop := readWith_of_eof Parser.topStatement (h.current_eq_eof (Nat.le_succ last))
        rw [hresume, hstop, hresume', readWith_topStatement]
        exact .onward rfl (.before hagrees ⟨rfl, rfl, (Nat.zero_add _).symm⟩)
    · have hlast : last ≤ l := Nat.le_trans (Nat.le_succ last) (Nat.le_of_lt hl)
      have hstop := readWith_of_eof Parser.topStatement (h.current_eq_eof hlast)
      rw [hresume, hstop]
      exact .passed l hl rfl

end

/-! ## Lists of tokens -/

/-- How many tokens the reading of a list has asked for behind the end of the
input and the token behind it, which are in sight where the tokens of the list
come to their end. -/
def overrun (tokens : List Token) : Nat := (answersRead tokens).length - (tokens.length + 2)

/-- A list is alike to its first tokens, with ends of the input behind
them. -/
theorem alikeTo_append_ends (tokens : List Token) {ends : List Token} (rest : List Token)
    (hends : ∀ e ∈ ends, e.kind = .eof) (hne : ends ≠ []) :
    TokenSource.AlikeTo (tokens.length + ends.length - 1) (Recorded.new tokens)
      (tokens ++ ends ++ rest) where
  alike i hi := by
    have hpos := List.length_pos_iff.2 hne
    rw [Recorded.new, Recorded.answer_new, TokenSource.answer_list, TokenSource.answer_list,
      List.append_assoc]
    by_cases hlt : i < tokens.length
    · rw [List.getD_append _ _ _ _ hlt]
      exact .refl _
    · rw [List.getD_append_right _ _ _ _ (Nat.le_of_not_lt hlt), List.getD_append _ _ _ _ (by omega),
        List.getD_eq_default _ _ (Nat.le_of_not_lt hlt), List.getD_eq_getElem _ _ (by omega)]
      exact ⟨(hends _ (List.getElem_mem _)).symm, fun h => absurd h (by decide)⟩
  ended i hi := by
    have hpos := List.length_pos_iff.2 hne
    rw [Recorded.new, Recorded.answer_new, TokenSource.answer_list,
      List.getD_eq_default _ _ (by omega)]
    rfl

/-- Where the reading of a list ends shows whether it passed the ends that may
stand behind it. -/
theorem read_append_cut (tokens : List Token) {ends : List Token} (rest : List Token)
    (hends : ∀ e ∈ ends, e.kind = .eof) (hne : ends ≠ []) :
    (overrun tokens < ends.length → (read (tokens ++ ends ++ rest)).Agrees (read tokens)) ∧
      (overrun tokens = ends.length →
        (read (tokens ++ ends ++ rest)).Joins (read tokens) (read rest)) := by
  have hpos := List.length_pos_iff.2 hne
  have hnew := Recorded.read_new_agrees tokens
  have hlength {k : Nat} (hcursor : (read (Recorded.new tokens)).cursor =
      reached (Recorded.new tokens) k) : (answersRead tokens).length = k + 2 := by
    rw [answersRead, hcursor, Cursor.length_answers_reached]
  have hcut : (read (Recorded.new tokens)).Cut _ (Recorded.new tokens) (tokens ++ ends ++ rest)
      (read (tokens ++ ends ++ rest)) :=
    cut_readFrom (alikeTo_append_ends tokens rest hends hne) (Nat.zero_le _)
  unfold overrun
  cases hcut with
  | together k hk hr hq =>
    have hasked := hlength hr
    refine ⟨fun _ => ?_, fun heq => by omega⟩
    exact ⟨hq.statements.symm.trans hnew.statements, hq.errors.symm.trans hnew.errors,
      hq.dropped.symm.trans hnew.dropped⟩
  | onward hr hq =>
    have hasked := hlength hr
    refine ⟨fun hlt => by omega, fun _ => ?_⟩
    have hplace : tokens.length + ends.length - 1 + 1 = (tokens ++ ends).length := by
      rw [List.length_append]
      omega
    rw [hplace, Cursor.reached_append] at hq
    exact ⟨hnew.statements ▸ hq.statements, hnew.errors ▸ hq.errors, hnew.dropped ▸ hq.dropped⟩
  | passed k hk hr =>
    have hasked := hlength hr
    exact ⟨fun hlt => by omega, fun heq => by omega⟩

/-- A reading that drops no statement pays for all of its steps. -/
theorem charge_readFrom_le {source : σ} {c : Cursor (Recorded σ)} (h : c.Follows source)
    (hdropped : (readFrom c).dropped = 0) : (readFrom c).cursor.charge ≤ c.charge := by
  rw [← readWith_topStatement] at hdropped ⊢
  induction c using readWith_statements (Parser.topStatement (σ := Recorded σ)) with
  | ended c heof =>
    rw [readWith_of_eof _ heof]
  | statement c heof ih =>
    obtain ⟨⟨-, hthrifty, hfollows⟩, hinside⟩ :=
      (Parser.thrift source).judgment.topStatement ⟨rfl, h⟩ heof
    rw [readWith_eq _ heof] at hdropped ⊢
    obtain ⟨s, hs⟩ : ∃ s, (Parser.topStatement c).val.node? = some s := by
      refine Option.ne_none_iff_exists'.1 fun hnone => ?_
      simp only [Parsed.before, hnone, Option.elim] at hdropped
      omega
    have hne : (Parser.topStatement c).val.node? ≠ none := hs ▸ Option.some_ne_none s
    have hresume : (Parser.topStatement c).val.resume =
        (Parser.topStatement c).val.cursor.advance := by
      unfold Parsed.resume
      rw [hs]
    rw [hresume] at ih hdropped ⊢
    have hstatement := hthrifty.le_of_node hne
    have hadvance := Cursor.charge_advance_le (Cursor.left_ne_zero_of_current (hinside hne))
    have hrest := ih hfollows.advance (Nat.eq_zero_of_add_eq_zero_left hdropped)
    exact Nat.le_trans hrest (Nat.le_trans hadvance hstatement)

theorem overrun_eq_zero_of_dropped {tokens : List Token} (h : (read tokens).dropped = 0) :
    overrun tokens = 0 := by
  have hstart : (Cursor.start (Recorded.new tokens)).charge ≤ tokens.length + 2 :=
    Cursor.charge_start_le tokens
  have hcharge : (read (Recorded.new tokens)).cursor.charge ≤ _ :=
    charge_readFrom_le (Cursor.follows_start tokens)
      ((Recorded.read_new_agrees tokens).dropped.trans h)
  have hanswers : (answersRead tokens).length ≤ (read (Recorded.new tokens)).cursor.charge :=
    Nat.le_add_right _ _
  unfold overrun
  omega

/-- **When the end of the input is final.** Tokens behind an end of the
input do not influence a reading that passes fewer ends than there are, and
are read as a program of their own behind one that passes just as many. So
the first end is final, whatever stands behind it, exactly if the reading
of what is before it passes none; and it passes none if it drops no
statement. It never passes more of them than there are blocks given up at
last, and one. -/
theorem read_append_ends (tokens : List Token) :
    (∀ ends rest : List Token, (∀ e ∈ ends, e.kind = .eof) → overrun tokens < ends.length →
      (read (tokens ++ ends ++ rest)).Agrees (read tokens)) ∧
    (∀ ends rest : List Token, (∀ e ∈ ends, e.kind = .eof) → ends ≠ [] →
      overrun tokens = ends.length →
        (read (tokens ++ ends ++ rest)).Joins (read tokens) (read rest)) ∧
    ((∀ (e : Token) (rest : List Token), e.kind = .eof →
      (read (tokens ++ e :: rest)).Agrees (read tokens)) ↔ overrun tokens = 0) ∧
    ((read tokens).dropped = 0 → overrun tokens = 0) ∧
    overrun tokens ≤ unclosed (read tokens).errors + 1 ∧ overrun tokens ≤ nestingLimit + 1 := by
  have hfinal (ends rest : List Token) (hends : ∀ e ∈ ends, e.kind = .eof)
      (hlt : overrun tokens < ends.length) :
      (read (tokens ++ ends ++ rest)).Agrees (read tokens) :=
    (read_append_cut tokens rest hends (List.ne_nil_of_length_pos (by omega))).1 hlt
  have honward (ends rest : List Token) (hends : ∀ e ∈ ends, e.kind = .eof) (hne : ends ≠ [])
      (heq : overrun tokens = ends.length) :
      (read (tokens ++ ends ++ rest)).Joins (read tokens) (read rest) :=
    (read_append_cut tokens rest hends hne).2 heq
  obtain ⟨-, hnesting, -, hunclosed⟩ := requests_le tokens
  refine ⟨hfinal, honward, ⟨fun hall => ?_, fun hzero e rest he => ?_⟩,
    overrun_eq_zero_of_dropped, ?_, ?_⟩
  · -- as many ends as are passed, and a statement behind them
    by_contra hne
    obtain ⟨k, hk⟩ := Nat.exists_eq_succ_of_ne_zero hne
    have hone : (read [(⟨.int, "1"⟩ : Token)]).statements ≠ [] := by decide +kernel
    have hjoins := honward (List.replicate (k + 1) .endOfInput) [⟨.int, "1"⟩]
      (by simp [Token.endOfInput]) (by simp) (by simp [hk])
    have hagrees := hall .endOfInput (List.replicate k .endOfInput ++ [⟨.int, "1"⟩]) rfl
    rw [List.replicate_succ, List.append_assoc, List.cons_append] at hjoins
    have hsame : (read tokens).statements = (read tokens).statements ++ _ :=
      hagrees.statements.symm.trans hjoins.statements
    exact hone (List.self_eq_append_right.1 hsame)
  · have hone := hfinal [e] rest (by simpa using he) (by simp [hzero])
    rwa [List.append_assoc] at hone
  · unfold overrun
    omega
  · unfold overrun
    omega

/-- Behind a `+` and an end of the input a number is read, although the `+`
is followed by nothing. -/
theorem number_behind_end_is_read :
    let tokens : List Token := [⟨.plus, "+"⟩]
    (∀ t ∈ tokens, t.kind ≠ .eof) ∧
      (read (tokens ++ .endOfInput :: [⟨.int, "1"⟩])).statements ≠ (read tokens).statements := by
  intro tokens
  decide +kernel

/-- The reading of a `+` passes one end of the input, but not two. -/
theorem number_behind_two_ends_is_not_read :
    let tokens : List Token := [⟨.plus, "+"⟩]
    let number : List Token := [⟨.int, "1"⟩]
    overrun tokens = 1 ∧
      (read (tokens ++ [.endOfInput] ++ number)).statements =
        (read tokens).statements ++ [.expr (.int 1)] ∧
      (read (tokens ++ [.endOfInput, .endOfInput] ++ number)).statements =
        (read tokens).statements := by
  intro tokens number
  obtain ⟨hfinal, honward, -⟩ := read_append_ends tokens
  have hoverrun : overrun tokens = 1 := by decide +kernel
  have hnumber : (read number).statements = [.expr (.int 1)] := by decide +kernel
  have hjoins := honward [.endOfInput] number (by decide) (by decide) hoverrun
  have hagrees := hfinal [.endOfInput, .endOfInput] number (by decide) (by simp [hoverrun])
  exact ⟨hoverrun, hnumber ▸ hjoins.statements, hagrees.statements⟩

end MonkeyLang
