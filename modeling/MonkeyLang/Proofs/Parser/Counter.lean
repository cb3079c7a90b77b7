import MonkeyLang.Proofs.Parser.Comparison
import MonkeyLang.Proofs.Parser.Nesting
/-!
# Nesting by a counter

The parser for expressions has one parser for each level of nesting. The
same parse is made by one parser that calls itself and keeps a counter of the
calls that are active: it refuses a call when the counter stands at the limit,
and takes the counter back when the call is over, however that ended. The
counter goes along with the source, and so does a log of what happens, each
time with the value of the counter. `Counted.expr` is this parser; it does the
same as that of the levels which the counter leaves (`Counted.expr_ends`), and
the counter never differs from the number of calls that the log has seen to
begin and not to end (`nesting_counted`).
-/

namespace MonkeyLang

open Window (anywhere inside)

variable {σ : Type} [TokenSource σ] {α β : Type}

/-- What happens in a parse that counts its calls, and the counter when it
happens. -/
inductive Counted.Event where
  /-- The source was asked for a token. -/
  | asked (counter : Nat)
  /-- An expression was called for. -/
  | entered (counter : Nat)
  /-- The counter was raised for the call. -/
  | raised (counter : Nat)
  /-- The call was over, with an expression or without. -/
  | left (counter : Nat) (node? : Option Expr)

/-- A source with the counter of active calls and the log of a parse. -/
structure Counted (σ : Type) where
  source : σ
  counter : Nat
  log : List Counted.Event

instance : TokenSource (Counted σ) where
  next m := ((TokenSource.next m.source).1,
    ⟨(TokenSource.next m.source).2, m.counter, m.log ++ [.asked m.counter]⟩)
  remaining m := TokenSource.remaining m.source
  remaining_next_le m := TokenSource.remaining_next_le m.source
  kind_next_of_remaining_eq_zero m := TokenSource.kind_next_of_remaining_eq_zero m.source

namespace Cursor

/-- The same place without counter and log. -/
def plain (c : Cursor (Counted σ)) : Cursor σ := ⟨c.current, c.upcoming, c.source.source⟩

/-- Writes down an event. -/
def noting (event : Counted.Event) (c : Cursor (Counted σ)) : Cursor (Counted σ) :=
  { c with source := { c.source with log := c.source.log ++ [event] } }

/-- Sets the counter. -/
def counting (counter : Nat) (c : Cursor (Counted σ)) : Cursor (Counted σ) :=
  { c with source := { c.source with counter } }

end Cursor

namespace Parsed

/-- The same end of a parse without counter and log. -/
def plain (r : Parsed (Counted σ) α) : Parsed σ α := ⟨r.node?, r.errors, r.dropped, r.cursor.plain⟩

/-- Takes the counter back. -/
def released (r : Parsed (Counted σ) α) : Parsed (Counted σ) α :=
  { r with cursor := r.cursor.counting (r.cursor.source.counter - 1) }

/-- Writes down that a call is over. -/
def returned (r : Parsed (Counted σ) Expr) : Parsed (Counted σ) Expr :=
  { r with cursor := r.cursor.noting (.left r.cursor.source.counter r.node?) }

end Parsed

/-- The same reading without counter and log. -/
def Reading.plain (r : Reading (Counted σ)) : Reading σ :=
  ⟨r.statements, r.errors, r.dropped, r.cursor.plain⟩

namespace Counted

open MonkeyLang.Parser (ExprParser)

/-! ## The parser -/

/-- Refuses when the counter stands at the limit; else counts the call for as
long as it lasts. -/
def limited (p : Parser (Counted σ) α) : Parser (Counted σ) α := fun c =>
  if nestingLimit ≤ c.source.counter then Ahead.fail .nestingTooDeep c
  else
    let raised := c.source.counter + 1
    let r := p ((c.counting raised).noting (.raised raised))
    ⟨r.val.released, r.property⟩

/-- Writes down that a call begins, and with what it ends. -/
def watched (p : Parser (Counted σ) Expr) : Parser (Counted σ) Expr := fun c =>
  let r := p (c.noting (.entered c.source.counter))
  ⟨r.val.returned, r.property⟩

/-- The parser for expressions that counts its calls. The fuel bounds how
often it may call itself; from the limit on it is never used up. -/
def expr : (fuel : Nat) → ExprParser (Counted σ)
  | 0, _ => watched (limited (Parser.fail .nestingTooDeep))
  | fuel + 1, floor => watched (limited (do
      let left ← Parser.operand (expr fuel)
      Parser.extended (expr fuel) floor left))

/-- Reads the program that a source supplies with the parser that counts. -/
def read (source : σ) : Reading (Counted σ) :=
  readWith (Parser.statement (expr nestingLimit)) (.start ⟨source, 0, []⟩)

/-! ## Logs -/

/-- How many calls have begun. -/
def entries (log : List Event) : Nat := log.countP fun | .entered _ => true | _ => false

/-- How many calls were over. -/
def exits (log : List Event) : Nat := log.countP fun | .left _ _ => true | _ => false

/-- What holds of an event after those before it: the counter is the number of
the calls that are active, up to the call that is just over, and within the
limit; and an expression takes no more levels than the counter leaves. -/
def Event.Fits (before : List Event) : Event → Prop
  | asked k => entries before = exits before + k ∧ k ≤ nestingLimit
  | entered k => entries before = exits before + k ∧ k ≤ nestingLimit
  | raised k => entries before = exits before + k ∧ k ≤ nestingLimit
  | left k node? => entries before = exits before + (k + 1) ∧ k ≤ nestingLimit ∧
      ∀ e ∈ node?, e.nest + k ≤ nestingLimit

/-- All events of a log fit, and so many calls are active behind it. -/
structure Exact (k : Nat) (log : List Event) : Prop where
  fits : ∀ before event after, log = before ++ event :: after → event.Fits before
  active : entries log = exits log + k

theorem exact_nil : Exact 0 [] where
  fits before event after h := by simp at h
  active := rfl

/-- One more event has to fit behind the others. -/
theorem Exact.concat {k l : Nat} {log : List Event} {event : Event} (h : Exact k log)
    (hevent : event.Fits log) (hactive : entries (log ++ [event]) = exits (log ++ [event]) + l) :
    Exact l (log ++ [event]) where
  fits before event' after heq := by
    obtain rfl | ⟨after, last, rfl⟩ := List.eq_nil_or_concat after
    · obtain ⟨rfl, hlast⟩ := List.append_inj' heq rfl
      obtain rfl : event = event' := List.singleton_inj.1 hlast
      exact hevent
    · rw [List.concat_eq_append, ← List.cons_append, ← List.append_assoc] at heq
      exact h.fits before event' after (List.append_inj' heq rfl).1
  active := hactive

variable {k : Nat} {log : List Event}

theorem Exact.asked (h : Exact k log) (hk : k ≤ nestingLimit) : Exact k (log ++ [.asked k]) := by
  refine h.concat ⟨h.active, hk⟩ ?_
  simpa [entries, exits] using h.active

theorem Exact.raised (h : Exact k log) (hk : k ≤ nestingLimit) :
    Exact k (log ++ [.raised k]) := by
  refine h.concat ⟨h.active, hk⟩ ?_
  simpa [entries, exits] using h.active

theorem Exact.entered (h : Exact k log) (hk : k ≤ nestingLimit) :
    Exact (k + 1) (log ++ [.entered k]) := by
  have hactive := h.active
  refine h.concat ⟨hactive, hk⟩ ?_
  simp only [entries, exits, List.countP_append, List.countP_singleton] at hactive ⊢
  simp only [if_true, if_false, Bool.false_eq_true]
  omega

theorem Exact.left (h : Exact (k + 1) log) (hk : k ≤ nestingLimit) {node? : Option Expr}
    (hnode : ∀ e ∈ node?, e.nest + k ≤ nestingLimit) : Exact k (log ++ [.left k node?]) := by
  have hactive := h.active
  refine h.concat ⟨hactive, hk, hnode⟩ ?_
  simp only [entries, exits, List.countP_append, List.countP_singleton] at hactive ⊢
  simp only [if_true, if_false, Bool.false_eq_true]
  omega

omit [TokenSource σ] in
theorem Exact.returned {r : Parsed (Counted σ) Expr} (h : Exact (k + 1) r.cursor.source.log)
    (hcounter : r.cursor.source.counter = k + 1) (hk : k ≤ nestingLimit)
    (hnode : ∀ e ∈ r.node?, e.nest + k ≤ nestingLimit) :
    Exact k r.released.returned.cursor.source.log := by
  obtain ⟨node?, errors, dropped, ⟨current, upcoming, ⟨source, counter, log⟩⟩⟩ := r
  obtain rfl : counter = k + 1 := hcounter
  exact h.left hk hnode

/-! ## Parses -/

/-- A parse that counts ended like one that does not, with the counter back
where it was, and wrote down nothing that does not fit. -/
structure Counts (k : Nat) {c : Cursor (Counted σ)} {d : Cursor σ} (r : Ahead c α)
    (q : Ahead d α) : Prop where
  plain : r.val.plain = q.val
  counter : r.val.cursor.source.counter = k
  exact : Exact k c.source.log → Exact k r.val.cursor.source.log

theorem Counts.bind {c : Cursor (Counted σ)} {d : Cursor σ} {r : Ahead c α} {q : Ahead d α}
    {next : α → (c' : Cursor (Counted σ)) → c'.left ≤ c.left → Ahead c' β}
    {next' : α → (d' : Cursor σ) → d'.left ≤ d.left → Ahead d' β} (h : Counts k r q)
    (hnext : ∀ a hc hd, r.val.node? = some a →
      Counts k (next a r.val.cursor hc) (next' a q.val.cursor hd)) :
    Counts k (r.bind next) (q.bind next') := by
  obtain ⟨⟨node?, errors, dropped, c'⟩, hc⟩ := r
  obtain ⟨⟨_, _, _, _⟩, hd⟩ := q
  obtain ⟨hends, hcounter, hexact⟩ := h
  obtain ⟨rfl, rfl, rfl, rfl⟩ := hends
  cases node? with
  | none => exact ⟨rfl, hcounter, hexact⟩
  | some a =>
    obtain ⟨hplain, hcounter', hexact'⟩ := hnext a hc hd rfl
    refine ⟨?_, hcounter', fun hlog => hexact' (hexact hlog)⟩
    simp only [Ahead.bind, ← hplain]
    rfl

/-- The statements of a block are counted one by one. -/
theorem counts_blockBody (hk : k ≤ nestingLimit) {p : Parser (Counted σ) α} {q : Parser σ α}
    (h : ∀ {c : Cursor (Counted σ)}, c.source.counter = k → c.current.kind ≠ .eof →
      Counts k (p c) (q c.plain)) {c : Cursor (Counted σ)} (hc : c.source.counter = k) :
    Counts k (Parser.blockBody p c) (Parser.blockBody q c.plain) := by
  induction c using Parser.blockBody_statements p with
  | closed c hclose =>
    rw [Parser.blockBody_of_rbrace p hclose, Parser.blockBody_of_rbrace q hclose]
    exact ⟨rfl, hc, id⟩
  | ended c heof =>
    rw [Parser.blockBody_of_eof p heof, Parser.blockBody_of_eof q heof]
    exact ⟨rfl, hc, id⟩
  | statement c hclose heof ih =>
    obtain ⟨hplain, hcounter, hexact⟩ := h hc heof
    obtain ⟨hplain', hcounter', hexact'⟩ := ih hcounter
    have hcursor : (q c.plain).val.cursor.advance = (p c).val.cursor.advance.plain := by
      rw [← hplain]
      rfl
    have hval := Parser.val_blockBody p hclose heof rfl
    refine ⟨?_, by rw [hval]; exact hcounter', fun hlog => ?_⟩
    · rw [hval, Parser.val_blockBody q hclose heof hcursor, ← hplain, ← hplain']
      rfl
    · rw [hval]
      refine hexact' ?_
      have hasked := (hexact hlog).asked hk
      rwa [← hcounter] at hasked ⊢

/-- Parsers count. -/
def counting (hk : k ≤ nestingLimit) : Parser.Comparison (Counted σ) σ where
  meet c d := c.plain = d ∧ c.source.counter = k
  agree _ _ _ _ r q := Counts k r q
  current := by
    rintro c _ ⟨rfl, -⟩
    exact .refl _
  upcoming := by
    rintro c _ ⟨rfl, -⟩ -
    rfl
  advance := by
    rintro c _ ⟨rfl, hc⟩ -
    exact ⟨rfl, hc⟩
  meets h _ := ⟨congrArg Parsed.cursor h.plain, h.counter⟩
  succ := id
  pure := by
    rintro n α c _ a ⟨rfl, hc⟩
    exact ⟨rfl, hc, id⟩
  fail := by
    rintro n α c _ e ⟨rfl, hc⟩
    exact ⟨rfl, hc, id⟩
  bind h hnext := h.bind hnext
  map g h := ⟨by simp only [Ahead.map, ← h.plain]; rfl, h.counter, h.exact⟩
  afterAdvance := by
    rintro n α c _ r q ⟨rfl, hc⟩ - h
    refine ⟨h.plain, h.counter, fun hlog => h.exact ?_⟩
    have hasked := hlog.asked hk
    rwa [← hc] at hasked ⊢
  blockBody := by
    rintro n α p q h c _ ⟨rfl, hc⟩
    exact counts_blockBody hk (fun hc hin => (h ⟨rfl, hc⟩ hin).1) hc

/-- At the limit a call is refused. -/
theorem limited_of_le {p : Parser (Counted σ) α} {c : Cursor (Counted σ)}
    (h : nestingLimit ≤ c.source.counter) : limited p c = Ahead.fail .nestingTooDeep c :=
  if_pos h

/-- Before the limit it goes on with the next number. -/
theorem val_limited_of_lt {p : Parser (Counted σ) α} {c : Cursor (Counted σ)}
    (h : c.source.counter < nestingLimit) :
    (limited p c).val = (p ((c.counting (c.source.counter + 1)).noting
      (.raised (c.source.counter + 1)))).val.released :=
  congrArg Subtype.val (if_neg (Nat.not_le_of_lt h))

theorem val_watched (p : Parser (Counted σ) Expr) (c : Cursor (Counted σ)) :
    (watched p c).val = (p (c.noting (.entered c.source.counter))).val.returned := rfl

/-- A call counts if what it calls does with the next number. -/
theorem ends_call (hk : k ≤ nestingLimit) {n : Nat} {p : Parser (Counted σ) Expr}
    {c : Cursor (Counted σ)} (hc : c.source.counter = k) {q : Ahead c.plain Expr}
    (hrefused : k = nestingLimit → q = Ahead.fail .nestingTooDeep c.plain)
    (hbody : ∀ (hlt : k + 1 ≤ nestingLimit) (c' : Cursor (Counted σ)), c'.plain = c.plain →
      c'.source.counter = k + 1 → (counting hlt).Ends n inside (p c') q)
    (hnest : ∀ e ∈ q.val.node?, e.nest + k ≤ nestingLimit) :
    (counting hk).Ends n inside (watched (limited p) c) q := by
  subst hc
  have hval := val_watched (limited p) c
  obtain hlt | heq := Nat.lt_or_eq_of_le hk
  -- the call is let in: its body works one higher, and ends before the call
  -- is written down as over
  · obtain ⟨⟨hplain, hcounter, hexact⟩, hfinishes⟩ := hbody hlt
      (((c.noting (.entered c.source.counter)).counting (c.source.counter + 1)).noting
        (.raised (c.source.counter + 1))) rfl rfl
    have hlimited : (limited p (c.noting (.entered c.source.counter))).val = _ :=
      val_limited_of_lt hlt
    rw [hlimited] at hval
    refine ⟨⟨?_, ?_, fun hlog => ?_⟩, ?_⟩
    · rw [hval]
      exact hplain
    · rw [hval]
      exact Nat.sub_eq_of_eq_add hcounter
    · rw [hval]
      refine (hexact ((hlog.entered hk).raised hlt)).returned hcounter hk ?_
      rw [← hplain] at hnest
      exact hnest
    · intro hnode
      rw [hval] at hnode ⊢
      exact hfinishes hnode
  · have hlimited : limited p (c.noting (.entered c.source.counter)) = _ :=
      limited_of_le (Nat.le_of_eq heq.symm)
    rw [hlimited] at hval
    refine ⟨⟨?_, ?_, fun hlog => ?_⟩, fun hnode => absurd ?_ hnode⟩
    · rw [hval, hrefused heq]
      rfl
    · rw [hval]
      rfl
    · rw [hval]
      exact (hlog.entered hk).left hk nofun
    · rw [hval]
      rfl

/-- **The parser that counts does what the one of the levels left does.** -/
theorem expr_ends (fuel : Nat) (hk : k ≤ nestingLimit) (n : Nat) (floor : Precedence) :
    (counting hk).judgment.holds n anywhere inside (expr (σ := σ) fuel floor)
      (Parser.expr (min fuel (nestingLimit - k)) floor) := by
  induction fuel generalizing k n floor with
  | zero =>
    rintro c _ ⟨rfl, hc⟩ -
    rw [Nat.zero_min]
    refine ends_call hk hc (fun _ => rfl) (fun hlt c' hplain hc' => ?_) nofun
    have hmeet : (counting hlt).meet c' c.plain := ⟨hplain, hc'⟩
    exact .fail hmeet _
  | succ fuel ih =>
    rintro c _ ⟨rfl, hc⟩ -
    refine ends_call hk hc (fun heq => ?_) (fun hlt c' hplain hc' => ?_) fun e he => ?_
    · rw [heq, Nat.sub_self, Nat.min_zero]
      rfl
    -- one call more on the counter is one level less for the other parser
    · have hlevels : min (fuel + 1) (nestingLimit - k) = min fuel (nestingLimit - (k + 1)) + 1 := by
        omega
      have hmeet : (counting hlt).meet c' c.plain := ⟨hplain, hc'⟩
      have hbody := (counting hlt).judgment.extendedOperand (ih hlt 0) floor hmeet trivial
      rw [hlevels]
      exact ⟨hbody.agree, hbody.finishes⟩
    · have hnest : e.nest ≤ min (fuel + 1) (nestingLimit - k) := Parser.expr_gives _ _ _ e he
      omega

/-! ## Calls and programs -/

/-- **Every call gives the counter back**, whether it succeeds or not, and its
expression takes no more levels than the counter has left. -/
theorem counter_expr (fuel : Nat) (floor : Precedence) (c : Cursor (Counted σ)) :
    (expr fuel floor c).val.cursor.source.counter = c.source.counter ∧
      ∀ e ∈ (expr fuel floor c).val.node?, e.nest + c.source.counter ≤ nestingLimit := by
  obtain hgt | hk := Nat.lt_or_ge nestingLimit c.source.counter
  -- a counter beyond the limit is none that a parse comes to, but it is
  -- refused all the same
  · obtain ⟨p, hp⟩ : ∃ p : Parser (Counted σ) Expr, expr fuel floor = watched (limited p) := by
      cases fuel <;> exact ⟨_, rfl⟩
    have hval := val_watched (limited p) c
    rw [limited_of_le (c := c.noting _) (Nat.le_of_lt hgt)] at hval
    rw [hp, hval]
    exact ⟨rfl, nofun⟩
  · have hmeet : (counting hk).meet c c.plain := ⟨rfl, rfl⟩
    obtain ⟨hplain, hcounter, -⟩ := (expr_ends fuel hk 0 floor hmeet trivial).agree
    refine ⟨hcounter, fun e he => ?_⟩
    have hnode := congrArg Parsed.node? hplain
    have hnest : e.nest ≤ min fuel (nestingLimit - c.source.counter) :=
      Parser.expr_gives _ _ _ e (hnode.symm.trans he)
    omega

/-- Where reading goes on behind a statement the counter is still the same. -/
theorem counts_resume (hk : k ≤ nestingLimit) {r : Parsed (Counted σ) Stmt}
    (hcounter : r.cursor.source.counter = k) (hlog : Exact k r.cursor.source.log) :
    r.resume.plain = r.plain.resume ∧ r.resume.source.counter = k ∧
      Exact k r.resume.source.log := by
  have hadvance {c : Cursor (Counted σ)} (hc : c.source.counter = k)
      (hlog : Exact k c.source.log) : Exact k c.advance.source.log := by
    have hasked := hlog.asked hk
    rwa [← hc] at hasked ⊢
  obtain ⟨node?, errors, dropped, c⟩ := r
  cases node? with
  | some s => exact ⟨rfl, hcounter, hadvance hcounter hlog⟩
  | none =>
    have hmeet : (counting hk).meet c c.plain := ⟨rfl, hcounter⟩
    obtain ⟨hplain, hskipped⟩ := (counting hk).meet_skipStatement hmeet
    have hskip : c.skipStatement.source.counter = k ∧ Exact k c.skipStatement.source.log := by
      refine Cursor.skipStatement_steps (motive := fun d : Cursor (Counted σ) =>
        d.source.counter = k ∧ Exact k d.source.log) ⟨hcounter, hlog⟩ fun d hd _ => ?_
      exact ⟨hd.1, hadvance hd.1 hd.2⟩
    exact ⟨congrArg Cursor.advance hplain, hskipped, hadvance hskip.1 hskip.2⟩

theorem counts_statement {c : Cursor (Counted σ)} (hc : c.source.counter = 0)
    (hin : c.current.kind ≠ .eof) :
    Counts 0 (Parser.statement (expr nestingLimit) c) (Parser.topStatement c.plain) := by
  have hmeet : (counting (Nat.zero_le nestingLimit)).meet c c.plain := ⟨rfl, hc⟩
  have hends := (counting (Nat.zero_le nestingLimit)).judgment.statement
    (expr_ends nestingLimit (Nat.zero_le nestingLimit) 0) hmeet hin
  rw [Nat.sub_zero, Nat.min_self] at hends
  exact hends.agree

/-- The statements of a program are counted one by one. -/
theorem counts_readWith {c : Cursor (Counted σ)} (hc : c.source.counter = 0)
    (hlog : Exact 0 c.source.log) :
    (readWith (Parser.statement (expr nestingLimit)) c).plain = readFrom c.plain ∧
      (readWith (Parser.statement (expr nestingLimit)) c).cursor.source.counter = 0 ∧
      Exact 0 (readWith (Parser.statement (expr nestingLimit)) c).cursor.source.log := by
  rw [← readWith_topStatement]
  induction c using readWith_statements (Parser.statement (expr (σ := σ) nestingLimit)) with
  | ended c heof =>
    rw [readWith_of_eof _ heof, readWith_of_eof (c := c.plain) _ heof]
    exact ⟨rfl, hc, hlog⟩
  | statement c heof ih =>
    obtain ⟨hplain, hcounter, hexact⟩ := counts_statement hc heof
    obtain ⟨hresume, hcounter', hlog'⟩ :=
      counts_resume (Nat.zero_le nestingLimit) hcounter (hexact hlog)
    obtain ⟨hrest, hend⟩ := ih hcounter' hlog'
    rw [readWith_eq _ heof, readWith_eq (c := c.plain) _ heof, ← hplain, ← hresume, ← hrest]
    exact ⟨rfl, hend⟩

theorem exact_start (source : σ) :
    Exact 0 (Cursor.start (⟨source, 0, []⟩ : Counted σ)).source.log :=
  (exact_nil.asked (Nat.zero_le _)).asked (Nat.zero_le _)

/-- **The nesting counter is exact, and it bounds the tree.** The parse
that counts its calls reads what the other one reads. Whenever it asks for
a token, begins a call, raises the counter or is done with a call, the
counter is the number of the calls that are active, and within the limit;
in the end none is. Every call gives the counter back as it was, and its
expression takes no more levels than the limit leaves above it; so no
expression in a program takes more levels than the limit. -/
theorem nesting_counted (tokens : List Token) :
    (read tokens).plain = MonkeyLang.read tokens ∧
    (∀ before event after, (read tokens).cursor.source.log = before ++ event :: after →
      event.Fits before) ∧
    (read tokens).cursor.source.counter = 0 ∧
    entries (read tokens).cursor.source.log = exits (read tokens).cursor.source.log ∧
    (∀ (fuel : Nat) (floor : Precedence) (c : Cursor (Counted (List Token))),
      (expr fuel floor c).val.cursor.source.counter = c.source.counter ∧
        ∀ e ∈ (expr fuel floor c).val.node?, e.nest + c.source.counter ≤ nestingLimit) ∧
    ∀ e ∈ Stmt.withinAll (MonkeyLang.read tokens).statements, e.nest ≤ nestingLimit := by
  obtain ⟨hplain, hcounter, hexact⟩ := counts_readWith rfl (exact_start tokens)
  exact ⟨hplain, hexact.fits, hcounter, hexact.active, counter_expr,
    Stmt.nest_le_of_mem_withinAll _ (nestAll_read_le tokens)⟩

end Counted

end MonkeyLang
