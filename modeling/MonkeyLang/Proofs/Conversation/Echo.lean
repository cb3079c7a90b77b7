import MonkeyLang.CommandLine
import MonkeyLang.Proofs.Conversation.Answers
import MonkeyLang.Proofs.Eval.Clean
/-!
# What is shown

A program can be given to the command line or entered as a line. Both show
its syntax errors, or the error that stopped it, in the same words, and
both show its result, except that each has its own idea of what not to
show: the command line shows no `null`, and a conversation shows nothing if
the program ends in a `let`. These come to the same where that `let` is
reached, which leaves `null`. Where a `return` ends the program before, a
conversation keeps silent about what it returns (`reply_agrees_with_run`).
-/

namespace MonkeyLang

/-- All that the command line writes. -/
def CommandLine.Outcome.printed (o : Outcome) : String := o.stdout ++ o.stderr

/-- The last statement of a program is a `let`. -/
def Program.endsInLet (p : Program) : Bool := p.statements.getLast?.any Stmt.isBind

/-- How the statements of a program end in a new session. -/
def Program.EndsNew (depth : Nat) (p : Program) (outcome : Except Unwind Value) : Prop :=
  ∃ s, Stmt.evalAll (Value.apply depth) Session.new.scope .null p.statements Session.new.store =
    some (outcome, s)

/-- A line that can be read ends in a `let` that is not reached: a `return`
ends it before. -/
def Repl.SkipsLet (depth : Nat) (line : String) : Prop :=
  (readText line).errors = [] ∧ (readText line).program.endsInLet = true ∧
    ∃ v, (readText line).program.EndsNew depth (.error (.returned v))

/-- A line that can be read ends in a `let` that is reached, and leaves
`null`. -/
def Repl.ReachesLet (depth : Nat) (line : String) : Prop :=
  (readText line).errors = [] ∧ (readText line).program.endsInLet = true ∧
    (readText line).program.EndsNew depth (.ok .null)

/-! ## Programs that end in a `let` -/

/-- Statements that are all evaluated yield `null` if the last one is a
`let`. -/
theorem Stmt.evalAll_ok_of_getLast_isBind {apply : Applier} {scope : ScopeId} {ss : List Stmt}
    {last v : Value} {s s' : Store} (hlet : ss.getLast?.any Stmt.isBind = true)
    (h : Stmt.evalAll apply scope last ss s = some (.ok v, s')) : v = .null := by
  induction ss generalizing last s with
  | nil => cases hlet
  | cons st ss ih =>
    obtain ⟨w, s₁, hst, hss⟩ := Eval.bind_eq_ok_iff.1 h
    cases ss with
    | nil =>
      cases st with
      | bind name value =>
        obtain ⟨u, s₂, -, hbind⟩ := Eval.bind_eq_ok_iff.1 hst
        cases hbind
        cases hss
        rfl
      | _ => cases hlet
    | cons st' ss => exact ih hlet hss

/-! ## Runs in a new session -/

section Runs

variable {depth : Nat} {p : Program} {v : Value} {session : Session}

/-- What a program comes to is what its statements end with. -/
theorem Program.exists_endsNew_of_run (h : Session.new.run depth p = some (v, session)) :
    ∃ outcome, p.EndsNew depth outcome ∧
      v = match outcome with
        | .ok v => v
        | .error (.returned v) => v
        | .error (.failed e) => e.toValue := by
  obtain ⟨s', hrun, -⟩ := Session.run_eq_some_iff.1 h
  unfold Program.run Eval.settle Eval.atCall at hrun
  unfold Program.EndsNew
  generalize Stmt.evalAll (Value.apply depth) Session.new.scope .null p.statements
    Session.new.store = ended at hrun ⊢
  obtain _ | ⟨(_ | _) | _, s₁⟩ := ended <;> cases hrun <;> exact ⟨_, ⟨_, rfl⟩, rfl⟩

theorem Program.EndsNew.unique {outcome outcome' : Except Unwind Value}
    (h : p.EndsNew depth outcome) (h' : p.EndsNew depth outcome') : outcome = outcome' := by
  obtain ⟨s, h⟩ := h
  obtain ⟨s', h'⟩ := h'
  rw [h, Option.some.injEq, Prod.mk.injEq] at h'
  exact h'.1

/-- What a program returns is no error. -/
theorem Program.EndsNew.isError_eq_false (h : p.EndsNew depth (.error (.returned v))) :
    v.isError = false := by
  obtain ⟨s', h⟩ := h
  have hstore : Session.new.store.Plain := .newScope (fun _ _ _ _ hsc => by cases hsc) none
  have hkept : Invariant.plain.Kept (runBody (depth + 1) Session.new.scope p.statements)
      Value.Plain := runBody_keeps _ _ _ fun _ => trivial
  have hv : v.Plain := (hkept.error hstore h).2
  cases hv <;> rfl

/-- **A result is not shown just if the program ends in a `let`** and is not
stopped by an error. -/
theorem Repl.isShown_eq_false_iff :
    isShown p v = false ↔ v.isError = false ∧ p.endsInLet = true := by
  simp [isShown, Program.endsInLet]

/-- Where the result is not shown, the `let` at the end has left `null`, or a
`return` has ended the program before. -/
theorem Repl.ends_of_isShown_eq_false (h : Session.new.run depth p = some (v, session))
    (hshown : isShown p v = false) :
    p.EndsNew depth (.ok .null) ∧ v = .null ∨ p.EndsNew depth (.error (.returned v)) := by
  obtain ⟨herror, hlet⟩ := isShown_eq_false_iff.1 hshown
  obtain ⟨outcome, hends, rfl⟩ := Program.exists_endsNew_of_run h
  obtain (e | w) | w := outcome
  · exact .inr hends
  · cases herror
  · obtain ⟨s', hend⟩ := hends
    obtain rfl := Stmt.evalAll_ok_of_getLast_isBind hlet hend
    exact .inl ⟨⟨s', hend⟩, rfl⟩

end Runs

/-! ## What the command line prints -/

section Printed

variable {depth : Nat} {text : String}

theorem CommandLine.printed_of_errors (h : (readText text).errors ≠ []) :
    (runSource depth text false).printed = Repl.diagnostics (readText text).messages := by
  unfold runSource
  dsimp only
  rw [if_pos h]
  exact String.empty_append

theorem CommandLine.printed_of_run {v : Value} {session : Session}
    (h : (readText text).errors = [])
    (hrun : Session.new.run depth (readText text).program = some (v, session)) :
    (runSource depth text false).printed =
      if v.type = .null then "" else v.inspect ++ "\n" := by
  unfold runSource
  dsimp only
  rw [if_neg (not_not_intro h), hrun]
  cases v <;> first | exact String.append_empty | exact String.empty_append

theorem Repl.diagnostics_ne_empty {messages : List String} (h : messages ≠ []) :
    diagnostics messages ≠ "" := by
  obtain ⟨message, messages, rfl⟩ := List.exists_cons_of_ne_nil h
  intro heq
  have hlist := congrArg String.toList heq
  simp [diagnostics] at hlist

end Printed

/-! ## The reply to a line -/

namespace Repl

variable {depth : Nat} {line : String}

/-- A new conversation about one line. -/
theorem start_of_reply {reply : String} {session : Session} (hline : '\n' ∉ line.toList)
    (h : answerText depth .new (line ++ "\n") = .reply reply session) :
    start depth (bytesOf (line ++ "\n")) =
      ⟨prompt ++ reply ++ (prompt ++ lastLine), .endOfInput⟩ := by
  have hstart := start_textOf depth (List.forall_mem_singleton.2 hline)
  rw [textOf_cons, textOf_nil, String.append_empty] at hstart
  rw [hstart]
  exact converse_cons_reply h []

end Repl

open Repl (prompt lastLine start ReachesLet SaysFarewell SkipsLet)

/-- **A conversation shows what the command line prints.** Let a line that is
neither blank nor a farewell be given to the command line and, in a new
session, be entered, and let its run end. Unless a `return` skips the `let` at
its end, whatever is printed is what the line is replied to with, and there is
no reply only if that `let` is reached and leaves `null`. Where a `return`
skips the `let`, there is no reply at all. -/
theorem reply_agrees_with_run (depth : Nat) (line : String) (hline : '\n' ∉ line.toList)
    (hblank : trim line.toList ≠ []) (hfarewell : ¬ SaysFarewell line)
    (hends : (readText line).errors = [] →
      Session.new.run depth (readText line).program ≠ none) :
    ∃ reply, start depth (bytesOf (line ++ "\n")) =
        ⟨prompt ++ reply ++ (prompt ++ lastLine), .endOfInput⟩ ∧
      (¬ SkipsLet depth line →
        ((CommandLine.runSource depth line false).printed ≠ "" →
          reply = (CommandLine.runSource depth line false).printed) ∧
        (reply = "" → ReachesLet depth line)) ∧
      (SkipsLet depth line → reply = "") := by
  have hanswer := Repl.answerText_append_newline depth .new line
  rw [Repl.answerText_of_not_saysFarewell hfarewell, if_neg hblank] at hanswer
  by_cases hread : (readText line).errors = []
  · obtain ⟨⟨v, session⟩, hrun⟩ := Option.ne_none_iff_exists'.1 (hends hread)
    rw [if_neg (not_not_intro hread), hrun] at hanswer
    refine ⟨_, Repl.start_of_reply hline hanswer, ?_, ?_⟩
    · intro hskips
      rw [CommandLine.printed_of_run hread hrun]
      cases hshown : Repl.isShown (readText line).program v with
      | true =>
        refine ⟨fun hprinted => ?_, fun hempty => ?_⟩
        · split at hprinted
          · exact absurd rfl hprinted
          · next htype => rw [if_neg htype]; rfl
        · have hlist := congrArg String.toList hempty
          simp at hlist
      | false =>
        obtain ⟨-, hlet⟩ := Repl.isShown_eq_false_iff.1 hshown
        obtain ⟨hreached, rfl⟩ | hreturned := Repl.ends_of_isShown_eq_false hrun hshown
        · exact ⟨fun hprinted => absurd rfl hprinted, fun _ => ⟨hread, hlet, hreached⟩⟩
        · exact absurd ⟨hread, hlet, v, hreturned⟩ hskips
    · rintro ⟨-, hlet, w, hreturned⟩
      obtain ⟨outcome, hend, rfl⟩ := Program.exists_endsNew_of_run hrun
      obtain rfl := hend.unique hreturned
      rw [Repl.isShown_eq_false_iff.2 ⟨hreturned.isError_eq_false, hlet⟩]
      rfl
  · rw [if_pos hread] at hanswer
    refine ⟨_, Repl.start_of_reply hline hanswer, fun _ => ⟨fun _ => ?_, fun hempty => ?_⟩, ?_⟩
    · exact (CommandLine.printed_of_errors hread).symm
    · exact absurd hempty (Repl.diagnostics_ne_empty (mt List.map_eq_nil_iff.1 hread))
    · exact fun hskips => absurd hskips.1 hread

/-- `if (true) { return 7 }` is replied to with 7, as it is on the command
line. -/
theorem returned_seven_is_shown :
    (start 1 (bytesOf ("if (true) \x7b return 7 \x7d" ++ "\n"))).output = ">> 7\n>> \n" := by
  let line := "if (true) \x7b return 7 \x7d"
  have hread : (readText line).errors = [] ∧ (readText line).program =
      ⟨[.expr (.cond (.bool true) [.ret (.int 7)] none)]⟩ := by
    decide +kernel
  have hrun : Session.new.run 1 (readText line).program = some (.int 7, .new) := by
    rw [hread.2]
    rfl
  have hprinted : (CommandLine.runSource 1 line false).printed = "7\n" := by
    rw [CommandLine.printed_of_run hread.1 hrun]
    rfl
  have hreached : ¬ SkipsLet 1 line := by
    rintro ⟨-, hlet, -⟩
    rw [hread.2] at hlet
    cases hlet
  obtain ⟨reply, hstart, hreply, -⟩ := reply_agrees_with_run 1 line (by decide) (by decide)
    (by decide) (by rw [hrun]; nofun)
  obtain rfl : reply = "7\n" := by
    rw [← hprinted]
    exact (hreply hreached).1 (by rw [hprinted]; decide)
  rw [hstart]
  rfl

/-- `return 5; let x = 1` prints 5 on the command line, and is not replied
to. -/
theorem return_before_let_is_not_shown :
    (CommandLine.runSource 1 "return 5; let x = 1" false).printed = "5\n" ∧
      (start 1 (bytesOf ("return 5; let x = 1" ++ "\n"))).output = ">> >> \n" := by
  let line := "return 5; let x = 1"
  have hread : (readText line).errors = [] ∧ (readText line).program =
      ⟨[.ret (.int 5), .bind "x" (.int 1)]⟩ := by
    decide +kernel
  have hrun : Session.new.run 1 (readText line).program = some (.int 5, .new) := by
    rw [hread.2]
    rfl
  have hanswer : Repl.answerText 1 .new (line ++ "\n") = .reply "" .new := by
    rw [Repl.answerText_append_newline,
      Repl.answerText_of_run (by decide) (by decide) hread.1 hrun, hread.2]
    rfl
  constructor
  · exact CommandLine.printed_of_run hread.1 hrun
  · have hline : '\n' ∉ line.toList := by decide
    rw [Repl.start_of_reply hline hanswer]
    rfl

end MonkeyLang
