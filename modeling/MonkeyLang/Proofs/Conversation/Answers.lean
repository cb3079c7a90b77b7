import MonkeyLang.Proofs.Conversation.Lines
/-!
# Answers

What a line is answered with, case by case: a farewell ends the
conversation, a rejected line gets its errors and leaves the session as it
is, and any other line is run. A conversation about some lines goes on,
behind them, as it would from the session that they lead to
(`exists_converse_append`).
-/

namespace MonkeyLang

namespace Repl

/-- The line ends the conversation. -/
def SaysFarewell (line : String) : Prop :=
  trim line.toList = "exit".toList ∨ trim line.toList = "quit".toList

instance : DecidablePred SaysFarewell := fun _ => inferInstanceAs (Decidable (_ ∨ _))

/-- The line is blank or cannot be read. -/
def Rejected (line : String) : Prop :=
  trim line.toList = [] ∨ (readText line).errors ≠ []

variable {depth : Nat} {line : String}

theorem messages_eq_nil {text : String} (h : (readText text).errors = []) :
    (readText text).messages = [] := by
  rw [Reading.messages, h]
  rfl

/-- There is nothing wrong with a blank line. -/
theorem errors_eq_nil_of_blank (h : trim line.toList = []) : (readText line).errors = [] := by
  have hread : (readText line).Agrees (readText "") := readText_of_trim_eq h
  rw [hread.errors]
  decide +kernel

/-- There is nothing wrong with a farewell: it is a name. -/
theorem SaysFarewell.errors_eq_nil (h : SaysFarewell line) : (readText line).errors = [] := by
  rcases h with h | h
  · rw [(readText_of_trim_eq h).errors]
    decide +kernel
  · rw [(readText_of_trim_eq h).errors]
    decide +kernel

/-- A rejected line is no farewell. -/
theorem Rejected.not_saysFarewell (h : Rejected line) : ¬ SaysFarewell line := by
  intro hfarewell
  rcases h with hblank | herrors
  · rcases hfarewell with h | h <;> exact absurd (hblank.symm.trans h) (by decide)
  · exact herrors hfarewell.errors_eq_nil

/-- The line break at the end of a line does not matter to the answer. -/
theorem answerText_append_newline (depth : Nat) (session : Session) (line : String) :
    answerText depth session (line ++ "\n") = answerText depth session line := by
  have htrim : trim (line ++ "\n").toList = trim line.toList := by
    rw [String.toList_append]
    exact trim_append_blanks isBlank_newline _
  obtain ⟨hstatements, herrors, -⟩ := readText_append_newline line
  have hprogram : (readText (line ++ "\n")).program = (readText line).program :=
    congrArg Program.mk hstatements
  have hmessages : (readText (line ++ "\n")).messages = (readText line).messages :=
    congrArg (List.map SyntaxError.message) herrors
  unfold answerText
  dsimp only
  rw [htrim, herrors, hmessages, hprogram]

/-- What becomes of a line that is no farewell. -/
theorem answerText_of_not_saysFarewell (h : ¬ SaysFarewell line) (session : Session) :
    answerText depth session line =
      if trim line.toList = [] then .reply "" session
      else if (readText line).errors ≠ [] then
        .reply (diagnostics (readText line).messages) session
      else
        match session.run depth (readText line).program with
        | none => .final "" .exhausted
        | some (result, session) =>
          .reply (if isShown (readText line).program result then result.inspect ++ "\n" else "")
            session :=
  if_neg h

/-- **A rejected line is answered with its errors, and the session stays.** -/
theorem Rejected.answerText_eq (h : Rejected line) (session : Session) :
    answerText depth session line = .reply (diagnostics (readText line).messages) session := by
  rw [answerText_of_not_saysFarewell h.not_saysFarewell]
  split
  · next hblank =>
    rw [messages_eq_nil (errors_eq_nil_of_blank hblank)]
    rfl
  · next hwords => rw [if_pos (h.resolve_left hwords)]

/-- A line that can be read and whose run ends is answered with its result, if
that is to be shown. -/
theorem answerText_of_run {session session' : Session} {result : Value}
    (hfarewell : ¬ SaysFarewell line) (hblank : trim line.toList ≠ [])
    (hread : (readText line).errors = [])
    (hrun : session.run depth (readText line).program = some (result, session')) :
    answerText depth session line =
      .reply (if isShown (readText line).program result then result.inspect ++ "\n" else "")
        session' := by
  rw [answerText_of_not_saysFarewell hfarewell, if_neg hblank, if_neg (not_not_intro hread), hrun]

/-- A line that is no farewell is replied to, unless its run does not end. -/
theorem exists_reply_of_not_saysFarewell (depth : Nat) (h : ¬ SaysFarewell line)
    (session : Session) :
    (∃ text session', answerText depth session line = .reply text session') ∨
      answerText depth session line = .final "" .exhausted := by
  rw [answerText_of_not_saysFarewell h]
  split
  · exact .inl ⟨_, _, rfl⟩
  · split
    · exact .inl ⟨_, _, rfl⟩
    · split
      · exact .inr rfl
      · exact .inl ⟨_, _, rfl⟩

/-! ## Conversations in pieces -/

/-- A conversation answers the lines that its text is made of. -/
theorem start_textOf_append (depth : Nat) {lines : List String}
    (h : ∀ line ∈ lines, '\n' ∉ line.toList) (rest : String) :
    start depth (bytesOf (textOf lines ++ rest)) =
      converse depth .new ((lines.map (· ++ "\n")).map some ++ linesOf (bytesOf rest)) := by
  rw [start, bytesOf_append, linesOf_textOf h, List.map_map]
  rfl

theorem start_textOf (depth : Nat) {lines : List String} (h : ∀ line ∈ lines, '\n' ∉ line.toList) :
    start depth (bytesOf (textOf lines)) =
      converse depth .new ((lines.map (· ++ "\n")).map some) := by
  have happend := start_textOf_append depth h ""
  rwa [String.append_empty, show linesOf (bytesOf "") = [] from rfl, List.append_nil] at happend

theorem converse_cons_reply {session session' : Session} {text : String}
    (h : answerText depth session line = .reply text session') (rest : List Line) :
    converse depth session (some line :: rest) =
      ⟨prompt ++ text ++ (converse depth session' rest).output,
        (converse depth session' rest).ending⟩ := by
  rw [converse, answer, h]

/-- **A conversation goes on behind some lines as it would from where these
lead.** They write some text and lead to some session, whatever follows. -/
theorem exists_converse_append {lines : List String} {session : Session}
    (hlines : ∀ line ∈ lines, ¬ SaysFarewell line)
    (hends : (converse depth session (lines.map some)).ending ≠ .exhausted) :
    ∃ text session', ∀ rest, converse depth session (lines.map some ++ rest) =
      ⟨text ++ (converse depth session' rest).output, (converse depth session' rest).ending⟩ := by
  induction lines generalizing session with
  | nil => exact ⟨"", session, fun rest => by rw [String.empty_append]; rfl⟩
  | cons line lines ih =>
    obtain ⟨hline, hlines⟩ := List.forall_mem_cons.1 hlines
    rcases exists_reply_of_not_saysFarewell depth hline session with
      ⟨text, session', hreply⟩ | hfinal
    · have hcons := converse_cons_reply hreply
      rw [List.map_cons, hcons] at hends
      obtain ⟨text', session'', happend⟩ := ih hlines hends
      refine ⟨prompt ++ text ++ text', session'', fun rest => ?_⟩
      rw [List.map_cons, List.cons_append, hcons, happend rest]
      simp only [String.append_assoc]
    · -- the run of this line would not end
      rw [List.map_cons, converse, answer, hfinal] at hends
      exact absurd rfl hends

end Repl

end MonkeyLang
