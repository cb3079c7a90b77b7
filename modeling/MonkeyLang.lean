import MonkeyLang.Token.Scan
import MonkeyLang.Tree.Equality
import MonkeyLang.Tree.Render
import MonkeyLang.Parser.Program
import MonkeyLang.Value.Inspect
import MonkeyLang.Eval.Run
import MonkeyLang.CommandLine
import MonkeyLang.Main
import MonkeyLang.Proofs.Recognition
import MonkeyLang.Proofs.Canonical.Reading
import MonkeyLang.Proofs.Eval.Frame
import MonkeyLang.Proofs.Eval.Clean
import MonkeyLang.Proofs.Lexemes
import MonkeyLang.Proofs.Recovery
import MonkeyLang.Proofs.Resumption
import MonkeyLang.Proofs.Pieces
import MonkeyLang.Proofs.Machine.Identity
import MonkeyLang.Proofs.Renaming.Names
import MonkeyLang.Proofs.Renaming.Repetition
import MonkeyLang.Proofs.Conversation.Rejected
import MonkeyLang.Proofs.Conversation.Echo
import MonkeyLang.Proofs.Handles.Answers
import MonkeyLang.Proofs.Literals.Reading
import MonkeyLang.Proofs.EndOfInput
import MonkeyLang.Proofs.Parser.Counter
import MonkeyLang.Proofs.Eval.Unwinding
import MonkeyLang.Proofs.InsertionOrder
import MonkeyLang.Proofs.Integers
import MonkeyLang.Proofs.Eval.Nodewise
import MonkeyLang.Proofs.Folds
import MonkeyLang.Proofs.HashLookup
import MonkeyLang.Proofs.Sequences
import MonkeyLang.Proofs.Provenance
import MonkeyLang.Proofs.Kinds
import MonkeyLang.Proofs.Equality
import MonkeyLang.Proofs.OnDemand
