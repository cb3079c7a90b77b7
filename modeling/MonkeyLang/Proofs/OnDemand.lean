import MonkeyLang.Proofs.Kinds
import MonkeyLang.Proofs.Lexemes
import MonkeyLang.Proofs.Parser.Sources
/-!
# Tokens on demand

A parse asks for its tokens one at a time, and over a text each of them is
cut off only then. What it is given are the tokens that the source supplies
and the end of the input for ever after, and nothing else counts: sources
that supply the same tokens are read alike (`Supplies.read_agrees`). Ends of
the input at the end of a list supply nothing that is not supplied without
them.

The main statement is `read_on_demand`.
-/

namespace MonkeyLang

namespace TokenSource

variable {σ τ : Type} [TokenSource σ] [TokenSource τ] {source : σ} {source' : τ} {ts : List Token}

theorem getElem?_take {i n : Nat} (h : i < n) : (take source n)[i]? = some (answer source i) := by
  induction n generalizing source i with
  | zero => exact absurd h (Nat.not_lt_zero i)
  | succ n ih =>
    cases i with
    | zero => rfl
    | succ i => exact ih (Nat.lt_of_succ_lt_succ h)

/-- The answers of a source are the tokens that it supplies, and the end of
the input from there on. -/
theorem Supplies.answer_eq (h : Supplies source ts) (i : Nat) :
    answer source i = ts.getD i .endOfInput := by
  have htake : (ts ++ List.replicate (i + 1) Token.endOfInput)[i]? = some (answer source i) := by
    rw [← h.2]
    exact getElem?_take (by omega)
  rw [List.getD_eq_getElem?_getD]
  rcases Nat.lt_or_ge i ts.length with hlt | hge
  · rw [List.getElem?_append_left hlt] at htake
    rw [htake, Option.getD_some]
  · rw [List.getElem?_append_right hge, List.getElem?_replicate, if_pos (by omega)] at htake
    rw [List.getElem?_eq_none hge, Option.getD_none]
    exact (Option.some.inj htake).symm

/-- **Sources that supply the same tokens are read alike.** -/
theorem Supplies.read_agrees (h : Supplies source ts) (h' : Supplies source' ts) :
    (read source).Agrees (read source') :=
  TokenSource.read_agrees fun i => (h.answer_eq i).trans (h'.answer_eq i).symm

theorem take_ends (m n : Nat) :
    take (List.replicate m Token.endOfInput) n = List.replicate n .endOfInput := by
  induction n generalizing m with
  | zero => rfl
  | succ n ih =>
    cases m with
    | zero => exact congrArg (_ :: ·) (ih 0)
    | succ m => exact congrArg (_ :: ·) (ih m)

/-- A list supplies its tokens up to the ends of the input behind them. -/
theorem supplies_append_ends (h : ∀ t ∈ ts, t.kind ≠ .eof) (m : Nat) :
    Supplies (ts ++ List.replicate m Token.endOfInput) ts := by
  refine ⟨h, fun n => ?_⟩
  clear h
  induction ts with
  | nil => simpa using take_ends m n
  | cons t ts ih =>
    rw [List.length_cons, Nat.add_right_comm]
    exact congrArg (t :: ·) ih

/-- A text supplies its tokens. -/
theorem supplies_ofText (text : List Char) : Supplies text (Token.ofText text) := by
  obtain ⟨lexemes, last, hcut, rfl⟩ := exists_cut text
  rw [hcut.ofText_join]
  exact hcut.supplies

end TokenSource

open TokenSource (Supplies)

/-- Ends of the input mean the same, however they are spelled. -/
theorem Token.alike_ends (literals : List String) :
    List.Forall₂ Token.Alike (literals.map (Token.mk .eof))
      (List.replicate literals.length .endOfInput) := by
  induction literals with
  | nil => exact .nil
  | cons literal literals ih => exact .cons ⟨rfl, nofun⟩ ih

/-- **A text is read as the list of its tokens is.** A text supplies its
tokens and then the end of the input for ever. The parse that cuts them off
the text as it goes on comes to the same program and the same errors as the
parse of their list, whatever ends of the input, if any, stand behind them in
the list. -/
theorem read_on_demand (text : String) :
    Supplies text.toList (Token.ofText text.toList) ∧
    ∀ literals : List String,
      (readText text).program =
          (read (Token.ofText text.toList ++ literals.map (Token.mk .eof))).program ∧
        (readText text).errors =
          (read (Token.ofText text.toList ++ literals.map (Token.mk .eof))).errors := by
  have hsupplies := TokenSource.supplies_ofText text.toList
  refine ⟨hsupplies, fun literals => ?_⟩
  have hagrees : (readText text).Agrees
      (read (Token.ofText text.toList ++ List.replicate literals.length .endOfInput)) :=
    hsupplies.read_agrees (TokenSource.supplies_append_ends hsupplies.1 _)
  obtain ⟨hprogram, herrors⟩ := read_eq_of_alike
    (List.rel_append (List.forall₂_same.2 fun t _ => Token.Alike.refl t)
      (Token.alike_ends literals))
  exact ⟨(congrArg Program.mk hagrees.statements).trans hprogram.symm,
    hagrees.errors.trans herrors.symm⟩

end MonkeyLang
