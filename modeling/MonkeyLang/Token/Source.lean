import MonkeyLang.Token
/-!
# Sources of tokens

A source is asked for one token at a time and never runs dry: once its
input is used up it answers with the end of the input for ever. `remaining`
bounds the requests until then, and the two laws say that every request
lowers it and that nothing is left when it is zero.

A list of tokens is a source; `TokenSource.drain` is the way back, the
tokens of a source up to its first end of input.
-/

namespace MonkeyLang

/-- A supplier of tokens, one per request. -/
class TokenSource (σ : Type) where
  /-- The next token, and the source after it. -/
  next : σ → Token × σ
  /-- A bound on the number of requests before the input is used up. -/
  remaining : σ → Nat
  /-- Every request uses up some of the input, if there is any. -/
  remaining_next_le (source : σ) : remaining (next source).2 ≤ remaining source - 1
  /-- A source that is used up answers with the end of the input. -/
  kind_next_of_remaining_eq_zero (source : σ) :
    remaining source = 0 → (next source).1.kind = .eof

namespace TokenSource

variable {σ : Type} [TokenSource σ]

/-- The first `count` tokens that a source answers with. -/
def take (source : σ) : Nat → List Token
  | 0 => []
  | count + 1 => (next source).1 :: take (next source).2 count

/-- Something remains before a request that is not answered with the end of
the input. -/
theorem remaining_next_lt {source : σ} (h : (next source).1.kind ≠ .eof) :
    remaining (next source).2 < remaining source := by
  have hle := remaining_next_le source
  have hpos : remaining source ≠ 0 := fun h0 => h (kind_next_of_remaining_eq_zero source h0)
  omega

/-- The tokens of a source before its first end of input, and the source
after that. -/
def drain (source : σ) : List Token × σ :=
  if _ : (next source).1.kind = .eof then ([], (next source).2)
  else
    let (tokens, rest) := drain (next source).2
    ((next source).1 :: tokens, rest)
termination_by remaining source
decreasing_by exact remaining_next_lt ‹_›

end TokenSource

/-- A list answers with its tokens in order, and then with the end of the
input. -/
instance : TokenSource (List Token) where
  next
    | [] => (.endOfInput, [])
    | token :: rest => (token, rest)
  remaining := List.length
  remaining_next_le tokens := by cases tokens <;> simp
  kind_next_of_remaining_eq_zero tokens h := by cases tokens <;> simp_all [Token.endOfInput]

end MonkeyLang
