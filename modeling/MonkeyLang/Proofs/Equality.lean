import MonkeyLang.Proofs.HashLookup
import MonkeyLang.Proofs.Machine.Host
/-!
# Equality is coherent

What `==` looks at differs from type to type: numbers and strings are
compared by what they are, builtins by which they are, and arrays, hashes and
functions by their identity. All this is the mark of a value, and values are
equal just if they have the same mark (`Value.equals_iff`). A signal has none
and is equal to nothing.

A mark says nothing of what an array, a hash or a function holds. But
wherever values are within reach of a program or its host, whatever is
identical is equal, and so values with the same mark are the same value. The
main statement is `equality_is_coherent`.
-/

namespace MonkeyLang

/-! ## Marks -/

/-- What `==` looks at in a value. -/
inductive Mark where
  | int (value : Int64)
  | bool (value : Bool)
  | string (value : String)
  | null
  | array (id : Identity)
  | hash (id : Identity)
  | function (id : Identity)
  | builtin (builtin : Builtin)

namespace Value

variable {a b c : Value}

/-- The mark of a value; signals have none. -/
def mark? : Value → Option Mark
  | .int n => some (.int n)
  | .bool b => some (.bool b)
  | .string text => some (.string text)
  | .null => some .null
  | .array id _ => some (.array id)
  | .hash id _ => some (.hash id)
  | .function id _ => some (.function id)
  | .builtin b => some (.builtin b)
  | .returned _ => none
  | .error _ => none

/-- All values but signals have a mark. -/
theorem isSome_mark? (h : a.isSignal = false) : a.mark?.isSome := by
  cases a <;> first | rfl | cases h

/-- **Values are equal just if they have the same mark.** -/
theorem equals_iff : a.equals b = true ↔ a.mark?.isSome ∧ a.mark? = b.mark? := by
  cases a <;> cases b <;>
    simp [equals, BinaryOp.apply, BinaryOp.applyInt, BinaryOp.applyString, type, identical, mark?]

theorem equals_self (h : a.isSignal = false) : a.equals a = true :=
  equals_iff.2 ⟨isSome_mark? h, rfl⟩

theorem equals_symm (h : a.equals b = true) : b.equals a = true := by
  obtain ⟨hsome, hmark⟩ := equals_iff.1 h
  exact equals_iff.2 ⟨hmark ▸ hsome, hmark.symm⟩

theorem equals_comm (a b : Value) : a.equals b = b.equals a :=
  Bool.eq_iff_iff.2 ⟨equals_symm, equals_symm⟩

/-- Equality of values is that of their marks, and so it is transitive. -/
theorem equals_trans (h : a.equals b = true) (h' : b.equals c = true) : a.equals c = true := by
  obtain ⟨hsome, hmark⟩ := equals_iff.1 h
  exact equals_iff.2 ⟨hsome, hmark.trans (equals_iff.1 h').2⟩

/-- Equal values are identical if they are not the same number or string. -/
theorem eq_or_identical_of_equals (h : a.equals b = true) : a = b ∨ a.identical b = true := by
  obtain ⟨hsome, hmark⟩ := equals_iff.1 h
  cases a <;> cases b <;> simp_all [mark?, identical]

end Value

/-! ## Outcomes -/

/-- What a comparison comes to: an answer between values of one type, and an
error between values of two. -/
def comparison (op : BinaryOp) (a b : Value) (answer : Bool) : Except EvalError Value :=
  if a.type = b.type then .ok (.bool answer) else .error (.typeMismatch a.type op b.type)

variable {a b v : Value} {op : BinaryOp} {answer : Bool} {e : EvalError}

/-- Values of one type are compared, and the answer is a boolean. -/
theorem comparison_eq_ok_iff :
    comparison op a b answer = .ok v ↔ a.type = b.type ∧ v = .bool answer := by
  unfold comparison
  split <;> simp_all [eq_comm]

theorem comparison_eq_error_iff :
    comparison op a b answer = .error e ↔
      a.type ≠ b.type ∧ e = .typeMismatch a.type op b.type := by
  unfold comparison
  split <;> simp_all [eq_comm]

namespace BinaryOp

theorem eq_apply (a b : Value) : eq.apply a b = comparison .eq a b (a.equals b) := by
  cases a <;> cases b <;>
    simp [comparison, Value.equals, apply, applyInt, applyString, Value.type]

theorem ne_apply (a b : Value) : ne.apply a b = comparison .ne a b !a.equals b := by
  cases a <;> cases b <;>
    simp [comparison, Value.equals, apply, applyInt, applyString, Value.type, bne]

theorem eq_apply_eq_true_iff : eq.apply a b = .ok (.bool true) ↔ a.equals b = true := by
  unfold Value.equals
  split
  · next answer h => rw [h]; simp
  · next h => exact ⟨fun htrue => absurd htrue (h true), nofun⟩

end BinaryOp

/-! ## Equality -/

open Machine (Reachable InReach)

/-- **Within reach, equal values are the same.** -/
theorem Machine.Reachable.eq_of_equals {kept : List Value} {σ : Machine.State}
    (h : Reachable kept σ) (ha : InReach kept σ a) (hb : InReach kept σ b)
    (hequals : a.equals b = true) : a = b := by
  obtain heq | hidentical := Value.eq_or_identical_of_equals hequals
  · exact heq
  · exact h.eq_of_identical ha hb hidentical

/-- **Equality is coherent.** At any moment of whatever a host runs, let two
values be within reach, and the first of them be no signal. Then `==` is an
error just between values of different types, and has an answer between all
others. A value equals itself; two values are equal, or of different types,
either way round; and what is equal to an equal value is equal. `!=` is an
error where `==` is one, and has the opposite answer everywhere else. Equal
values are one and the same, so they count alike as true or false, have the
same text, and are the same key or none. -/
theorem equality_is_coherent {kept : List Value} {σ : Machine.State} (hσ : Reachable kept σ)
    {a b : Value} (ha : InReach kept σ a) (hsignal : a.isSignal = false) (hb : InReach kept σ b)
    (c : Value) :
    (BinaryOp.eq.apply a b = .error (.typeMismatch a.type .eq b.type) ↔ a.type ≠ b.type) ∧
    (a.type = b.type → ∃ answer, BinaryOp.eq.apply a b = .ok (.bool answer)) ∧
    BinaryOp.eq.apply a a = .ok (.bool true) ∧
    (∀ v, BinaryOp.eq.apply a b = .ok v ↔ BinaryOp.eq.apply b a = .ok v) ∧
    (∀ t u, BinaryOp.eq.apply a b = .error (.typeMismatch t .eq u) ↔
      BinaryOp.eq.apply b a = .error (.typeMismatch u .eq t)) ∧
    (BinaryOp.eq.apply a b = .ok (.bool true) → BinaryOp.eq.apply b c = .ok (.bool true) →
      BinaryOp.eq.apply a c = .ok (.bool true)) ∧
    (∀ answer, BinaryOp.ne.apply a b = .ok (.bool answer) ↔
      BinaryOp.eq.apply a b = .ok (.bool !answer)) ∧
    (∀ t u, BinaryOp.ne.apply a b = .error (.typeMismatch t .ne u) ↔
      BinaryOp.eq.apply a b = .error (.typeMismatch t .eq u)) ∧
    (BinaryOp.eq.apply a b = .ok (.bool true) ↔ a = b) ∧
    (BinaryOp.eq.apply a b = .ok (.bool true) →
      a.isTruthy = b.isTruthy ∧ a.inspect = b.inspect ∧ a.hashKey? = b.hashKey?) := by
  have hself : BinaryOp.eq.apply a a = .ok (.bool true) :=
    BinaryOp.eq_apply_eq_true_iff.2 (Value.equals_self hsignal)
  have hsame (h : BinaryOp.eq.apply a b = .ok (.bool true)) : a = b :=
    hσ.eq_of_equals ha hb (BinaryOp.eq_apply_eq_true_iff.1 h)
  refine ⟨?_, fun htype => ⟨a.equals b, ?_⟩, hself, fun v => ?_, fun t u => ?_, ?_,
    fun answer => ?_, fun t u => ?_, ⟨hsame, fun h => h ▸ hself⟩, fun h => ?_⟩
  · rw [BinaryOp.eq_apply, comparison_eq_error_iff]
    exact ⟨And.left, fun htype => ⟨htype, rfl⟩⟩
  · rw [BinaryOp.eq_apply, comparison_eq_ok_iff]
    exact ⟨htype, rfl⟩
  · rw [BinaryOp.eq_apply, BinaryOp.eq_apply, comparison_eq_ok_iff, comparison_eq_ok_iff,
      Value.equals_comm, eq_comm (a := a.type)]
  · rw [BinaryOp.eq_apply, BinaryOp.eq_apply, comparison_eq_error_iff, comparison_eq_error_iff]
    simp only [EvalError.typeMismatch.injEq, true_and, ne_comm (a := a.type), and_comm]
  · simp only [BinaryOp.eq_apply_eq_true_iff]
    exact Value.equals_trans
  · rw [BinaryOp.eq_apply, BinaryOp.ne_apply, comparison_eq_ok_iff, comparison_eq_ok_iff]
    simp only [Value.bool.injEq, Bool.not_eq_eq_eq_not]
  · rw [BinaryOp.eq_apply, BinaryOp.ne_apply, comparison_eq_error_iff, comparison_eq_error_iff]
    simp only [EvalError.typeMismatch.injEq, true_and]
  · rw [hsame h]
    exact ⟨rfl, rfl, rfl⟩

/-- In `[1] == [1]`, at the moment before the arrays are compared, each of
them equals itself and not the other one, and comparing an array with its
element is an error. -/
theorem equality_of_arrays_alike :
    let x : Value := .array ⟨0⟩ [.int 1]
    let y : Value := .array ⟨1⟩ [.int 1]
    let σ : Machine.State :=
      ⟨.value y, [.right .eq x, .statement []], ⟨0⟩, ⟨#[⟨.empty, none⟩], 2⟩⟩
    (Reachable [] σ ∧ InReach [] σ x ∧ x.isSignal = false ∧ InReach [] σ y ∧
      InReach [] σ (.int 1)) ∧
    BinaryOp.eq.apply x x = .ok (.bool true) ∧
    BinaryOp.eq.apply x y = .ok (.bool false) ∧ BinaryOp.ne.apply x y = .ok (.bool true) ∧
    BinaryOp.eq.apply (.int 1) x = .error (.typeMismatch .integer .eq .array) := by
  intro x y σ
  let literal : Expr := .array [.int 1]
  have hsteps : Machine.Steps 18 (.before (.program ⟨[.expr (.binary .eq literal literal)]⟩) ⟨0⟩
      (Store.empty.newScope none).2) σ :=
    .head rfl <| .head rfl <| .head rfl <| .head rfl <| .head rfl <| .head rfl <| .head rfl <|
      .head rfl <| .head rfl <| .head rfl <| .head rfl <| .head rfl <| .head rfl <| .head rfl <|
        .head rfl <| .head rfl <| .head rfl <| .head rfl (.refl _)
  have hσ : Reachable [] σ := ⟨_, _, _, 18, Hosted.start.scope none, hsteps⟩
  have hx : InReach [] σ x := ⟨x, .inr (.inr (.inl ⟨_, .head _, .head _⟩)), .refl x⟩
  have hy : InReach [] σ y := ⟨y, .inr (.inl (.head _)), .refl y⟩
  have hone : InReach [] σ (.int 1) := ⟨y, .inr (.inl (.head _)), .element (.head _) (.refl _)⟩
  obtain ⟨-, hanswer, hself, -, -, -, hopposite, -, hsame, -⟩ :=
    equality_is_coherent hσ hx rfl hy .null
  obtain ⟨hmismatch, -⟩ := equality_is_coherent hσ hone rfl hx .null
  have hdifferent : BinaryOp.eq.apply x y = .ok (.bool false) := by
    obtain ⟨answer, hanswer⟩ := hanswer rfl
    cases answer with
    | false => exact hanswer
    | true => exact absurd (hsame.1 hanswer) (by simp [x, y])
  exact ⟨⟨hσ, hx, rfl, hy, hone⟩, hself, hdifferent, (hopposite true).2 hdifferent,
    hmismatch.2 (by decide)⟩

end MonkeyLang
