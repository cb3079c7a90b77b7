import MonkeyLang.Proofs.Folds
/-!
# Arrays as sequences

A program gets at the elements of an array by an index or by the builtins,
and either way it sees the same sequence. A `head` after some `tail`s is what
stands at that index (`Builtin.head_of_tails_gives`); what `last` and `append`
say is said at the indices that `len` gives. An array that is taken apart
with `head` and `tail` and put together with `append` has the same elements
again, which is a fold (`Fold.copying`).

The main statement is `index_and_builtins_agree`.
-/

namespace MonkeyLang

/-! ## Elements at an index -/

namespace Value

variable {id : Identity} {elements : List Value} {position : Int64}

theorem index_of_neg (h : position < 0) :
    (Value.array id elements).index (.int position) = .ok .null := by
  rw [index, elementAt, if_pos h]

theorem index_of_nonneg (h : 0 ≤ position) :
    (Value.array id elements).index (.int position) =
      .ok (elements[position.toInt.toNat]?.getD .null) := by
  have hneg : ¬ position < 0 := by
    rw [Int64.lt_iff_toInt_lt]
    exact Int.not_lt.2 (Int64.le_iff_toInt_le.1 h)
  rw [index, elementAt, if_neg hneg, List.getD_eq_getElem?_getD]

/-- The element at a position that is given as a number. -/
theorem index_of_toInt_eq {n : Nat} (h : position.toInt = n) :
    (Value.array id elements).index (.int position) = .ok (elements[n]?.getD .null) := by
  have hnonneg : 0 ≤ position := by
    rw [Int64.le_iff_toInt_le, h]
    exact Int.natCast_nonneg n
  rw [index_of_nonneg hnonneg, h, Int.toNat_natCast]

theorem index_outside (h : position < 0 ∨ elements.length ≤ position.toInt) :
    (Value.array id elements).index (.int position) = .ok .null := by
  obtain hneg | hlarge := h
  · exact index_of_neg hneg
  · obtain ⟨n, hn⟩ := Int.eq_ofNat_of_zero_le (Int.le_trans (Int.natCast_nonneg _) hlarge)
    rw [index_of_toInt_eq hn, List.getElem?_eq_none (by omega)]
    rfl

/-- The length that `len` gives is the number of elements. -/
theorem toInt_length (h : elements.length ≤ Int64.maxValue.toInt) :
    (Int64.ofNat elements.length).toInt = elements.length := by
  rw [Int64.toInt_maxValue] at h
  exact Int64.toInt_ofNat_of_lt (by omega)

/-- What stands before the end, which is nothing in an empty array. -/
theorem index_last_position (h : elements.length ≤ Int64.maxValue.toInt) :
    (Value.array id elements).index (.int (.ofNat elements.length - 1)) =
      .ok (elements[elements.length - 1]?.getD .null) := by
  cases elements with
  | nil => exact index_of_neg (by decide)
  | cons x rest =>
    have hposition : Int64.ofNat (x :: rest).length - 1 = Int64.ofNat rest.length := by
      rw [List.length_cons, Int64.ofNat_add]
      exact Int64.add_sub_cancel _ 1
    have hrest : (rest.length : Int) ≤ Int64.maxValue.toInt :=
      Int.le_trans (Int.ofNat_le.2 (Nat.le_succ _)) h
    rw [hposition, index_of_toInt_eq (toInt_length hrest)]
    rfl

/-- An element at the end does not move the ones before it. -/
theorem index_append_of_lt {made : Identity} {v : Value} (h : position.toInt < elements.length) :
    (Value.array made (elements ++ [v])).index (.int position) =
      (Value.array id elements).index (.int position) := by
  by_cases hneg : position < 0
  · rw [index_of_neg hneg, index_of_neg hneg]
  · have hnonneg : 0 ≤ position := Int64.not_lt.1 hneg
    have hlt : position.toInt.toNat < elements.length :=
      (Int.toNat_lt (Int64.le_iff_toInt_le.1 hnonneg)).2 h
    rw [index_of_nonneg hnonneg, index_of_nonneg hnonneg, List.getElem?_append_left hlt]

end Value

/-! ## What builtins give -/

/-- An evaluation comes to a value, and every scope stays as it is. -/
def Eval.Gives {ε α : Type} (x : Eval ε α) (s : Store) (a : α) : Prop :=
  ∃ s', x s = some (.ok a, s') ∧ s'.scopes = s.scopes

namespace Builtin

/-- Applies a builtin so many times, each time to what came out before. -/
def repeated (b : Builtin) : Nat → Value → Eval EvalError Value
  | 0, v => pure v
  | n + 1, v => do
    let next ← b.call [v]
    b.repeated n next

variable {id : Identity} {elements : List Value} {s : Store}

theorem call_gives {b : Builtin} {arguments : List Value} {v : Value}
    (h : b.apply arguments = .ok (.known v)) : (b.call arguments).Gives s v := by
  refine ⟨s, ?_, rfl⟩
  rw [call, h]
  rfl

theorem call_gives_array {b : Builtin} {arguments elements : List Value}
    (h : b.apply arguments = .ok (.newArray elements)) :
    ∃ id, (b.call arguments).Gives s (.array id elements) := by
  refine ⟨s.newIdentity.1, s.newIdentity.2, ?_, rfl⟩
  rw [call, h]
  rfl

/-- Each `tail` drops an element, as long as there is one. -/
theorem tails_give {n : Nat} (id : Identity) (s : Store) (h : n ≤ elements.length) :
    ∃ id', (tail.repeated n (.array id elements)).Gives s (.array id' (elements.drop n)) := by
  induction n generalizing id elements s with
  | zero => exact ⟨id, s, rfl, rfl⟩
  | succ n ih =>
    cases elements with
    | nil => exact absurd h (Nat.not_succ_le_zero n)
    | cons x rest =>
      obtain ⟨made, s₁, hcall, hscopes⟩ := call_gives_array (s := s)
        (show tail.apply [.array id (x :: rest)] = .ok (.newArray rest) from rfl)
      obtain ⟨id', s₂, hrest, hscopes'⟩ := ih made s₁ (Nat.le_of_succ_le_succ h)
      exact ⟨id', s₂, (Eval.bind_of_ok hcall).trans hrest, hscopes'.trans hscopes⟩

/-- **A `head` after some `tail`s is what stands at that index.** -/
theorem head_of_tails_gives {n : Nat} (h : n ≤ elements.length) :
    (tail.repeated n (.array id elements) >>= fun rest => head.call [rest]).Gives s
      (elements[n]?.getD .null) := by
  obtain ⟨id', s₁, htails, hscopes⟩ := tails_give id s h
  have hfirst : (elements.drop n).headD .null = elements[n]?.getD .null := by
    rw [List.headD_eq_head?_getD, List.head?_drop]
  obtain ⟨s₂, hhead, hscopes'⟩ := call_gives (s := s₁)
    (show head.apply [.array id' (elements.drop n)] = .ok (.known _) from rfl)
  rw [hfirst] at hhead
  exact ⟨s₂, (Eval.bind_of_ok htails).trans hhead, hscopes'.trans hscopes⟩

/-- **What `last` gives is what stands before the end.** -/
theorem last_agrees (h : elements.length ≤ Int64.maxValue.toInt) :
    ∃ w, (last.call [.array id elements]).Gives s w ∧
      (Value.array id elements).index (.int (.ofNat elements.length - 1)) = .ok w := by
  refine ⟨_, call_gives rfl, ?_⟩
  rw [List.getLastD_eq_getLast?, List.getLast?_eq_getElem?]
  exact Value.index_last_position h

/-- **What `append` makes is longer by one**, keeps what was there and has
the new element at the end. -/
theorem append_agrees (h : elements.length < Int64.maxValue.toInt) (v : Value) :
    ∃ b, (append.call [.array id elements, v]).Gives s b ∧
      (len.call [b]).Gives s (.int (.ofNat elements.length + 1)) ∧
      (Int64.ofNat elements.length + 1).toInt = elements.length + 1 ∧
      (∀ i < Int64.ofNat elements.length,
        b.index (.int i) = (Value.array id elements).index (.int i)) ∧
      b.index (.int (.ofNat elements.length)) = .ok v := by
  obtain ⟨made, happend⟩ := call_gives_array (s := s)
    (show append.apply [.array id elements, v] = .ok (.newArray (elements ++ [v])) from rfl)
  have hlength : (elements ++ [v]).length = elements.length + 1 := List.length_append
  have hsum : Int64.ofNat elements.length + 1 = .ofNat (elements ++ [v]).length := by
    rw [hlength]
    exact (Int64.ofNat_add _ 1).symm
  have hend := Value.toInt_length (Int.le_of_lt h)
  refine ⟨_, happend, ?_, ?_, fun i hi => Value.index_append_of_lt ?_, ?_⟩
  · rw [hsum]
    exact call_gives rfl
  · rw [hsum, Value.toInt_length (by omega), hlength]
    rfl
  · rw [← hend]
    exact Int64.lt_iff_toInt_lt.1 hi
  · rw [Value.index_of_toInt_eq hend, List.getElem?_concat_length]
    rfl

end Builtin

/-! ## Putting an array together again -/

/-- Puts the elements of the array `arr` into a new one. -/
def rebuilding : String :=
  "
let iter = fn(arr, copy) \x7b
  if (len(arr) == 0) \x7b copy \x7d else \x7b iter(tail(arr), append(copy, head(arr))) \x7d
\x7d;
iter(arr, []);
"

/-- `append(copy, head(arr))` -/
def copyStep : Expr :=
  .call (.ident "append") [.ident "copy", .call (.ident "head") [.ident "arr"]]

set_option maxRecDepth 4000 in
/-- What the text reads as. -/
theorem readText_rebuilding :
    (readText rebuilding).errors = [] ∧
      (readText rebuilding).program.statements = foldBody "copy" (.array []) copyStep := by
  unfold rebuilding
  rw [readText_ofList]
  decide +kernel

/-- Gathers the elements in an array. -/
def Fold.copying : Fold Value (List Value) where
  acc := "copy"
  step := copyStep
  encode := fun v => v
  shows ys w := ∃ id, w = .array id ys
  next ys x := ys ++ [x]
  arr_ne_acc := by decide
  iter_ne_acc := by decide
  ofName?_acc := rfl

section

variable {s : Store} {scope : ScopeId} {names : Names} {id : Identity} {elements : List Value}
  {depth : Nat}

theorem Fold.copying_stepAttains (hnames : names.LeaveBuiltins) :
    Fold.copying.StepAttains s names := by
  rintro depth inner t id x rest ys _ _ _ hknows ⟨gathered, rfl⟩
  have hcopy : ((Expr.ident "copy").eval (Value.apply depth) inner).Attains t
      fun v => ∃ id, v = .array id ys :=
    (Expr.ident_attains hknows Fold.inTurn_acc).imp fun _ h => ⟨gathered, h⟩
  exact Builtin.append_attains hknows (Fold.leaveBuiltins_inTurn hnames) hcopy
    (Fold.head_attains hnames hknows)

theorem Fold.foldl_copying (elements : List Value) :
    elements.foldl Fold.copying.next [] = elements := by
  have h : elements.foldl Fold.copying.next [] = [] ++ (elements.map fun x => [x]).flatten :=
    List.foldl_append_eq_append
  rw [h, List.nil_append, ← List.flatMap_def, List.flatMap_singleton']

/-- The program finishes wherever `arr` is the array and no builtin is
hidden. -/
theorem rebuilding_finishes (h : s.Knows scope names) (hnames : names.LeaveBuiltins)
    (harr : names "arr" = some (.array id elements)) (hlength : elements.length < Int64.size)
    (hdepth : elements.length < depth) :
    Stmt.Finishes (Value.apply depth) scope (readText rebuilding).program.statements s
      fun v t => (∃ id', v = .array id' elements) ∧
        t.lookup scope "arr" = some (.array id elements) := by
  have hbase : Store.empty.Extends s := fun id sc hsc => by cases hsc
  have hleft : names "arr" = some (.array id (elements.map Fold.copying.encode)) := by
    rw [harr, show elements.map Fold.copying.encode = elements from List.map_id elements]
  have hstart : ∀ t loop, t.Knows scope (names.set "iter" loop) →
      ((Expr.array []).eval (Value.apply depth) scope).Attains t (Fold.copying.shows []) := by
    rintro t loop -
    refine (Expr.array_attains Expr.evalAll_attains_nil).imp ?_
    rintro _ ⟨made, _, rfl, rfl⟩
    exact ⟨made, rfl⟩
  rw [readText_rebuilding.2]
  refine (Fold.copying.body_finishes hbase rfl h hnames hleft hlength hdepth hstart
    fun t loop _ => Fold.copying_stepAttains (hnames.set rfl)).imp ?_
  rintro v t ⟨hv, loop, hknows⟩
  rw [Fold.foldl_copying] at hv
  refine ⟨hv, ?_⟩
  rw [hknows.lookup, Names.set_of_ne (by decide), harr]

end

/-- **Indices and the builtins on lists describe the same sequence.** A `head`
after `i` times `tail` is what stands at the index `i`, up to the length; and
at every other index stands `null`. What `last` gives stands at the index
`len - 1`, `null` included. What `append` makes is longer by one, is the same
below `len` and has the new element there. Taking an array apart with `head`
and `tail` until its `len` is zero, and appending what comes out to an empty
one, gives the same elements again. Nothing of this touches a scope, but for
the last, which makes scopes of its own and leaves `arr` what it was. No
memory holds an array of `2 ^ 63 - 1` elements, of which the length would not
be a number behind an `append`. -/
theorem index_and_builtins_agree (id : Identity) (elements : List Value) (s : Store)
    (hlength : elements.length < Int64.maxValue.toInt) :
    let a := Value.array id elements
    let scope := (s.newScope none).1
    let start := (s.newScope none).2.bind scope "arr" a
    (∀ i : Int64, 0 ≤ i → i.toInt ≤ elements.length → ∃ w, a.index (.int i) = .ok w ∧
      (Builtin.tail.repeated i.toInt.toNat a >>= fun rest => Builtin.head.call [rest]).Gives s w) ∧
    (∀ i : Int64, i < 0 ∨ elements.length ≤ i.toInt → a.index (.int i) = .ok .null) ∧
    (∃ n : Int64, n.toInt = elements.length ∧ (Builtin.len.call [a]).Gives s (.int n) ∧
      (∃ w, (Builtin.last.call [a]).Gives s w ∧ a.index (.int (n - 1)) = .ok w) ∧
      ∀ v, ∃ b, (Builtin.append.call [a, v]).Gives s b ∧
        (Builtin.len.call [b]).Gives s (.int (n + 1)) ∧ (n + 1).toInt = elements.length + 1 ∧
        (∀ i < n, b.index (.int i) = a.index (.int i)) ∧ b.index (.int n) = .ok v) ∧
    (readText rebuilding).errors = [] ∧ ∀ depth, elements.length < depth →
      ∃ id' s', (readText rebuilding).program.run depth scope start =
          some (.array id' elements, s') ∧ s'.lookup scope "arr" = some a := by
  intro a scope start
  refine ⟨fun i hi hle => ?_, fun i hi => Value.index_outside hi, ?_, readText_rebuilding.1,
    fun depth hdepth => ?_⟩
  · exact ⟨_, Value.index_of_nonneg hi, Builtin.head_of_tails_gives (by omega)⟩
  · exact ⟨.ofNat elements.length, Value.toInt_length (Int.le_of_lt hlength),
      Builtin.call_gives rfl, Builtin.last_agrees (Int.le_of_lt hlength),
      Builtin.append_agrees hlength⟩
  · have hknows : start.Knows scope (Names.empty.set "arr" a) :=
      (Store.Knows.newScope_none s).bind _ _
    have hnames : (Names.empty.set "arr" a).LeaveBuiltins :=
      Names.LeaveBuiltins.set (fun _ => rfl) rfl
    have hsize : elements.length < Int64.size := by
      rw [Int64.toInt_maxValue] at hlength
      rw [Int64.size]
      omega
    obtain ⟨v, s', hrun, ⟨id', rfl⟩, harr⟩ :=
      rebuilding_finishes hknows hnames Names.set_self hsize hdepth
    exact ⟨id', s', Program.run_of_evalAll hrun, harr⟩

/-- `[1, "a"]` has `"a"` at `1` and nothing at `2` and at `-1`; it is what its
elements make again. -/
theorem index_and_builtins_agree_two :
    let a := Value.array ⟨0⟩ [.int 1, .string "a"]
    let scope := (Store.empty.newScope none).1
    let start := (Store.empty.newScope none).2.bind scope "arr" a
    ([.int 1, .string "a"] : List Value).length < Int64.maxValue.toInt ∧
      (Builtin.tail.repeated 1 a >>= fun rest => Builtin.head.call [rest]).Gives .empty
        (.string "a") ∧
      a.index (.int 2) = .ok .null ∧ a.index (.int (-1)) = .ok .null ∧
      ∃ id' s', (readText rebuilding).program.run 3 scope start =
          some (.array id' [.int 1, .string "a"], s') ∧ s'.lookup scope "arr" = some a := by
  intro a scope start
  have hlength : ([.int 1, .string "a"] : List Value).length < Int64.maxValue.toInt := by decide
  obtain ⟨hheads, hnull, -, -, hrebuilt⟩ := index_and_builtins_agree ⟨0⟩ _ .empty hlength
  obtain ⟨w, hindex, hgives⟩ := hheads 1 (by decide) (by decide)
  obtain rfl : Value.string "a" = w := Except.ok.inj hindex
  exact ⟨hlength, hgives, hnull 2 (.inr (by decide)), hnull (-1) (.inl (by decide)),
    hrebuilt 3 (by decide)⟩

end MonkeyLang
