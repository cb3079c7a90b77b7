import Mathlib.Algebra.Ring.Int.Defs
import MonkeyLang.Parser.Program
import MonkeyLang.Proofs.Eval.Attains
/-!
# Programs that fold

The language has no loops. A program that goes through an array defines a
function `iter` of the array that is left and of what was gathered so far,
and has it call itself with the `tail` of the array until its `len` is
zero. `loopBody` is the body of such a function, for any step, and what a
call of it comes to is the fold of the step over the elements
(`loop_attains`, by induction on them).

`map` and `reduce` are two functions that are written in this way; they do
what they are called, for every function that they are given
(`map_attains`, `reduce_attains`). The main statement,
`doubled_and_summed`, is about a whole program, which doubles the integers
of an array with the one and adds them up with the other.
-/

namespace MonkeyLang

/-! ## Builtins -/

/-- No binding hides a builtin. -/
def Names.LeaveBuiltins (names : Names) : Prop := ∀ b : Builtin, names b.name = none

theorem Names.LeaveBuiltins.set {names : Names} {name : String} {v : Value}
    (h : names.LeaveBuiltins) (hname : Builtin.ofName? name = none) :
    (names.set name v).LeaveBuiltins := by
  intro b
  have hne : b.name ≠ name := by
    rintro rfl
    cases b <;> cases hname
  rw [Names.set_apply, if_neg hne, h b]

/-- The number of elements of an array, in 64 bits, is zero when there are
none. -/
theorem Builtin.ofNat_beq_zero {n : Nat} (hn : n < Int64.size) :
    (Int64.ofNat n == 0) = decide (n = 0) := by
  rw [Bool.eq_iff_iff, beq_iff_eq, decide_eq_true_iff]
  constructor
  · intro h
    have hmod : (Int64.ofNat n).toBitVec.toNat = n := Nat.mod_eq_of_lt hn
    rw [← hmod, h]
    rfl
  · rintro rfl
    rfl

section Builtins

variable {scope : ScopeId} {s : Store} {names : Names} {depth : Nat} {e e' : Expr}

theorem Builtin.ident_attains (b : Builtin) {apply : Applier} (h : s.Knows scope names)
    (hnames : names.LeaveBuiltins) :
    ((Expr.ident b.name).eval apply scope).Attains s (· = .builtin b) :=
  Expr.ident_attains_builtin h (hnames b) (by cases b <;> rfl)

theorem Builtin.head_attains {id : Identity} {x : Value} {elements : List Value}
    (h : s.Knows scope names) (hnames : names.LeaveBuiltins)
    (he : (e.eval (Value.apply depth) scope).Attains s (· = .array id (x :: elements))) :
    ((Expr.call (.ident "head") [e]).eval (Value.apply depth) scope).Attains s (· = x) := by
  refine Expr.call_attains_one (Builtin.ident_attains .head h hnames) he ?_
  rintro _ rfl
  exact Builtin.apply_attains rfl

/-- `len(e) == 0` -/
theorem Builtin.len_eq_zero_attains {id : Identity} {elements : List Value}
    (h : s.Knows scope names) (hnames : names.LeaveBuiltins) (hlength : elements.length < Int64.size)
    (he : (e.eval (Value.apply depth) scope).Attains s (· = .array id elements)) :
    ((Expr.binary .eq (.call (.ident "len") [e]) (.int 0)).eval
      (Value.apply depth) scope).Attains s (· = .bool (decide (elements.length = 0))) := by
  have hlen : ((Expr.call (.ident "len") [e]).eval (Value.apply depth) scope).Attains s
      (· = .int (.ofNat elements.length)) := by
    refine Expr.call_attains_one (Builtin.ident_attains .len h hnames) he ?_
    rintro _ rfl
    exact Builtin.apply_attains rfl
  refine Expr.binary_attains hlen Expr.int_attains ?_
  rw [← Builtin.ofNat_beq_zero hlength]
  rfl

theorem Builtin.tail_attains {id : Identity} {x : Value} {elements : List Value}
    (h : s.Knows scope names) (hnames : names.LeaveBuiltins)
    (he : (e.eval (Value.apply depth) scope).Attains s (· = .array id (x :: elements))) :
    ((Expr.call (.ident "tail") [e]).eval (Value.apply depth) scope).Attains s
      fun v => ∃ id, v = .array id elements := by
  refine Expr.call_attains_one (Builtin.ident_attains .tail h hnames) he ?_
  rintro _ rfl
  exact Builtin.apply_attains_array rfl

theorem Builtin.append_attains {x : Value} {elements : List Value} (h : s.Knows scope names)
    (hnames : names.LeaveBuiltins)
    (he : (e.eval (Value.apply depth) scope).Attains s fun v => ∃ id, v = .array id elements)
    (he' : (e'.eval (Value.apply depth) scope).Attains s (· = x)) :
    ((Expr.call (.ident "append") [e, e']).eval (Value.apply depth) scope).Attains s
      fun v => ∃ id, v = .array id (elements ++ [x]) := by
  refine Expr.call_attains_two (Builtin.ident_attains .append h hnames) he he' ?_
  rintro _ _ ⟨id, rfl⟩ rfl
  exact Builtin.apply_attains_array rfl

end Builtins

/-! ## The loop -/

/-- `if (len(arr) == 0) { acc } else { iter(tail(arr), step) }` -/
def loopBody (acc : String) (step : Expr) : List Stmt :=
  [.expr (.cond (.binary .eq (.call (.ident "len") [.ident "arr"]) (.int 0))
    [.expr (.ident acc)]
    (some [.expr (.call (.ident "iter") [.call (.ident "tail") [.ident "arr"], step])]))]

/-- `let iter = fn(arr, acc) { .. }; iter(arr, start);` -/
def foldBody (acc : String) (start step : Expr) : List Stmt :=
  [.bind "iter" (.function ["arr", acc] (loopBody acc step)),
    .expr (.call (.ident "iter") [.ident "arr", start])]

/-- A way to go through an array: the name for what was gathered, and what is
evaluated for each element; then what the elements stand for, what the
gathered values stand for, and what is gathered next. -/
structure Fold (α σ : Type) where
  acc : String
  step : Expr
  encode : α → Value
  shows : σ → Value → Prop
  next : σ → α → σ
  arr_ne_acc : "arr" ≠ acc
  iter_ne_acc : "iter" ≠ acc
  ofName?_acc : Builtin.ofName? acc = none

namespace Fold

variable {α σ : Type} {F : Fold α σ} {scope : ScopeId} {s : Store} {names : Names}
  {made id : Identity} {left w : Value} {depth : Nat} {gathered : σ} {xs : List α}

/-- The function `iter`. -/
def loop (F : Fold α σ) (scope : ScopeId) : Closure :=
  ⟨["arr", F.acc], loopBody F.acc F.step, scope⟩

/-- What is known in a turn: the array that is left, and what was gathered. -/
def inTurn (F : Fold α σ) (names : Names) (left gathered : Value) : Names :=
  (names.set "arr" left).set F.acc gathered

theorem inTurn_arr : F.inTurn names left w "arr" = some left := by
  simp [inTurn, F.arr_ne_acc]

theorem inTurn_acc : F.inTurn names left w F.acc = some w := Names.set_self

theorem inTurn_of_ne {name : String} (harr : name ≠ "arr") (hacc : name ≠ F.acc) :
    F.inTurn names left w name = names name := by
  simp [inTurn, harr, hacc]

theorem leaveBuiltins_inTurn (h : names.LeaveBuiltins) :
    (F.inTurn names left w).LeaveBuiltins :=
  (h.set rfl).set F.ofName?_acc

/-- Where an array is left and something was gathered, the step comes to what
is gathered after the first element. -/
def StepAttains (F : Fold α σ) (s : Store) (names : Names) : Prop :=
  ∀ (depth : Nat) (scope : ScopeId) (t : Store) (id : Identity) (x : α) (rest : List Value)
    (gathered : σ) (w : Value), 0 < depth → s.Extends t →
    t.Knows scope (F.inTurn names (.array id (F.encode x :: rest)) w) → F.shows gathered w →
    (F.step.eval (Value.apply depth) scope).Attains t (F.shows (F.next gathered x))

/-- `head(arr)` -/
theorem head_attains {x : Value} {rest : List Value} (hnames : names.LeaveBuiltins)
    (h : s.Knows scope (F.inTurn names (.array id (x :: rest)) w)) :
    ((Expr.call (.ident "head") [.ident "arr"]).eval (Value.apply depth) scope).Attains s
      (· = x) :=
  Builtin.head_attains h (leaveBuiltins_inTurn hnames) (Expr.ident_attains h inTurn_arr)

/-- One turn of the loop gives back what was gathered, or goes on. -/
theorem turn_attains {elements : List Value} {good : Value → Prop} (h : s.Knows scope names)
    (hnames : names.LeaveBuiltins) (hlength : elements.length < Int64.size)
    (hend : elements = [] → good w)
    (hgo : ∀ inner t, elements ≠ [] → s.Extends t →
      t.Knows inner (F.inTurn names (.array id elements) w) →
      ((Expr.call (.ident "iter") [.call (.ident "tail") [.ident "arr"], F.step]).eval
        (Value.apply depth) inner).Attains t good) :
    (Value.apply (depth + 1) (.function made (F.loop scope)) [.array id elements, w]).Attains s
      good := by
  refine Value.apply_attains_expr h rfl fun inner t ht
    (hknows : t.Knows inner (F.inTurn names (.array id elements) w)) => ?_
  have hleft : ((Expr.ident "arr").eval (Value.apply depth) inner).Attains t
      (· = .array id elements) := Expr.ident_attains hknows inTurn_arr
  have hempty := Builtin.len_eq_zero_attains hknows (leaveBuiltins_inTurn hnames) hlength hleft
  refine Expr.cond_attains hempty (fun htrue => ?_) fun hfalse => ?_
  · have helements : elements = [] := by
      cases elements with
      | nil => rfl
      | cons => cases htrue
    have hgathered : ((Expr.ident F.acc).eval (Value.apply depth) inner).Attains t (· = w) :=
      Expr.ident_attains hknows inTurn_acc
    exact hgathered.imp fun v hv => hv ▸ hend helements
  · have helements : elements ≠ [] := by
      rintro rfl
      cases hfalse
    exact hgo inner t helements ht hknows

/-- **The loop is a fold.** Each turn looks `iter` up anew, in the scope in
which the function was made, and finds the same function. -/
theorem loop_attains (h : s.Knows scope names)
    (hiter : names "iter" = some (.function made (F.loop scope))) (hnames : names.LeaveBuiltins)
    (hstep : F.StepAttains s names) (hlength : xs.length < Int64.size) (hdepth : xs.length < depth)
    (hw : F.shows gathered w) :
    (Value.apply depth (.function made (F.loop scope))
      [.array id (xs.map F.encode), w]).Attains s (F.shows (xs.foldl F.next gathered)) := by
  induction xs generalizing gathered w id depth with
  | nil =>
    obtain ⟨depth, rfl⟩ := Nat.exists_eq_succ_of_ne_zero (Nat.ne_zero_of_lt hdepth)
    exact turn_attains h hnames hlength (fun _ => hw) fun _ _ hne => absurd rfl hne
  | cons x xs ih =>
    rw [List.length_cons] at hlength hdepth
    obtain ⟨depth, rfl⟩ := Nat.exists_eq_succ_of_ne_zero (Nat.ne_zero_of_lt hdepth)
    refine turn_attains h hnames (by simpa using hlength) (fun hnil => by cases hnil) ?_
    intro inner t _ ht hknows
    have hloop : ((Expr.ident "iter").eval (Value.apply depth) inner).Attains t
        (· = .function made (F.loop scope)) :=
      Expr.ident_attains hknows ((inTurn_of_ne (by decide) F.iter_ne_acc).trans hiter)
    have hleft : ((Expr.ident "arr").eval (Value.apply depth) inner).Attains t
        (· = .array id (F.encode x :: xs.map F.encode)) := Expr.ident_attains hknows inTurn_arr
    have htail := Builtin.tail_attains hknows (leaveBuiltins_inTurn hnames) hleft
    have hnext := hstep depth inner t id x (xs.map F.encode) gathered w (by omega) ht hknows hw
    refine Expr.call_attains_two hloop htail hnext ?_
    rintro _ v ⟨id, rfl⟩ hv
    exact (ih (by omega) (by omega) hv).mono ht

/-- **A function that makes the loop and starts it** comes to the fold. Its
scope knows what it knew, and the loop. -/
theorem body_finishes (F : Fold α σ) {base : Store} {start : Expr} (hbase : base.Extends s)
    (hfresh : base.scope? scope = none) (h : s.Knows scope names) (hnames : names.LeaveBuiltins)
    (hleft : names "arr" = some (.array id (xs.map F.encode))) (hlength : xs.length < Int64.size)
    (hdepth : xs.length < depth)
    (hstart : ∀ t loop, t.Knows scope (names.set "iter" loop) →
      (start.eval (Value.apply depth) scope).Attains t (F.shows gathered))
    (hstep : ∀ t loop, base.Extends t → F.StepAttains t (names.set "iter" loop)) :
    Stmt.Finishes (Value.apply depth) scope (foldBody F.acc start F.step) s
      fun v t => F.shows (xs.foldl F.next gathered) v ∧
        ∃ loop, t.Knows scope (names.set "iter" loop) := by
  refine Stmt.Finishes.of_bind hbase hfresh h Expr.function_attains ?_
  rintro _ t ⟨made, rfl⟩ ht hknows
  have hiter : ((Expr.ident "iter").eval (Value.apply depth) scope).Attains t
      (· = .function made (F.loop scope)) := Expr.ident_attains hknows Names.set_self
  have harray : ((Expr.ident "arr").eval (Value.apply depth) scope).Attains t
      (· = .array id (xs.map F.encode)) := Expr.ident_attains hknows (by simpa using hleft)
  refine Stmt.Finishes.of_expr (Expr.call_attains_two hiter harray (hstart t _ hknows) ?_)
    fun v t' ht' hv => ⟨hv, _, hknows.mono ht'⟩
  rintro _ w rfl hw
  exact loop_attains hknows Names.set_self (hnames.set rfl) (hstep t _ ht) hlength hdepth hw

end Fold

/-! ## `map` and `reduce` -/

/-- `append(acc, f(head(arr)))` -/
def mapStep : Expr :=
  .call (.ident "append") [.ident "acc", .call (.ident "f") [.call (.ident "head") [.ident "arr"]]]

/-- `f(result, head(arr))` -/
def reduceStep : Expr :=
  .call (.ident "f") [.ident "result", .call (.ident "head") [.ident "arr"]]

section MapReduce

variable {α β : Type} {encode : α → Value} {encode' : β → Value} {scope : ScopeId} {s : Store}
  {names : Names} {f : Value} {made id : Identity} {depth : Nat} {xs : List α}

/-- Gathers the images of the elements in an array. -/
def Fold.mapping (encode : α → Value) (encode' : β → Value) (g : α → β) : Fold α (List β) where
  acc := "acc"
  step := mapStep
  encode := encode
  shows ys w := ∃ id, w = .array id (ys.map encode')
  next ys x := ys ++ [g x]
  arr_ne_acc := by decide
  iter_ne_acc := by decide
  ofName?_acc := rfl

/-- Gathers a single result. -/
def Fold.reducing (encode : α → Value) (encode' : β → Value) (g : β → α → β) : Fold α β where
  acc := "result"
  step := reduceStep
  encode := encode
  shows y w := w = encode' y
  next := g
  arr_ne_acc := by decide
  iter_ne_acc := by decide
  ofName?_acc := rfl

/-- Calls of a value with an element come to its image. -/
def Value.Maps (f : Value) (s : Store) (encode : α → Value) (encode' : β → Value) (g : α → β) :
    Prop :=
  ∀ depth x, 0 < depth → (Value.apply depth f [encode x]).Attains s (· = encode' (g x))

/-- Calls of a value with a result so far and an element come to the next
result. -/
def Value.Combines (f : Value) (s : Store) (encode : α → Value) (encode' : β → Value)
    (g : β → α → β) : Prop :=
  ∀ depth y x, 0 < depth →
    (Value.apply depth f [encode' y, encode x]).Attains s (· = encode' (g y x))

theorem Fold.mapping_stepAttains {g : α → β} (hnames : names.LeaveBuiltins)
    (hf : names "f" = some f) (hmaps : f.Maps s encode encode' g) :
    (Fold.mapping encode encode' g).StepAttains s names := by
  rintro depth inner t id x rest ys _ hdepth ht hknows ⟨gathered, rfl⟩
  have hfun : ((Expr.ident "f").eval (Value.apply depth) inner).Attains t (· = f) :=
    Expr.ident_attains hknows
      ((Fold.inTurn_of_ne (by decide) (show "f" ≠ "acc" by decide)).trans hf)
  have himage : ((Expr.call (.ident "f") [.call (.ident "head") [.ident "arr"]]).eval
      (Value.apply depth) inner).Attains t (· = encode' (g x)) := by
    refine Expr.call_attains_one hfun (Fold.head_attains hnames hknows) ?_
    rintro _ rfl
    exact (hmaps depth x hdepth).mono ht
  have hacc : ((Expr.ident "acc").eval (Value.apply depth) inner).Attains t
      fun v => ∃ id, v = .array id (ys.map encode') :=
    (Expr.ident_attains hknows Fold.inTurn_acc).imp fun _ h => ⟨gathered, h⟩
  have helements : (ys ++ [g x]).map encode' = ys.map encode' ++ [encode' (g x)] := List.map_append
  have happend := Builtin.append_attains hknows (Fold.leaveBuiltins_inTurn hnames) hacc himage
  rw [← helements] at happend
  exact happend

theorem Fold.reducing_stepAttains {g : β → α → β} (hnames : names.LeaveBuiltins)
    (hf : names "f" = some f) (hcombines : f.Combines s encode encode' g) :
    (Fold.reducing encode encode' g).StepAttains s names := by
  rintro depth inner t id x rest y _ hdepth ht hknows rfl
  have hfun : ((Expr.ident "f").eval (Value.apply depth) inner).Attains t (· = f) :=
    Expr.ident_attains hknows
      ((Fold.inTurn_of_ne (by decide) (show "f" ≠ "result" by decide)).trans hf)
  have hresult : ((Expr.ident "result").eval (Value.apply depth) inner).Attains t
      (· = encode' y) := Expr.ident_attains hknows Fold.inTurn_acc
  refine Expr.call_attains_two hfun hresult (Fold.head_attains hnames hknows) ?_
  rintro _ _ rfl rfl
  exact (hcombines depth y x hdepth).mono ht

/-- `fn(arr, f) { let iter = ..; iter(arr, []); }` -/
def mapClosure (scope : ScopeId) : Closure :=
  ⟨["arr", "f"], foldBody "acc" (.array []) mapStep, scope⟩

/-- `fn(arr, initial, f) { let iter = ..; iter(arr, initial); }` -/
def reduceClosure (scope : ScopeId) : Closure :=
  ⟨["arr", "initial", "f"], foldBody "result" (.ident "initial") reduceStep, scope⟩

/-- **`map` maps**, whatever the function. -/
theorem map_attains {g : α → β} (h : s.Knows scope names) (hnames : names.LeaveBuiltins)
    (hmaps : f.Maps s encode encode' g) (hlength : xs.length < Int64.size)
    (hdepth : xs.length + 2 ≤ depth) :
    (Value.apply depth (.function made (mapClosure scope)) [.array id (xs.map encode), f]).Attains s
      fun v => ∃ id, v = .array id ((xs.map g).map encode') := by
  obtain ⟨depth, rfl⟩ := Nat.exists_eq_add_of_le' (Nat.le_of_add_left_le hdepth)
  have hgathered : xs.map g = xs.foldl (fun ys x => ys ++ [g x]) [] := by
    rw [List.foldl_append_eq_append, List.nil_append, ← List.flatMap_def]
    exact List.map_eq_flatMap
  rw [hgathered]
  refine Value.apply_attains h rfl fun inner t hfresh ht
    (hknows : t.Knows inner ((names.set "arr" (.array id (xs.map encode))).set "f" f)) => ?_
  have hleft : ((names.set "arr" (.array id (xs.map encode))).set "f" f) "arr" =
      some (.array id (xs.map encode)) := by simp
  refine ((Fold.mapping encode encode' g).body_finishes ht hfresh hknows
    ((hnames.set rfl).set rfl) hleft hlength (by omega) (fun t' loop _ => ?_)
    fun t' loop ht' => ?_).imp fun _ _ hv => hv.1
  · refine (Expr.array_attains Expr.evalAll_attains_nil).imp ?_
    rintro _ ⟨id, _, rfl, rfl⟩
    exact ⟨id, rfl⟩
  · refine Fold.mapping_stepAttains (f := f) (((hnames.set rfl).set rfl).set rfl) (by simp) ?_
    exact fun depth x hdepth => (hmaps depth x hdepth).mono ht'

/-- **`reduce` reduces** from the left, whatever the function. -/
theorem reduce_attains {g : β → α → β} {initial : β} (h : s.Knows scope names)
    (hnames : names.LeaveBuiltins) (hcombines : f.Combines s encode encode' g)
    (hlength : xs.length < Int64.size) (hdepth : xs.length + 2 ≤ depth) :
    (Value.apply depth (.function made (reduceClosure scope))
      [.array id (xs.map encode), encode' initial, f]).Attains s
      (· = encode' (xs.foldl g initial)) := by
  obtain ⟨depth, rfl⟩ := Nat.exists_eq_add_of_le' (Nat.le_of_add_left_le hdepth)
  refine Value.apply_attains h rfl fun inner t hfresh ht
    (hknows : t.Knows inner (((names.set "arr" (.array id (xs.map encode))).set "initial"
      (encode' initial)).set "f" f)) => ?_
  have hleft : (((names.set "arr" (.array id (xs.map encode))).set "initial"
      (encode' initial)).set "f" f) "arr" = some (.array id (xs.map encode)) := by simp
  refine ((Fold.reducing encode encode' g).body_finishes ht hfresh hknows
    (((hnames.set rfl).set rfl).set rfl) hleft hlength (by omega)
    (fun t' loop hknows' => Expr.ident_attains hknows' (by simp))
    fun t' loop ht' => ?_).imp fun _ _ hv => hv.1
  refine Fold.reducing_stepAttains (f := f) ((((hnames.set rfl).set rfl).set rfl).set rfl)
    (by simp) ?_
  exact fun depth y x hdepth => (hcombines depth y x hdepth).mono ht'

end MapReduce

/-! ## Doubled and summed -/

/-- Doubles the elements of the array `xs`, and adds up what comes out. -/
def doubledAndSummed : String :=
  "
let map = fn(arr, f) \x7b
  let iter = fn(arr, acc) \x7b
    if (len(arr) == 0) \x7b acc \x7d else \x7b iter(tail(arr), append(acc, f(head(arr)))) \x7d
  \x7d;
  iter(arr, []);
\x7d;
let reduce = fn(arr, initial, f) \x7b
  let iter = fn(arr, result) \x7b
    if (len(arr) == 0) \x7b result \x7d else \x7b iter(tail(arr), f(result, head(arr))) \x7d
  \x7d;
  iter(arr, initial);
\x7d;
let doubled = map(xs, fn(x) \x7b x * 2 \x7d);
[doubled, reduce(doubled, 0, fn(acc, x) \x7b acc + x \x7d)];
"

/-- `fn(x) { x * 2 }` -/
def doubleClosure (scope : ScopeId) : Closure :=
  ⟨["x"], [.expr (.binary .mul (.ident "x") (.int 2))], scope⟩

/-- `fn(acc, x) { acc + x }` -/
def addClosure (scope : ScopeId) : Closure :=
  ⟨["acc", "x"], [.expr (.binary .add (.ident "acc") (.ident "x"))], scope⟩

/-- `map(xs, fn(x) { x * 2 })` -/
def doubleCall : Expr :=
  .call (.ident "map") [.ident "xs",
    .function ["x"] [.expr (.binary .mul (.ident "x") (.int 2))]]

/-- `reduce(doubled, 0, fn(acc, x) { acc + x })` -/
def sumCall : Expr :=
  .call (.ident "reduce") [.ident "doubled", .int 0,
    .function ["acc", "x"] [.expr (.binary .add (.ident "acc") (.ident "x"))]]

theorem readText_ofList (cs : List Char) : readText (String.ofList cs) = read cs := by
  rw [readText, String.toList_ofList]

set_option maxRecDepth 8000 in
/-- What the text reads as. -/
theorem readText_doubledAndSummed :
    (readText doubledAndSummed).errors = [] ∧ (readText doubledAndSummed).program.statements =
      [.bind "map" (.function ["arr", "f"] (foldBody "acc" (.array []) mapStep)),
        .bind "reduce" (.function ["arr", "initial", "f"]
          (foldBody "result" (.ident "initial") reduceStep)),
        .bind "doubled" doubleCall,
        .expr (.array [.ident "doubled", sumCall])] := by
  -- Evaluating `toList` at a long literal is slow, so the characters are put
  -- in first.
  unfold doubledAndSummed
  rw [readText_ofList]
  decide +kernel

/-- A program comes to what its statements come to. -/
theorem Program.run_of_evalAll {program : Program} {scope : ScopeId} {s s' : Store}
    {depth : Nat} {v : Value}
    (h : Stmt.evalAll (Value.apply depth) scope .null program.statements s = some (.ok v, s')) :
    program.run depth scope s = some (v, s') := by
  unfold Program.run Eval.settle Eval.atCall
  rw [h]

section Program

variable {scope : ScopeId} {s : Store} {names : Names} {made id : Identity} {depth : Nat}
  {xs : List Int64}

theorem double_maps (h : s.Knows scope names) :
    (Value.function made (doubleClosure scope)).Maps s .int .int (· * 2) := by
  intro depth n hdepth
  obtain ⟨depth, rfl⟩ := Nat.exists_eq_succ_of_ne_zero hdepth.ne'
  refine Value.apply_attains_expr h rfl fun inner t _
    (hknows : t.Knows inner (names.set "x" (.int n))) => ?_
  have hx : ((Expr.ident "x").eval (Value.apply depth) inner).Attains t (· = .int n) :=
    Expr.ident_attains hknows Names.set_self
  exact Expr.binary_attains hx Expr.int_attains rfl

theorem add_combines (h : s.Knows scope names) :
    (Value.function made (addClosure scope)).Combines s .int .int (· + ·) := by
  intro depth m n hdepth
  obtain ⟨depth, rfl⟩ := Nat.exists_eq_succ_of_ne_zero hdepth.ne'
  refine Value.apply_attains_expr h rfl fun inner t _
    (hknows : t.Knows inner ((names.set "acc" (.int m)).set "x" (.int n))) => ?_
  have hacc : ((Expr.ident "acc").eval (Value.apply depth) inner).Attains t (· = .int m) :=
    Expr.ident_attains hknows (by simp)
  have hx : ((Expr.ident "x").eval (Value.apply depth) inner).Attains t (· = .int n) :=
    Expr.ident_attains hknows Names.set_self
  exact Expr.binary_attains hacc hx rfl

/-- A product in 64 bits is the product of the numbers, reduced. -/
theorem mul_two_eq_ofInt (x : Int64) : x * 2 = Int64.ofInt (2 * x.toInt) := by
  rw [Int64.ofInt_mul, Int64.ofInt_toInt, Int64.mul_comm]
  rfl

/-- Adding up in 64 bits is reducing the sum of the numbers. -/
theorem foldl_add_ofInt (ns : List Int) (start : Int) :
    (ns.map Int64.ofInt).foldl (· + ·) (Int64.ofInt start) = Int64.ofInt (start + ns.sum) := by
  induction ns generalizing start with
  | nil => simp
  | cons n ns ih =>
    rw [List.map_cons, List.foldl_cons, ← Int64.ofInt_add, ih, List.sum_cons, Int.add_assoc]

theorem doubleCall_attains (h : s.Knows scope names) (hnames : names.LeaveBuiltins)
    (hmap : names "map" = some (.function made (mapClosure scope)))
    (hxs : names "xs" = some (.array id (xs.map .int))) (hlength : xs.length < Int64.size)
    (hdepth : xs.length + 2 ≤ depth) :
    (doubleCall.eval (Value.apply depth) scope).Attains s
      fun v => ∃ j, v = .array j ((xs.map (· * 2)).map .int) := by
  refine Expr.call_attains_two (Expr.ident_attains h hmap) (Expr.ident_attains h hxs)
    Expr.function_attains ?_
  rintro _ _ rfl ⟨double, rfl⟩
  exact map_attains h hnames (double_maps h) hlength hdepth

theorem sumCall_attains (h : s.Knows scope names) (hnames : names.LeaveBuiltins)
    (hreduce : names "reduce" = some (.function made (reduceClosure scope)))
    (hdoubled : names "doubled" = some (.array id (xs.map .int))) (hlength : xs.length < Int64.size)
    (hdepth : xs.length + 2 ≤ depth) :
    (sumCall.eval (Value.apply depth) scope).Attains s (· = .int (xs.foldl (· + ·) 0)) := by
  refine Expr.call_attains (Expr.ident_attains h hreduce)
    (Expr.evalAll_attains_cons (Expr.ident_attains h hdoubled)
      (Expr.evalAll_attains_two Expr.int_attains Expr.function_attains)) ?_
  rintro _ ⟨_, _, rfl, rfl, _, _, rfl, rfl, add, rfl⟩
  exact reduce_attains h hnames (add_combines h) hlength hdepth

/-- The program finishes wherever `xs` is the array and no builtin is
hidden. -/
theorem doubledAndSummed_finishes (h : s.Knows scope names) (hnames : names.LeaveBuiltins)
    (hxs : names "xs" = some (.array id (xs.map .int))) (hlength : xs.length < Int64.size)
    (hdepth : xs.length + 2 ≤ depth) :
    Stmt.Finishes (Value.apply depth) scope (readText doubledAndSummed).program.statements s
      fun v t => (∃ i j, v = .array i [.array j ((xs.map (· * 2)).map .int),
          .int ((xs.map (· * 2)).foldl (· + ·) 0)]) ∧
        t.lookup scope "xs" = some (.array id (xs.map .int)) := by
  have hbase : ∀ t, Store.empty.Extends t := fun t id sc hsc => by cases hsc
  rw [readText_doubledAndSummed.2]
  refine Stmt.Finishes.of_bind (hbase s) rfl h Expr.function_attains ?_
  rintro _ t₁ ⟨map, rfl⟩ - h₁
  refine Stmt.Finishes.of_bind (hbase t₁) rfl h₁ Expr.function_attains ?_
  rintro _ t₂ ⟨reduce, rfl⟩ - h₂
  have hdouble := doubleCall_attains h₂ ((hnames.set rfl).set rfl)
    ((Names.set_of_ne (by decide)).trans Names.set_self) (by simpa using hxs) hlength hdepth
  refine Stmt.Finishes.of_bind (hbase t₂) rfl h₂ hdouble ?_
  rintro _ t₃ ⟨j, rfl⟩ - h₃
  have hdoubled : ((Expr.ident "doubled").eval (Value.apply depth) scope).Attains t₃
      (· = .array j ((xs.map (· * 2)).map .int)) := Expr.ident_attains h₃ Names.set_self
  have hsum := sumCall_attains h₃ (((hnames.set rfl).set rfl).set rfl)
    ((Names.set_of_ne (by decide)).trans Names.set_self) Names.set_self
    (by simpa using hlength) (by simpa using hdepth)
  have hpair := Expr.array_attains (Expr.evalAll_attains_two hdoubled hsum)
  refine Stmt.Finishes.of_expr hpair fun v t ht hv => ⟨?_, ?_⟩
  · obtain ⟨i, _, rfl, _, _, rfl, rfl, rfl⟩ := hv
    exact ⟨i, j, rfl⟩
  · rw [(h₃.mono ht).lookup]
    simpa using hxs

/-- **The program doubles and adds up every array of integers**: in a scope
that was just made and binds nothing but `xs`, it finishes, with the
products in their order and their sum, each of them reduced to 64 bits, and
`xs` is what it was. No memory holds an array of `2 ^ 64` elements
(`Int64.size`), of which `len` would not be the number. The depth goes with
the length, since the call for an element is inside the call for the one
before. -/
theorem doubled_and_summed (s : Store) (id : Identity) (xs : List Int64) (depth : Nat)
    (hlength : xs.length < Int64.size) (hdepth : xs.length + 2 ≤ depth) :
    let scope := (s.newScope none).1
    let start := (s.newScope none).2.bind scope "xs" (.array id (xs.map .int))
    let products := xs.map fun x => 2 * x.toInt
    (readText doubledAndSummed).errors = [] ∧
      ∃ i j s', (readText doubledAndSummed).program.run depth scope start =
          some (.array i [.array j ((products.map .ofInt).map .int),
            .int (.ofInt products.sum)], s') ∧
        s'.lookup scope "xs" = some (.array id (xs.map .int)) := by
  intro scope start products
  refine ⟨readText_doubledAndSummed.1, ?_⟩
  have hknows : start.Knows scope (Names.empty.set "xs" (.array id (xs.map .int))) :=
    (Store.Knows.newScope_none s).bind _ _
  have hnames : (Names.empty.set "xs" (.array id (xs.map .int))).LeaveBuiltins :=
    Names.LeaveBuiltins.set (fun _ => rfl) rfl
  obtain ⟨v, s', hrun, ⟨i, j, rfl⟩, hxs⟩ :=
    doubledAndSummed_finishes hknows hnames Names.set_self hlength hdepth
  have hproducts : xs.map (· * 2) = products.map Int64.ofInt := by
    rw [List.map_map]
    exact List.map_congr_left fun x _ => mul_two_eq_ofInt x
  have hsum : (products.map Int64.ofInt).foldl (· + ·) 0 = Int64.ofInt products.sum := by
    have h := foldl_add_ofInt products 0
    rwa [Int.zero_add] at h
  refine ⟨i, j, s', ?_, hxs⟩
  rw [← hsum, ← hproducts]
  exact Program.run_of_evalAll hrun

/-- With `xs` being `[1, 2, 3, 4]`, it comes to `[[2, 4, 6, 8], 20]`. -/
theorem doubled_and_summed_four :
    let scope := (Store.empty.newScope none).1
    let start := (Store.empty.newScope none).2.bind scope "xs"
      (.array ⟨0⟩ [.int 1, .int 2, .int 3, .int 4])
    ([1, 2, 3, 4] : List Int64).length < Int64.size ∧ ([1, 2, 3, 4] : List Int64).length + 2 ≤ 6 ∧
      ∃ i j s', (readText doubledAndSummed).program.run 6 scope start =
          some (.array i [.array j [.int 2, .int 4, .int 6, .int 8], .int 20], s') ∧
        s'.lookup scope "xs" = some (.array ⟨0⟩ [.int 1, .int 2, .int 3, .int 4]) := by
  refine ⟨by decide, by decide, ?_⟩
  obtain ⟨_, i, j, s', hrun, hxs⟩ :=
    doubled_and_summed .empty ⟨0⟩ [1, 2, 3, 4] 6 (by decide) (by decide)
  exact ⟨i, j, s', hrun, hxs⟩

end Program

end MonkeyLang
