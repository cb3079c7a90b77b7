import Mathlib.Data.List.Forall2
import MonkeyLang.Proofs.Eval.Clean
import MonkeyLang.Proofs.Pieces
/-!
# Programs node by node

A host may run a program, or evaluate its statements itself, one at a time,
and an expression statement as a statement or as the expression that it is
(`Node.Stands`). It then sees the results as values, and takes a pending
`return` or an error for the end (`Nodewise`). In a clean store no value
that a statement comes to is a signal, so the host stops where the program
does: `results_iff_nodewise` is the main statement.
-/

namespace MonkeyLang

/-! ## One node after the other -/

/-- A node that a host may evaluate in place of a statement. -/
inductive Node.Stands : Node → Stmt → Prop where
  | statement (st : Stmt) : Stands (.statement st) st
  | expression (e : Expr) : Stands (.expression e) (.expr e)

/-- What a node comes to, within some depth of calls. -/
def Node.Results (node : Node) (scope : ScopeId) (s : Store) (v : Value) (s' : Store) : Prop :=
  ∃ depth, node.run depth scope s = some (v, s')

/-- Nodes are evaluated one after the other in one scope until one of them
results in a signal. What comes out is the result of the last one that was
evaluated, or the given value if there is none. -/
inductive Nodewise (scope : ScopeId) : Value → List Node → Store → Value → Store → Prop where
  | done (last : Value) (s : Store) : Nodewise scope last [] s last s
  | signal {last v : Value} {node : Node} {rest : List Node} {s s' : Store} :
      node.Results scope s v s' → v.isSignal = true → Nodewise scope last (node :: rest) s v s'
  | next {last v w : Value} {node : Node} {rest : List Node} {s s' s'' : Store} :
      node.Results scope s v s' → v.isSignal = false → Nodewise scope v rest s' w s'' →
      Nodewise scope last (node :: rest) s w s''

/-- What a pending `return` carries; any other value is itself. -/
def Value.payload : Value → Value
  | .returned v => v
  | v => v

/-! ## What is told of an outcome -/

/-- An outcome as a value. -/
def Unwind.told : Except Unwind Value → Value
  | .ok v => v
  | .error reason => reason.toValue

/-- An outcome of statements as the result of the program that they are. -/
def Unwind.result : Except Unwind Value → Value
  | .ok v => v
  | .error reason => reason.toValue.payload

theorem Unwind.isSignal_toValue (reason : Unwind) : reason.toValue.isSignal = true := by
  cases reason <;> rfl

theorem Value.Plain.isSignal_eq_false {v : Value} (h : v.Plain) : v.isSignal = false := by
  cases h <;> rfl

theorem Value.Plain.payload_eq {v : Value} (h : v.Plain) : v.payload = v := by
  cases h <;> rfl

section

variable {node : Node} {nodes : List Node} {st : Stmt} {ss : List Stmt} {p : Program}
variable {scope : ScopeId} {s s' : Store} {last v w : Value}

/-- A host is told the outcome of the statement that the node stands for. -/
theorem Node.Stands.results_iff (h : node.Stands st) :
    node.Results scope s v s' ↔ ∃ depth outcome,
      st.eval (Value.apply depth) scope s = some (outcome, s') ∧ v = Unwind.told outcome := by
  have hrun : ∀ depth, node.run depth scope s =
      (st.eval (Value.apply depth) scope).settle Unwind.toValue s := by
    intro depth
    cases h <;> rfl
  refine exists_congr fun depth => ?_
  rw [hrun, Eval.settle]
  obtain _ | ⟨reason | v', s₁⟩ := st.eval (Value.apply depth) scope s
  · simp
  · constructor
    · rintro ⟨⟩
      exact ⟨_, rfl, rfl⟩
    · rintro ⟨_, ⟨⟩, rfl⟩
      rfl
  · constructor
    · rintro ⟨⟩
      exact ⟨_, rfl, rfl⟩
    · rintro ⟨_, ⟨⟩, rfl⟩
      rfl

/-- A run of a program has the result that the outcome of its statements
is. -/
theorem Program.results_iff_ends :
    p.Results scope s v s' ↔
      ∃ outcome, p.Ends scope s outcome s' ∧ v = Unwind.result outcome := by
  constructor
  · rintro ⟨depth, h⟩
    unfold Program.run Eval.settle Eval.atCall at h
    cases hends : Stmt.evalAll (Value.apply depth) scope .null p.statements s with
    | none =>
      rw [hends] at h
      cases h
    | some ended =>
      obtain ⟨outcome, s₁⟩ := ended
      rw [hends] at h
      obtain (v' | e) | v' := outcome
      all_goals
        cases h
        exact ⟨_, ⟨depth, hends⟩, rfl⟩
  · rintro ⟨outcome, ⟨depth, h⟩, rfl⟩
    refine ⟨depth, ?_⟩
    unfold Program.run Eval.settle Eval.atCall
    rw [h]
    obtain (v' | e) | v' := outcome <;> rfl

/-! ## The same end -/

/-- In a plain store a statement comes to a plain value, and leaves a plain
store. -/
theorem Stmt.plain_of_eval {depth : Nat} (hs : s.Plain)
    (h : st.eval (Value.apply depth) scope s = some (.ok v, s')) : s'.Plain ∧ v.Plain := by
  have hkept : Invariant.plain.Kept (st.eval (Value.apply depth) scope) Value.Plain :=
    Stmt.eval_keeps (Value.apply_keeps .plain depth) st fun _ _ => trivial
  exact hkept.ok hs h

/-- Where statements end, and how, is what a host sees that evaluates them
one after the other. -/
theorem nodewise_iff_evalAll (h : List.Forall₂ Node.Stands nodes ss) (hs : s.Plain) :
    Nodewise scope last nodes s w s' ↔ ∃ depth outcome,
      Stmt.evalAll (Value.apply depth) scope last ss s = some (outcome, s') ∧
        w = Unwind.told outcome := by
  induction h generalizing last s with
  | nil =>
    constructor
    · rintro ⟨⟩
      exact ⟨0, .ok w, rfl, rfl⟩
    · rintro ⟨depth, outcome, ⟨⟩, rfl⟩
      exact .done _ _
  | @cons node st nodes ss hnode _ ih =>
    constructor
    · intro hnodes
      cases hnodes with
      | signal hresult hsignal =>
        obtain ⟨depth, reason | v, hst, rfl⟩ := hnode.results_iff.1 hresult
        · exact ⟨depth, .error reason, Eval.bind_of_error hst, rfl⟩
        · have hplain : w.Plain := (Stmt.plain_of_eval hs hst).2
          exact absurd (hsignal.symm.trans hplain.isSignal_eq_false) nofun
      | @next _ v _ _ _ _ s₁ _ hresult hsignal hrest =>
        obtain ⟨depth, reason | v, hst, rfl⟩ := hnode.results_iff.1 hresult
        · exact absurd (hsignal.symm.trans reason.isSignal_toValue) nofun
        · obtain ⟨depth', outcome, hss, rfl⟩ := (ih (Stmt.plain_of_eval hs hst).1).1 hrest
          -- both parts end within the larger of the two depths
          have hst' : st.eval (Value.apply (max depth depth')) scope s = some (.ok v, s₁) :=
            Stmt.eval_upto (Value.apply_upto (Nat.le_max_left depth depth')) st _ _ hst
          have hss' : Stmt.evalAll (Value.apply (max depth depth')) scope v ss s₁ =
              some (outcome, s') :=
            Stmt.evalAll_upto (Value.apply_upto (Nat.le_max_right depth depth')) ss _ _ hss
          exact ⟨_, outcome, (Eval.bind_of_ok hst').trans hss', rfl⟩
    · rintro ⟨depth, outcome, hall, rfl⟩
      have hnext {v : Value} {s₁ : Store}
          (hst : st.eval (Value.apply depth) scope s = some (.ok v, s₁))
          (hss : Stmt.evalAll (Value.apply depth) scope v ss s₁ = some (outcome, s')) :
          Nodewise scope last (node :: nodes) s (Unwind.told outcome) s' := by
        obtain ⟨hs₁, hv⟩ := Stmt.plain_of_eval hs hst
        exact .next (hnode.results_iff.2 ⟨depth, _, hst, rfl⟩) hv.isSignal_eq_false
          ((ih hs₁).2 ⟨depth, outcome, hss, rfl⟩)
      cases outcome with
      | ok v' =>
        obtain ⟨v, s₁, hst, hss⟩ := Eval.bind_eq_ok_iff.1 hall
        exact hnext hst hss
      | error reason =>
        obtain hst | ⟨v, s₁, hst, hss⟩ := Eval.bind_eq_error_iff.1 hall
        · exact .signal (hnode.results_iff.2 ⟨depth, _, hst, rfl⟩) reason.isSignal_toValue
        · exact hnext hst hss

/-- What statements come to in a plain store is plain, if they end without an
early stop. -/
theorem Program.Ends.plain (h : p.Ends scope s (.ok v) s') (hs : s.Plain) : v.Plain := by
  obtain ⟨depth, h⟩ := h
  have hkept : Invariant.plain.Kept
      (Stmt.evalAll (Value.apply depth) scope .null p.statements) Value.Plain :=
    Stmt.evalAll_keeps (Value.apply_keeps .plain depth) p.statements (fun _ _ => trivial) .null
  exact (hkept.ok hs h).2

/-- **Running a program is evaluating its statements one at a time.** From a
clean store, a program results in what its statements result in, taken one
after the other up to the first pending `return` or error, and leaves the same
store: the payload of that `return`, that error, or the result of the last
statement, which is `null` if there are no statements. The one comes to an end
just if the other does. -/
theorem results_iff_nodewise (hnodes : List.Forall₂ Node.Stands nodes p.statements)
    (hs : s.Clean) :
    p.Results scope s v s' ↔ ∃ w, Nodewise scope .null nodes s w s' ∧ v = w.payload := by
  have hplain : s.Plain := Store.clean_iff_plain.1 hs
  have htold : ∀ {outcome : Except Unwind Value}, p.Ends scope s outcome s' →
      Unwind.result outcome = (Unwind.told outcome).payload := by
    intro outcome hends
    cases outcome with
    | error reason => rfl
    | ok v => exact (hends.plain hplain).payload_eq.symm
  rw [Program.results_iff_ends]
  constructor
  · rintro ⟨outcome, hends, rfl⟩
    refine ⟨Unwind.told outcome, ?_, htold hends⟩
    obtain ⟨depth, h⟩ := hends
    exact (nodewise_iff_evalAll hnodes hplain).2 ⟨depth, outcome, h, rfl⟩
  · rintro ⟨w, hwise, rfl⟩
    obtain ⟨depth, outcome, h, rfl⟩ := (nodewise_iff_evalAll hnodes hplain).1 hwise
    exact ⟨outcome, ⟨depth, h⟩, (htold ⟨depth, h⟩).symm⟩

end

/-- A `let`, its name as an expression, and a `return` of it, behind which
nothing is evaluated. -/
theorem nodewise_up_to_return :
    let p : Program :=
      ⟨[.bind "x" (.int 1), .expr (.ident "x"), .ret (.ident "x"), .expr (.ident "y")]⟩
    let nodes : List Node := [.statement (.bind "x" (.int 1)), .expression (.ident "x"),
      .statement (.ret (.ident "x")), .statement (.expr (.ident "y"))]
    let s' : Store := ⟨#[⟨⟨[("x", .int 1)]⟩, none⟩], 0⟩
    (List.Forall₂ Node.Stands nodes p.statements ∧ Session.new.store.Clean) ∧
      Nodewise ⟨0⟩ .null nodes Session.new.store (.returned (.int 1)) s' ∧
      p.Results ⟨0⟩ Session.new.store (.int 1) s' := by
  intro p nodes s'
  have hstands : List.Forall₂ Node.Stands nodes p.statements :=
    .cons (.statement _) (.cons (.expression _) (.cons (.statement _) (.cons (.statement _) .nil)))
  have hclean : Session.new.store.Clean := by
    rw [Store.clean_iff_plain]
    exact Store.Plain.newScope (fun id sc name v hsc => by cases hsc) none
  have hbind : (Node.statement (.bind "x" (.int 1))).Results ⟨0⟩ Session.new.store .null s' :=
    ⟨0, rfl⟩
  have hname : (Expr.ident "x").eval (Value.apply 0) ⟨0⟩ s' = some (.ok (.int 1), s') := by
    with_unfolding_all rfl
  have hident : (Node.expression (.ident "x")).Results ⟨0⟩ s' (.int 1) s' :=
    (Node.Stands.expression _).results_iff.2 ⟨0, _, hname, rfl⟩
  have hreturn : (Node.statement (.ret (.ident "x"))).Results ⟨0⟩ s' (.returned (.int 1)) s' :=
    (Node.Stands.statement _).results_iff.2 ⟨0, _, Eval.bind_of_ok hname, rfl⟩
  have hwise : Nodewise ⟨0⟩ .null nodes Session.new.store (.returned (.int 1)) s' :=
    .next hbind rfl (.next hident rfl (.signal hreturn rfl))
  exact ⟨⟨hstands, hclean⟩, hwise, (results_iff_nodewise hstands hclean).2 ⟨_, hwise, rfl⟩⟩

end MonkeyLang
