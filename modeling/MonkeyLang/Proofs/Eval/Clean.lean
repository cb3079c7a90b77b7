import MonkeyLang.Proofs.Eval.Invariant
import MonkeyLang.Proofs.Scopes
import MonkeyLang.Session
/-!
# Signals never become data

A pending `return` and an error are values of their own, but only on the
way out of an evaluation. `Value.Holds` follows everything that can be got
at from a value: elements, keys, values, and what the scopes captured by
functions bind. A value is clean when it holds no signal, and a store when
every value bound in it is.

What a value holds depends on the store, since scopes go on changing.
`Value.Plain` looks at the value alone and stops at functions; in a clean
store the two are the same (`Store.clean_iff_plain`), and it is the plain
values that make up an `Invariant`.
-/

namespace MonkeyLang

/-! ## Clean values and stores -/

/-- Is the value a sign that an evaluation ended: a pending `return` or an
error? -/
def Value.isSignal : Value → Bool
  | .returned _ => true
  | .error _ => true
  | _ => false

/-- A scope is reached from itself and from the scopes inside it. -/
inductive Store.Reaches (s : Store) : ScopeId → ScopeId → Prop where
  | refl (id : ScopeId) : Reaches s id id
  | outer {id outer id' : ScopeId} {sc : Scope} :
      s.scope? id = some sc → sc.outer = some outer → Reaches s outer id' → Reaches s id id'

/-- A value holds itself and whatever its parts hold; the parts of a
function are the values bound in the scopes around its body. -/
inductive Value.Holds (s : Store) : Value → Value → Prop where
  | refl (v : Value) : Holds s v v
  | element {id : Identity} {elements : List Value} {v w : Value} :
      v ∈ elements → Holds s v w → Holds s (.array id elements) w
  | key {id : Identity} {pairs : Table HashKey (Value × Value)}
      {entry : HashKey × (Value × Value)} {w : Value} :
      entry ∈ pairs.entries → Holds s entry.2.1 w → Holds s (.hash id pairs) w
  | value {id : Identity} {pairs : Table HashKey (Value × Value)}
      {entry : HashKey × (Value × Value)} {w : Value} :
      entry ∈ pairs.entries → Holds s entry.2.2 w → Holds s (.hash id pairs) w
  | captured {id : Identity} {closure : Closure} {scope : ScopeId} {sc : Scope} {name : String}
      {v w : Value} :
      s.Reaches closure.scope scope → s.scope? scope = some sc →
      sc.bindings.get? name = some v → Holds s v w → Holds s (.function id closure) w
  | payload {v w : Value} : Holds s v w → Holds s (.returned v) w

/-- A value is clean when nothing that it holds is a signal. -/
def Value.Clean (s : Store) (v : Value) : Prop := ∀ w, v.Holds s w → w.isSignal = false

/-- A store is clean when every value that is bound in it is. -/
def Store.Clean (s : Store) : Prop :=
  ∀ id sc name v, s.scope? id = some sc → sc.bindings.get? name = some v → v.Clean s

/-! ## Plain values and stores -/

/-- A value is plain when neither it nor a part of it is a signal, whatever
the functions among its parts have captured. -/
inductive Value.Plain : Value → Prop where
  | int (n : Int64) : Plain (.int n)
  | bool (b : Bool) : Plain (.bool b)
  | string (text : String) : Plain (.string text)
  | null : Plain .null
  | builtin (b : Builtin) : Plain (.builtin b)
  | function (id : Identity) (closure : Closure) : Plain (.function id closure)
  | array {id : Identity} {elements : List Value} :
      (∀ v ∈ elements, Plain v) → Plain (.array id elements)
  | hash {id : Identity} {pairs : Table HashKey (Value × Value)} :
      (∀ entry ∈ pairs.entries, Plain entry.2.1) → (∀ entry ∈ pairs.entries, Plain entry.2.2) →
      Plain (.hash id pairs)

/-- A store is plain when every value that is bound in it is. -/
def Store.Plain (s : Store) : Prop :=
  ∀ id sc name v, s.scope? id = some sc → sc.bindings.get? name = some v → v.Plain

theorem Value.Plain.hereditary : Value.Hereditary Value.Plain where
  int := .int
  bool := .bool
  string := .string
  null := .null
  builtin := .builtin
  function := .function
  array := ⟨fun h => by cases h; assumption, .array⟩
  hash := by
    refine ⟨fun h => ?_, fun h => .hash (fun e he => (h e he).1) fun e he => (h e he).2⟩
    cases h with
    | hash hkeys hvalues => exact fun e he => ⟨hkeys e he, hvalues e he⟩

/-- The entries of a hash are smaller than the hash. -/
theorem Value.sizeOf_entry_lt {id : Identity} {pairs : Table HashKey (Value × Value)}
    {entry : HashKey × (Value × Value)} (h : entry ∈ pairs.entries) :
    sizeOf entry.2.1 < sizeOf (Value.hash id pairs) ∧
      sizeOf entry.2.2 < sizeOf (Value.hash id pairs) := by
  obtain ⟨entries⟩ := pairs
  obtain ⟨k, key, value⟩ := entry
  have hlt : sizeOf (k, key, value) < sizeOf entries := List.sizeOf_lt_of_mem h
  simp only [Prod.mk.sizeOf_spec, Value.hash.sizeOf_spec, Table.mk.sizeOf_spec] at hlt ⊢
  omega

/-- A clean value is plain, in whatever store it is clean. -/
theorem Value.Clean.plain {s : Store} : ∀ {v : Value}, v.Clean s → v.Plain
  | .int n, _ => .int n
  | .bool b, _ => .bool b
  | .string text, _ => .string text
  | .null, _ => .null
  | .builtin b, _ => .builtin b
  | .function id closure, _ => .function id closure
  | .array _ _, h => .array fun _ hv => Clean.plain fun w hw => h w (.element hv hw)
  | .hash _ _, h =>
    .hash (fun _ he => Clean.plain fun w hw => h w (.key he hw))
      fun _ he => Clean.plain fun w hw => h w (.value he hw)
  | .returned v, h => absurd (h _ (.refl _)) (by simp [Value.isSignal])
  | .error message, h => absurd (h _ (.refl _)) (by simp [Value.isSignal])
termination_by v => sizeOf v
decreasing_by
  · rename_i hv
    have hlt := List.sizeOf_lt_of_mem hv
    simp only [Value.array.sizeOf_spec]
    omega
  · exact (Value.sizeOf_entry_lt ‹_›).1
  · exact (Value.sizeOf_entry_lt ‹_›).2

/-- In a plain store a plain value is clean: what its functions have
captured is bound in the store. -/
theorem Value.Plain.clean {s : Store} (hs : s.Plain) {v : Value} (hv : v.Plain) : v.Clean s := by
  intro w hw
  -- on the way from the value to what it holds, each stop is plain again
  induction hw with
  | refl v => cases hv <;> rfl
  | element hmem _ ih => cases hv with | array h => exact ih (h _ hmem)
  | key hmem _ ih => cases hv with | hash hkeys _ => exact ih (hkeys _ hmem)
  | value hmem _ ih => cases hv with | hash _ hvalues => exact ih (hvalues _ hmem)
  | captured _ hsc hget _ ih => exact ih (hs _ _ _ _ hsc hget)
  | payload _ _ => cases hv

theorem Store.clean_iff_plain {s : Store} : s.Clean ↔ s.Plain := by
  constructor
  · intro h id sc name v hsc hv
    exact (h id sc name v hsc hv).plain
  · intro h id sc name v hsc hv
    exact (h id sc name v hsc hv).clean h

/-! ## Plain stores are kept -/

namespace Store.Plain

variable {s : Store}

theorem newScope (h : s.Plain) (outer : Option ScopeId) : (s.newScope outer).2.Plain := by
  intro id sc name v hsc hv
  obtain ⟨id', sc', name', hsc', hv'⟩ := bound_of_newScope ⟨id, sc, name, hsc, hv⟩
  exact h id' sc' name' v hsc' hv'

theorem bind (h : s.Plain) (scope : ScopeId) (name : String) {v : Value} (hv : v.Plain) :
    (s.bind scope name v).Plain := by
  intro id sc k w hsc hw
  obtain rfl | ⟨id', sc', k', hsc', hw'⟩ := bound_of_bind ⟨id, sc, k, hsc, hw⟩
  · exact hv
  · exact h id' sc' k' w hsc' hw'

end Store.Plain

/-- Plain values in plain stores, whatever is bound where. -/
def Invariant.plain : Invariant where
  store := Store.Plain
  value := Value.Plain
  writable _ _ := True
  hereditary := Value.Plain.hereditary
  newIdentity h := h
  newScope h := ⟨h.newScope _, fun _ => trivial⟩
  bind h _ hv := h.bind _ _ hv
  lookup h hv := by
    obtain ⟨id, sc, name, hsc, hget⟩ := Store.bound_of_lookup hv
    exact h id sc name _ hsc hget

/-! ## Clean runs -/

/-- Programs run one after the other in a session, with their results. -/
inductive Session.Runs : Session → List Value → Session → Prop where
  | nil (session : Session) : Runs session [] session
  | cons {depth : Nat} {program : Program} {result : Value} {results : List Value}
      {session session' session'' : Session} :
      session.run depth program = some (result, session') → Runs session' results session'' →
      Runs session (result :: results) session''

theorem Session.run_eq_some_iff {depth : Nat} {session session' : Session} {program : Program}
    {v : Value} :
    session.run depth program = some (v, session') ↔
      ∃ s', program.run depth session.scope session.store = some (v, s') ∧
        session' = { session with store := s' } := by
  rw [Session.run, Option.map_eq_some_iff]
  constructor
  · rintro ⟨⟨w, s'⟩, hrun, heq⟩
    cases heq
    exact ⟨s', hrun, rfl⟩
  · rintro ⟨s', hrun, rfl⟩
    exact ⟨(v, s'), hrun, rfl⟩

theorem Session.Runs.plain {session session' : Session} {results : List Value}
    (h : session.Runs results session') (hs : session.store.Plain) :
    session'.store.Plain ∧ ∀ v ∈ results, v.Plain ∨ ∃ message, v = .error message := by
  induction h with
  | nil => exact ⟨hs, fun v hv => absurd hv List.not_mem_nil⟩
  | @cons depth program _ _ _ _ _ hrun _ ih =>
    obtain ⟨s', hprogram, rfl⟩ := Session.run_eq_some_iff.mp hrun
    have hnode : (Node.program program).run depth _ _ = some (_, s') := hprogram
    obtain ⟨hs', hv⟩ := Node.run_keeps .plain (fun _ _ => trivial) hs hnode
    obtain ⟨hs'', hresults⟩ := ih hs'
    refine ⟨hs'', List.forall_mem_cons.mpr ⟨?_, hresults⟩⟩
    rcases hv with hv | he | ⟨hne, -⟩
    · exact .inl hv
    · exact .inr he
    · exact absurd rfl (hne _)

/-- **No signal is ever bound.** From a clean store, whatever is run leaves
a clean store. What comes out is clean, or the error that ended the run,
or, of a lone statement or expression, a pending `return` of a clean value.
So it is with any number of programs run in one session: their results
are clean, errors apart, and these are bound nowhere. -/
theorem run_clean (depth : Nat) :
    (∀ (node : Node) (scope : ScopeId) (s s' : Store) (v : Value),
      s.Clean → node.run depth scope s = some (v, s') →
        s'.Clean ∧ (v.Clean s' ∨ (∃ message, v = .error message) ∨
          (∀ p, node ≠ .program p) ∧ ∃ w, w.Clean s' ∧ v = .returned w)) ∧
    ∀ (session session' : Session) (results : List Value),
      session.store.Clean → session.Runs results session' →
        session'.store.Clean ∧ ∀ v ∈ results, v.Clean session'.store ∨
          (∃ message, v = .error message) ∧
          ∀ id sc name, session'.store.scope? id = some sc → sc.bindings.get? name ≠ some v := by
  constructor
  · intro node scope s s' v hs h
    have hplain : s.Plain := Store.clean_iff_plain.mp hs
    obtain ⟨hs', hv⟩ := Node.run_keeps .plain (fun _ _ => trivial) hplain h
    refine ⟨Store.clean_iff_plain.mpr hs', ?_⟩
    rcases hv with hv | he | ⟨hne, w, hw, rfl⟩
    · exact .inl (hv.clean hs')
    · exact .inr (.inl he)
    · exact .inr (.inr ⟨hne, w, hw.clean hs', rfl⟩)
  · intro session session' results hs h
    have hplain : session.store.Plain := Store.clean_iff_plain.mp hs
    obtain ⟨hs', hresults⟩ := h.plain hplain
    refine ⟨Store.clean_iff_plain.mpr hs', ?_⟩
    intro v hv
    rcases hresults v hv with hv | ⟨message, rfl⟩
    · exact .inl (hv.clean hs')
    · refine .inr ⟨⟨message, rfl⟩, ?_⟩
      -- what is bound in a plain store is plain, and an error is not
      intro id sc name hsc hget
      have herror : (Value.error message).Plain := hs' id sc name _ hsc hget
      cases herror

/-- A `return` on its own comes out as one; and of two programs, the first
binds a list and the second ends in an error, which nothing has bound. -/
theorem clean_after_return_and_error :
    (∃ s', (Node.statement (.ret (.int 1))).run 1 ⟨0⟩ Session.new.store =
        some (.returned (.int 1), s') ∧ s'.Clean) ∧
    ∃ session', Session.new.Runs
        [.null, (EvalError.unknownUnary .negate .boolean).toValue] session' ∧
      session'.store.Clean := by
  have hclean : Session.new.store.Clean := by
    rw [Store.clean_iff_plain]
    exact Store.Plain.newScope (fun id sc name v hsc => by cases hsc) none
  have hreturn : (Node.statement (.ret (.int 1))).run 1 ⟨0⟩ Session.new.store =
      some (.returned (.int 1), Session.new.store) := rfl
  have hbind : Session.new.run 1 ⟨[.bind "xs" (.array [.int 1])]⟩ =
      some (.null, ⟨⟨#[⟨⟨[("xs", .array ⟨0⟩ [.int 1])]⟩, none⟩], 1⟩, ⟨0⟩⟩) := rfl
  have hnegate : Session.run 1 ⟨⟨#[⟨⟨[("xs", .array ⟨0⟩ [.int 1])]⟩, none⟩], 1⟩, ⟨0⟩⟩
      ⟨[.expr (.unary .negate (.bool true))]⟩ =
      some ((EvalError.unknownUnary .negate .boolean).toValue,
        ⟨⟨#[⟨⟨[("xs", .array ⟨0⟩ [.int 1])]⟩, none⟩], 1⟩, ⟨0⟩⟩) := rfl
  refine ⟨⟨_, hreturn, ((run_clean 1).1 _ _ _ _ _ hclean hreturn).1⟩, _,
    .cons hbind (.cons hnegate (.nil _)), ?_⟩
  exact ((run_clean 1).2 _ _ _ hclean (.cons hbind (.cons hnegate (.nil _)))).1

end MonkeyLang
