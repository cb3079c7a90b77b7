import Mathlib.Logic.Equiv.Basic
import MonkeyLang.Proofs.Renaming.Evaluation
import MonkeyLang.Session
/-!
# Names are opaque

Evaluation only ever asks of a name whether it is another one, and whether
it is that of a builtin. So calling things otherwise, as long as what was
told apart stays so and the builtins keep their names, gives a run that does
the same under the new names (`evaluation_commutes_with_renaming`).
-/

namespace MonkeyLang

open Eval (mapOutcome)

/-- The renaming that changes names only. -/
def Renaming.ofNames (r : String → String) : Renaming := ⟨r, id, id⟩

/-- The store with everything in its scopes renamed. -/
def Store.rename (ρ : Renaming) (s : Store) : Store :=
  { s with scopes := s.scopes.map (·.rename ρ) }

variable {r : String → String}

theorem Renaming.faithful_ofNames (hr : Function.Injective r)
    (hbuiltin : ∀ b : Builtin, r b.name = b.name) : (ofNames r).Faithful where
  name := hr
  builtin := hbuiltin
  scope _ _ := .rfl
  identity := Function.injective_id

theorem Store.renames_ofNames_iff {s t : Store} :
    s.Renames (.ofNames r) t ↔ t = s.rename (.ofNames r) := by
  constructor
  · intro h
    obtain ⟨scopes, identities⟩ := t
    have hidentities := congrArg Identity.number (h.newIdentity 0)
    have hscopes : scopes = s.scopes.map (·.rename (.ofNames r)) := by
      refine Array.ext_getElem? fun i => ?_
      rw [Array.getElem?_map]
      exact h.scope? ⟨i⟩
    rw [hscopes, Store.rename]
    exact congrArg _ hidentities.symm
  · rintro rfl
    refine ⟨fun id => ?_, fun k => ?_, fun k => rfl⟩
    · exact Array.getElem?_map
    · exact congrArg ScopeId.mk (congrArg (· + k) Array.size_map.symm)

/-- An evaluation that mirrors another under other names ends in what the
other ends in under these names. -/
theorem Eval.Renames.eq_map {ε ε' α α' : Type} {f : α → α'} {g : ε → ε'} {x : Eval ε α}
    {y : Eval ε' α'} (h : Renames (.ofNames r) f g x y) (s : Store) :
    y (s.rename (.ofNames r)) =
      (x s).map fun (o, s') => (mapOutcome f g o, s'.rename (.ofNames r)) := by
  have hs := h s _ (Store.renames_ofNames_iff.2 rfl)
  generalize x s = end₁, y (s.rename (.ofNames r)) = end₂ at hs
  cases hs with
  | none => rfl
  | ok a hst => rw [Store.renames_ofNames_iff.1 hst]; rfl
  | error e hst => rw [Store.renames_ofNames_iff.1 hst]; rfl

/-- **Evaluation commutes with renaming.** Names that are kept apart, and
those of the builtins left to them, change nothing else: the renamed program
comes to the renamed value, pending `return` or error, and leaves the renamed
store, or does not end either. So it does when a program is run as a whole,
where a pending `return` is what the program comes to. -/
theorem evaluation_commutes_with_renaming (r : String → String) (hr : Function.Injective r)
    (hbuiltin : ∀ b : Builtin, r b.name = b.name) (depth : Nat) (p : Program) (scope : ScopeId)
    (s : Store) :
    let ρ := Renaming.ofNames r
    Stmt.evalAll (Value.apply depth) scope .null (p.rename r).statements (s.rename ρ) =
      (Stmt.evalAll (Value.apply depth) scope .null p.statements s).map
        (fun (o, s') => (mapOutcome (Value.rename ρ) (Unwind.rename ρ) o, s'.rename ρ)) ∧
    (Stmt.evalAll (Value.apply depth) scope .null (p.rename r).statements).atCall (s.rename ρ) =
      ((Stmt.evalAll (Value.apply depth) scope .null p.statements).atCall s).map
        (fun (o, s') => (mapOutcome (Value.rename ρ) (EvalError.rename r) o, s'.rename ρ)) := by
  intro ρ
  have hρ := Renaming.faithful_ofNames hr hbuiltin
  have hbody : Eval.RenamesInside ρ (Value.rename ρ)
      (Stmt.evalAll (Value.apply depth) scope .null p.statements)
      (Stmt.evalAll (Value.apply depth) scope .null (p.rename r).statements) :=
    Stmt.evalAll_renames hρ (Value.apply_renames hρ depth) p.statements .null
  exact ⟨hbody.eq_map s, hbody.atCall.eq_map s⟩

/-- With `x` and `y` for one another, `let x = 1; fn(x) { y }(2)` misses
the other name, and has bound the other name outside the call and in it. -/
theorem swapped_let_and_parameter :
    Stmt.evalAll (Value.apply 1) ⟨0⟩ .null
        [.bind "y" (.int 1), .expr (.call (.function ["y"] [.expr (.ident "x")]) [.int 2])]
        Session.new.store =
      some (.error (.failed (.unbound "x")),
        ⟨#[⟨⟨[("y", .int 1)]⟩, none⟩, ⟨⟨[("y", .int 2)]⟩, some ⟨0⟩⟩], 1⟩) := by
  let p : Program := ⟨[.bind "x" (.int 1),
    .expr (.call (.function ["x"] [.expr (.ident "y")]) [.int 2])]⟩
  have hbuiltin (b : Builtin) : Equiv.swap "x" "y" b.name = b.name := by
    cases b <;> decide
  have hrun : Stmt.evalAll (Value.apply 1) ⟨0⟩ .null p.statements Session.new.store =
      some (.error (.failed (.unbound "y")),
        ⟨#[⟨⟨[("x", .int 1)]⟩, none⟩, ⟨⟨[("x", .int 2)]⟩, some ⟨0⟩⟩], 1⟩) := by
    with_unfolding_all rfl
  have hstart : Session.new.store.rename (.ofNames (Equiv.swap "x" "y")) = Session.new.store := by
    simp [Store.rename, Session.new, Store.newScope, Store.empty, Scope.rename, Table.map,
      Table.empty]
  have hrenamed := (evaluation_commutes_with_renaming (Equiv.swap "x" "y") (Equiv.injective _)
    hbuiltin 1 p ⟨0⟩ Session.new.store).1
  rw [hrun, hstart] at hrenamed
  refine hrenamed.trans ?_
  simp [mapOutcome, Store.rename, Scope.rename, Table.map, Renaming.ofNames, Value.rename,
    Unwind.rename, EvalError.rename]

end MonkeyLang
