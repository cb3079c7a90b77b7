import MonkeyLang.Proofs.Canonical.Nesting
import MonkeyLang.Proofs.Eval.Keeps
import MonkeyLang.Proofs.Literals.Tokens
import MonkeyLang.Proofs.Parser.Sources
import MonkeyLang.Proofs.Recognition
import MonkeyLang.Proofs.Renaming.Basic
import MonkeyLang.Session
/-!
# Displayed data is code for itself

The text of plain data is read as a literal (`Value.literal`), provided that
it is not nested too deeply, and the literal evaluates to what was
displayed: another array or hash where it was one, but the same in all that
it holds (`Value.Alike`). The main statement is `inspect_reads_back`.
-/

namespace MonkeyLang

open Grammar

mutual

/-- How deeply the text of a value is nested. -/
def Value.nesting : Value → Nat
  | .int n => if n < 0 then 2 else 1
  | .array _ elements => 1 + Value.nestingAll elements
  | .hash _ ⟨entries⟩ => 1 + Value.nestingEntries entries
  | _ => 1

/-- The largest nesting of some values. -/
def Value.nestingAll : List Value → Nat
  | [] => 0
  | v :: vs => max v.nesting (Value.nestingAll vs)

/-- The largest nesting of some keys and values. -/
def Value.nestingEntries : List (HashKey × (Value × Value)) → Nat
  | [] => 0
  | (_, key, value) :: entries =>
    max (max key.nesting value.nesting) (Value.nestingEntries entries)

end

mutual

/-- The expression that the text of data is read as. Values that are no data
are written as an empty array. -/
def Value.literal : Value → Expr
  | .int n => if n < 0 then .unary .negate (.int (-n)) else .int n
  | .bool b => .bool b
  | .array _ elements => .array (Value.literalAll elements)
  | .hash _ ⟨entries⟩ => .hash (Value.literalEntries entries)
  | _ => .array []

/-- The literal of each value. -/
def Value.literalAll : List Value → List Expr
  | [] => []
  | v :: vs => v.literal :: Value.literalAll vs

/-- The literals of each key and its value. -/
def Value.literalEntries : List (HashKey × (Value × Value)) → List (Expr × Expr)
  | [] => []
  | (_, key, value) :: entries => (key.literal, value.literal) :: Value.literalEntries entries

end

/-- Takes all identities for one. -/
def Renaming.forgetful : Renaming := ⟨id, id, fun _ => ⟨0⟩⟩

/-- The same value but for the identities of arrays, hashes and functions. -/
def Value.Alike (v w : Value) : Prop := v.rename .forgetful = w.rename .forgetful

namespace Value

theorem literalAll_eq_map (vs : List Value) : literalAll vs = vs.map literal := by
  induction vs with
  | nil => rfl
  | cons v vs ih => rw [literalAll, ih, List.map_cons]

theorem literalEntries_eq_map (entries : List (HashKey × (Value × Value))) :
    literalEntries entries =
      entries.map fun entry => (entry.2.1.literal, entry.2.2.literal) := by
  induction entries with
  | nil => rfl
  | cons entry entries ih => rw [literalEntries, ih, List.map_cons]

theorem nestingAll_le_iff {vs : List Value} {n : Nat} :
    nestingAll vs ≤ n ↔ ∀ v ∈ vs, v.nesting ≤ n := by
  induction vs with
  | nil => simp [nestingAll]
  | cons v vs ih => rw [nestingAll, Nat.max_le, ih, List.forall_mem_cons]

theorem nestingEntries_le_iff {entries : List (HashKey × (Value × Value))} {n : Nat} :
    nestingEntries entries ≤ n ↔
      ∀ entry ∈ entries, entry.2.1.nesting ≤ n ∧ entry.2.2.nesting ≤ n := by
  induction entries with
  | nil => simp [nestingEntries]
  | cons entry entries ih =>
    rw [nestingEntries, Nat.max_le, Nat.max_le, ih, List.forall_mem_cons]

end Value

/-! ## By the grammar -/

namespace Grammar

section

variable {α β : Type} {item : List Token → α → Prop} {item' : List Token → β → Prop} {f : α → β}
  {ts : List Token} {as : List α} (h : ∀ ts a, item ts a → item' ts (f a))

include h

theorem Separated.map (hs : Separated item ts as) : Separated item' ts (as.map f) := by
  induction hs with
  | last ha => exact .last (h _ _ ha)
  | more ha hcomma _ ih => exact .more (h _ _ ha) hcomma ih

/-- Items that are listed are so as what is made of them. -/
theorem Listed.map (hs : Listed item ts as) : Listed item' ts (as.map f) := by
  cases hs with
  | none => exact .none
  | some hs => exact .some (hs.map h)

end

end Grammar

namespace Value

/-- A number is an expression by the grammar: a negative one is the
opposite one behind a minus. -/
theorem expression_int {n : Int64} (hmin : n ≠ Int64.minValue) {levels : Nat}
    (hlevels : (Value.int n).nesting ≤ levels) :
    Expression levels .equality (Value.int n).tokens (Value.int n).literal := by
  rw [nesting] at hlevels
  rw [tokens, literal]
  split at hlevels
  · next hneg =>
    obtain ⟨m, rfl⟩ : ∃ m, levels = m + 2 := ⟨levels - 2, by omega⟩
    have hpositive : Layered (Expression m) .application [⟨.int, toString (-n)⟩] (.int (-n)) :=
      .primary (.int rfl (Decimal.spells_toString (Decimal.neg_nonneg hneg hmin)))
    have hoperand : Expression (m + 1) .unary _ _ := hpositive.loosen (by decide)
    have hunary : Layered (Expression (m + 1)) .unary
        (.symbol .minus :: [⟨.int, toString (-n)⟩]) (.unary .negate (.int (-n))) :=
      .unary rfl hoperand
    rw [if_pos hneg, if_pos hneg]
    exact hunary.loosen (by decide)
  · next hneg =>
    obtain ⟨m, rfl⟩ : ∃ m, levels = m + 1 := ⟨levels - 1, by omega⟩
    have hprimary : Layered (Expression m) .application [⟨.int, toString n⟩] (.int n) :=
      .primary (.int rfl (Decimal.spells_toString (Int64.not_lt.1 hneg)))
    rw [if_neg hneg, if_neg hneg]
    exact hprimary.loosen (by decide)

/-- **The tokens of the text of data are its literal by the grammar.** -/
theorem Data.expression {v : Value} (h : v.Data) {n : Nat} (hn : v.nesting ≤ n) :
    Expression n .equality v.tokens v.literal := by
  induction h generalizing n with
  | int hmin => exact expression_int hmin hn
  | bool b => exact (Expr.Readable.bool b).derives hn .equality
  | @array id elements _ ih =>
    rw [nesting] at hn
    obtain ⟨m, rfl⟩ : ∃ m, n = m + 1 := ⟨n - 1, by omega⟩
    have hnesting : ∀ v ∈ elements, v.nesting ≤ m := nestingAll_le_iff.1 (by omega)
    have hlisted : Listed (fun ts (v : Value) => Expression m .equality ts v.literal)
        (Token.commaSeparated (elements.map tokens)) elements :=
      listed_commaSeparated fun v hv => ih v hv (hnesting v hv)
    have harray : Layered (Expression m) .application
        (.symbol .lbracket :: (Token.commaSeparated (elements.map tokens) ++ [.symbol .rbracket]))
        (.array (elements.map literal)) :=
      .primary (.array rfl (hlisted.map fun _ _ h => h) rfl)
    rw [tokens, tokensAll_eq_map, literal, literalAll_eq_map]
    exact harray.loosen (by decide)
  | @hash id pairs _ _ _ _ ihKey ihValue =>
    obtain ⟨entries⟩ := pairs
    rw [nesting] at hn
    obtain ⟨m, rfl⟩ : ∃ m, n = m + 1 := ⟨n - 1, by omega⟩
    have hnesting : ∀ entry ∈ entries, entry.2.1.nesting ≤ m ∧ entry.2.2.nesting ≤ m :=
      nestingEntries_le_iff.1 (by omega)
    have hlisted : Listed (fun ts (entry : HashKey × (Value × Value)) =>
          Pair (Expression m) ts (entry.2.1.literal, entry.2.2.literal))
        (Token.commaSeparated (entries.map fun entry =>
          entry.2.1.tokens ++ .symbol .colon :: entry.2.2.tokens)) entries :=
      listed_commaSeparated fun entry hentry =>
        .mk (ihKey entry hentry (hnesting entry hentry).1) rfl
          (ihValue entry hentry (hnesting entry hentry).2)
    have hhash : Layered (Expression m) .application
        (.symbol .lbrace :: (Token.commaSeparated (entries.map fun entry =>
          entry.2.1.tokens ++ .symbol .colon :: entry.2.2.tokens) ++ [.symbol .rbrace]))
        (.hash (entries.map fun entry => (entry.2.1.literal, entry.2.2.literal))) :=
      .primary (.hash rfl (.listed (hlisted.map fun _ _ h => h)) rfl)
    rw [tokens, tokensEntries_eq_map, literal, literalEntries_eq_map]
    exact hhash.loosen (by decide)

end Value

/-! ## What the literals evaluate to -/

namespace Table

variable {κ ν : Type} [DecidableEq κ]

/-- A key that is not there is written to the end. -/
theorem write_of_notMem {key : κ} {value : ν} {entries : List (κ × ν)}
    (h : key ∉ entries.map Prod.fst) : write key value entries = entries ++ [(key, value)] := by
  induction entries with
  | nil => rfl
  | cons entry entries ih =>
    rw [List.map_cons, List.mem_cons, not_or] at h
    rw [write, if_neg (Ne.symm h.1), ih h.2, List.cons_append]

/-- Pairs whose keys are all different are the entries of the table that
they are written to. -/
theorem ofList_of_nodup {pairs : List (κ × ν)} (h : (pairs.map Prod.fst).Nodup) :
    ofList pairs = ⟨pairs⟩ := by
  suffices hfrom : ∀ written : List (κ × ν), ((written ++ pairs).map Prod.fst).Nodup →
      pairs.foldl (fun (t : Table κ ν) pair => t.insert pair.1 pair.2) ⟨written⟩ =
        ⟨written ++ pairs⟩ from hfrom [] h
  clear h
  induction pairs with
  | nil => simp
  | cons pair pairs ih =>
    intro written hnodup
    have hnew : pair.1 ∉ written.map Prod.fst := by
      rw [List.map_append, List.map_cons] at hnodup
      exact fun hmem => (List.nodup_append.1 hnodup).2.2 _ hmem _ (List.mem_cons_self ..) rfl
    rw [List.append_cons] at hnodup ⊢
    rw [List.foldl_cons, insert, write_of_notMem hnew]
    exact ih _ hnodup

end Table

namespace Eval

variable {ε α β : Type}

/-- Comes to a value that is as said, whatever the store. -/
def Succeeds (x : Eval ε α) (good : α → Prop) : Prop :=
  ∀ s, ∃ a s', x s = some (.ok a, s') ∧ good a

namespace Succeeds

variable {good : α → Prop}

theorem pure {a : α} (h : good a) : Succeeds (pure a : Eval ε α) good :=
  fun s => ⟨a, s, rfl, h⟩

theorem bind {x : Eval ε α} {f : α → Eval ε β} {good' : β → Prop} (hx : Succeeds x good)
    (hf : ∀ a, good a → Succeeds (f a) good') : Succeeds (x >>= f) good' := by
  intro s
  obtain ⟨a, s₁, ha, hgood⟩ := hx s
  obtain ⟨b, s₂, hb, hgood'⟩ := hf a hgood s₁
  exact ⟨b, s₂, Eval.bind_eq_ok_iff.2 ⟨a, s₁, ha, hb⟩, hgood'⟩

theorem newArray {elements : List Value} {good : Value → Prop}
    (h : ∀ id, good (.array id elements)) : Succeeds (newArray elements : Eval ε Value) good :=
  fun s => ⟨_, _, rfl, h s.newIdentity.1⟩

theorem newHash {pairs : Table HashKey (Value × Value)} {good : Value → Prop}
    (h : ∀ id, good (.hash id pairs)) : Succeeds (newHash pairs : Eval ε Value) good :=
  fun s => ⟨_, _, rfl, h s.newIdentity.1⟩

end Succeeds

end Eval

namespace Value

variable {v w : Value}

theorem Alike.hashKey?_eq (h : Alike v w) : w.hashKey? = v.hashKey? := by
  rw [← hashKey?_rename (ρ := .forgetful) v, h, hashKey?_rename]

/-- Arrays are alike if their elements are, one by one. -/
theorem alike_array {i j : Identity} {vs ws : List Value}
    (h : vs.map (rename .forgetful) = ws.map (rename .forgetful)) :
    Alike (.array i vs) (.array j ws) := by
  rw [Alike, rename_array, rename_array, h]
  rfl

theorem alike_hash {i j : Identity} {vs ws : List (HashKey × (Value × Value))}
    (h : vs.map (renameEntry .forgetful) = ws.map (renameEntry .forgetful)) :
    Alike (.hash i ⟨vs⟩) (.hash j ⟨ws⟩) := by
  rw [Alike, rename_hash, rename_hash]
  exact congrArg (fun entries => Value.hash ⟨0⟩ ⟨entries⟩) h

end Value

section Evaluation

variable {apply : Applier} {scope : ScopeId}

open Value

/-- A key that a hash can have comes to its content. -/
theorem evalHashKey_succeeds {key : Value} {k : HashKey} (h : key.hashKey? = some k) :
    (evalHashKey key).Succeeds (· = k) := by
  rw [evalHashKey, h]
  exact .pure rfl

/-- Literals each of which evaluates to its value do so as a list. -/
theorem evalAll_literals {vs : List Value}
    (h : ∀ v ∈ vs, (v.literal.eval apply scope).Succeeds (Alike v)) :
    (Expr.evalAll apply scope (vs.map literal)).Succeeds fun ws =>
      vs.map (rename .forgetful) = ws.map (rename .forgetful) := by
  induction vs with
  | nil => exact .pure rfl
  | cons v vs ih =>
    rw [List.forall_mem_cons] at h
    rw [List.map_cons, Expr.evalAll]
    refine .bind h.1 fun w hw => .bind (ih h.2) fun ws hws => .pure ?_
    rw [List.map_cons, List.map_cons, hws]
    exact congrArg (· :: _) hw

/-- The pairs of a hash come out under the contents they had. -/
theorem evalPairs_literals {entries : List (HashKey × (Value × Value))}
    (hcontent : ∀ entry ∈ entries, entry.2.1.hashKey? = some entry.1)
    (hkey : ∀ entry ∈ entries, (entry.2.1.literal.eval apply scope).Succeeds (Alike entry.2.1))
    (hvalue : ∀ entry ∈ entries, (entry.2.2.literal.eval apply scope).Succeeds (Alike entry.2.2)) :
    (Expr.evalPairs apply scope
        (entries.map fun entry => (entry.2.1.literal, entry.2.2.literal))).Succeeds fun made =>
      entries.map (renameEntry .forgetful) = made.map (renameEntry .forgetful) := by
  induction entries with
  | nil => exact .pure rfl
  | cons entry entries ih =>
    rw [List.forall_mem_cons] at hcontent hkey hvalue
    rw [List.map_cons, Expr.evalPairs]
    refine .bind hkey.1 fun key hk =>
      .bind (evalHashKey_succeeds (hk.hashKey?_eq.trans hcontent.1)) fun content hc =>
        .bind hvalue.1 fun value hv => .bind (ih hcontent.2 hkey.2 hvalue.2) fun made hmade =>
          .pure ?_
    subst hc
    have hentry : renameEntry .forgetful entry = renameEntry .forgetful (entry.1, key, value) :=
      Prod.ext rfl (Prod.ext hk hv)
    rw [List.map_cons, List.map_cons, hmade, hentry]

theorem Value.Data.eval_int {n : Int64} :
    ((Value.int n).literal.eval apply scope).Succeeds (Value.Alike (.int n)) := by
  rw [literal]
  split
  · rw [Expr.eval, Expr.eval]
    refine .bind (.pure rfl) fun v hv => ?_
    subst hv
    change Eval.Succeeds (pure (Value.int (- -n))) _
    rw [Int64.neg_neg]
    exact .pure rfl
  · rw [Expr.eval]
    exact .pure rfl

/-- **The literal of data evaluates to the data**, in any scope and without
a call. -/
theorem Value.Data.eval_literal {v : Value} (h : v.Data) :
    (v.literal.eval apply scope).Succeeds (Alike v) := by
  induction h with
  | int => exact Data.eval_int
  | bool b =>
    rw [literal, Expr.eval]
    exact .pure rfl
  | array _ ih =>
    rw [literal, literalAll_eq_map, Expr.eval]
    exact .bind (evalAll_literals ih) fun ws hws => .newArray fun id => alike_array hws
  | @hash id pairs hnodup hcontent _ _ ihKey ihValue =>
    obtain ⟨entries⟩ := pairs
    rw [literal, literalEntries_eq_map, Expr.eval]
    refine .bind (evalPairs_literals hcontent ihKey ihValue) fun made hmade => ?_
    have hkeys : entries.map Prod.fst = made.map Prod.fst := by
      have hfst : Prod.fst ∘ renameEntry .forgetful = Prod.fst := rfl
      simpa only [List.map_map, hfst] using congrArg (List.map Prod.fst) hmade
    rw [Table.ofList_of_nodup (hkeys ▸ hnodup)]
    exact .newHash fun id => alike_hash hmade

end Evaluation

/-! ## The text of data as a program -/

/-- **The text of data is read as one expression, its literal.** -/
theorem Value.Data.readText_inspect {v : Value} (h : v.Data) (hn : v.nesting ≤ nestingLimit) :
    (readText v.inspect).errors = [] ∧ (readText v.inspect).program = ⟨[.expr v.literal]⟩ := by
  have hagrees := readText_agrees v.inspect
  have htokens : Token.ofText v.inspect.toList = v.tokens := by
    have hend : Token.ofText [] = [] := by rw [Token.ofText_eq]; rfl
    have htext := h.ofText_inspect (show Token.Ended [] from nofun)
    rwa [hend, List.append_nil, List.append_nil] at htext
  rw [htokens] at hagrees
  obtain ⟨hstatements, herrors, -⟩ := hagrees
  have hbody : Body (Expression nestingLimit) v.tokens [.expr v.literal] := by
    have hended : Body (Expression nestingLimit) (v.tokens ++ []) [.expr v.literal] :=
      .unended (.expr (h.expression hn)) nofun .nil
    rwa [List.append_nil] at hended
  obtain ⟨hread, hprogram⟩ := readFrom_of_derives hbody
  rw [Reading.program, hstatements, herrors]
  exact ⟨hread, congrArg Program.mk hprogram⟩

/-- **What is displayed of plain data is code for it.** Unless it is nested
too deeply, the text is read without errors; and run in any session, with
no room for a call, it comes to the same data. -/
theorem inspect_reads_back {v : Value} (h : v.Data) (hn : v.nesting ≤ nestingLimit) :
    (readText v.inspect).errors = [] ∧
      ∀ depth (session : Session), ∃ w session',
        session.run depth (readText v.inspect).program = some (w, session') ∧ v.Alike w := by
  obtain ⟨herrors, hprogram⟩ := h.readText_inspect hn
  refine ⟨herrors, fun depth session => ?_⟩
  have hsucceeds : (v.literal.eval (Value.apply depth) session.scope).Succeeds v.Alike :=
    h.eval_literal
  obtain ⟨w, store, heval, hw⟩ := hsucceeds session.store
  have hbody : Stmt.evalAll (Value.apply depth) session.scope .null [.expr v.literal]
      session.store = some (.ok w, store) := by
    rw [Stmt.evalAll, Stmt.eval]
    exact Eval.bind_eq_ok_iff.2 ⟨w, store, heval, rfl⟩
  refine ⟨w, { session with store }, ?_, hw⟩
  rw [hprogram, Session.run, Program.run, Eval.settle, Eval.atCall, hbody]
  rfl

/-- The text `{-1: [true, 2], false: {}}` is code for what it shows. -/
theorem inspect_reads_back_hash_of_array :
    let v : Value := .hash ⟨0⟩ ⟨[
      (.int (-1), .int (-1), .array ⟨1⟩ [.bool true, .int 2]),
      (.bool false, .bool false, .hash ⟨2⟩ ⟨[]⟩)]⟩
    v.Data ∧ v.nesting ≤ nestingLimit ∧ (readText v.inspect).errors = [] ∧
      ∀ depth (session : Session), ∃ w session',
        session.run depth (readText v.inspect).program = some (w, session') ∧ v.Alike w := by
  intro v
  have harray : (Value.array ⟨1⟩ [.bool true, .int 2]).Data :=
    .array (by simpa using ⟨.bool true, .int (by decide)⟩)
  have hempty : (Value.hash ⟨2⟩ ⟨[]⟩).Data := .hash .nil nofun nofun nofun
  have hdata : v.Data :=
    .hash (by decide) (by simp [Value.hashKey?]) (by simpa using ⟨.int (by decide), .bool false⟩)
      (by simpa using ⟨harray, hempty⟩)
  have hnesting : v.nesting ≤ nestingLimit := by decide
  exact ⟨hdata, hnesting, inspect_reads_back hdata hnesting⟩

end MonkeyLang
