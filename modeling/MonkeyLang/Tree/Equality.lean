import MonkeyLang.Tree.Basic
/-!
# Equality of syntax trees

Two trees are compared node by node. `Expr.same_eq_true_iff` and its
companions say that the comparison holds exactly of equal trees, which
makes equality of trees decidable.
-/

namespace MonkeyLang

mutual

/-- Are two expressions the same tree? -/
def Expr.same : Expr → Expr → Bool
  | .ident a, .ident b => a == b
  | .int a, .int b => a == b
  | .bool a, .bool b => a == b
  | .string a, .string b => a == b
  | .array as, .array bs => Expr.sameAll as bs
  | .hash as, .hash bs => Expr.samePairs as bs
  | .unary o a, .unary p b => o == p && a.same b
  | .binary o a a', .binary p b b' => o == p && a.same b && a'.same b'
  | .cond a as none, .cond b bs none => a.same b && Stmt.sameAll as bs
  | .cond a as (some as'), .cond b bs (some bs') =>
    a.same b && Stmt.sameAll as bs && Stmt.sameAll as' bs'
  | .function ps as, .function qs bs => ps == qs && Stmt.sameAll as bs
  | .call a as, .call b bs => a.same b && Expr.sameAll as bs
  | .index a a', .index b b' => a.same b && a'.same b'
  | _, _ => false

/-- Are two lists of expressions the same, one by one? -/
def Expr.sameAll : List Expr → List Expr → Bool
  | [], [] => true
  | a :: as, b :: bs => a.same b && Expr.sameAll as bs
  | _, _ => false

/-- Are two lists of pairs of expressions the same, one by one? -/
def Expr.samePairs : List (Expr × Expr) → List (Expr × Expr) → Bool
  | [], [] => true
  | (a, a') :: as, (b, b') :: bs => a.same b && a'.same b' && Expr.samePairs as bs
  | _, _ => false

/-- Are two statements the same tree? -/
def Stmt.same : Stmt → Stmt → Bool
  | .bind n a, .bind m b => n == m && a.same b
  | .ret a, .ret b => a.same b
  | .expr a, .expr b => a.same b
  | .block as, .block bs => Stmt.sameAll as bs
  | _, _ => false

/-- Are two blocks the same, statement by statement? -/
def Stmt.sameAll : List Stmt → List Stmt → Bool
  | [], [] => true
  | a :: as, b :: bs => a.same b && Stmt.sameAll as bs
  | _, _ => false

end

mutual

/-- **Trees are compared as equal just if they are.** -/
theorem Expr.same_eq_true_iff : ∀ a b : Expr, a.same b = true ↔ a = b
  | .ident _, b => by cases b <;> simp [Expr.same]
  | .int _, b => by cases b <;> simp [Expr.same]
  | .bool _, b => by cases b <;> simp [Expr.same]
  | .string _, b => by cases b <;> simp [Expr.same]
  | .array as, b => by cases b <;> simp [Expr.same, Expr.sameAll_eq_true_iff as]
  | .hash as, b => by cases b <;> simp [Expr.same, Expr.samePairs_eq_true_iff as]
  | .unary _ a, b => by cases b <;> simp [Expr.same, Expr.same_eq_true_iff a]
  | .binary _ a a', b => by
    cases b <;> simp [Expr.same, Expr.same_eq_true_iff a, Expr.same_eq_true_iff a', and_assoc]
  | .cond a as none, b => by
    rcases b with _ | _ | _ | _ | _ | _ | _ | _ | ⟨_, _, _ | _⟩ | _ | _ | _ <;>
      simp [Expr.same, Expr.same_eq_true_iff a, Stmt.sameAll_eq_true_iff as]
  | .cond a as (some as'), b => by
    rcases b with _ | _ | _ | _ | _ | _ | _ | _ | ⟨_, _, _ | _⟩ | _ | _ | _ <;>
      simp [Expr.same, Expr.same_eq_true_iff a, Stmt.sameAll_eq_true_iff as,
        Stmt.sameAll_eq_true_iff as', and_assoc]
  | .function _ as, b => by cases b <;> simp [Expr.same, Stmt.sameAll_eq_true_iff as]
  | .call a as, b => by
    cases b <;> simp [Expr.same, Expr.same_eq_true_iff a, Expr.sameAll_eq_true_iff as]
  | .index a a', b => by
    cases b <;> simp [Expr.same, Expr.same_eq_true_iff a, Expr.same_eq_true_iff a']

theorem Expr.sameAll_eq_true_iff : ∀ as bs : List Expr, Expr.sameAll as bs = true ↔ as = bs
  | [], bs => by cases bs <;> simp [Expr.sameAll]
  | a :: as, bs => by
    cases bs <;> simp [Expr.sameAll, Expr.same_eq_true_iff a, Expr.sameAll_eq_true_iff as]

theorem Expr.samePairs_eq_true_iff :
    ∀ as bs : List (Expr × Expr), Expr.samePairs as bs = true ↔ as = bs
  | [], bs => by cases bs <;> simp [Expr.samePairs]
  | (a, a') :: as, bs => by
    rcases bs with _ | ⟨⟨b, b'⟩, bs⟩ <;>
      simp [Expr.samePairs, Expr.same_eq_true_iff a, Expr.same_eq_true_iff a',
        Expr.samePairs_eq_true_iff as]

theorem Stmt.same_eq_true_iff : ∀ a b : Stmt, a.same b = true ↔ a = b
  | .bind _ a, b => by cases b <;> simp [Stmt.same, Expr.same_eq_true_iff a]
  | .ret a, b => by cases b <;> simp [Stmt.same, Expr.same_eq_true_iff a]
  | .expr a, b => by cases b <;> simp [Stmt.same, Expr.same_eq_true_iff a]
  | .block as, b => by cases b <;> simp [Stmt.same, Stmt.sameAll_eq_true_iff as]

theorem Stmt.sameAll_eq_true_iff : ∀ as bs : List Stmt, Stmt.sameAll as bs = true ↔ as = bs
  | [], bs => by cases bs <;> simp [Stmt.sameAll]
  | a :: as, bs => by
    cases bs <;> simp [Stmt.sameAll, Stmt.same_eq_true_iff a, Stmt.sameAll_eq_true_iff as]

end

instance : DecidableEq Expr := fun a b => decidable_of_iff _ (Expr.same_eq_true_iff a b)

instance : DecidableEq Stmt := fun a b => decidable_of_iff _ (Stmt.same_eq_true_iff a b)

deriving instance DecidableEq for Program

end MonkeyLang
