import Mathlib.Logic.Basic
import MonkeyLang.Text.Decimal
import MonkeyLang.Token
import MonkeyLang.Tree.Basic
/-!
# Leaves and shape

The names, strings and numbers of a tree are its leaves, in the order in
which a text has them. What is left when the names and strings are blotted
out is its shape. The two together are the tree (`Stmt.eq_of_shapeAll`), so
trees of one shape differ in names and strings only, and their leaves say
where.

Two trees of one shape can be put side by side, which makes pairs of their
leaves (`View.Pairs`). How the pairs of a tree come from those of its parts
is said once for each kind of tree.
-/

namespace MonkeyLang

/-- A name, a string or a number. -/
inductive Leaf where
  | name (name : String)
  | string (value : String)
  | int (value : Int64)
  deriving DecidableEq, Repr

/-- What a token is as a leaf, if it is one: the number of a numeral that has
one, and the literal of an identifier or a string. -/
def Token.leaf? (t : Token) : Option Leaf :=
  match t.kind with
  | .ident => some (.name t.literal)
  | .string => some (.string t.literal)
  | .int => (Decimal.read? t.literal.toList).map .int
  | _ => none

/-! ## Leaves -/

mutual

/-- The leaves of an expression. -/
def Expr.leaves : Expr → List Leaf
  | .ident name => [.name name]
  | .int value => [.int value]
  | .bool _ => []
  | .string value => [.string value]
  | .array elements => Expr.leavesAll elements
  | .hash pairs => Expr.leavesPairs pairs
  | .unary _ operand => operand.leaves
  | .binary _ left right => left.leaves ++ right.leaves
  | .cond condition consequence alternative =>
    condition.leaves ++ (Stmt.leavesAll consequence ++ Stmt.leavesElse alternative)
  | .function parameters body => parameters.map .name ++ Stmt.leavesAll body
  | .call callee arguments => callee.leaves ++ Expr.leavesAll arguments
  | .index left position => left.leaves ++ position.leaves

/-- The leaves of some expressions. -/
def Expr.leavesAll : List Expr → List Leaf
  | [] => []
  | e :: es => e.leaves ++ Expr.leavesAll es

/-- The leaves of some keys and values. -/
def Expr.leavesPairs : List (Expr × Expr) → List Leaf
  | [] => []
  | (key, value) :: pairs => key.leaves ++ value.leaves ++ Expr.leavesPairs pairs

/-- The leaves of a statement; the name that a `let` binds comes first. -/
def Stmt.leaves : Stmt → List Leaf
  | .bind name value => .name name :: value.leaves
  | .ret value => value.leaves
  | .expr value => value.leaves
  | .block body => Stmt.leavesAll body

/-- The leaves of some statements. -/
def Stmt.leavesAll : List Stmt → List Leaf
  | [] => []
  | s :: ss => s.leaves ++ Stmt.leavesAll ss

/-- The leaves of the block behind an `else`, if there is one. -/
def Stmt.leavesElse : Option (List Stmt) → List Leaf
  | none => []
  | some body => Stmt.leavesAll body

end

/-! ## Blocks -/

mutual

/-- No statement in an expression is a block of its own. -/
def Expr.Blockless : Expr → Prop
  | .array elements => Expr.BlocklessAll elements
  | .hash pairs => Expr.BlocklessPairs pairs
  | .unary _ operand => operand.Blockless
  | .binary _ left right => left.Blockless ∧ right.Blockless
  | .cond condition consequence alternative =>
    condition.Blockless ∧ Stmt.BlocklessAll consequence ∧ Stmt.BlocklessElse alternative
  | .function _ body => Stmt.BlocklessAll body
  | .call callee arguments => callee.Blockless ∧ Expr.BlocklessAll arguments
  | .index left position => left.Blockless ∧ position.Blockless
  | _ => True

/-- No statement in any of some expressions is a block of its own. -/
def Expr.BlocklessAll : List Expr → Prop
  | [] => True
  | e :: es => e.Blockless ∧ Expr.BlocklessAll es

/-- No statement in any of some keys and values is a block of its own. -/
def Expr.BlocklessPairs : List (Expr × Expr) → Prop
  | [] => True
  | (key, value) :: pairs => (key.Blockless ∧ value.Blockless) ∧ Expr.BlocklessPairs pairs

/-- A statement is no block of its own, and none in it is. -/
def Stmt.Blockless : Stmt → Prop
  | .bind _ value => value.Blockless
  | .ret value => value.Blockless
  | .expr value => value.Blockless
  | .block _ => False

/-- None of some statements is a block of its own, and none in them is. -/
def Stmt.BlocklessAll : List Stmt → Prop
  | [] => True
  | s :: ss => s.Blockless ∧ Stmt.BlocklessAll ss

/-- No statement behind an `else`, if there is one, is a block of its own. -/
def Stmt.BlocklessElse : Option (List Stmt) → Prop
  | none => True
  | some body => Stmt.BlocklessAll body

end

/-! ## Shape -/

mutual

/-- The expression with its names and strings blotted out. -/
def Expr.shape : Expr → Expr
  | .ident _ => .ident ""
  | .int value => .int value
  | .bool value => .bool value
  | .string _ => .string ""
  | .array elements => .array (Expr.shapeAll elements)
  | .hash pairs => .hash (Expr.shapePairs pairs)
  | .unary op operand => .unary op operand.shape
  | .binary op left right => .binary op left.shape right.shape
  | .cond condition consequence alternative =>
    .cond condition.shape (Stmt.shapeAll consequence) (Stmt.shapeElse alternative)
  | .function parameters body => .function (parameters.map fun _ => "") (Stmt.shapeAll body)
  | .call callee arguments => .call callee.shape (Expr.shapeAll arguments)
  | .index left position => .index left.shape position.shape

/-- Each expression with its names and strings blotted out. -/
def Expr.shapeAll : List Expr → List Expr
  | [] => []
  | e :: es => e.shape :: Expr.shapeAll es

/-- The pairs of a hash with their names and strings blotted out. -/
def Expr.shapePairs : List (Expr × Expr) → List (Expr × Expr)
  | [] => []
  | (key, value) :: pairs => (key.shape, value.shape) :: Expr.shapePairs pairs

/-- The statement with its names and strings blotted out. -/
def Stmt.shape : Stmt → Stmt
  | .bind _ value => .bind "" value.shape
  | .ret value => .ret value.shape
  | .expr value => .expr value.shape
  | .block body => .block (Stmt.shapeAll body)

/-- Each statement with its names and strings blotted out. -/
def Stmt.shapeAll : List Stmt → List Stmt
  | [] => []
  | s :: ss => s.shape :: Stmt.shapeAll ss

/-- The block behind an `else`, if there is one, with its names and strings
blotted out. -/
def Stmt.shapeElse : Option (List Stmt) → Option (List Stmt)
  | none => none
  | some body => some (Stmt.shapeAll body)

end

/-- As many names with the same leaves are the same names. -/
theorem Leaf.eq_of_map_name {ps qs : List String} {rest rest' : List Leaf}
    (hshape : ps.map (fun _ => "") = qs.map fun _ => "")
    (hleaves : ps.map Leaf.name ++ rest = qs.map Leaf.name ++ rest') : ps = qs ∧ rest = rest' := by
  have hlength : (ps.map Leaf.name).length = (qs.map Leaf.name).length := by
    simpa using congrArg List.length hshape
  obtain ⟨hnames, hrest⟩ := List.append_inj hleaves hlength
  exact ⟨(List.map_inj_right fun _ _ => Leaf.name.inj).1 hnames, hrest⟩

mutual

/-- **Shape and leaves are the whole expression**, and where its leaves end
can be told from its shape. -/
theorem Expr.eq_of_shape (a b : Expr) {rest rest' : List Leaf} (hshape : a.shape = b.shape)
    (hleaves : a.leaves ++ rest = b.leaves ++ rest') : a = b ∧ rest = rest' := by
  cases a with
  -- in each case the shape leaves one form for `b`
  | ident name =>
    cases b <;> simp only [Expr.shape, reduceCtorEq] at hshape
    simpa [Expr.leaves] using hleaves
  | int value =>
    cases b <;> simp only [Expr.shape, reduceCtorEq, Expr.int.injEq] at hshape
    simpa [Expr.leaves] using hleaves
  | bool value =>
    cases b <;> simp only [Expr.shape, reduceCtorEq, Expr.bool.injEq] at hshape
    exact ⟨congrArg _ hshape, hleaves⟩
  | string value =>
    cases b <;> simp only [Expr.shape, reduceCtorEq] at hshape
    simpa [Expr.leaves] using hleaves
  | array elements =>
    cases b <;> simp only [Expr.shape, reduceCtorEq, Expr.array.injEq] at hshape
    obtain ⟨rfl, hrest⟩ := Expr.eq_of_shapeAll elements _ hshape hleaves
    exact ⟨rfl, hrest⟩
  | hash pairs =>
    cases b <;> simp only [Expr.shape, reduceCtorEq, Expr.hash.injEq] at hshape
    obtain ⟨rfl, hrest⟩ := Expr.eq_of_shapePairs pairs _ hshape hleaves
    exact ⟨rfl, hrest⟩
  | unary op operand =>
    cases b <;> simp only [Expr.shape, reduceCtorEq, Expr.unary.injEq] at hshape
    obtain ⟨rfl, hrest⟩ := Expr.eq_of_shape operand _ hshape.2 hleaves
    exact ⟨by rw [hshape.1], hrest⟩
  | binary op left right =>
    cases b <;> simp only [Expr.shape, reduceCtorEq, Expr.binary.injEq] at hshape
    simp only [Expr.leaves, List.append_assoc] at hleaves
    obtain ⟨rfl, hright⟩ := Expr.eq_of_shape left _ hshape.2.1 hleaves
    obtain ⟨rfl, hrest⟩ := Expr.eq_of_shape right _ hshape.2.2 hright
    exact ⟨by rw [hshape.1], hrest⟩
  | cond condition consequence alternative =>
    cases b <;> simp only [Expr.shape, reduceCtorEq, Expr.cond.injEq] at hshape
    simp only [Expr.leaves, List.append_assoc] at hleaves
    obtain ⟨rfl, hblocks⟩ := Expr.eq_of_shape condition _ hshape.1 hleaves
    obtain ⟨rfl, helse⟩ := Stmt.eq_of_shapeAll consequence _ hshape.2.1 hblocks
    obtain ⟨rfl, hrest⟩ := Stmt.eq_of_shapeElse alternative _ hshape.2.2 helse
    exact ⟨rfl, hrest⟩
  | function parameters body =>
    cases b <;> simp only [Expr.shape, reduceCtorEq, Expr.function.injEq] at hshape
    simp only [Expr.leaves, List.append_assoc] at hleaves
    obtain ⟨rfl, hbody⟩ := Leaf.eq_of_map_name hshape.1 hleaves
    obtain ⟨rfl, hrest⟩ := Stmt.eq_of_shapeAll body _ hshape.2 hbody
    exact ⟨rfl, hrest⟩
  | call callee arguments =>
    cases b <;> simp only [Expr.shape, reduceCtorEq, Expr.call.injEq] at hshape
    simp only [Expr.leaves, List.append_assoc] at hleaves
    obtain ⟨rfl, hlisted⟩ := Expr.eq_of_shape callee _ hshape.1 hleaves
    obtain ⟨rfl, hrest⟩ := Expr.eq_of_shapeAll arguments _ hshape.2 hlisted
    exact ⟨rfl, hrest⟩
  | index left position =>
    cases b <;> simp only [Expr.shape, reduceCtorEq, Expr.index.injEq] at hshape
    simp only [Expr.leaves, List.append_assoc] at hleaves
    obtain ⟨rfl, hinside⟩ := Expr.eq_of_shape left _ hshape.1 hleaves
    obtain ⟨rfl, hrest⟩ := Expr.eq_of_shape position _ hshape.2 hinside
    exact ⟨rfl, hrest⟩
termination_by structural a

/-- Expressions are compared from the left: behind the leaves of the first
come those of the others. -/
theorem Expr.eq_of_shapeAll (as bs : List Expr) {rest rest' : List Leaf}
    (hshape : Expr.shapeAll as = Expr.shapeAll bs)
    (hleaves : Expr.leavesAll as ++ rest = Expr.leavesAll bs ++ rest') :
    as = bs ∧ rest = rest' := by
  match as, bs with
  | [], [] => exact ⟨rfl, hleaves⟩
  | a :: as, b :: bs =>
    obtain ⟨ha, has⟩ := List.cons.inj hshape
    simp only [Expr.leavesAll, List.append_assoc] at hleaves
    obtain ⟨rfl, hothers⟩ := Expr.eq_of_shape a b ha hleaves
    obtain ⟨rfl, hrest⟩ := Expr.eq_of_shapeAll as bs has hothers
    exact ⟨rfl, hrest⟩
termination_by structural as

/-- And so are keys and values. -/
theorem Expr.eq_of_shapePairs (as bs : List (Expr × Expr)) {rest rest' : List Leaf}
    (hshape : Expr.shapePairs as = Expr.shapePairs bs)
    (hleaves : Expr.leavesPairs as ++ rest = Expr.leavesPairs bs ++ rest') :
    as = bs ∧ rest = rest' := by
  match as, bs with
  | [], [] => exact ⟨rfl, hleaves⟩
  | (key, value) :: as, (key', value') :: bs =>
    obtain ⟨hpair, has⟩ := List.cons.inj hshape
    obtain ⟨hkey, hvalue⟩ := Prod.mk.inj hpair
    simp only [Expr.leavesPairs, List.append_assoc] at hleaves
    obtain ⟨rfl, hbehind⟩ := Expr.eq_of_shape key key' hkey hleaves
    obtain ⟨rfl, hothers⟩ := Expr.eq_of_shape value value' hvalue hbehind
    obtain ⟨rfl, hrest⟩ := Expr.eq_of_shapePairs as bs has hothers
    exact ⟨rfl, hrest⟩
termination_by structural as

/-- The name that a `let` binds is told by the first leaf. -/
theorem Stmt.eq_of_shape (a b : Stmt) {rest rest' : List Leaf} (hshape : a.shape = b.shape)
    (hleaves : a.leaves ++ rest = b.leaves ++ rest') : a = b ∧ rest = rest' := by
  cases a with
  | bind name value =>
    cases b <;> simp only [Stmt.shape, reduceCtorEq, Stmt.bind.injEq, true_and] at hshape
    simp only [Stmt.leaves, List.cons_append, List.cons.injEq, Leaf.name.injEq] at hleaves
    obtain ⟨rfl, hrest⟩ := Expr.eq_of_shape value _ hshape hleaves.2
    exact ⟨by rw [hleaves.1], hrest⟩
  | ret value =>
    cases b <;> simp only [Stmt.shape, reduceCtorEq, Stmt.ret.injEq] at hshape
    obtain ⟨rfl, hrest⟩ := Expr.eq_of_shape value _ hshape hleaves
    exact ⟨rfl, hrest⟩
  | expr value =>
    cases b <;> simp only [Stmt.shape, reduceCtorEq, Stmt.expr.injEq] at hshape
    obtain ⟨rfl, hrest⟩ := Expr.eq_of_shape value _ hshape hleaves
    exact ⟨rfl, hrest⟩
  | block body =>
    cases b <;> simp only [Stmt.shape, reduceCtorEq, Stmt.block.injEq] at hshape
    obtain ⟨rfl, hrest⟩ := Stmt.eq_of_shapeAll body _ hshape hleaves
    exact ⟨rfl, hrest⟩
termination_by structural a

/-- **Shape and leaves are the whole program**, as they are the whole of
any statements. -/
theorem Stmt.eq_of_shapeAll (as bs : List Stmt) {rest rest' : List Leaf}
    (hshape : Stmt.shapeAll as = Stmt.shapeAll bs)
    (hleaves : Stmt.leavesAll as ++ rest = Stmt.leavesAll bs ++ rest') :
    as = bs ∧ rest = rest' := by
  match as, bs with
  | [], [] => exact ⟨rfl, hleaves⟩
  | a :: as, b :: bs =>
    obtain ⟨ha, has⟩ := List.cons.inj hshape
    simp only [Stmt.leavesAll, List.append_assoc] at hleaves
    obtain ⟨rfl, hothers⟩ := Stmt.eq_of_shape a b ha hleaves
    obtain ⟨rfl, hrest⟩ := Stmt.eq_of_shapeAll as bs has hothers
    exact ⟨rfl, hrest⟩
termination_by structural as

theorem Stmt.eq_of_shapeElse (as bs : Option (List Stmt)) {rest rest' : List Leaf}
    (hshape : Stmt.shapeElse as = Stmt.shapeElse bs)
    (hleaves : Stmt.leavesElse as ++ rest = Stmt.leavesElse bs ++ rest') :
    as = bs ∧ rest = rest' := by
  match as, bs with
  | none, none => exact ⟨rfl, hleaves⟩
  | some as, some bs =>
    obtain ⟨rfl, hrest⟩ := Stmt.eq_of_shapeAll as bs (Option.some.inj hshape) hleaves
    exact ⟨rfl, hrest⟩
termination_by structural as

end

/-! ## Trees side by side -/

/-- Leaves of two trees, side by side. -/
abbrev Pairing := List (Leaf × Leaf)

/-- What is looked at in a tree, or in a list of trees. -/
structure View (α : Type) where
  shape : α → α
  leaves : α → List Leaf
  Blockless : α → Prop

def Expr.view : View Expr := ⟨Expr.shape, Expr.leaves, Expr.Blockless⟩

def Expr.viewAll : View (List Expr) := ⟨Expr.shapeAll, Expr.leavesAll, Expr.BlocklessAll⟩

def Expr.viewPair : View (Expr × Expr) where
  shape pair := (pair.1.shape, pair.2.shape)
  leaves pair := pair.1.leaves ++ pair.2.leaves
  Blockless pair := pair.1.Blockless ∧ pair.2.Blockless

def Expr.viewPairs : View (List (Expr × Expr)) :=
  ⟨Expr.shapePairs, Expr.leavesPairs, Expr.BlocklessPairs⟩

def Stmt.view : View Stmt := ⟨Stmt.shape, Stmt.leaves, Stmt.Blockless⟩

def Stmt.viewAll : View (List Stmt) := ⟨Stmt.shapeAll, Stmt.leavesAll, Stmt.BlocklessAll⟩

def Stmt.viewElse : View (Option (List Stmt)) :=
  ⟨Stmt.shapeElse, Stmt.leavesElse, Stmt.BlocklessElse⟩

def Leaf.viewName : View String := ⟨fun _ => "", fun name => [.name name], fun _ => True⟩

def Leaf.viewNames : View (List String) :=
  ⟨List.map fun _ => "", List.map .name, fun _ => True⟩

/-- Two trees have one shape and no blocks of their own, and their leaves are
paired so. -/
structure View.Pairs {α : Type} (V : View α) (pairs : Pairing) (a b : α) : Prop where
  shape : V.shape a = V.shape b
  left : V.leaves a = pairs.map Prod.fst
  right : V.leaves b = pairs.map Prod.snd
  blockless : V.Blockless a

/-- Two lists whose members go together one by one. -/
inductive InTurn {α : Type} (W : Pairing → α → α → Prop) : Pairing → List α → List α → Prop
  | nil : InTurn W [] [] []
  | cons {pairs more : Pairing} {a b : α} {as bs : List α} :
    W pairs a b → InTurn W more as bs → InTurn W (pairs ++ more) (a :: as) (b :: bs)

section Trees

variable {pairs more last : Pairing}

/-- Leaves behind leaves are one side of pairs behind pairs. -/
theorem append_eq_map {xs ys : List Leaf} {f : Leaf × Leaf → Leaf} (hxs : xs = pairs.map f)
    (hys : ys = more.map f) : xs ++ ys = (pairs ++ more).map f := by
  rw [hxs, hys, List.map_append]

/-- A list of trees is looked at by looking at each. -/
structure View.Lists {α : Type} (V : View α) (U : View (List α)) : Prop where
  nil : U.shape [] = [] ∧ U.leaves [] = [] ∧ U.Blockless []
  shape (a : α) (as : List α) : U.shape (a :: as) = V.shape a :: U.shape as
  leaves (a : α) (as : List α) : U.leaves (a :: as) = V.leaves a ++ U.leaves as
  blockless {a : α} {as : List α} : V.Blockless a → U.Blockless as → U.Blockless (a :: as)

/-- Names are looked at one by one, and so are expressions, pairs and
statements. -/
theorem Leaf.lists : viewName.Lists viewNames :=
  ⟨⟨rfl, rfl, trivial⟩, fun _ _ => rfl, fun _ _ => rfl, fun _ _ => trivial⟩

theorem Expr.lists : view.Lists viewAll :=
  ⟨⟨rfl, rfl, trivial⟩, fun _ _ => rfl, fun _ _ => rfl, fun h hs => ⟨h, hs⟩⟩

theorem Expr.listsPairs : viewPair.Lists viewPairs :=
  ⟨⟨rfl, rfl, trivial⟩, fun _ _ => rfl, fun _ _ => rfl, fun h hs => ⟨h, hs⟩⟩

theorem Stmt.lists : view.Lists viewAll :=
  ⟨⟨rfl, rfl, trivial⟩, fun _ _ => rfl, fun _ _ => rfl, fun h hs => ⟨h, hs⟩⟩

/-- What goes together one by one goes together as a whole. -/
theorem InTurn.together {α : Type} {V : View α} {U : View (List α)} (hlists : V.Lists U)
    {as bs : List α} (h : InTurn V.Pairs pairs as bs) : U.Pairs pairs as bs := by
  induction h with
  | nil => exact ⟨rfl, hlists.nil.2.1, hlists.nil.2.1, hlists.nil.2.2⟩
  | cons h _ ih =>
    refine ⟨?_, ?_, ?_, hlists.blockless h.blockless ih.blockless⟩
    · rw [hlists.shape, hlists.shape, h.shape, ih.shape]
    · rw [hlists.leaves]
      exact append_eq_map h.left ih.left
    · rw [hlists.leaves]
      exact append_eq_map h.right ih.right

/-- The leaves of a key come before those of its value. -/
theorem Expr.pairs_pair {a b : Expr × Expr} (hkey : Expr.view.Pairs pairs a.1 b.1)
    (hvalue : Expr.view.Pairs more a.2 b.2) : Expr.viewPair.Pairs (pairs ++ more) a b :=
  ⟨congrArg₂ Prod.mk hkey.shape hvalue.shape, append_eq_map hkey.left hvalue.left,
    append_eq_map hkey.right hvalue.right, hkey.blockless, hvalue.blockless⟩

theorem Stmt.pairs_some {as bs : List Stmt} (h : Stmt.viewAll.Pairs pairs as bs) :
    Stmt.viewElse.Pairs pairs (some as) (some bs) :=
  ⟨congrArg some h.shape, h.left, h.right, h.blockless⟩

namespace Expr

/-- An array has the leaves of its elements only, and so a hash those of
its pairs. -/
theorem pairs_array {as bs : List Expr} (h : viewAll.Pairs pairs as bs) :
    view.Pairs pairs (.array as) (.array bs) :=
  ⟨congrArg Expr.array h.shape, h.left, h.right, h.blockless⟩

theorem pairs_hash {as bs : List (Expr × Expr)} (h : viewPairs.Pairs pairs as bs) :
    view.Pairs pairs (.hash as) (.hash bs) :=
  ⟨congrArg Expr.hash h.shape, h.left, h.right, h.blockless⟩

/-- The operator belongs to the shape. -/
theorem pairs_unary (op : UnaryOp) {a b : Expr} (h : view.Pairs pairs a b) :
    view.Pairs pairs (.unary op a) (.unary op b) :=
  ⟨congrArg (Expr.unary op) h.shape, h.left, h.right, h.blockless⟩

theorem pairs_binary (op : BinaryOp) {a a' b b' : Expr} (h : view.Pairs pairs a b)
    (h' : view.Pairs more a' b') : view.Pairs (pairs ++ more) (.binary op a a') (.binary op b b') :=
  ⟨congrArg₂ (Expr.binary op) h.shape h'.shape, append_eq_map h.left h'.left,
    append_eq_map h.right h'.right, h.blockless, h'.blockless⟩

/-- The leaves of a condition come first, those of the block behind an
`else` last. -/
theorem pairs_cond {a b : Expr} {as bs : List Stmt} {as' bs' : Option (List Stmt)}
    (h : view.Pairs pairs a b) (hthen : Stmt.viewAll.Pairs more as bs)
    (helse : Stmt.viewElse.Pairs last as' bs') :
    view.Pairs (pairs ++ (more ++ last)) (.cond a as as') (.cond b bs bs') where
  shape := by
    change Expr.cond a.shape (Stmt.shapeAll as) (Stmt.shapeElse as') = _
    rw [show a.shape = _ from h.shape, show Stmt.shapeAll as = _ from hthen.shape,
      show Stmt.shapeElse as' = _ from helse.shape]
    rfl
  left := append_eq_map h.left (append_eq_map hthen.left helse.left)
  right := append_eq_map h.right (append_eq_map hthen.right helse.right)
  blockless := ⟨h.blockless, hthen.blockless, helse.blockless⟩

/-- The parameters are leaves, too, before those of the body. -/
theorem pairs_function {ps qs : List String} {as bs : List Stmt}
    (h : Leaf.viewNames.Pairs pairs ps qs) (hbody : Stmt.viewAll.Pairs more as bs) :
    view.Pairs (pairs ++ more) (.function ps as) (.function qs bs) :=
  ⟨congrArg₂ Expr.function h.shape hbody.shape, append_eq_map h.left hbody.left,
    append_eq_map h.right hbody.right, hbody.blockless⟩

theorem pairs_call {a b : Expr} {as bs : List Expr} (h : view.Pairs pairs a b)
    (hlisted : viewAll.Pairs more as bs) : view.Pairs (pairs ++ more) (.call a as) (.call b bs) :=
  ⟨congrArg₂ Expr.call h.shape hlisted.shape, append_eq_map h.left hlisted.left,
    append_eq_map h.right hlisted.right, h.blockless, hlisted.blockless⟩

theorem pairs_index {a a' b b' : Expr} (h : view.Pairs pairs a b)
    (h' : view.Pairs more a' b') : view.Pairs (pairs ++ more) (.index a a') (.index b b') :=
  ⟨congrArg₂ Expr.index h.shape h'.shape, append_eq_map h.left h'.left,
    append_eq_map h.right h'.right, h.blockless, h'.blockless⟩

end Expr

namespace Stmt

/-- The name that a `let` binds comes before the leaves of the value. -/
theorem pairs_bind {name name' : String} {a b : Expr} (h : Leaf.viewName.Pairs pairs name name')
    (hvalue : Expr.view.Pairs more a b) :
    view.Pairs (pairs ++ more) (.bind name a) (.bind name' b) :=
  ⟨congrArg (Stmt.bind "") hvalue.shape, append_eq_map h.left hvalue.left,
    append_eq_map h.right hvalue.right, hvalue.blockless⟩

theorem pairs_ret {a b : Expr} (h : Expr.view.Pairs pairs a b) :
    view.Pairs pairs (.ret a) (.ret b) :=
  ⟨congrArg Stmt.ret h.shape, h.left, h.right, h.blockless⟩

theorem pairs_expr {a b : Expr} (h : Expr.view.Pairs pairs a b) :
    view.Pairs pairs (.expr a) (.expr b) :=
  ⟨congrArg Stmt.expr h.shape, h.left, h.right, h.blockless⟩

end Stmt

end Trees

end MonkeyLang
