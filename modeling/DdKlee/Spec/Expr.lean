import DdKlee.Lib.APInt
import DdKlee.Lib.Prog

/-! The expression language of `Expr.h`: arrays, update lists and expressions.
The type of an expression is its width in bits, and width 1 is `Expr::Bool`. A
constant carries an `APInt`. Expressions are values, so `ref<Expr>` disappears
and `operator==`, which is structural, is equality. An `Array` is compared by
address in the source; its address is the field `id`. -/

namespace Klee

/-- `Expr::Kind` of a cast. -/
inductive CastKind
  | zext
  | sext
deriving DecidableEq, Repr

/-- `Expr::Kind` from `BinaryKindFirst` to `BinaryKindLast`. -/
inductive BinaryKind
  | add | sub | mul | udiv | sdiv | urem | srem
  | and | or | xor | shl | lshr | ashr
  | eq | ne | ult | ule | ugt | uge | slt | sle | sgt | sge
deriving DecidableEq, Repr

/-- The kinds from `CmpKindFirst` to `CmpKindLast`. -/
def BinaryKind.isCmp : BinaryKind → Bool
  | .eq | .ne | .ult | .ule | .ugt | .uge | .slt | .sle | .sgt | .sge => true
  | _ => false

/-- The class `Array`, with what its constructor asserts; `size` is an
`unsigned`. -/
structure Array where
  id : ℕ
  name : String
  size : ℕ
  domain : ℕ
  range : ℕ
  constantValues : List APInt
  size_lt : size < 2 ^ 32
  constant_size : constantValues = [] ∨ constantValues.length = size
  constant_range : ∀ v ∈ constantValues, v.width = range
deriving DecidableEq

namespace Array

def isSymbolicArray (a : Array) : Bool := a.constantValues.isEmpty

def isConstantArray (a : Array) : Bool := !a.isSymbolicArray

/-- `ArrayCache::CreateArray` with its defaults: bytes without constant values,
indexed by 32 bits. -/
def symbolic (id : ℕ) (name : String) (size : ℕ) (h : size < 2 ^ 32) : Array where
  id := id
  name := name
  size := size
  domain := 32
  range := 8
  constantValues := []
  size_lt := h
  constant_size := .inl rfl
  constant_range := by simp

/-! Sizes of small arrays. -/

theorem one_lt_size : 1 < 2 ^ 32 := by decide
theorem two_lt_size : 2 < 2 ^ 32 := by decide
theorem four_lt_size : 4 < 2 ^ 32 := by decide

end Array

mutual

inductive Expr
  | constant (value : APInt)
  | notOptimized (src : Expr)
  | read (root : Array) (head : UpdateNode) (index : Expr)
  | select (cond trueExpr falseExpr : Expr)
  | concat (left right : Expr)
  | extract (expr : Expr) (offset width : ℕ)
  | not (expr : Expr)
  | cast (kind : CastKind) (src : Expr) (width : ℕ)
  | binary (kind : BinaryKind) (left right : Expr)

/-- A `ref<UpdateNode>`: the null reference, or the most recent update in front
of the earlier ones. -/
inductive UpdateNode
  | null
  | node (next : UpdateNode) (index value : Expr)

end

deriving instance DecidableEq for Expr, UpdateNode

/-- Induction over the updates of an array. -/
@[elab_as_elim, induction_eliminator]
theorem UpdateNode.spine_induction {motive : UpdateNode → Prop} (null : motive .null)
    (node : ∀ next i v, motive next → motive (.node next i v)) : ∀ head, motive head
  | .null => null
  | .node next i v => node next i v (UpdateNode.spine_induction null node next)

/-- The indices and values of the updates, the most recent first. -/
def UpdateNode.exprs : UpdateNode → List Expr
  | .null => []
  | .node next i v => i :: v :: next.exprs

/-- The class `UpdateList`: an array with the updates made to it. -/
structure UpdateList where
  root : Array
  head : UpdateNode
deriving DecidableEq

namespace Expr

def isConstant : Expr → Bool
  | constant _ => true
  | _ => false

def getWidth : Expr → ℕ
  | constant v => v.width
  | notOptimized src => src.getWidth
  | read root _ _ => root.range
  | select _ t _ => t.getWidth
  | concat l r => l.getWidth + r.getWidth
  | extract _ _ w => w
  | not e => e.getWidth
  | cast _ _ w => w
  | binary k l _ => if k.isCmp then 1 else l.getWidth

end Expr

mutual

/-- What the assertions of the constructors, of `UpdateList::extend` and of the
`create` functions ask of an expression. -/
def Expr.WellTyped : Expr → Prop
  | .constant _ => True
  | .notOptimized src => src.WellTyped
  | .read root head i => head.WellTyped root ∧ i.WellTyped ∧ i.getWidth = root.domain
  | .select c t f =>
      c.WellTyped ∧ t.WellTyped ∧ f.WellTyped ∧ c.getWidth = 1 ∧ t.getWidth = f.getWidth
  | .concat l r => l.WellTyped ∧ r.WellTyped
  | .extract e off w => e.WellTyped ∧ 0 < w ∧ off + w ≤ e.getWidth
  | .not e => e.WellTyped
  | .cast _ src w => src.WellTyped ∧ src.getWidth ≤ w
  | .binary _ l r => l.WellTyped ∧ r.WellTyped ∧ l.getWidth = r.getWidth

def UpdateNode.WellTyped (root : Array) : UpdateNode → Prop
  | .null => True
  | .node next i v =>
      next.WellTyped root ∧ i.WellTyped ∧ v.WellTyped ∧
        i.getWidth = root.domain ∧ v.getWidth = root.range

end

def UpdateList.WellTyped (ul : UpdateList) : Prop := ul.head.WellTyped ul.root

mutual

instance Expr.decWellTyped : (e : Expr) → Decidable e.WellTyped
  | .constant _ => inferInstanceAs (Decidable True)
  | .notOptimized src => Expr.decWellTyped src
  | .read root head i =>
      have := UpdateNode.decWellTyped root head
      have := Expr.decWellTyped i
      inferInstanceAs (Decidable (head.WellTyped root ∧ i.WellTyped ∧ i.getWidth = root.domain))
  | .select c t f =>
      have := Expr.decWellTyped c
      have := Expr.decWellTyped t
      have := Expr.decWellTyped f
      inferInstanceAs (Decidable (c.WellTyped ∧ t.WellTyped ∧ f.WellTyped ∧ c.getWidth = 1 ∧
        t.getWidth = f.getWidth))
  | .concat l r =>
      have := Expr.decWellTyped l
      have := Expr.decWellTyped r
      inferInstanceAs (Decidable (l.WellTyped ∧ r.WellTyped))
  | .extract e off w =>
      have := Expr.decWellTyped e
      inferInstanceAs (Decidable (e.WellTyped ∧ 0 < w ∧ off + w ≤ e.getWidth))
  | .not e => Expr.decWellTyped e
  | .cast _ src w =>
      have := Expr.decWellTyped src
      inferInstanceAs (Decidable (src.WellTyped ∧ src.getWidth ≤ w))
  | .binary _ l r =>
      have := Expr.decWellTyped l
      have := Expr.decWellTyped r
      inferInstanceAs (Decidable (l.WellTyped ∧ r.WellTyped ∧ l.getWidth = r.getWidth))

instance UpdateNode.decWellTyped (root : Array) :
    (head : UpdateNode) → Decidable (head.WellTyped root)
  | .null => inferInstanceAs (Decidable True)
  | .node next i v =>
      have := UpdateNode.decWellTyped root next
      have := Expr.decWellTyped i
      have := Expr.decWellTyped v
      inferInstanceAs (Decidable (next.WellTyped root ∧ i.WellTyped ∧ v.WellTyped ∧
        i.getWidth = root.domain ∧ v.getWidth = root.range))

end

instance (ul : UpdateList) : Decidable ul.WellTyped :=
  inferInstanceAs (Decidable (ul.head.WellTyped ul.root))

mutual

/-- The number of nodes, which bounds the recursions over two operands. -/
def Expr.size : Expr → ℕ
  | .constant _ => 1
  | .notOptimized src => src.size + 1
  | .read _ head i => head.size + i.size + 1
  | .select c t f => c.size + t.size + f.size + 1
  | .concat l r => l.size + r.size + 1
  | .extract e _ _ => e.size + 1
  | .not e => e.size + 1
  | .cast _ src _ => src.size + 1
  | .binary _ l r => l.size + r.size + 1

def UpdateNode.size : UpdateNode → ℕ
  | .null => 0
  | .node next i v => next.size + i.size + v.size + 1

end

/-- What a binary node weighs besides its operands: the constructor of the kind
may turn it into nodes of the kinds above it. -/
def BinaryKind.weight : BinaryKind → ℕ
  | .or | .ne | .shl | .lshr | .ult | .ugt | .slt | .sgt => 3
  | .ule | .uge | .sle | .sge => 5
  | _ => 1

mutual

/-- A measure that no `create` function increases, which bounds the recursion of
a visitor. -/
def Expr.weight : Expr → ℕ
  | .constant _ => 1
  | .notOptimized src => src.weight + 1
  | .read _ head i => head.weight + i.weight + 1
  | .select c t f => c.weight + t.weight + f.weight + 4
  | .concat l r => l.weight + r.weight + 1
  | .extract e _ _ => 2 * e.weight
  | .not e => e.weight + 1
  | .cast _ src _ => src.weight + 1
  | .binary k l r => l.weight + r.weight + k.weight

def UpdateNode.weight : UpdateNode → ℕ
  | .null => 0
  | .node next i v => next.weight + i.weight + v.weight

end

mutual

/-- Every read in the expression, also in the updates of another read, satisfies
`p` of its array and index. -/
def Expr.AllReads (p : Array → Expr → Prop) : Expr → Prop
  | .constant _ => True
  | .notOptimized src => src.AllReads p
  | .read root head i => p root i ∧ head.AllReads p ∧ i.AllReads p
  | .select c t f => c.AllReads p ∧ t.AllReads p ∧ f.AllReads p
  | .concat l r => l.AllReads p ∧ r.AllReads p
  | .extract e _ _ => e.AllReads p
  | .not e => e.AllReads p
  | .cast _ src _ => src.AllReads p
  | .binary _ l r => l.AllReads p ∧ r.AllReads p

def UpdateNode.AllReads (p : Array → Expr → Prop) : UpdateNode → Prop
  | .null => True
  | .node next i v => next.AllReads p ∧ i.AllReads p ∧ v.AllReads p

end

mutual

instance Expr.decAllReads (p : Array → Expr → Prop) [∀ root i, Decidable (p root i)] :
    (e : Expr) → Decidable (e.AllReads p)
  | .constant _ => inferInstanceAs (Decidable True)
  | .notOptimized src => Expr.decAllReads p src
  | .read root head i =>
      have := UpdateNode.decAllReads p head
      have := Expr.decAllReads p i
      inferInstanceAs (Decidable (p root i ∧ head.AllReads p ∧ i.AllReads p))
  | .select c t f =>
      have := Expr.decAllReads p c
      have := Expr.decAllReads p t
      have := Expr.decAllReads p f
      inferInstanceAs (Decidable (c.AllReads p ∧ t.AllReads p ∧ f.AllReads p))
  | .concat l r | .binary _ l r =>
      have := Expr.decAllReads p l
      have := Expr.decAllReads p r
      inferInstanceAs (Decidable (l.AllReads p ∧ r.AllReads p))
  | .extract e _ _ => Expr.decAllReads p e
  | .not e => Expr.decAllReads p e
  | .cast _ src _ => Expr.decAllReads p src

instance UpdateNode.decAllReads (p : Array → Expr → Prop) [∀ root i, Decidable (p root i)] :
    (head : UpdateNode) → Decidable (head.AllReads p)
  | .null => inferInstanceAs (Decidable True)
  | .node next i v =>
      have := UpdateNode.decAllReads p next
      have := Expr.decAllReads p i
      have := Expr.decAllReads p v
      inferInstanceAs (Decidable (next.AllReads p ∧ i.AllReads p ∧ v.AllReads p))

end

end Klee
