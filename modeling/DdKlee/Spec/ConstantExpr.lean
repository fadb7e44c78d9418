import DdKlee.Spec.Expr

/-! The operations of `ConstantExpr` and the meaning of an expression, which is
its bottom-up evaluation with them under an assignment of bytes to arrays. -/

namespace Klee

namespace ConstantExpr

def isZero (c : APInt) : Bool := c.isMinValue

def isOne (c : APInt) : Bool := c.getLimitedValue (2 ^ 64 - 1) == 1

def isTrue (c : APInt) : Bool := c.width == 1 && c.getBoolValue

def isFalse (c : APInt) : Bool := c.width == 1 && !c.getBoolValue

def isAllOnes (c : APInt) : Bool := c.isAllOnesValue

def Concat (c rhs : APInt) : APInt :=
  let w := c.width + rhs.width
  APInt.or ⟨w, (c.zextOrTrunc w).bits <<< rhs.width⟩ (rhs.zextOrTrunc w)

/-- `value.ashr(Offset).zextOrTrunc(W)`. -/
def Extract (c : APInt) (offset w : ℕ) : APInt :=
  APInt.zextOrTrunc ⟨c.width, c.bits.sshiftRight offset⟩ w

def ZExt (c : APInt) (w : ℕ) : APInt := c.zextOrTrunc w

def SExt (c : APInt) (w : ℕ) : APInt := c.sextOrTrunc w

def Not (c : APInt) : APInt := c.not

end ConstantExpr

/-- `Expr::isTrue`, for Bool expressions. -/
def Expr.isTrue : Expr → Bool
  | .constant c => ConstantExpr.isTrue c
  | _ => false

def Expr.isFalse : Expr → Bool
  | .constant c => ConstantExpr.isFalse c
  | _ => false

/-- `ConstantExpr::ZExt` and `ConstantExpr::SExt`. -/
def CastKind.apply : CastKind → APInt → ℕ → APInt
  | .zext, c, w => ConstantExpr.ZExt c w
  | .sext, c, w => ConstantExpr.SExt c w

/-- The `ConstantExpr` operation of a binary kind. -/
def BinaryKind.apply : BinaryKind → APInt → APInt → APInt
  | .add, a, b => a.add b
  | .sub, a, b => a.sub b
  | .mul, a, b => a.mul b
  | .udiv, a, b => a.udiv b
  | .sdiv, a, b => a.sdiv b
  | .urem, a, b => a.urem b
  | .srem, a, b => a.srem b
  | .and, a, b => a.and b
  | .or, a, b => a.or b
  | .xor, a, b => a.xor b
  | .shl, a, b => a.shl b
  | .lshr, a, b => a.lshr b
  | .ashr, a, b => a.ashr b
  | .eq, a, b => APInt.ofBool (a.eq b)
  | .ne, a, b => APInt.ofBool (!a.eq b)
  | .ult, a, b => APInt.ofBool (a.ult b)
  | .ule, a, b => APInt.ofBool (a.ule b)
  | .ugt, a, b => APInt.ofBool (b.ult a)
  | .uge, a, b => APInt.ofBool (b.ule a)
  | .slt, a, b => APInt.ofBool (a.slt b)
  | .sle, a, b => APInt.ofBool (a.sle b)
  | .sgt, a, b => APInt.ofBool (b.slt a)
  | .sge, a, b => APInt.ofBool (b.sle a)

/-- An assignment of byte values to the elements of arrays. -/
abbrev Bytes := Array → ℕ → BitVec 8

/-- The value at index `i` of an array before any update: the constant there,
or the assigned byte at the width of the array's range. -/
def Array.initial (a : Array) (σ : Bytes) (i : ℕ) : APInt :=
  match a.constantValues[i]? with
  | some v => v
  | none => ⟨a.range, (σ a i).setWidth a.range⟩

mutual

def Expr.eval (σ : Bytes) : Expr → APInt
  | .constant v => v
  | .notOptimized src => src.eval σ
  | .read root head i => head.lookup σ root (i.eval σ)
  | .select c t f => if ConstantExpr.isTrue (c.eval σ) then t.eval σ else f.eval σ
  | .concat l r => ConstantExpr.Concat (l.eval σ) (r.eval σ)
  | .extract e off w => ConstantExpr.Extract (e.eval σ) off w
  | .not e => ConstantExpr.Not (e.eval σ)
  | .cast k src w => k.apply (src.eval σ) w
  | .binary k l r => k.apply (l.eval σ) (r.eval σ)

/-- The element of the updated array at index `i`: the most recent update of
that index decides. -/
def UpdateNode.lookup (σ : Bytes) (root : Array) : UpdateNode → APInt → APInt
  | .null, i => root.initial σ i.toNat
  | .node next ui uv, i => if ui.eval σ = i then uv.eval σ else next.lookup σ root i

end

/-- The Boolean reading of an expression. -/
def Expr.holds (σ : Bytes) (e : Expr) : Prop := e.eval σ = APInt.ofBool true

instance (σ : Bytes) (e : Expr) : Decidable (e.holds σ) :=
  inferInstanceAs (Decidable (e.eval σ = APInt.ofBool true))

/-- An index that is a constant is that of an element. -/
def Array.constantInBounds (a : Array) : Expr → Bool
  | .constant c => c.toNat < a.size
  | _ => true

/-- Every read of the expression at a constant index is at an element of its
array. -/
def Expr.ConstantReadsInBounds : Expr → Prop := Expr.AllReads fun root i => root.constantInBounds i = true

instance (e : Expr) : Decidable e.ConstantReadsInBounds :=
  inferInstanceAs (Decidable (e.AllReads fun root i => root.constantInBounds i = true))

/-- Every read of the expression is at an element of its array. -/
def Expr.InBounds (σ : Bytes) : Expr → Prop := Expr.AllReads fun root i => (i.eval σ).toNat < root.size

instance (σ : Bytes) (e : Expr) : Decidable (e.InBounds σ) :=
  inferInstanceAs (Decidable (e.AllReads fun root i => (i.eval σ).toNat < root.size))

end Klee
