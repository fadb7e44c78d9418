import DdKlee.Spec.ValueRange

/-! `ExprRangeEvaluator` with the `getInitialReadRange` of `CexRangeEvaluator`:
the range of the values of an expression. -/

namespace Klee.CexRangeEvaluator

open Expr

/-- The array has 8-bit elements where it is constant, which `getZExtValue(8)`
asserts. -/
def getInitialReadRange (array : Array) (index : ValueRange) : Option ValueRange :=
  if array.isConstantArray && index.isFixed && index.m_min < array.size then do
    let value ← array.constantValues[index.m_min]?
    if value.width ≤ 8 then return .ofValue value.toNat else none
  else some ⟨0, 255⟩

/-- The end of the comparison cases: decided either way, or `break`. -/
def decided (mustHold mustFail : Bool) : Option ValueRange :=
  if mustHold then some (.ofValue 1) else if mustFail then some (.ofValue 0) else ValueRange.ofWidth 1

/-- The cases of `evaluate` that look at the ranges of two operands. -/
def evaluateBinary (k : BinaryKind) (width : ℕ) (left right : ValueRange) : Option ValueRange :=
  match k with
  | .add | .sub | .mul | .udiv | .sdiv | .urem | .srem => ValueRange.ofWidth width
  | .and => left.binaryAnd right
  | .or => left.binaryOr right
  | .xor => left.binaryXor right
  | .eq => decided (left.mustEqual right) (!left.mayEqual right)
  | .ult => do decided ((← left.max) < (← right.min)) ((← left.min) ≥ (← right.max))
  | .ule => do decided ((← left.max) ≤ (← right.min)) ((← left.min) > (← right.max))
  | .slt => do
      decided ((← left.maxSigned width) < (← right.minSigned width))
        ((← left.minSigned width) ≥ (← right.maxSigned width))
  | .sle => do
      decided ((← left.maxSigned width) ≤ (← right.minSigned width))
        ((← left.minSigned width) > (← right.maxSigned width))
  -- the operands of shifts are not evaluated, the rest is uncanonicalized
  | .shl | .lshr | .ashr | .ne | .ugt | .uge | .sgt | .sge => none

mutual

def evaluate : Expr → Option ValueRange
  | constant c => some (.ofConstant c)
  | .read root head index => do evalRead root (← evaluate index) {} head
  | select c t f => do
      let cond ← evaluate c
      if cond.mustBe 1 then evaluate t
      else if cond.mustBe 0 then evaluate f
      else return (← evaluate t).set_union (← evaluate f)
  | concat l r => do
      let res ← (ValueRange.ofValue 0).concat (← evaluate l) 8
      res.concat (← evaluate r) 8
  | binary k l r =>
      match k with
      | .shl | .lshr | .ashr => ValueRange.ofWidth l.getWidth
      | k => do evaluateBinary k l.getWidth (← evaluate l) (← evaluate r)
  | notOptimized e | .not e => ValueRange.ofWidth e.getWidth
  | extract _ _ w | .cast _ _ w => ValueRange.ofWidth w

/-- `evalRead` from the update `un` on, with the union `res` of what the read may
have hit so far. -/
def evalRead (root : Array) (index : ValueRange) : ValueRange → UpdateNode → Option ValueRange
  | res, .null => do return res.set_union (← getInitialReadRange root index)
  | res, .node next i v => do
      let ui ← evaluate i
      if ui.mustEqual index then return res.set_union (← evaluate v)
      else if ui.mayEqual index then
        let res := res.set_union (← evaluate v)
        if ← res.isFullRange 8 then return res else evalRead root index res next
      else evalRead root index res next

end

end Klee.CexRangeEvaluator
