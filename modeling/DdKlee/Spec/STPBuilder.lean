import DdKlee.Spec.ConstantDivision

/-! The parts of `STPBuilder` that multiply, divide and shift. A term is what it
stands for under an assignment, a bit-vector with its length or a Bool; `VC` is
the interface of the solver that makes terms. `none` is a failed assertion. -/

namespace Klee

namespace VC

def bvConstExprFromInt (width : ℕ) (value : BitVec 32) : APInt := APInt.ofNat width value.toNat

def bvConstExprFromLL (width : ℕ) (value : BitVec 64) : APInt := APInt.ofNat width value.toNat

def bvConcatExpr (a b : APInt) : APInt := ⟨a.width + b.width, a.bits ++ b.bits⟩

def bvExtract (a : APInt) (top bottom : ℕ) : APInt := ⟨top - bottom + 1, a.bits.extractLsb' bottom (top - bottom + 1)⟩

def bvSignExtend (a : APInt) (width : ℕ) : APInt := a.sextOrTrunc width

def bvPlusExpr (width : ℕ) (a b : APInt) : APInt := ⟨width, a.bits.setWidth width + b.bits.setWidth width⟩

def bvMinusExpr (width : ℕ) (a b : APInt) : APInt := ⟨width, a.bits.setWidth width - b.bits.setWidth width⟩

def bvUMinusExpr (a : APInt) : APInt := a.neg

def bvXorExpr (a b : APInt) : APInt := a.xor b

def eqExpr (a b : APInt) : Bool := a.eq b

def bvLtExpr (a b : APInt) : Bool := a.ult b

def iteExpr (c : Bool) (a b : APInt) : APInt := if c then a else b

end VC

namespace STPBuilder

open VC

def bvConst32 (width : ℕ) (value : BitVec 32) : APInt := bvConstExprFromInt width value

def bvConst64 (width : ℕ) (value : BitVec 64) : APInt := bvConstExprFromLL width value

/-- The loop that puts zeros in front. -/
def bvZExtConst.loop (width : ℕ) (expr : APInt) : APInt :=
  if 64 < width then loop (width - 64) (bvConcatExpr (bvConst64 64 0) expr) else bvConcatExpr (bvConst64 width 0) expr
termination_by width

def bvZExtConst (width : ℕ) (value : BitVec 64) : APInt :=
  if width ≤ 64 then bvConst64 width value else bvZExtConst.loop (width - 64) (bvConst64 64 value)

def bvSExtConst (width : ℕ) (value : BitVec 64) : APInt :=
  if width ≤ 64 then bvConst64 width value else bvSignExtend (bvConst64 64 value) width

def bvOne (width : ℕ) : APInt := bvZExtConst width 1

def bvZero (width : ℕ) : APInt := bvZExtConst width 0

def bvMinusOne (width : ℕ) : APInt := bvSExtConst width (-1)

def bvBoolExtract (expr : APInt) (bit : ℕ) : Bool := VC.eqExpr (bvExtract expr bit bit) (bvOne 1)

def eqExpr (a b : APInt) : Option Bool := if a.width = b.width then some (VC.eqExpr a b) else none

def bvRightShift (expr : APInt) (shift : ℕ) : APInt :=
  let width := expr.width
  if shift = 0 then expr
  else if width ≤ shift then bvZero width
  else bvConcatExpr (bvZero shift) (bvExtract expr (width - 1) shift)

def bvLeftShift (expr : APInt) (shift : ℕ) : APInt :=
  let width := expr.width
  if shift = 0 then expr
  else if width ≤ shift then bvZero width
  else bvConcatExpr (bvExtract expr (width - shift - 1) 0) (bvZero shift)

/-- The shift amount at the bits that the width takes, and their number. -/
def extractPartialShiftValue (shift : APInt) (width : ℕ) : APInt × ℕ :=
  let shiftBits := (APInt.ofNat 32 width).getActiveBits
  (bvExtract shift (shiftBits - 1) 0, shiftBits)

/-- The cases of a shift by a variable amount, from the largest shift down. -/
def shiftCases (shiftExt : APInt) (shiftBits : ℕ) (shifted : ℕ → APInt) (res : APInt) (is : List ℕ) : Option APInt :=
  is.foldlM (fun res i => do
    let c ← eqExpr shiftExt (bvConst32 shiftBits (BitVec.ofNat 32 i))
    some (iteExpr c (shifted i) res)) res

def bvVarRightShift (expr shift : APInt) : Option APInt := do
  let width := expr.width
  let (shiftExt, shiftBits) := extractPartialShiftValue shift width
  let res ← shiftCases shiftExt shiftBits (bvRightShift expr) (bvZero width) (List.range width).reverse
  -- if overshifting, shift to zero
  let ex := bvLtExpr shift (bvConst32 shift.width (BitVec.ofNat 32 width))
  some (iteExpr ex res (bvZero width))

/-- A bit of the constants: its multiple is added, or subtracted. -/
def mulStep (expr : APInt) (width : ℕ) (add sub : BitVec 64) (res : Option APInt) (j : ℕ) : Option (Option APInt) :=
  let bit := 1#64 <<< j
  if add &&& bit ≠ 0 ∨ sub &&& bit ≠ 0 then
    if add &&& bit ≠ 0 ∧ sub &&& bit ≠ 0 then none
    else
      let op := bvLeftShift expr j
      if add &&& bit ≠ 0 then
        match res with
        | some res => some (bvPlusExpr width res op)
        | none => some op
      else
        match res with
        | some res => some (bvMinusExpr width res op)
        | none => some (bvUMinusExpr op)
  else some res

def constructMulByConstant (expr : APInt) (width : ℕ) (x : BitVec 64) : Option APInt := do
  let (add, sub) ← computeMultConstants64 x
  let add ← bits64.truncateToNBits add width
  let sub ← bits64.truncateToNBits sub width
  let res ← (List.range 64).reverse.foldlM (mulStep expr width add sub) none
  some (res.getD (bvZero width))

def constructUDivByConstant (exprN : APInt) (width : ℕ) (d : BitVec 64) : Option APInt :=
  if width ≠ 32 then none
  else do
    let ⟨mprime, sh1, sh2⟩ := computeUDivConstants32 (d.setWidth 32)
    let exprN64 := bvConcatExpr (bvZero 32) exprN
    let t1_64bits ← constructMulByConstant exprN64 64 (mprime.setWidth 64)
    let t1 := bvExtract t1_64bits 63 32
    let nMinusT1 := bvMinusExpr width exprN t1
    let shiftSh1 ← bvVarRightShift nMinusT1 (bvConst32 32 sh1)
    let plusT1 := bvPlusExpr width shiftSh1 t1
    bvVarRightShift plusT1 (bvConst32 32 sh2)

def constructSDivByConstant (exprN : APInt) (width : ℕ) (d : BitVec 64) : Option APInt :=
  if width ≠ 32 then none
  else do
    let ⟨mprime, dsign, shpost⟩ := computeSDivConstants32 (d.setWidth 32)
    let exprN64 := bvSignExtend exprN 64
    let mult64 ← constructMulByConstant exprN64 64 (mprime.signExtend 64)
    let mulsh := bvExtract mult64 63 32
    let nPlusMulsh := bvPlusExpr width exprN mulsh
    -- sign extend, shift, extract
    let extendNpm := bvSignExtend nPlusMulsh 64
    let shiftNpm ← bvVarRightShift extendNpm (bvConst32 32 shpost)
    let shiftShpost := bvExtract shiftNpm 31 0
    let isSigned := bvBoolExtract exprN 31
    let xsignOfN := iteExpr isSigned (bvMinusOne 32) (bvZero 32)
    let q0 := bvMinusExpr width shiftShpost xsignOfN
    let exprDsign := bvConst32 32 dsign
    let q0XorDsign := bvXorExpr q0 exprDsign
    some (bvMinusExpr width q0XorDsign exprDsign)

end STPBuilder

end Klee
