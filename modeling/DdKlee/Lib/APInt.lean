import Mathlib

/-! Arbitrary-width integers with the arithmetic LLVM documents for `APInt`:
a width together with that many bits. The operations are total. A binary
operation takes its width from the left operand, so on operands of one width
it is the `BitVec` operation of that width (the `_mk` lemmas), which is the
only case LLVM defines. Division by zero is undefined in LLVM; here a zero
divisor counts as one. -/

@[ext (iff := false)]
structure APInt where
  width : ℕ
  bits : BitVec width
deriving DecidableEq, Repr

namespace APInt

/-- The constructor `APInt(width, value)`, which keeps the low bits. -/
def ofNat (w n : ℕ) : APInt := ⟨w, BitVec.ofNat w n⟩

def ofBool (b : Bool) : APInt := ofNat 1 b.toNat

def toNat (a : APInt) : ℕ := a.bits.toNat

def toInt (a : APInt) : ℤ := a.bits.toInt

def isMinValue (a : APInt) : Bool := a.bits == 0

def isAllOnesValue (a : APInt) : Bool := a.bits == BitVec.allOnes a.width

def getBoolValue (a : APInt) : Bool := a.bits != 0

def getLimitedValue (a : APInt) (limit : ℕ) : ℕ := min a.toNat limit

/-- The number of bits up to and including the highest set one. -/
def getActiveBits (a : APInt) : ℕ := a.toNat.size

def zextOrTrunc (a : APInt) (w : ℕ) : APInt := ⟨w, a.bits.setWidth w⟩

def sextOrTrunc (a : APInt) (w : ℕ) : APInt := ⟨w, a.bits.signExtend w⟩

def neg (a : APInt) : APInt := ⟨a.width, -a.bits⟩

def not (a : APInt) : APInt := ⟨a.width, ~~~a.bits⟩

section Binary

variable (a b : APInt)

def rhs : BitVec a.width := b.bits.setWidth a.width

def add : APInt := ⟨a.width, a.bits + a.rhs b⟩
def sub : APInt := ⟨a.width, a.bits - a.rhs b⟩
def mul : APInt := ⟨a.width, a.bits * a.rhs b⟩
def and : APInt := ⟨a.width, a.bits &&& a.rhs b⟩
def or : APInt := ⟨a.width, a.bits ||| a.rhs b⟩
def xor : APInt := ⟨a.width, a.bits ^^^ a.rhs b⟩

def divisor {w : ℕ} (x : BitVec w) : BitVec w := if x = 0 then 1 else x

def udiv : APInt := ⟨a.width, a.bits / divisor (a.rhs b)⟩
def urem : APInt := ⟨a.width, a.bits % divisor (a.rhs b)⟩
def sdiv : APInt := ⟨a.width, a.bits.sdiv (divisor (a.rhs b))⟩
def srem : APInt := ⟨a.width, a.bits.srem (divisor (a.rhs b))⟩

/-- Shifts by the width or more give zero, and the sign fill for `ashr`. -/
def shl : APInt := ⟨a.width, a.bits <<< b.toNat⟩
def lshr : APInt := ⟨a.width, a.bits >>> b.toNat⟩
def ashr : APInt := ⟨a.width, a.bits.sshiftRight b.toNat⟩

def eq : Bool := a.bits == a.rhs b
def ult : Bool := a.bits.ult (a.rhs b)
def ule : Bool := a.bits.ule (a.rhs b)
def slt : Bool := a.bits.slt (a.rhs b)
def sle : Bool := a.bits.sle (a.rhs b)

end Binary

section Fields

variable (a b : APInt) (w n : ℕ)

@[simp] theorem ofNat_width : (ofNat w n).width = w := rfl
@[simp] theorem ofBool_width (c : Bool) : (ofBool c).width = 1 := rfl
@[simp] theorem zextOrTrunc_width : (a.zextOrTrunc w).width = w := rfl
@[simp] theorem sextOrTrunc_width : (a.sextOrTrunc w).width = w := rfl
@[simp] theorem neg_width : a.neg.width = a.width := rfl
@[simp] theorem not_width : a.not.width = a.width := rfl
@[simp] theorem add_width : (a.add b).width = a.width := rfl
@[simp] theorem sub_width : (a.sub b).width = a.width := rfl
@[simp] theorem mul_width : (a.mul b).width = a.width := rfl
@[simp] theorem and_width : (a.and b).width = a.width := rfl
@[simp] theorem or_width : (a.or b).width = a.width := rfl
@[simp] theorem xor_width : (a.xor b).width = a.width := rfl
@[simp] theorem udiv_width : (a.udiv b).width = a.width := rfl
@[simp] theorem urem_width : (a.urem b).width = a.width := rfl
@[simp] theorem sdiv_width : (a.sdiv b).width = a.width := rfl
@[simp] theorem srem_width : (a.srem b).width = a.width := rfl
@[simp] theorem shl_width : (a.shl b).width = a.width := rfl
@[simp] theorem lshr_width : (a.lshr b).width = a.width := rfl
@[simp] theorem ashr_width : (a.ashr b).width = a.width := rfl

end Fields

section SameWidth

variable {w : ℕ} (x y : BitVec w)

@[simp] theorem rhs_mk : rhs ⟨w, x⟩ ⟨w, y⟩ = y := BitVec.setWidth_eq y

@[simp] theorem add_mk : add ⟨w, x⟩ ⟨w, y⟩ = ⟨w, x + y⟩ := by simp [add]
@[simp] theorem sub_mk : sub ⟨w, x⟩ ⟨w, y⟩ = ⟨w, x - y⟩ := by simp [sub]
@[simp] theorem mul_mk : mul ⟨w, x⟩ ⟨w, y⟩ = ⟨w, x * y⟩ := by simp [mul]
@[simp] theorem and_mk : and ⟨w, x⟩ ⟨w, y⟩ = ⟨w, x &&& y⟩ := by simp [and]
@[simp] theorem or_mk : or ⟨w, x⟩ ⟨w, y⟩ = ⟨w, x ||| y⟩ := by simp [or]
@[simp] theorem xor_mk : xor ⟨w, x⟩ ⟨w, y⟩ = ⟨w, x ^^^ y⟩ := by simp [xor]
@[simp] theorem eq_mk : eq ⟨w, x⟩ ⟨w, y⟩ = (x == y) := by simp [eq]
@[simp] theorem ult_mk : ult ⟨w, x⟩ ⟨w, y⟩ = x.ult y := by simp [ult]
@[simp] theorem ule_mk : ule ⟨w, x⟩ ⟨w, y⟩ = x.ule y := by simp [ule]
@[simp] theorem slt_mk : slt ⟨w, x⟩ ⟨w, y⟩ = x.slt y := by simp [slt]
@[simp] theorem sle_mk : sle ⟨w, x⟩ ⟨w, y⟩ = x.sle y := by simp [sle]

end SameWidth

theorem toNat_lt (a : APInt) : a.toNat < 2 ^ a.width := a.bits.isLt

theorem eq_of_toNat {a b : APInt} (hw : a.width = b.width) (h : a.toNat = b.toNat) : a = b := by
  obtain ⟨w, x⟩ := a
  obtain ⟨w', y⟩ := b
  obtain rfl : w = w' := hw
  congr 1
  exact BitVec.eq_of_toNat_eq h

theorem eq_iff {a b : APInt} (hw : a.width = b.width) : a.eq b = true ↔ a = b := by
  obtain ⟨w, x⟩ := a
  obtain ⟨w', y⟩ := b
  obtain rfl : w = w' := hw
  simp

@[simp] theorem toNat_ofNat (w n : ℕ) : (ofNat w n).toNat = n % 2 ^ w := by
  simp [ofNat, toNat]

theorem eq_ofBool {a : APInt} (hw : a.width = 1) : a = ofBool a.getBoolValue := by
  obtain ⟨w, x⟩ := a
  obtain rfl : w = 1 := hw
  revert x
  decide

@[simp] theorem getBoolValue_ofBool (b : Bool) : (ofBool b).getBoolValue = b := by
  cases b <;> rfl

@[simp] theorem toNat_ofBool (b : Bool) : (ofBool b).toNat = b.toNat := by
  cases b <;> rfl

theorem ofBool_injective : Function.Injective ofBool := by
  intro a b h
  rw [← getBoolValue_ofBool a, h, getBoolValue_ofBool]

@[simp] theorem ofBool_inj (a b : Bool) : ofBool a = ofBool b ↔ a = b :=
  ofBool_injective.eq_iff

@[simp] theorem zextOrTrunc_self (a : APInt) : a.zextOrTrunc a.width = a := by
  simp [zextOrTrunc]

@[simp] theorem sextOrTrunc_self (a : APInt) : a.sextOrTrunc a.width = a := by
  simp [sextOrTrunc]

def bit (a : APInt) (i : ℕ) : Bool := a.bits.getLsbD i

theorem ext_bit {a b : APInt} (hw : a.width = b.width) (h : ∀ i < a.width, a.bit i = b.bit i) :
    a = b := by
  obtain ⟨w, x⟩ := a
  obtain ⟨w', y⟩ := b
  obtain rfl : w = w' := hw
  congr 1
  exact BitVec.eq_of_getLsbD_eq h

/-- Values of one width are bit-vectors of that width. -/
@[elab_as_elim]
theorem same_width {motive : (a b : APInt) → a.width = b.width → Prop}
    (mk : ∀ {w : ℕ} (x y : BitVec w), motive ⟨w, x⟩ ⟨w, y⟩ rfl) {a b : APInt}
    (hw : a.width = b.width) : motive a b hw := by
  obtain ⟨w, x⟩ := a
  obtain ⟨w', y⟩ := b
  obtain rfl : w = w' := hw
  exact mk x y

section Laws

variable {a b : APInt}

protected theorem and_comm (hw : a.width = b.width) : a.and b = b.and a := by
  induction hw using same_width with
  | mk x y => simp [BitVec.and_comm]

protected theorem or_comm (hw : a.width = b.width) : a.or b = b.or a := by
  induction hw using same_width with
  | mk x y => simp [BitVec.or_comm]

protected theorem xor_comm (hw : a.width = b.width) : a.xor b = b.xor a := by
  induction hw using same_width with
  | mk x y => simp [BitVec.xor_comm]

protected theorem add_comm (hw : a.width = b.width) : a.add b = b.add a := by
  induction hw using same_width with
  | mk x y => simp [BitVec.add_comm]

protected theorem mul_comm (hw : a.width = b.width) : a.mul b = b.mul a := by
  induction hw using same_width with
  | mk x y => simp [BitVec.mul_comm]

protected theorem eq_comm (hw : a.width = b.width) : a.eq b = b.eq a := by
  induction hw using same_width with
  | mk x y => simp [Bool.beq_comm]

theorem and_allOnes (hw : a.width = b.width) (h : b.isAllOnesValue = true) : a.and b = a := by
  induction hw using same_width with
  | mk x y => simp_all [isAllOnesValue]

theorem and_zero (hw : a.width = b.width) (h : b.isMinValue = true) : a.and b = b := by
  induction hw using same_width with
  | mk x y => simp_all [isMinValue]

theorem or_allOnes (hw : a.width = b.width) (h : b.isAllOnesValue = true) : a.or b = b := by
  induction hw using same_width with
  | mk x y => simp_all [isAllOnesValue]

theorem or_zero (hw : a.width = b.width) (h : b.isMinValue = true) : a.or b = a := by
  induction hw using same_width with
  | mk x y => simp_all [isMinValue]

theorem xor_zero (hw : a.width = b.width) (h : b.isMinValue = true) : a.xor b = a := by
  induction hw using same_width with
  | mk x y => simp_all [isMinValue]

theorem add_zero (hw : a.width = b.width) (h : b.isMinValue = true) : a.add b = a := by
  induction hw using same_width with
  | mk x y => simp_all [isMinValue]

theorem mul_zero (hw : a.width = b.width) (h : b.isMinValue = true) : a.mul b = b := by
  induction hw using same_width with
  | mk x y => simp_all [isMinValue]

theorem mul_one (hw : a.width = b.width) (h : b.toNat = 1) : a.mul b = a := by
  induction hw using same_width with
  | mk x y =>
    obtain rfl : y = 1 := by
      have hlt := y.isLt
      rw [show y.toNat = 1 from h] at hlt
      apply BitVec.eq_of_toNat_eq
      rw [BitVec.ofNat_eq_ofNat, BitVec.toNat_ofNat, Nat.mod_eq_of_lt hlt]
      exact h
    simp

theorem eq_self (a : APInt) : a.eq a = true := (eq_iff rfl).mpr rfl

theorem eq_add {c : APInt} (hw : b.width = c.width) (hw' : c.width = a.width) :
    b.eq (c.add a) = (b.sub c).eq a := by
  induction hw' using same_width with
  | mk y x =>
    obtain ⟨w, z⟩ := b
    obtain rfl : w = _ := hw
    rw [add_mk, sub_mk, eq_mk, eq_mk, Bool.eq_iff_iff, beq_iff_eq, beq_iff_eq]
    constructor
    · rintro rfl; ring
    · rintro rfl; ring

theorem eq_sub {c : APInt} (hw : b.width = c.width) (hw' : c.width = a.width) :
    b.eq (c.sub a) = (c.sub b).eq a := by
  induction hw' using same_width with
  | mk y x =>
    obtain ⟨w, z⟩ := b
    obtain rfl : w = _ := hw
    rw [sub_mk, sub_mk, eq_mk, eq_mk, Bool.eq_iff_iff, beq_iff_eq, beq_iff_eq]
    constructor
    · rintro rfl; ring
    · rintro rfl; ring

theorem zextOrTrunc_zextOrTrunc {w : ℕ} (h : a.width ≤ w) :
    (a.zextOrTrunc w).zextOrTrunc a.width = a := by
  obtain ⟨v, x⟩ := a
  simp only [zextOrTrunc]
  congr 1
  exact BitVec.setWidth_setWidth_of_le x h |>.trans (BitVec.setWidth_eq x)

theorem zextOrTrunc_sextOrTrunc {w : ℕ} (h : a.width ≤ w) :
    (a.sextOrTrunc w).zextOrTrunc a.width = a := by
  obtain ⟨v, x⟩ := a
  simp only [zextOrTrunc, sextOrTrunc]
  congr 1
  ext i hi
  simp [BitVec.getElem_signExtend, hi, lt_of_lt_of_le hi h]

end Laws

end APInt
