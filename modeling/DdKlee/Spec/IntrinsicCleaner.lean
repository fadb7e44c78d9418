import Mathlib

/-! `IntrinsicCleanerPass`, for the intrinsics of arithmetic with a check for overflow and of
saturating arithmetic. What the pass emits in place of a call are instructions, which are
values that use each other. -/

namespace Klee.IntrinsicCleaner

inductive BinaryOp
  | add
  | sub
  | mul
  | and
  | or
  | xor
deriving DecidableEq, Repr

inductive Predicate
  | ult
  | ugt
  | slt
  | sgt
deriving DecidableEq, Repr

/-- The values of the code for two operands of a width, by their widths. -/
inductive Value (w : ℕ) : ℕ → Type
  | op1 : Value w w
  | op2 : Value w w
  | const {n : ℕ} (c : BitVec n) : Value w n
  | zext {k : ℕ} (v : Value w k) (n : ℕ) : Value w n
  | sext {k : ℕ} (v : Value w k) (n : ℕ) : Value w n
  | trunc {k : ℕ} (v : Value w k) (n : ℕ) : Value w n
  | binary {n : ℕ} (op : BinaryOp) (l r : Value w n) : Value w n
  | icmp {n : ℕ} (p : Predicate) (l r : Value w n) : Value w 1
  | select {n : ℕ} (c : Value w 1) (t e : Value w n) : Value w n

namespace BinaryOp

def eval {n : ℕ} : BinaryOp → BitVec n → BitVec n → BitVec n
  | add, x, y => x + y
  | sub, x, y => x - y
  | mul, x, y => x * y
  | and, x, y => x &&& y
  | or, x, y => x ||| y
  | xor, x, y => x ^^^ y

end BinaryOp

namespace Predicate

def eval {n : ℕ} : Predicate → BitVec n → BitVec n → Bool
  | ult, x, y => x.ult y
  | ugt, x, y => y.ult x
  | slt, x, y => x.slt y
  | sgt, x, y => y.slt x

end Predicate

namespace Value

variable {w : ℕ}

def eval (x y : BitVec w) : {n : ℕ} → Value w n → BitVec n
  | _, op1 => x
  | _, op2 => y
  | _, const c => c
  | _, zext v n => (v.eval x y).setWidth n
  | _, sext v n => (v.eval x y).signExtend n
  | _, trunc v n => (v.eval x y).setWidth n
  | _, binary op l r => op.eval (l.eval x y) (r.eval x y)
  | _, icmp p l r => BitVec.ofBool (p.eval (l.eval x y) (r.eval x y))
  | _, select c t e => if c.eval x y = BitVec.ofBool true then t.eval x y else e.eval x y

def not {n : ℕ} (v : Value w n) : Value w n := binary .xor v (const (BitVec.allOnes n))

end Value

open Value

inductive WithOverflow
  | sadd
  | ssub
  | smul
  | uadd
  | usub
  | umul
deriving DecidableEq, Repr

def WithOverflow.isUnsigned : WithOverflow → Bool
  | uadd | usub | umul => true
  | sadd | ssub | smul => false

def WithOverflow.op : WithOverflow → BinaryOp
  | sadd | uadd => .add
  | ssub | usub => .sub
  | smul | umul => .mul

/-- The two fields of the struct that takes the place of the call. -/
def lowerWithOverflow (w : ℕ) (i : WithOverflow) : Value w w × Value w 1 :=
  let bw2 := w * 2
  if i.isUnsigned then
    let op1ext := zext op1 bw2
    let op2ext := zext op2 bw2
    let int_max := zext (const (BitVec.allOnes w)) bw2
    let result_ext := binary i.op op1ext op2ext
    (trunc result_ext w, icmp .ugt result_ext int_max)
  else
    let op1ext := sext op1 bw2
    let op2ext := sext op2 bw2
    let int_max := sext (const (BitVec.intMax w)) bw2
    let int_min := sext (const (BitVec.intMin w)) bw2
    let result_ext := binary i.op op1ext op2ext
    (trunc result_ext w, binary .or (icmp .sgt result_ext int_max) (icmp .slt result_ext int_min))

inductive Saturating
  | sadd
  | ssub
  | uadd
  | usub
deriving DecidableEq, Repr

def lowerSaturating (w : ℕ) : Saturating → Value w w
  | .usub =>
      let result := binary .sub op1 op2
      let overflow := icmp .ult op1 op2
      let saturated := const (BitVec.ofNat w 0)
      select overflow saturated result
  | .uadd =>
      let result := binary .add op1 op2
      let overflow := icmp .ult result op1
      let saturated := const (BitVec.allOnes w)
      select overflow saturated result
  | .ssub =>
      let result := binary .sub op1 op2
      let zero := const (BitVec.ofNat w 0)
      let sign1 := icmp .slt op1 zero
      let sign2 := icmp .slt op2 zero
      let signR := icmp .slt result zero
      let saturated := select sign2 (const (BitVec.intMax w)) (const (BitVec.intMin w))
      -- the signs of the operands differ
      let overflow := binary .and (binary .xor sign1 signR) (binary .xor sign1 sign2)
      select overflow saturated result
  | .sadd =>
      let result := binary .add op1 op2
      let zero := const (BitVec.ofNat w 0)
      let sign1 := icmp .slt op1 zero
      let sign2 := icmp .slt op2 zero
      let signR := icmp .slt result zero
      let saturated := select sign2 (const (BitVec.intMin w)) (const (BitVec.intMax w))
      -- the signs of the operands are the same
      let overflow := binary .and (binary .xor sign1 signR) (not (binary .xor sign1 sign2))
      select overflow saturated result

end Klee.IntrinsicCleaner
