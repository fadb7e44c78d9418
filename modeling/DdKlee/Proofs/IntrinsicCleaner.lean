import DdKlee.Spec.IntrinsicCleaner

/-! What the pass emits computes what the intrinsics mean, at every width. -/

namespace Klee.IntrinsicCleaner

variable {w n : ℕ}

def number (isUnsigned : Bool) (x : BitVec w) : ℤ := if isUnsigned then x.toNat else x.toInt

def minNumber (w : ℕ) (isUnsigned : Bool) : ℤ := if isUnsigned then 0 else -2 ^ (w - 1)

def maxNumber (w : ℕ) (isUnsigned : Bool) : ℤ := if isUnsigned then 2 ^ w - 1 else 2 ^ (w - 1) - 1

def WithOverflow.exact : WithOverflow → ℤ → ℤ → ℤ
  | sadd, x, y | uadd, x, y => x + y
  | ssub, x, y | usub, x, y => x - y
  | smul, x, y | umul, x, y => x * y

def Saturating.isUnsigned : Saturating → Bool
  | uadd | usub => true
  | sadd | ssub => false

def Saturating.exact : Saturating → ℤ → ℤ → ℤ
  | sadd, x, y | uadd, x, y => x + y
  | ssub, x, y | usub, x, y => x - y

theorem setWidth_eq_ofInt (x : BitVec w) : x.setWidth n = BitVec.ofInt n x.toNat := by
  rw [BitVec.ofInt_natCast]
  exact BitVec.eq_of_toNat_eq (by simp)

theorem setWidth_ofInt (h : w ≤ n) (m : ℤ) : (BitVec.ofInt n m).setWidth w = BitVec.ofInt w m := by
  have hdvd : ((2 ^ w : ℕ) : ℤ) ∣ (2 ^ n : ℕ) := Int.natCast_dvd_natCast.mpr (pow_dvd_pow 2 h)
  have hnonneg : 0 ≤ m % (2 ^ n : ℕ) := Int.emod_nonneg m (by simp)
  rw [setWidth_eq_ofInt]
  refine BitVec.eq_of_toInt_eq ?_
  rw [BitVec.toInt_ofInt, BitVec.toInt_ofInt, BitVec.toNat_ofInt, Int.toNat_of_nonneg hnonneg, ← Int.emod_bmod,
    Int.emod_emod_of_dvd m hdvd, Int.emod_bmod]

theorem eval_ofInt (i : WithOverflow) (x y : ℤ) :
    i.op.eval (BitVec.ofInt n x) (BitVec.ofInt n y) = BitVec.ofInt n (i.exact x y) := by
  have hsub : BitVec.ofInt n x - BitVec.ofInt n y = BitVec.ofInt n (x - y) := by
    refine BitVec.eq_of_toInt_eq ?_
    simp
  cases i with
  | sadd | uadd => exact (BitVec.ofInt_add x y).symm
  | ssub | usub => exact hsub
  | smul | umul => exact (BitVec.ofInt_mul x y).symm

theorem number_unsigned (x : BitVec w) : 0 ≤ number true x ∧ number true x < 2 ^ w := by
  have hlt := x.isLt
  rw [number, if_pos rfl]
  exact ⟨Int.natCast_nonneg _, by exact_mod_cast hlt⟩

theorem number_signed (x : BitVec w) : -2 ^ (w - 1) ≤ number false x ∧ number false x < 2 ^ (w - 1) :=
  ⟨x.le_toInt, BitVec.toInt_lt⟩

theorem exact_unsigned (i : WithOverflow) {W X Y : ℤ} (hW : 2 ≤ W) (hX : 0 ≤ X ∧ X < W) (hY : 0 ≤ Y ∧ Y < W) :
    -W < i.exact X Y ∧ i.exact X Y < W * W := by
  have hsquare : 2 * W ≤ W * W := mul_le_mul_of_nonneg_right hW (by omega)
  cases i with
  | sadd | uadd => exact ⟨by simp only [WithOverflow.exact]; omega, by simp only [WithOverflow.exact]; omega⟩
  | ssub | usub => exact ⟨by simp only [WithOverflow.exact]; omega, by simp only [WithOverflow.exact]; omega⟩
  | smul | umul =>
    have hnonneg : 0 ≤ X * Y := mul_nonneg hX.1 hY.1
    have hlt : X * Y < W * W := mul_lt_mul'' hX.2 hY.2 hX.1 hY.1
    exact ⟨by simp only [WithOverflow.exact]; omega, hlt⟩

theorem exact_signed (i : WithOverflow) {H X Y : ℤ} (hH : 1 ≤ H) (hX : -H ≤ X ∧ X < H) (hY : -H ≤ Y ∧ Y < H) :
    -(2 * (H * H)) ≤ i.exact X Y ∧ i.exact X Y < 2 * (H * H) := by
  have hsquare : H ≤ H * H := le_mul_of_one_le_right (by omega) hH
  cases i with
  | sadd | uadd => exact ⟨by simp only [WithOverflow.exact]; omega, by simp only [WithOverflow.exact]; omega⟩
  | ssub | usub => exact ⟨by simp only [WithOverflow.exact]; omega, by simp only [WithOverflow.exact]; omega⟩
  | smul | umul =>
    have habs : |X * Y| ≤ H * H := by
      rw [abs_mul]
      exact mul_le_mul (abs_le.mpr ⟨hX.1, hX.2.le⟩) (abs_le.mpr ⟨hY.1, hY.2.le⟩) (abs_nonneg Y) (by omega)
    rw [abs_le] at habs
    exact ⟨by simp only [WithOverflow.exact]; omega, by simp only [WithOverflow.exact]; omega⟩

theorem eval_extended (i : WithOverflow) (x y : BitVec w) :
    (if i.isUnsigned then i.op.eval (x.setWidth n) (y.setWidth n) else i.op.eval (x.signExtend n) (y.signExtend n)) =
      BitVec.ofInt n (i.exact (number i.isUnsigned x) (number i.isUnsigned y)) := by
  cases hu : i.isUnsigned with
  | true =>
    rw [if_pos rfl, setWidth_eq_ofInt, setWidth_eq_ofInt, eval_ofInt]
    rfl
  | false => exact eval_ofInt i _ _

theorem eval_signed (i : WithOverflow) (x y : BitVec w) : i.op.eval x y = BitVec.ofInt w (i.exact x.toInt y.toInt) := by
  rw [← eval_ofInt, BitVec.ofInt_toInt, BitVec.ofInt_toInt]

theorem ugt_max_iff (hw : 0 < w) {m : ℤ} (hm : -2 ^ w < m ∧ m < 2 ^ w * 2 ^ w) :
    ((BitVec.allOnes w).setWidth (w * 2)).ult (BitVec.ofInt (w * 2) m) = true ↔ ¬ (0 ≤ m ∧ m ≤ 2 ^ w - 1) := by
  have hW : (2 : ℤ) ≤ 2 ^ w := by
    have hpow : (2 : ℤ) ^ 1 ≤ 2 ^ w := pow_le_pow_right₀ (by decide) hw
    rwa [pow_one] at hpow
  have hdouble : ((2 ^ (w * 2) : ℕ) : ℤ) = 2 ^ w * 2 ^ w := by
    push_cast
    rw [pow_mul, sq]
  have hones : (((BitVec.allOnes w).setWidth (w * 2)).toNat : ℤ) = 2 ^ w - 1 := by
    rw [BitVec.toNat_setWidth, BitVec.toNat_allOnes, Nat.mod_eq_of_lt]
    · have hpos : 1 ≤ 2 ^ w := Nat.one_le_two_pow
      push_cast [hpos]
      rfl
    · have hlt : 2 ^ w ≤ 2 ^ (w * 2) := Nat.pow_le_pow_right (by decide) (by omega)
      have hpos : 1 ≤ 2 ^ w := Nat.one_le_two_pow
      omega
  have hmod : ((BitVec.ofInt (w * 2) m).toNat : ℤ) = m % (2 ^ w * 2 ^ w) := by
    rw [BitVec.toNat_ofInt, Int.toNat_of_nonneg (Int.emod_nonneg _ (by rw [hdouble]; positivity)), hdouble]
  have hsquare : 2 * (2 : ℤ) ^ w ≤ 2 ^ w * 2 ^ w := mul_le_mul_of_nonneg_right hW (by omega)
  rw [BitVec.ult_iff_toNat_lt, ← Int.ofNat_lt, hones, hmod]
  generalize (2 : ℤ) ^ w = W at *
  rcases lt_or_ge m 0 with hneg | hpos
  · have hadd : m % (W * W) = m + W * W := by
      rw [← Int.add_emod_right, Int.emod_eq_of_lt (by omega) (by omega)]
    rw [hadd]
    constructor
    · omega
    · omega
  · rw [Int.emod_eq_of_lt hpos hm.2]
    omega

theorem sgt_slt_iff (hw : 0 < w) {m : ℤ} (hm : -2 ^ (w * 2 - 1) ≤ m ∧ m < 2 ^ (w * 2 - 1)) :
    (((BitVec.intMax w).signExtend (w * 2)).slt (BitVec.ofInt (w * 2) m) = true ∨
      (BitVec.ofInt (w * 2) m).slt ((BitVec.intMin w).signExtend (w * 2)) = true) ↔
      ¬ (-2 ^ (w - 1) ≤ m ∧ m ≤ 2 ^ (w - 1) - 1) := by
  rw [BitVec.slt_iff_toInt_lt, BitVec.slt_iff_toInt_lt, BitVec.toInt_ofInt_eq_self (by omega) hm.1 hm.2,
    BitVec.toInt_signExtend_of_le (by omega), BitVec.toInt_signExtend_of_le (by omega), BitVec.toInt_intMax,
    BitVec.toInt_intMin_of_pos hw]
  omega

theorem lowerWithOverflow_result (i : WithOverflow) (x y : BitVec w) :
    (lowerWithOverflow w i).1.eval x y = BitVec.ofInt w (i.exact (number i.isUnsigned x) (number i.isUnsigned y)) := by
  have hext := eval_extended (n := w * 2) i x y
  rw [← setWidth_ofInt (show w ≤ w * 2 by omega), ← hext, lowerWithOverflow]
  cases i.isUnsigned <;> rfl

theorem lowerWithOverflow_overflow (hw : 0 < w) (i : WithOverflow) (x y : BitVec w) :
    (lowerWithOverflow w i).2.eval x y = BitVec.ofBool true ↔
      ¬ (minNumber w i.isUnsigned ≤ i.exact (number i.isUnsigned x) (number i.isUnsigned y) ∧
        i.exact (number i.isUnsigned x) (number i.isUnsigned y) ≤ maxNumber w i.isUnsigned) := by
  have hext := eval_extended (n := w * 2) i x y
  unfold lowerWithOverflow minNumber maxNumber
  cases hu : i.isUnsigned with
  | true =>
    simp only [hu, if_true, Value.eval, Predicate.eval] at hext ⊢
    rw [hext, BitVec.ofBool_eq_iff_eq]
    have hW : (2 : ℤ) ≤ 2 ^ w := by
      have hpow : (2 : ℤ) ^ 1 ≤ 2 ^ w := pow_le_pow_right₀ (by decide) hw
      rwa [pow_one] at hpow
    exact ugt_max_iff hw (exact_unsigned i hW (number_unsigned x) (number_unsigned y))
  | false =>
    simp only [hu, Bool.false_eq_true, if_false, Value.eval, Predicate.eval, BinaryOp.eval] at hext ⊢
    rw [hext, BitVec.ofBool_or_ofBool, BitVec.ofBool_eq_iff_eq, Bool.or_eq_true]
    have hH : (1 : ℤ) ≤ 2 ^ (w - 1) := one_le_pow₀ (by decide)
    have hQ : (2 : ℤ) ^ (w * 2 - 1) = 2 * (2 ^ (w - 1) * 2 ^ (w - 1)) := by
      rw [← pow_add, ← pow_succ']
      congr 1
      omega
    refine sgt_slt_iff hw ?_
    rw [hQ]
    exact exact_signed i hH (number_signed x) (number_signed y)

theorem toInt_ofInt_cases (hw : 0 < w) {m : ℤ} (hm : -2 * 2 ^ (w - 1) ≤ m ∧ m < 2 * 2 ^ (w - 1)) :
    (BitVec.ofInt w m).toInt =
      if m < -2 ^ (w - 1) then m + 2 * 2 ^ (w - 1) else if m < 2 ^ (w - 1) then m else m - 2 * 2 ^ (w - 1) := by
  have hW : ((2 ^ w : ℕ) : ℤ) = 2 * 2 ^ (w - 1) := by
    push_cast
    rw [← pow_succ', Nat.sub_add_cancel hw]
  have hH : (1 : ℤ) ≤ 2 ^ (w - 1) := one_le_pow₀ (by decide)
  rw [BitVec.toInt_ofInt, Int.bmod_eq_iff (Nat.two_pow_pos w), hW]
  generalize (2 : ℤ) ^ (w - 1) = H at *
  split_ifs
  · exact ⟨by omega, by omega, 1, by ring⟩
  · exact ⟨by omega, by omega, 0, by ring⟩
  · exact ⟨by omega, by omega, -1, by ring⟩

theorem ofBool_signs (a b c : Bool) :
    ((BitVec.ofBool a ^^^ BitVec.ofBool b) &&& (BitVec.ofBool a ^^^ BitVec.ofBool c) = BitVec.ofBool true ↔
      a ≠ b ∧ a ≠ c) ∧
    ((BitVec.ofBool a ^^^ BitVec.ofBool b) &&& ((BitVec.ofBool a ^^^ BitVec.ofBool c) ^^^ BitVec.allOnes 1) =
      BitVec.ofBool true ↔ a ≠ b ∧ a = c) := by
  cases a <;> cases b <;> cases c <;> decide

theorem lowerSaturating_eval (hw : 0 < w) (i : Saturating) (x y : BitVec w) :
    number i.isUnsigned ((lowerSaturating w i).eval x y) =
      max (minNumber w i.isUnsigned)
        (min (maxNumber w i.isUnsigned) (i.exact (number i.isUnsigned x) (number i.isUnsigned y))) := by
  cases i with
  | usub =>
    have hx := number_unsigned x
    have hy := number_unsigned y
    simp only [lowerSaturating, Value.eval, Predicate.eval, BinaryOp.eval, BitVec.ofBool_eq_iff_eq,
      BitVec.ult_iff_toNat_lt, Saturating.isUnsigned, Saturating.exact, minNumber, maxNumber, number, if_true] at hx hy ⊢
    split_ifs with hlt
    · rw [BitVec.toNat_ofNat, Nat.zero_mod]
      omega
    · rw [BitVec.toNat_sub_of_le (BitVec.le_def.mpr (by omega)), Int.ofNat_sub (by omega)]
      omega
  | uadd =>
    have hx := number_unsigned x
    have hy := number_unsigned y
    have hpos : 1 ≤ 2 ^ w := Nat.one_le_two_pow
    have hcast : ((2 ^ w : ℕ) : ℤ) = 2 ^ w := by push_cast; rfl
    simp only [lowerSaturating, Value.eval, Predicate.eval, BinaryOp.eval, BitVec.ofBool_eq_iff_eq,
      BitVec.ult_iff_toNat_lt, Saturating.isUnsigned, Saturating.exact, minNumber, maxNumber, number, if_true,
      BitVec.toNat_add] at hx hy ⊢
    rw [← hcast] at hx hy ⊢
    rcases Nat.lt_or_ge (x.toNat + y.toNat) (2 ^ w) with hlt | hge
    · rw [Nat.mod_eq_of_lt hlt, if_neg (by omega), BitVec.toNat_add, Nat.mod_eq_of_lt hlt]
      omega
    · have hmod : (x.toNat + y.toNat) % 2 ^ w = x.toNat + y.toNat - 2 ^ w := by
        rw [Nat.mod_eq_sub_mod hge, Nat.mod_eq_of_lt (by omega)]
      rw [hmod, if_pos (by omega), BitVec.toNat_allOnes, Int.ofNat_sub hpos]
      omega
  | ssub =>
    have hx : -2 ^ (w - 1) ≤ x.toInt ∧ x.toInt < 2 ^ (w - 1) := number_signed x
    have hy : -2 ^ (w - 1) ≤ y.toInt ∧ y.toInt < 2 ^ (w - 1) := number_signed y
    have hresult : (x - y).toInt = _ := (congrArg BitVec.toInt (eval_signed .ssub x y)).trans
      (toInt_ofInt_cases hw (by simp only [WithOverflow.exact]; omega))
    simp only [lowerSaturating, Value.eval, Predicate.eval, BinaryOp.eval, BitVec.ofBool_eq_iff_eq, ofBool_signs,
      BitVec.slt_eq_decide, Saturating.isUnsigned, Saturating.exact, WithOverflow.exact, minNumber, maxNumber, number,
      Bool.false_eq_true, if_false, BitVec.toInt_zero, apply_ite BitVec.toInt, BitVec.toInt_intMax,
      BitVec.toInt_intMin_of_pos hw, ne_eq, decide_eq_decide, decide_eq_true_eq] at hresult ⊢
    generalize (2 : ℤ) ^ (w - 1) = H at *
    rw [hresult]
    split_ifs <;> omega
  | sadd =>
    have hx : -2 ^ (w - 1) ≤ x.toInt ∧ x.toInt < 2 ^ (w - 1) := number_signed x
    have hy : -2 ^ (w - 1) ≤ y.toInt ∧ y.toInt < 2 ^ (w - 1) := number_signed y
    have hresult : (x + y).toInt = _ := (congrArg BitVec.toInt (eval_signed .sadd x y)).trans
      (toInt_ofInt_cases hw (by simp only [WithOverflow.exact]; omega))
    simp only [lowerSaturating, Value.not, Value.eval, Predicate.eval, BinaryOp.eval, BitVec.ofBool_eq_iff_eq, ofBool_signs,
      BitVec.slt_eq_decide, Saturating.isUnsigned, Saturating.exact, WithOverflow.exact, minNumber, maxNumber, number,
      Bool.false_eq_true, if_false, BitVec.toInt_zero, apply_ite BitVec.toInt, BitVec.toInt_intMax,
      BitVec.toInt_intMin_of_pos hw, ne_eq, decide_eq_decide, decide_eq_true_eq] at hresult ⊢
    generalize (2 : ℤ) ^ (w - 1) = H at *
    rw [hresult]
    split_ifs <;> omega

theorem lower_exact (hw : 0 < w) (x y : BitVec w) :
    (∀ i : WithOverflow,
      (lowerWithOverflow w i).1.eval x y = BitVec.ofInt w (i.exact (number i.isUnsigned x) (number i.isUnsigned y)) ∧
      ((lowerWithOverflow w i).2.eval x y = BitVec.ofBool true ↔
        ¬ (minNumber w i.isUnsigned ≤ i.exact (number i.isUnsigned x) (number i.isUnsigned y) ∧
          i.exact (number i.isUnsigned x) (number i.isUnsigned y) ≤ maxNumber w i.isUnsigned))) ∧
    ∀ i : Saturating, number i.isUnsigned ((lowerSaturating w i).eval x y) =
      max (minNumber w i.isUnsigned)
        (min (maxNumber w i.isUnsigned) (i.exact (number i.isUnsigned x) (number i.isUnsigned y))) :=
  ⟨fun i => ⟨lowerWithOverflow_result i x y, lowerWithOverflow_overflow hw i x y⟩,
    fun i => lowerSaturating_eval hw i x y⟩

/-- Zero minus minus one, in one bit. -/
theorem lower_exact_one : number false ((lowerSaturating 1 .ssub).eval (BitVec.ofInt 1 0) (BitVec.ofInt 1 (-1))) = 0 :=
  (lower_exact Nat.one_pos (BitVec.ofInt 1 0) (BitVec.ofInt 1 (-1))).2 .ssub

end Klee.IntrinsicCleaner
