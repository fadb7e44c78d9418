import DdKlee.Proofs.ConstantDivision
import DdKlee.Spec.STPBuilder

/-! The terms of `STPBuilder` for shifts, and for products by constants. -/

namespace Klee.STPBuilder

open VC

theorem bvZero_eq {width : ℕ} (h : width ≤ 64) : bvZero width = ⟨width, BitVec.ofNat width 0⟩ := by
  rw [bvZero, bvZExtConst, if_pos h]
  rfl

theorem bvLeftShift_eq {w : ℕ} (hw : w ≤ 64) (v : BitVec w) (shift : ℕ) :
    bvLeftShift ⟨w, v⟩ shift = ⟨w, v <<< shift⟩ := by
  unfold bvLeftShift
  dsimp only
  split_ifs with hzero hover
  · rw [hzero, BitVec.shiftLeft_zero]
  · rw [bvZero_eq hw]
    congr 1
    refine BitVec.eq_of_getLsbD_eq fun i hi => ?_
    simp
    omega
  · rw [bvZero_eq (by omega)]
    refine APInt.ext_bit (show w - shift - 1 - 0 + 1 + shift = w by omega) fun i hi => ?_
    simp only [APInt.bit, bvConcatExpr, bvExtract, BitVec.getLsbD_append, BitVec.getLsbD_extractLsb',
      BitVec.getLsbD_shiftLeft]
    have hi' : i < w := lt_of_lt_of_eq hi (show w - shift - 1 - 0 + 1 + shift = w by omega)
    by_cases hlt : i < shift
    · simp [hlt]
    · simp [hlt, hi', show i - shift < w - shift - 1 + 1 by omega]

theorem bvRightShift_eq {w : ℕ} (hw : w ≤ 64) (v : BitVec w) (shift : ℕ) :
    bvRightShift ⟨w, v⟩ shift = ⟨w, v >>> shift⟩ := by
  unfold bvRightShift
  dsimp only
  split_ifs with hzero hover
  · rw [hzero, BitVec.ushiftRight_zero]
  · rw [bvZero_eq hw]
    congr 1
    refine BitVec.eq_of_getLsbD_eq fun i hi => ?_
    simp
    rw [BitVec.getLsbD_of_ge _ _ (by omega)]
  · rw [bvZero_eq (by omega)]
    refine APInt.ext_bit (show shift + (w - 1 - shift + 1) = w by omega) fun i hi => ?_
    simp only [APInt.bit, bvConcatExpr, bvExtract, BitVec.getLsbD_append, BitVec.getLsbD_extractLsb',
      BitVec.getLsbD_ushiftRight]
    by_cases hlt : i < w - 1 - shift + 1
    · simp [hlt]
    · simp [hlt, BitVec.getLsbD_of_ge v (shift + i) (by omega)]

section Cases

variable {bits : ℕ} (x : BitVec bits) (shifted : ℕ → APInt)

theorem shiftCases_eq (is : List ℕ) : ∀ (res : APInt), (∀ i ∈ is, i < 2 ^ bits ∧ i < 2 ^ 32) →
    shiftCases ⟨bits, x⟩ bits shifted res is =
      some (is.foldl (fun res i => if x.toNat = i then shifted i else res) res) := by
  induction is with
  | nil => exact fun res _ => rfl
  | cons i is ih =>
    intro res his
    obtain ⟨⟨hbits, h32⟩, his⟩ := List.forall_mem_cons.mp his
    have hmod : i % 2 ^ 32 = i := Nat.mod_eq_of_lt h32
    have heq : eqExpr ⟨bits, x⟩ (bvConst32 bits (BitVec.ofNat 32 i)) = some (decide (x.toNat = i)) := by
      unfold eqExpr
      refine (if_pos rfl).trans (congrArg some ?_)
      simp only [VC.eqExpr, bvConst32, bvConstExprFromInt, APInt.ofNat, BitVec.toNat_ofNat, hmod, APInt.eq_mk,
        beq_eq_decide, BitVec.toNat_eq, Nat.mod_eq_of_lt hbits]
    unfold shiftCases at ih ⊢
    rw [List.foldlM_cons, heq]
    simp only [some_bind, List.foldl_cons, iteExpr, decide_eq_true_eq]
    exact ih _ his

theorem foldl_cases (n : ℕ) : ∀ (res : APInt) (k : ℕ), k < n →
    (List.range n).reverse.foldl (fun res i => if k = i then shifted i else res) res = shifted k := by
  have hkeep : ∀ (n k : ℕ) (res : APInt), n ≤ k →
      (List.range n).reverse.foldl (fun res i => if k = i then shifted i else res) res = res := by
    intro n
    induction n with
    | zero => exact fun _ _ _ => rfl
    | succ n ih =>
      intro k res hk
      rw [List.range_succ, List.reverse_append, List.reverse_singleton, List.singleton_append, List.foldl_cons,
        if_neg (by omega)]
      exact ih k res (by omega)
  induction n with
  | zero => exact fun _ _ h => absurd h (Nat.not_lt_zero _)
  | succ n ih =>
    intro res k hk
    rw [List.range_succ, List.reverse_append, List.reverse_singleton, List.singleton_append, List.foldl_cons]
    rcases Nat.lt_succ_iff_lt_or_eq.mp hk with hlt | rfl
    · exact ih _ k hlt
    · rw [if_pos rfl]
      exact hkeep _ _ _ le_rfl

end Cases

theorem bvVarRightShift_eq {w : ℕ} (hpos : 0 < w) (hw : w ≤ 64) (v : BitVec w) (s : BitVec 32) :
    bvVarRightShift ⟨w, v⟩ ⟨32, s⟩ = some ⟨w, v >>> s.toNat⟩ := by
  have hw32 : w < 2 ^ 32 := by omega
  have hactive : (APInt.ofNat 32 w).getActiveBits = w.size := by
    rw [APInt.getActiveBits, APInt.toNat_ofNat, Nat.mod_eq_of_lt hw32]
  have hsize : 0 < w.size := Nat.size_pos.mpr hpos
  have hbits : w.size - 1 - 0 + 1 = w.size := by omega
  have hcases := shiftCases_eq (s.extractLsb' 0 w.size) (bvRightShift ⟨w, v⟩) (List.range w).reverse (bvZero w)
    fun i hi => ⟨by
      have := Nat.lt_size_self w
      simp at hi
      omega, by
      simp at hi
      omega⟩
  have hext : bvExtract ⟨32, s⟩ (w.size - 1) 0 = ⟨w.size, s.extractLsb' 0 w.size⟩ := by
    rw [bvExtract, hbits]
  simp only [bvVarRightShift, extractPartialShiftValue, hactive, hext, hcases, some_bind]
  congr 1
  have hlt : bvLtExpr ⟨32, s⟩ (bvConst32 32 (BitVec.ofNat 32 w)) = decide (s.toNat < w) := by
    simp only [bvLtExpr, bvConst32, bvConstExprFromInt, APInt.ofNat, BitVec.toNat_ofNat, APInt.ult_mk, BitVec.ult,
      Nat.mod_eq_of_lt hw32]
  rw [iteExpr, hlt]
  by_cases hs : s.toNat < w
  · have hmod : (s.extractLsb' 0 w.size).toNat = s.toNat := by
      rw [BitVec.extractLsb'_toNat, Nat.shiftRight_zero, Nat.mod_eq_of_lt]
      exact hs.trans (Nat.lt_size_self w)
    rw [hmod, foldl_cases _ _ _ _ hs, bvRightShift_eq hw]
    simp [hs]
  · have hover : v >>> s.toNat = 0#w := BitVec.ushiftRight_eq_zero (not_lt.mp hs)
    simp [hs, hover, bvZero_eq hw]

theorem and_bit_ne_zero_iff {x : BitVec 64} {j : ℕ} (hj : j < 64) : x &&& 1#64 <<< j ≠ 0 ↔ x.getLsbD j = true := by
  refine ⟨MultConstants.and_bit_ne_zero, fun h hzero => ?_⟩
  have := congrArg (·.getLsbD j) hzero
  simp [h, MultConstants.getLsbD_one_shift_iff.mpr ⟨rfl, hj⟩] at this

/-- The value of the chain so far, which is nothing at first. -/
def Denotes {w : ℕ} (res : Option APInt) (r : BitVec w) : Prop := res = none ∧ r = 0#w ∨ res = some ⟨w, r⟩

/-- The multiple of `v` by the bits of a constant below `n`. -/
def partialMul {w : ℕ} (v : BitVec w) (c : BitVec 64) (n : ℕ) : BitVec w := v * BitVec.ofNat w (c.toNat % 2 ^ n)

theorem partialMul_succ {w : ℕ} (v : BitVec w) (c : BitVec 64) (n : ℕ) :
    partialMul v c (n + 1) = partialMul v c n + if c.getLsbD n = true then v <<< n else 0 := by
  unfold partialMul
  simp only [Nat.mod_pow_succ, BitVec.getLsbD, Nat.testBit_eq_decide_div_mod_eq, decide_eq_true_eq]
  rcases Nat.mod_two_eq_zero_or_one (c.toNat / 2 ^ n) with h | h
  · rw [h, if_neg (by decide), Nat.mul_zero, Nat.add_zero]
    simp
  · rw [h, if_pos rfl, Nat.mul_one, BitVec.ofNat_add, BitVec.mul_add, BitVec.shiftLeft_eq_mul_twoPow]
    congr 2
    exact BitVec.eq_of_toNat_eq (by rw [BitVec.toNat_ofNat, BitVec.toNat_twoPow])

section Chain

variable {w : ℕ} (hw : w ≤ 64) (v : BitVec w) {add sub : BitVec 64}
  (hdisjoint : ∀ j, ¬ (add.getLsbD j = true ∧ sub.getLsbD j = true))

include hw hdisjoint

theorem mulStep_denotes {res : Option APInt} {r : BitVec w} {j : ℕ} (hj : j < 64) (hres : Denotes res r) :
    ∃ res', mulStep ⟨w, v⟩ w add sub res j = some res' ∧
      Denotes res' (r + (if add.getLsbD j = true then v <<< j else 0) - if sub.getLsbD j = true then v <<< j else 0) := by
  unfold mulStep
  simp only [and_bit_ne_zero_iff hj, bvLeftShift_eq hw]
  by_cases hadd : add.getLsbD j = true
  · have hsub : ¬ sub.getLsbD j = true := fun h => hdisjoint j ⟨hadd, h⟩
    simp only [hadd, hsub, true_or, if_true, Bool.false_eq_true, and_false, if_false]
    rcases hres with ⟨rfl, rfl⟩ | rfl
    · exact ⟨_, rfl, .inr (by simp)⟩
    · exact ⟨_, rfl, .inr (by simp [bvPlusExpr])⟩
  · by_cases hsub : sub.getLsbD j = true
    · simp only [hadd, hsub, or_true, if_true, Bool.false_eq_true, false_and, if_false]
      rcases hres with ⟨rfl, rfl⟩ | rfl
      · exact ⟨_, rfl, .inr (by simp [bvUMinusExpr, APInt.neg])⟩
      · exact ⟨_, rfl, .inr (by simp [bvMinusExpr])⟩
    · simp only [hadd, hsub, Bool.false_eq_true, or_self, if_false]
      refine ⟨res, rfl, ?_⟩
      simpa using hres

theorem foldlM_mulStep (n : ℕ) : ∀ {res : Option APInt} {r : BitVec w}, n ≤ 64 → Denotes res r →
    ∃ res', (List.range n).reverse.foldlM (mulStep ⟨w, v⟩ w add sub) res = some res' ∧
      Denotes res' (r + partialMul v add n - partialMul v sub n) := by
  induction n with
  | zero =>
    intro res r _ hres
    refine ⟨res, rfl, ?_⟩
    have hnone : ∀ c : BitVec 64, partialMul v c 0 = 0#w := fun c => by simp [partialMul, Nat.mod_one]
    rwa [hnone, hnone, BitVec.add_zero, BitVec.sub_zero]
  | succ n ih =>
    intro res r hn hres
    obtain ⟨res1, hstep, hres1⟩ := mulStep_denotes hw v hdisjoint (show n < 64 by omega) hres
    obtain ⟨res2, hrest, hres2⟩ := ih (by omega) hres1
    refine ⟨res2, ?_, ?_⟩
    · rw [List.range_succ, List.reverse_append, List.reverse_singleton, List.singleton_append, List.foldlM_cons, hstep]
      exact hrest
    · rw [partialMul_succ, partialMul_succ]
      convert hres2 using 1
      abel

end Chain

theorem truncateToNBits_eq {n : ℕ} (hpos : 0 < n) (hle : n ≤ 64) (x : BitVec 64) : ∃ y,
    bits64.truncateToNBits x n = some y ∧ y.toNat = x.toNat % 2 ^ n ∧
      ∀ j, y.getLsbD j = true → x.getLsbD j = true := by
  refine ⟨_, if_pos ⟨hpos, hle⟩, ?_, fun j hj => ?_⟩
  · rw [BitVec.toNat_and, BitVec.toNat_ushiftRight, BitVec.toNat_allOnes, Nat.shiftRight_eq_div_pow]
    have hall : ∀ n : Fin 65, (2 ^ 64 - 1) / 2 ^ (64 - n.val) = 2 ^ n.val - 1 := by decide
    have hmask := hall ⟨n, by omega⟩
    dsimp only at hmask
    rw [hmask, Nat.and_two_pow_sub_one_eq_mod]
  · rw [BitVec.getLsbD_and, Bool.and_eq_true] at hj
    exact hj.1

/-- The constants that the chain goes through have no bit in common. -/
theorem exists_truncated {w : ℕ} (hpos : 0 < w) (hle : w ≤ 64) (x : BitVec 64) : ∃ add sub add' sub',
    computeMultConstants64 x = some (add, sub) ∧ x = add - sub ∧
      bits64.truncateToNBits add w = some add' ∧ add'.toNat = add.toNat % 2 ^ w ∧
      bits64.truncateToNBits sub w = some sub' ∧ sub'.toNat = sub.toNat % 2 ^ w ∧
      ∀ j, ¬ (add'.getLsbD j = true ∧ sub'.getLsbD j = true) := by
  obtain ⟨add, sub, hconst, hand, hsum⟩ := exists_computeMultConstants64 x
  obtain ⟨add', hadd, haddNat, haddBits⟩ := truncateToNBits_eq hpos hle add
  obtain ⟨sub', hsub, hsubNat, hsubBits⟩ := truncateToNBits_eq hpos hle sub
  refine ⟨add, sub, add', sub', hconst, hsum, hadd, haddNat, hsub, hsubNat, ?_⟩
  rintro j ⟨hj, hj'⟩
  have hbit := congrArg (·.getLsbD j) hand
  simp [haddBits j hj, hsubBits j hj'] at hbit

theorem constructMulByConstant_eq {w : ℕ} (hpos : 0 < w) (hle : w ≤ 64) (v : BitVec w) (x : BitVec 64) :
    constructMulByConstant ⟨w, v⟩ w x = some ⟨w, v * x.setWidth w⟩ := by
  obtain ⟨add, sub, add', sub', hconst, hsum, hadd, haddNat, hsub, hsubNat, hdisjoint⟩ := exists_truncated hpos hle x
  obtain ⟨res, hfold, hres⟩ := foldlM_mulStep hle v hdisjoint 64 le_rfl (.inl ⟨rfl, rfl⟩)
  have hpart : ∀ c c' : BitVec 64, c'.toNat = c.toNat % 2 ^ w → partialMul v c' 64 = v * c.setWidth w := by
    intro c c' hc
    rw [partialMul, Nat.mod_eq_of_lt c'.isLt, hc]
    congr 1
    exact BitVec.eq_of_toNat_eq (by simp)
  have hvalue : 0#w + partialMul v add' 64 - partialMul v sub' 64 = v * x.setWidth w := by
    have hwidth : add.setWidth w = x.setWidth w + sub.setWidth w := by
      rw [← BitVec.setWidth_add _ _ hle, hsum, BitVec.sub_add_cancel]
    rw [hpart add add' haddNat, hpart sub sub' hsubNat, hwidth, BitVec.mul_add, BitVec.zero_add]
    abel
  simp only [constructMulByConstant, hconst, hadd, hsub, hfold, some_bind]
  rw [← hvalue]
  rcases hres with ⟨rfl, hzero⟩ | rfl
  · rw [hzero]
    exact congrArg some (bvZero_eq hle)
  · rfl

/-- The constants are found and make up the multiplicand, and the chain of shifts
is the product: no bit of it is added and subtracted. -/
theorem constructMulByConstant_exact (multiplicand : BitVec 64) {w : ℕ} (hpos : 0 < w) (hle : w ≤ 64) (v : BitVec w)
    (x : BitVec 64) :
    (∃ add sub, computeMultConstants64 multiplicand = some (add, sub) ∧ add &&& sub = 0#64 ∧
        multiplicand = add - sub) ∧
      (∃ res, constructMulByConstant ⟨w, v⟩ w x = some res ∧ res.width = w ∧
        res.toNat = v.toNat * x.toNat % 2 ^ w) ∧
      ∃ add sub add' sub', computeMultConstants64 x = some (add, sub) ∧ bits64.truncateToNBits add w = some add' ∧
        bits64.truncateToNBits sub w = some sub' ∧
        ∀ j < 64, ¬ (add' &&& 1#64 <<< j ≠ 0 ∧ sub' &&& 1#64 <<< j ≠ 0) := by
  refine ⟨exists_computeMultConstants64 multiplicand, ⟨_, constructMulByConstant_eq hpos hle v x, rfl, ?_⟩, ?_⟩
  · simp [APInt.toNat, BitVec.toNat_mul]
  · obtain ⟨add, sub, add', sub', hconst, -, hadd, -, hsub, -, hdisjoint⟩ := exists_truncated hpos hle x
    refine ⟨add, sub, add', sub', hconst, hadd, hsub, fun j hj => ?_⟩
    rw [and_bit_ne_zero_iff hj, and_bit_ne_zero_iff hj]
    exact hdisjoint j

theorem constructMulByConstant_exact_eleven :
    0 < 8 ∧ 8 ≤ 64 ∧ ∃ res, constructMulByConstant ⟨8, 100#8⟩ 8 11#64 = some res ∧ res.toNat = 76 := by
  obtain ⟨-, ⟨res, hres, -, hnat⟩, -⟩ := constructMulByConstant_exact 0 (by decide : 0 < 8) (by decide) 100#8 11#64
  exact ⟨by decide, by decide, res, hres, hnat⟩

theorem bvExtract_high (x : BitVec 64) : bvExtract ⟨64, x⟩ 63 32 = ⟨32, (x >>> 32).setWidth 32⟩ := by
  refine APInt.ext_bit rfl fun i hi => ?_
  have hi' : i < 32 := hi
  simp [APInt.bit, bvExtract, hi']

theorem bvConcatExpr_zero (n : BitVec 32) : bvConcatExpr (bvZero 32) ⟨32, n⟩ = ⟨64, n.setWidth 64⟩ := by
  rw [bvZero_eq (by decide)]
  refine APInt.ext_bit rfl fun i hi => ?_
  have hi' : i < 64 := hi
  simp only [APInt.bit, bvConcatExpr, BitVec.getLsbD_append, BitVec.getLsbD_zero, BitVec.getLsbD_setWidth, hi',
    decide_true, Bool.true_and]
  split_ifs with hlt
  · rfl
  · exact (BitVec.getLsbD_of_ge _ _ (not_lt.mp hlt)).symm

theorem bvMinusExpr_eq {w : ℕ} (x y : BitVec w) : bvMinusExpr w ⟨w, x⟩ ⟨w, y⟩ = ⟨w, x - y⟩ := by
  simp [bvMinusExpr]

theorem bvPlusExpr_eq {w : ℕ} (x y : BitVec w) : bvPlusExpr w ⟨w, x⟩ ⟨w, y⟩ = ⟨w, x + y⟩ := by
  simp [bvPlusExpr]

theorem bvConst32_eq (x : BitVec 32) : bvConst32 32 x = ⟨32, x⟩ := by
  rw [bvConst32, bvConstExprFromInt, APInt.ofNat, BitVec.ofNat_toNat, BitVec.setWidth_eq]

theorem constructUDivByConstant_eq (n : BitVec 32) {d : BitVec 32} (hd : d ≠ 0) :
    constructUDivByConstant ⟨32, n⟩ 32 (d.setWidth 64) = some ⟨32, n / d⟩ := by
  have hd' : (d.setWidth 64).setWidth 32 = d := by simp
  have hshift := fun v s => bvVarRightShift_eq (w := 32) (by decide) (by decide) v s
  simp only [constructUDivByConstant, ne_eq, not_true_eq_false, if_false, hd', bvConcatExpr_zero,
    constructMulByConstant_eq (w := 64) (by decide) le_rfl, BitVec.setWidth_eq, bvExtract_high, bvMinusExpr_eq,
    bvPlusExpr_eq, bvConst32_eq, hshift, some_bind]
  rw [← quotient_udiv n hd, UDivConstants.quotient, BitVec.mul_comm]

/-- The quotient by a constant, in words and as a term, and the remainder. -/
theorem constructUDivByConstant_exact (n d : BitVec 32) (hd : d ≠ 0) :
    ((computeUDivConstants32 d).quotient n).toNat = n.toNat / d.toNat ∧
      (n - (computeUDivConstants32 d).quotient n * d).toNat = n.toNat % d.toNat ∧
      constructUDivByConstant ⟨32, n⟩ 32 (d.setWidth 64) = some ⟨32, (computeUDivConstants32 d).quotient n⟩ := by
  rw [quotient_udiv n hd]
  refine ⟨BitVec.toNat_udiv, ?_, constructUDivByConstant_eq n hd⟩
  have hle : n.toNat / d.toNat * d.toNat ≤ n.toNat := Nat.div_mul_le_self _ _
  have hmul : (n / d * d).toNat = n.toNat / d.toNat * d.toNat := by
    rw [BitVec.toNat_mul, BitVec.toNat_udiv, Nat.mod_eq_of_lt (hle.trans_lt n.isLt)]
  rw [BitVec.toNat_sub_of_le (by rw [BitVec.le_def, hmul]; exact hle), hmul]
  have := Nat.div_add_mod' n.toNat d.toNat
  omega

theorem constructUDivByConstant_exact_seven : (7#32 : BitVec 32) ≠ 0 ∧
    constructUDivByConstant ⟨32, 100#32⟩ 32 ((7#32).setWidth 64) = some ⟨32, 14#32⟩ := by
  refine ⟨by decide, ?_⟩
  have h := (constructUDivByConstant_exact 100#32 7#32 (by decide)).2.2
  exact h

theorem bvSignExtend_eq (n : BitVec 32) : bvSignExtend ⟨32, n⟩ 64 = ⟨64, n.signExtend 64⟩ := rfl

theorem bvExtract_low (x : BitVec 64) : bvExtract ⟨64, x⟩ 31 0 = ⟨32, x.setWidth 32⟩ := by
  refine APInt.ext_bit rfl fun i hi => ?_
  have hi' : i < 32 := hi
  simp [APInt.bit, bvExtract, hi']

theorem bvXorExpr_eq {w : ℕ} (x y : BitVec w) : bvXorExpr ⟨w, x⟩ ⟨w, y⟩ = ⟨w, x ^^^ y⟩ := by
  simp [bvXorExpr]

theorem iteExpr_sign (n : BitVec 32) :
    iteExpr (bvBoolExtract ⟨32, n⟩ 31) (bvMinusOne 32) (bvZero 32) = ⟨32, xsign n⟩ := by
  have hmsb : bvBoolExtract ⟨32, n⟩ 31 = n.msb := by
    have hbit : n.extractLsb' 31 1 = BitVec.ofBool n.msb := by
      refine BitVec.eq_of_getLsbD_eq fun i hi => ?_
      obtain rfl : i = 0 := by omega
      simp [BitVec.msb_eq_getLsbD_last]
    have hone : bvOne 1 = ⟨1, 1#1⟩ := rfl
    rw [bvBoolExtract, hone, VC.eqExpr, bvExtract]
    simp only [hbit]
    cases n.msb <;> rfl
  have hminus : bvMinusOne 32 = ⟨32, BitVec.ofInt 32 (-1)⟩ := by decide
  rw [hmsb, xsign_eq, bvZero_eq (by decide), hminus, iteExpr, BitVec.msb_eq_toInt]
  simp only [decide_eq_true_eq]
  split_ifs <;> rfl

/-- The quotient towards zero, for each divisor but the three that are handled
before. -/
theorem constructSDivByConstant_exact (n d : BitVec 32) (h0 : d ≠ 0) (h1 : d ≠ 1) (hneg : d ≠ -1) :
    ((computeSDivConstants32 d).quotient n).toInt = n.toInt.tdiv d.toInt ∧
      constructSDivByConstant ⟨32, n⟩ 32 (d.setWidth 64) = some ⟨32, (computeSDivConstants32 d).quotient n⟩ := by
  have hd : 2 ≤ d.toInt.natAbs := by
    have h0' : d.toInt ≠ 0 := fun h => h0 (BitVec.eq_of_toInt_eq h)
    have h1' : d.toInt ≠ 1 := fun h => h1 (BitVec.eq_of_toInt_eq h)
    have hneg' : d.toInt ≠ -1 := fun h => hneg (BitVec.eq_of_toInt_eq h)
    omega
  refine ⟨toInt_quotient_sdiv n hd, ?_⟩
  have hd' : (d.setWidth 64).setWidth 32 = d := by simp
  have hshift := fun v s => bvVarRightShift_eq (w := 64) (by decide) le_rfl v s
  simp only [constructSDivByConstant, ne_eq, not_true_eq_false, if_false, hd', bvSignExtend_eq,
    constructMulByConstant_eq (w := 64) (by decide) le_rfl, BitVec.setWidth_eq, bvExtract_high, bvPlusExpr_eq,
    bvConst32_eq, hshift, bvExtract_low, iteExpr_sign, bvMinusExpr_eq, bvXorExpr_eq, some_bind, SDivConstants.quotient]

theorem constructSDivByConstant_exact_min : (BitVec.intMin 32 ≠ 0 ∧ BitVec.intMin 32 ≠ 1 ∧ BitVec.intMin 32 ≠ -1) ∧
    constructSDivByConstant ⟨32, BitVec.intMin 32⟩ 32 ((BitVec.intMin 32).setWidth 64) = some ⟨32, 1#32⟩ := by
  refine ⟨by decide, ?_⟩
  exact (constructSDivByConstant_exact (BitVec.intMin 32) (BitVec.intMin 32) (by decide) (by decide) (by decide)).2

end Klee.STPBuilder
