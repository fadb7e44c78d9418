import DdKlee.Lib.MagicDivision
import DdKlee.Lib.Prog
import DdKlee.Spec.ConstantDivision

/-! The constants of `ConstantDivision.cpp`: what is added and subtracted is the
multiplicand. -/

namespace Klee

namespace bits64

theorem indexOfSingleBit_shift {i : ℕ} (hi : i < 64) : indexOfSingleBit (1#64 <<< i) = some i := by
  have h : ∀ i : Fin 64, indexOfSingleBit (1#64 <<< i.val) = some i.val := by decide
  exact h ⟨i, hi⟩

theorem getLsbD_one_shift (i j : ℕ) (hj : j < 64) : (1#64 <<< i).getLsbD j = decide (i = j) := by
  rw [← BitVec.twoPow_eq, BitVec.getLsbD_twoPow]
  by_cases h : i = j <;> simp [h, hj]

theorem isolateRightmostBit_eq {x : BitVec 64} {i t : ℕ} (hx : x.toNat = 2 ^ i * t) (ht : Odd t) :
    isolateRightmostBit x = 1#64 <<< i := by
  have hbit : ∀ j, x.getLsbD j = (decide (j ≥ i) && t.testBit (j - i)) := fun j => by
    rw [BitVec.getLsbD, hx, Nat.testBit_two_pow_mul]
  have hlow : x.getLsbD i = true := by simp [hbit, Nat.odd_iff.mp ht]
  unfold isolateRightmostBit
  refine BitVec.eq_of_getLsbD_eq fun j hj => ?_
  rw [BitVec.getLsbD_and, BitVec.getLsbD_neg, getLsbD_one_shift i j hj]
  rcases Nat.lt_trichotomy j i with hlt | rfl | hgt
  · have hzero : x.getLsbD j = false := by simp [hbit, not_le.mpr hlt]
    simp [hzero, Nat.ne_of_gt hlt]
  · have hnone : ¬ ∃ k < j, x.getLsbD k = true := by
      rintro ⟨k, hk, hk'⟩
      simp [hbit, not_le.mpr hk] at hk'
    simp [hlow, hnone]
  · have hsome : ∃ k < j, x.getLsbD k = true := ⟨i, hgt, hlow⟩
    simp [hsome, hj, Nat.ne_of_lt hgt]

end bits64

namespace MultConstants

open bits64

/-- The rightmost run of ones of a number: adding its low bit leaves the bits
above it, and a carry. -/
theorem exists_run {n : ℕ} (hn : n ≠ 0) : ∃ low k t, 0 < k ∧ Odd t ∧ n + 2 ^ low = 2 ^ (low + k) * t ∧
    ∃ m, Odd m ∧ n = 2 ^ low * m := by
  obtain ⟨low, m, hm, hn⟩ := Nat.exists_eq_two_pow_mul_odd hn
  obtain ⟨k, t, ht, hmt⟩ := Nat.exists_eq_two_pow_mul_odd (Nat.succ_ne_zero m)
  refine ⟨low, k, t, ?_, ht, ?_, m, hm, hn⟩
  · rw [Nat.pos_iff_ne_zero]
    rintro rfl
    rw [pow_zero, one_mul] at hmt
    have := Nat.odd_iff.mp (hmt ▸ ht)
    have := Nat.odd_iff.mp hm
    omega
  · rw [hn, pow_add, mul_assoc, ← hmt, Nat.succ_eq_add_one]
    ring

variable {s : MultConstants}

theorem toNat_one_shift {i : ℕ} (hi : i < 64) : (1#64 <<< i).toNat = 2 ^ i := by
  rw [← BitVec.twoPow_eq, BitVec.toNat_twoPow, Nat.mod_eq_of_lt (Nat.pow_lt_pow_right (by decide) hi)]

theorem one_shift_64 : 1#64 <<< 64 = 0#64 := by decide

theorem toNat_add_low {x : BitVec 64} {low : ℕ} (hlow : low < 64) :
    (x + 1#64 <<< low).toNat = (x.toNat + 2 ^ low) % 2 ^ 64 := by
  rw [BitVec.toNat_add, toNat_one_shift hlow]

theorem getLsbD_one_shift_iff {i j : ℕ} : (1#64 <<< i).getLsbD j = true ↔ i = j ∧ j < 64 := by
  by_cases hj : j < 64
  · rw [getLsbD_one_shift i j hj]
    simp [hj]
  · simp [BitVec.getLsbD_of_ge _ _ (not_lt.mp hj), hj]

theorem getLsbD_one_shift_of_ne {i j : ℕ} (h : i ≠ j) : (1#64 <<< i).getLsbD j = false := by
  rw [← Bool.not_eq_true, getLsbD_one_shift_iff]
  exact fun h' => h h'.1

theorem or_bit {x : BitVec 64} {i : ℕ} (h : x.getLsbD i = false) : x ||| 1#64 <<< i = x + 1#64 <<< i := by
  refine (BitVec.add_eq_or_of_and_eq_zero _ _ (BitVec.eq_of_getLsbD_eq fun j _ => ?_)).symm
  rw [BitVec.getLsbD_and, BitVec.getLsbD_zero]
  by_cases hij : i = j
  · rw [← hij, h, Bool.false_and]
  · rw [getLsbD_one_shift_of_ne hij, Bool.and_false]

theorem xor_bit_clear {x : BitVec 64} {i : ℕ} (h : x.getLsbD i = false) : x ^^^ 1#64 <<< i = x + 1#64 <<< i := by
  rw [← or_bit h]
  refine BitVec.eq_of_getLsbD_eq fun j _ => ?_
  rw [BitVec.getLsbD_xor, BitVec.getLsbD_or]
  by_cases hij : i = j
  · rw [← hij, h, Bool.false_xor, Bool.false_or]
  · rw [getLsbD_one_shift_of_ne hij, Bool.xor_false, Bool.or_false]

theorem xor_bit_set {x : BitVec 64} {i : ℕ} (h : x.getLsbD i = true) : x ^^^ 1#64 <<< i = x - 1#64 <<< i := by
  have hi : i < 64 := BitVec.lt_of_getLsbD h
  have hclear : (x ^^^ 1#64 <<< i).getLsbD i = false := by
    rw [BitVec.getLsbD_xor, h, getLsbD_one_shift_iff.mpr ⟨rfl, hi⟩]
    rfl
  rw [eq_sub_iff_add_eq, ← xor_bit_clear hclear, BitVec.xor_assoc, BitVec.xor_self, BitVec.xor_zero]

theorem run_bounds {n low k t m : ℕ} (hn : n < 2 ^ 64) (ht : Odd t) (hrun : n + 2 ^ low = 2 ^ (low + k) * t)
    (hm : Odd m) (hnm : n = 2 ^ low * m) :
    low < 64 ∧ (low + k < 64 ∧ n + 2 ^ low < 2 ^ 64 ∨ low + k = 64 ∧ n + 2 ^ low = 2 ^ 64) := by
  have hmpos : 0 < m := hm.pos
  have htpos : 0 < t := ht.pos
  have hlow : low < 64 := by
    refine (Nat.pow_lt_pow_iff_right (a := 2) (by decide)).mp ?_
    calc 2 ^ low ≤ 2 ^ low * m := Nat.le_mul_of_pos_right _ hmpos
      _ < 2 ^ 64 := hnm ▸ hn
  have hle : n + 2 ^ low ≤ 2 ^ 64 := by
    have hsplit : 2 ^ 64 = 2 ^ low * 2 ^ (64 - low) := by rw [← pow_add, Nat.add_sub_cancel' hlow.le]
    have hlt : m < 2 ^ (64 - low) := by
      rw [hsplit, hnm] at hn
      exact Nat.lt_of_mul_lt_mul_left hn
    calc n + 2 ^ low = 2 ^ low * (m + 1) := by rw [hnm]; ring
      _ ≤ 2 ^ low * 2 ^ (64 - low) := Nat.mul_le_mul_left _ hlt
      _ = 2 ^ 64 := hsplit.symm
  have hpow : 2 ^ (low + k) ≤ 2 ^ (low + k) * t := Nat.le_mul_of_pos_right _ htpos
  refine ⟨hlow, ?_⟩
  rcases hle.lt_or_eq with hlt | heq
  · refine .inl ⟨?_, hlt⟩
    exact (Nat.pow_lt_pow_iff_right (a := 2) (by decide)).mp (hpow.trans_lt (hrun ▸ hlt))
  · refine .inr ⟨?_, heq⟩
    have hhigh : low + k ≤ 64 := by
      refine (Nat.pow_le_pow_iff_right (a := 2) (by decide)).mp ?_
      exact hpow.trans (by rw [← hrun, heq])
    have hsplit : 2 ^ 64 = 2 ^ (low + k) * 2 ^ (64 - (low + k)) := by rw [← pow_add, Nat.add_sub_cancel' hhigh]
    have hval : t = 2 ^ (64 - (low + k)) := by
      refine Nat.eq_of_mul_eq_mul_left (Nat.two_pow_pos (low + k)) ?_
      rw [← hrun, heq, hsplit]
    by_contra hne
    have heven : Even t := by
      rw [hval]
      exact (Nat.even_pow.mpr ⟨even_two, by omega⟩)
    exact Nat.not_even_iff_odd.mpr ht heven

theorem step_cases (hx : s.x ≠ 0) : ∃ low high,
    low < high ∧ high ≤ 64 ∧ (∃ m, Odd m ∧ s.x.toNat = 2 ^ low * m) ∧
      s.step = some { (if high = low + 1 then { s with add := s.add ||| 1#64 <<< low }
        else (s.subtractLow low (1#64 <<< low)).addHigh high) with x := s.x + 1#64 <<< low - 1#64 <<< high } ∧
      ∃ r, (s.x + 1#64 <<< low - 1#64 <<< high).toNat = 2 ^ (high + 1) * r := by
  have hn : s.x.toNat ≠ 0 := fun h => hx (BitVec.eq_of_toNat_eq h)
  obtain ⟨low, k, t, hk, ht, hrun, m, hm, hnm⟩ := exists_run hn
  obtain ⟨hlow, hcases⟩ := run_bounds s.x.isLt ht hrun hm hnm
  have hindex : indexOfRightmostBit s.x = some low := by
    rw [indexOfRightmostBit, isolateRightmostBit_eq hnm hm, indexOfSingleBit_shift hlow]
  have hp := toNat_add_low (x := s.x) hlow
  rcases hcases with ⟨hhigh, hlt⟩ | ⟨hhigh, heq⟩
  · -- the carry is the rightmost bit of what is left
    rw [Nat.mod_eq_of_lt hlt, hrun] at hp
    have hq := isolateRightmostBit_eq hp ht
    have hq0 : 1#64 <<< (low + k) ≠ 0 := fun h => by
      have := congrArg BitVec.toNat h
      rw [toNat_one_shift hhigh] at this
      exact absurd this (Nat.two_pow_pos _).ne'
    have hcarry : (s.x + 1#64 <<< low).getLsbD (low + k) = true := by
      rw [BitVec.getLsbD, hp, Nat.testBit_two_pow_mul]
      simp [Nat.odd_iff.mp ht]
    refine ⟨low, low + k, by omega, by omega, ⟨m, hm, hnm⟩, ?_, ?_⟩
    · simp only [step, hindex, hq, hq0, ne_eq, not_false_eq_true, if_true, indexOfSingleBit_shift hhigh, xor_bit_set hcarry,
        some_bind]
    · obtain ⟨r, rfl⟩ := ht
      refine ⟨r, ?_⟩
      rw [BitVec.toNat_sub_of_le, hp, toNat_one_shift hhigh, pow_succ]
      · have : 2 ^ (low + k) * (2 * r + 1) = 2 ^ (low + k) * 2 * r + 2 ^ (low + k) := by ring
        omega
      · rw [BitVec.le_def, hp, toNat_one_shift hhigh]
        exact Nat.le_mul_of_pos_right _ (by omega)
  · -- the run reaches the highest bit
    rw [heq, Nat.mod_self] at hp
    have hp0 : s.x + 1#64 <<< low = 0#64 := BitVec.eq_of_toNat_eq hp
    refine ⟨low, 64, by omega, le_rfl, ⟨m, hm, hnm⟩, ?_, 0, ?_⟩
    · simp only [step, hindex, hp0, some_bind]
      rfl
    · rw [hp0]
      rfl

/-- What is left of the multiplicand has its bits from `f` on, what was added and
subtracted has them below and has none in common, and together they make it up. -/
structure Inv (multiplicand : BitVec 64) (f : ℕ) (s : MultConstants) : Prop where
  left : ∃ r, s.x.toNat = 2 ^ f * r
  add : ∀ j, f ≤ j → s.add.getLsbD j = false
  sub : ∀ j, f ≤ j → s.sub.getLsbD j = false
  disjoint : ∀ j, ¬ (s.add.getLsbD j = true ∧ s.sub.getLsbD j = true)
  sum : multiplicand = s.x + s.add - s.sub

variable {multiplicand : BitVec 64} {f : ℕ}

theorem Inv.start (multiplicand : BitVec 64) : Inv multiplicand 0 { x := multiplicand } where
  left := ⟨multiplicand.toNat, by simp⟩
  add := by simp
  sub := by simp
  disjoint := by simp
  sum := by simp

theorem le_of_odd {f low r m : ℕ} (hm : Odd m) (h : 2 ^ f * r = 2 ^ low * m) : f ≤ low := by
  by_contra hlt
  obtain ⟨d, rfl⟩ : ∃ d, f = low + 1 + d := ⟨f - (low + 1), by omega⟩
  have heq : 2 * (2 ^ d * r) = m := by
    refine Nat.eq_of_mul_eq_mul_left (Nat.two_pow_pos low) ?_
    rw [← h, pow_add, pow_succ]
    ring
  exact Nat.not_even_iff_odd.mpr hm ⟨2 ^ d * r, by omega⟩

theorem one_shift_half {low : ℕ} (hlow : low ≠ 0) (hlt : low < 64) : (1#64 <<< low) >>> 1 = 1#64 <<< (low - 1) := by
  refine BitVec.eq_of_getLsbD_eq fun j hj => ?_
  rw [BitVec.getLsbD_ushiftRight, Bool.eq_iff_iff, getLsbD_one_shift_iff, getLsbD_one_shift_iff]
  omega

theorem one_shift_double {i : ℕ} (hi : i < 64) : 1#64 <<< i + 1#64 <<< i = 1#64 <<< (i + 1) := by
  have h : ∀ i : Fin 64, 1#64 <<< i.val + 1#64 <<< i.val = 1#64 <<< (i.val + 1) := by decide
  exact h ⟨i, hi⟩

theorem and_bit_ne_zero {x : BitVec 64} {i : ℕ} (h : x &&& 1#64 <<< i ≠ 0#64) : x.getLsbD i = true := by
  by_contra hclear
  refine h (BitVec.eq_of_getLsbD_eq fun j _ => ?_)
  rw [BitVec.getLsbD_and, BitVec.getLsbD_zero]
  by_cases hij : i = j
  · rw [← hij, (Bool.not_eq_true _).mp hclear, Bool.false_and]
  · rw [getLsbD_one_shift_of_ne hij, Bool.and_false]

theorem Inv.subtractLow {low : ℕ} (h : Inv multiplicand f s) (hlow : f ≤ low) (hlt : low < 64) :
    let s' := s.subtractLow low (1#64 <<< low)
    s'.add - s'.sub = s.add - s.sub - 1#64 <<< low ∧ (∀ j, low ≤ j → s'.add.getLsbD j = false) ∧
      (∀ j, low < j → s'.sub.getLsbD j = false) ∧
      ∀ j, ¬ (s'.add.getLsbD j = true ∧ s'.sub.getLsbD j = true) := by
  intro s'
  have hadd : ∀ j, low ≤ j → s.add.getLsbD j = false := fun j hj => h.add j (hlow.trans hj)
  have hsub : ∀ j, low ≤ j → s.sub.getLsbD j = false := fun j hj => h.sub j (hlow.trans hj)
  by_cases hbit : low ≠ 0 ∧ s.add &&& 1#64 <<< low >>> 1 ≠ 0
  · -- the bit below was added
    have hs' : s' = { s with add := s.add ^^^ 1#64 <<< (low - 1), sub := s.sub ^^^ 1#64 <<< (low - 1) } := by
      simp only [s', MultConstants.subtractLow]
      rw [if_pos hbit, one_shift_half hbit.1 hlt]
    obtain ⟨hzero, hand⟩ := hbit
    rw [one_shift_half hzero hlt] at hand
    have hset := and_bit_ne_zero hand
    have hclear : s.sub.getLsbD (low - 1) = false :=
      (Bool.not_eq_true _).mp fun h' => h.disjoint _ ⟨hset, h'⟩
    rw [hs']
    refine ⟨?_, fun j hj => ?_, fun j hj => ?_, fun j hj => ?_⟩
    · have hdouble := one_shift_double (i := low - 1) (by omega)
      rw [Nat.sub_add_cancel (Nat.pos_of_ne_zero hzero)] at hdouble
      dsimp only
      rw [xor_bit_set hset, xor_bit_clear hclear, ← hdouble]
      abel
    · rw [BitVec.getLsbD_xor, hadd j hj, getLsbD_one_shift_of_ne (by omega)]
      rfl
    · rw [BitVec.getLsbD_xor, hsub j hj.le, getLsbD_one_shift_of_ne (by omega)]
      rfl
    · simp only [BitVec.getLsbD_xor] at hj
      by_cases hij : low - 1 = j
      · subst hij
        rw [hset, hclear, getLsbD_one_shift_iff.mpr ⟨rfl, by omega⟩] at hj
        exact absurd hj.1 (by decide)
      · rw [getLsbD_one_shift_of_ne hij, Bool.xor_false, Bool.xor_false] at hj
        exact h.disjoint j hj
  · have hs' : s' = { s with sub := s.sub ||| 1#64 <<< low } := by
      simp only [s', MultConstants.subtractLow]
      rw [if_neg hbit]
    rw [hs']
    refine ⟨?_, hadd, fun j hj => ?_, fun j hj => ?_⟩
    · dsimp only
      rw [or_bit (hsub low le_rfl)]
      abel
    · rw [BitVec.getLsbD_or, hsub j hj.le, getLsbD_one_shift_of_ne hj.ne]
      rfl
    · simp only [BitVec.getLsbD_or, Bool.or_eq_true, getLsbD_one_shift_iff] at hj
      rcases hj with ⟨hj, hj' | ⟨rfl, -⟩⟩
      · exact h.disjoint j ⟨hj, hj'⟩
      · rw [hadd low le_rfl] at hj
        exact absurd hj (by decide)

theorem addHigh_add {high : ℕ} : (s.addHigh high).add = s.add ||| 1#64 <<< high := by
  unfold addHigh
  split_ifs with hhigh
  · rfl
  · rw [not_not.mp hhigh, one_shift_64, BitVec.or_zero]

theorem addHigh_sub {high : ℕ} : (s.addHigh high).sub = s.sub := by
  unfold addHigh
  split_ifs <;> rfl

theorem Inv.of_parts {high : ℕ} {add sub x : BitVec 64} (hleft : ∃ r, x.toNat = 2 ^ (high + 1) * r)
    (hadd : ∀ j, high ≤ j → add.getLsbD j = false) (hsub : ∀ j, high ≤ j → sub.getLsbD j = false)
    (hdisjoint : ∀ j, ¬ (add.getLsbD j = true ∧ sub.getLsbD j = true))
    (hsum : multiplicand = x + (add + 1#64 <<< high) - sub) :
    Inv multiplicand (high + 1) ⟨x, add ||| 1#64 <<< high, sub⟩ where
  left := hleft
  add j hj := by
    rw [BitVec.getLsbD_or, hadd j (by omega), getLsbD_one_shift_of_ne (by omega)]
    rfl
  sub j hj := hsub j (by omega)
  disjoint j hj := by
    simp only [BitVec.getLsbD_or, Bool.or_eq_true, getLsbD_one_shift_iff] at hj
    rcases hj with ⟨hj | ⟨rfl, -⟩, hj'⟩
    · exact hdisjoint j ⟨hj, hj'⟩
    · rw [hsub high le_rfl] at hj'
      exact absurd hj' (by decide)
  sum := by rw [or_bit (hadd high le_rfl), hsum]

theorem Inv.step (h : Inv multiplicand f s) (hx : s.x ≠ 0) :
    ∃ s' f', s.step = some s' ∧ f < f' ∧ Inv multiplicand f' s' := by
  obtain ⟨low, high, hlt, hle, ⟨m, hm, hnm⟩, hstep, hleft⟩ := step_cases hx
  obtain ⟨r, hr⟩ := h.left
  have hlow : f ≤ low := le_of_odd hm (hr.symm.trans hnm)
  by_cases hone : high = low + 1
  · rw [if_pos hone] at hstep
    refine ⟨_, low + 1, hstep, by omega, ?_⟩
    have hleft' : ∃ r, (s.x + 1#64 <<< low - 1#64 <<< high).toNat = 2 ^ (low + 1) * r := by
      obtain ⟨r, hr⟩ := hleft
      exact ⟨2 * r, by rw [hr, hone, pow_succ]; ring⟩
    refine Inv.of_parts hleft' (fun j hj => h.add j (by omega)) (fun j hj => h.sub j (by omega)) h.disjoint ?_
    rw [h.sum, hone, ← one_shift_double (show low < 64 by omega)]
    abel
  · rw [if_neg hone] at hstep
    refine ⟨_, high + 1, hstep, by omega, ?_⟩
    obtain ⟨hdiff, hadd, hsub, hdisjoint⟩ := h.subtractLow hlow (by omega)
    dsimp only
    rw [addHigh_add, addHigh_sub]
    refine Inv.of_parts hleft (fun j hj => hadd j (by omega)) (fun j hj => hsub j (by omega)) hdisjoint ?_
    calc multiplicand = s.x + 1#64 <<< low + (s.add - s.sub - 1#64 <<< low) := by rw [h.sum]; abel
      _ = _ := by rw [← hdiff]; abel

theorem loop_ok (fuel : ℕ) : ∀ {f : ℕ} {s : MultConstants}, Inv multiplicand f s → 64 ≤ f + fuel →
    ∃ s' f', loop fuel s = some s' ∧ s'.x = 0 ∧ Inv multiplicand f' s' := by
  induction fuel with
  | zero =>
    intro f s h hf
    -- no bit is left
    have hx : s.x = 0 := by
      obtain ⟨r, hr⟩ := h.left
      have hlt := s.x.isLt
      rw [hr] at hlt
      have hr0 : r = 0 := by
        by_contra hne
        have hpow : 2 ^ 64 ≤ 2 ^ f := Nat.pow_le_pow_right (by decide) (by omega)
        exact absurd hlt (not_lt.mpr (hpow.trans (Nat.le_mul_of_pos_right _ (Nat.pos_of_ne_zero hne))))
      exact BitVec.eq_of_toNat_eq (by rw [hr, hr0]; rfl)
    exact ⟨s, f, by rw [loop, if_pos hx], hx, h⟩
  | succ fuel ih =>
    intro f s h hf
    by_cases hx : s.x = 0
    · exact ⟨s, f, by rw [loop, if_pos hx], hx, h⟩
    · obtain ⟨s', f', hstep, hlt, h'⟩ := h.step hx
      rw [loop, if_neg hx, hstep, Option.bind_some]
      exact ih h' (by omega)

end MultConstants

theorem exists_computeMultConstants64 (multiplicand : BitVec 64) : ∃ add sub,
    computeMultConstants64 multiplicand = some (add, sub) ∧ add &&& sub = 0#64 ∧ multiplicand = add - sub := by
  obtain ⟨s, f, hloop, hx, h⟩ :=
    MultConstants.loop_ok 64 (MultConstants.Inv.start multiplicand) (Nat.le_add_left 64 0)
  have hsum : multiplicand = s.add - s.sub := by
    rw [h.sum, hx]
    simp
  refine ⟨s.add, s.sub, ?_, ?_, hsum⟩
  · rw [computeMultConstants64, hloop]
    exact if_pos hsum
  · refine BitVec.eq_of_getLsbD_eq fun j _ => ?_
    rw [BitVec.getLsbD_and, BitVec.getLsbD_zero, ← Bool.not_eq_true, Bool.and_eq_true]
    exact h.disjoint j

section Smear

variable {x y : BitVec 32}

def Smeared (x : BitVec 32) (n : ℕ) (y : BitVec 32) : Prop :=
  ∀ i, y.getLsbD i = true ↔ ∃ j < n, x.getLsbD (i + j) = true

theorem Smeared.double {n : ℕ} (h : Smeared x n y) : Smeared x (2 * n) (y ||| y >>> n) := by
  intro i
  rw [BitVec.getLsbD_or, BitVec.getLsbD_ushiftRight, Bool.or_eq_true, h i, h (n + i)]
  constructor
  · rintro (⟨j, hj, hbit⟩ | ⟨j, hj, hbit⟩)
    · exact ⟨j, by omega, hbit⟩
    · exact ⟨n + j, by omega, by rwa [show i + (n + j) = n + i + j by omega]⟩
  · rintro ⟨j, hj, hbit⟩
    by_cases hlt : j < n
    · exact .inl ⟨j, hlt, hbit⟩
    · exact .inr ⟨j - n, by omega, by rwa [show n + i + (j - n) = i + j by omega]⟩

theorem smeared_smear (x : BitVec 32) : Smeared x 32 (smear x) := by
  have h : Smeared x 1 x := fun i => by simp
  exact h.double.double.double.double.double

theorem smear_eq (x : BitVec 32) : smear x = BitVec.ofNat 32 (2 ^ x.toNat.size - 1) := by
  refine BitVec.eq_of_getLsbD_eq fun i hi => ?_
  rw [Bool.eq_iff_iff, smeared_smear x i, BitVec.getLsbD_ofNat, Nat.testBit_two_pow_sub_one]
  simp only [hi, decide_true, Bool.true_and, decide_eq_true_eq, Nat.lt_size]
  constructor
  · rintro ⟨j, -, hbit⟩
    exact (Nat.pow_le_pow_right (by decide) (Nat.le_add_right i j)).trans (Nat.ge_two_pow_of_testBit hbit)
  · intro hle
    by_contra hnone
    refine absurd (Nat.lt_pow_two_of_testBit x.toNat (n := i) fun j hj => ?_) (not_lt.mpr hle)
    by_contra hbit
    have hset : x.getLsbD j = true := by simpa [BitVec.getLsbD] using hbit
    have hlt : j < 32 := BitVec.lt_of_getLsbD hset
    exact hnone ⟨j - i, by omega, by rwa [show i + (j - i) = j by omega]⟩

theorem ldz_eq (x : BitVec 32) : ldz x = BitVec.ofNat 32 (32 - x.toNat.size) := by
  have hall : ∀ k : Fin 33, 32 - ones (BitVec.ofNat 32 (2 ^ k.val - 1)) = BitVec.ofNat 32 (32 - k.val) := by decide
  have hsize : x.toNat.size ≤ 32 := Nat.size_le.mpr x.isLt
  rw [ldz, smear_eq]
  exact hall ⟨x.toNat.size, by omega⟩

end Smear

theorem log2Ceil_eq {d : BitVec 32} (hd : d ≠ 0) :
    ∃ l, l ≤ 32 ∧ log2Ceil d = BitVec.ofNat 32 l ∧ d.toNat ≤ 2 ^ l ∧ (l = 0 ∨ 2 ^ (l - 1) < d.toNat) := by
  have hpos : 0 < d.toNat := Nat.pos_of_ne_zero fun h => hd (BitVec.eq_of_toNat_eq h)
  have hpred : (d - 1).toNat = d.toNat - 1 := by
    rw [BitVec.toNat_sub_of_le]
    · rfl
    · exact hpos
  have hsize : (d - 1).toNat.size ≤ 32 := Nat.size_le.mpr (d - 1).isLt
  refine ⟨(d - 1).toNat.size, hsize, ?_, ?_, ?_⟩
  · have hall : ∀ k : Fin 33, 32 - BitVec.ofNat 32 (32 - k.val) = BitVec.ofNat 32 k.val := by decide
    rw [log2Ceil, ldz_eq]
    exact hall ⟨(d - 1).toNat.size, by omega⟩
  · have hlt := Nat.lt_size_self (d - 1).toNat
    omega
  · by_cases hzero : (d - 1).toNat.size = 0
    · exact .inl hzero
    · right
      have hle := Nat.lt_size.mp (Nat.sub_one_lt hzero)
      omega

theorem expBase2_eq {l : ℕ} (hl : l ≤ 32) : (expBase2 (BitVec.ofNat 32 l)).toNat = 2 ^ l % 2 ^ 32 := by
  have hall : ∀ k : Fin 33, (expBase2 (BitVec.ofNat 32 k.val)).toNat = 2 ^ k.val % 2 ^ 32 := by decide
  exact hall ⟨l, by omega⟩

theorem toNat_expBase2_sub {d : BitVec 32} {l : ℕ} (hl : l ≤ 32) (hpos : 0 < d.toNat) (hle : d.toNat ≤ 2 ^ l) :
    (expBase2 (BitVec.ofNat 32 l) - d).toNat = 2 ^ l - d.toNat := by
  rw [BitVec.toNat_sub, expBase2_eq hl]
  rcases hl.lt_or_eq with hlt | rfl
  · have hpow : 2 ^ l < 2 ^ 32 := Nat.pow_lt_pow_right (by decide) hlt
    rw [Nat.mod_eq_of_lt hpow]
    omega
  · omega

theorem computeUDivConstants32_eq {d : BitVec 32} (hd : d ≠ 0) : ∃ l, l ≤ 32 ∧ d.toNat ≤ 2 ^ l ∧
    (l = 0 ∨ 2 ^ (l - 1) < d.toNat) ∧
    (computeUDivConstants32 d).mprime.toNat = 2 ^ 32 * (2 ^ l - d.toNat) / d.toNat + 1 ∧
    (computeUDivConstants32 d).sh1.toNat = min l 1 ∧ (computeUDivConstants32 d).sh2.toNat = l - 1 := by
  have hpos : 0 < d.toNat := Nat.pos_of_ne_zero fun h => hd (BitVec.eq_of_toNat_eq h)
  obtain ⟨l, hl, hlog, hle, hlt⟩ := log2Ceil_eq hd
  have hmid := toNat_expBase2_sub hl hpos hle
  have hdlt := d.isLt
  refine ⟨l, hl, hle, hlt, ?_, ?_, ?_⟩
  · -- the middle is below the divisor, and far below it unless the divisor is one
    have hsmall : 2 ^ l - d.toNat = 0 ∨ 2 ^ l - d.toNat + 2 ≤ d.toNat := by
      rcases hlt with rfl | hlt
      · left
        omega
      · obtain ⟨k, rfl⟩ : ∃ k, l = k + 1 := ⟨l - 1, by
          rcases Nat.eq_zero_or_pos l with rfl | hpos'
          · simp at hlt
            omega
          · omega⟩
        rw [Nat.add_sub_cancel] at hlt
        rw [pow_succ] at hle ⊢
        omega
    have hquot : 2 ^ 32 * (2 ^ l - d.toNat) / d.toNat + 1 < 2 ^ 32 := by
      rcases hsmall with hzero | hsmall
      · rw [hzero]
        simp
      · have : 2 ^ 32 * (2 ^ l - d.toNat) / d.toNat < 2 ^ 32 - 1 := by
          rw [Nat.div_lt_iff_lt_mul hpos]
          omega
        omega
    have hmul : 2 ^ 32 * (2 ^ l - d.toNat) < 2 ^ 64 := by omega
    have hmid64 : ((expBase2 (BitVec.ofNat 32 l) - d).setWidth 64).toNat = 2 ^ l - d.toNat := by
      rw [BitVec.toNat_setWidth, hmid, Nat.mod_eq_of_lt (by omega)]
    have hd64 : (d.setWidth 64).toNat = d.toNat := by
      rw [BitVec.toNat_setWidth, Nat.mod_eq_of_lt (by omega)]
    simp only [computeUDivConstants32, hlog]
    rw [BitVec.toNat_setWidth, BitVec.toNat_add, BitVec.toNat_udiv, BitVec.toNat_mul, hmid64, hd64,
      show (1#64 <<< 32).toNat = 2 ^ 32 from rfl, Nat.mod_eq_of_lt hmul, show (1 : BitVec 64).toNat = 1 from rfl,
      Nat.mod_eq_of_lt (hquot.trans (by decide : 2 ^ 32 < 2 ^ 64)), Nat.mod_eq_of_lt hquot]
  · have hall : ∀ k : Fin 33, (BitVec.ofInt 32 (min (BitVec.ofNat 32 k.val).toInt 1)).toNat = min k.val 1 := by decide
    simp only [computeUDivConstants32, hlog]
    exact hall ⟨l, by omega⟩
  · have hall : ∀ k : Fin 33, (BitVec.ofInt 32 (max ((BitVec.ofNat 32 k.val).toInt - 1) 0)).toNat = k.val - 1 := by
      decide
    simp only [computeUDivConstants32, hlog]
    exact hall ⟨l, by omega⟩

/-- The steps of the quotient: the high half of the multiple is added to the
dividend without the carry. -/
theorem udiv_steps {d : BitVec 32} (hd : d ≠ 0) {n : ℕ} (hn : n < 2 ^ 32) :
    let c := computeUDivConstants32 d
    let t1 := n * c.mprime.toNat / 2 ^ 32
    t1 ≤ n ∧ ((n - t1) / 2 ^ c.sh1.toNat + t1) / 2 ^ c.sh2.toNat = n / d.toNat := by
  obtain ⟨l, hl, hle, hlt, hmprime, hsh1, hsh2⟩ := computeUDivConstants32_eq hd
  have hpos : 0 < d.toNat := Nat.pos_of_ne_zero fun h => hd (BitVec.eq_of_toNat_eq h)
  intro c t1
  have hm := c.mprime.isLt
  have ht1 : t1 ≤ n := by
    rw [← Nat.mul_div_cancel n (show 0 < 2 ^ 32 by decide)]
    exact Nat.div_le_div_right (Nat.mul_le_mul_left n hm.le)
  refine ⟨ht1, ?_⟩
  rcases Nat.eq_zero_or_pos l with rfl | hlpos
  · have hd1 : d.toNat = 1 := by omega
    have hmprime1 : c.mprime.toNat = 1 := by rw [hmprime, hd1]; rfl
    have ht1' : t1 = 0 := by
      simp only [t1, hmprime1, Nat.mul_one]
      exact Nat.div_eq_of_lt hn
    rw [hsh1, hsh2, ht1', hd1]
    simp
  · have hsum : (n - t1) / 2 + t1 = (n + t1) / 2 := by omega
    have hm1 : min l 1 = 1 := by omega
    have hpow : 2 * 2 ^ (l - 1) = 2 ^ l := by rw [← pow_succ', Nat.sub_add_cancel hlpos]
    have hmul : n + t1 = (2 ^ 32 + c.mprime.toNat) * n / 2 ^ 32 := by
      rw [Nat.add_mul, Nat.mul_add_div (by decide), Nat.mul_comm c.mprime.toNat]
    rw [hsh1, hsh2, hm1, pow_one, hsum, Nat.div_div_eq_div_mul, hpow, hmul, Nat.div_div_eq_div_mul, ← pow_add]
    -- the reciprocal is at least the exact one, and by little
    have hdiv := Nat.div_add_mod (2 ^ 32 * (2 ^ l - d.toNat)) d.toNat
    have hmod := Nat.mod_lt (2 ^ 32 * (2 ^ l - d.toNat)) hpos
    have hprod : (2 ^ 32 + c.mprime.toNat) * d.toNat =
        2 ^ 32 * d.toNat + d.toNat * (2 ^ 32 * (2 ^ l - d.toNat) / d.toNat) + d.toNat := by
      rw [hmprime]
      ring
    have hexact : 2 ^ (32 + l) = 2 ^ 32 * d.toNat + 2 ^ 32 * (2 ^ l - d.toNat) := by
      rw [← Nat.mul_add, Nat.add_sub_cancel' hle, pow_add]
    refine MagicDivision.mul_div_eq hpos hn ?_ ?_ <;> rw [hprod, hexact] <;> omega

theorem toNat_mulHigh (x y : BitVec 32) :
    (((x.setWidth 64 * y.setWidth 64) >>> 32).setWidth 32).toNat = x.toNat * y.toNat / 2 ^ 32 := by
  have hx := x.isLt
  have hy := y.isLt
  have hprod : x.toNat * y.toNat < 2 ^ 64 := calc
    x.toNat * y.toNat < 2 ^ 32 * 2 ^ 32 := Nat.mul_lt_mul'' hx hy
    _ = 2 ^ 64 := by norm_num
  rw [BitVec.toNat_setWidth, BitVec.toNat_ushiftRight, BitVec.toNat_mul, BitVec.toNat_setWidth, BitVec.toNat_setWidth,
    Nat.mod_eq_of_lt (show x.toNat < 2 ^ 64 by omega), Nat.mod_eq_of_lt (show y.toNat < 2 ^ 64 by omega),
    Nat.mod_eq_of_lt hprod, Nat.shiftRight_eq_div_pow, Nat.mod_eq_of_lt]
  exact Nat.div_lt_of_lt_mul (hprod.trans_eq (by norm_num))

theorem quotient_udiv (n : BitVec 32) {d : BitVec 32} (hd : d ≠ 0) : (computeUDivConstants32 d).quotient n = n / d := by
  set c := computeUDivConstants32 d
  set t1 := ((c.mprime.setWidth 64 * n.setWidth 64) >>> 32).setWidth 32
  change ((n - t1) >>> c.sh1.toNat + t1) >>> c.sh2.toNat = n / d
  obtain ⟨hle, hquot⟩ := udiv_steps hd n.isLt
  have ht1 : t1.toNat = n.toNat * c.mprime.toNat / 2 ^ 32 := by
    rw [Nat.mul_comm]
    exact toNat_mulHigh _ _
  rw [← ht1] at hle hquot
  have hsum : (n.toNat - t1.toNat) / 2 ^ c.sh1.toNat + t1.toNat < 2 ^ 32 := by
    have := Nat.div_le_self (n.toNat - t1.toNat) (2 ^ c.sh1.toNat)
    have := n.isLt
    omega
  refine BitVec.eq_of_toNat_eq ?_
  rw [BitVec.toNat_ushiftRight, BitVec.toNat_add, BitVec.toNat_ushiftRight, BitVec.toNat_sub_of_le hle,
    Nat.shiftRight_eq_div_pow, Nat.shiftRight_eq_div_pow, Nat.mod_eq_of_lt hsum, hquot, BitVec.toNat_udiv]

theorem toInt_ofInt_of_range {k : ℕ} {z : ℤ} (hlo : -2 ^ k ≤ z) (hhi : z < 2 ^ k) :
    (BitVec.ofInt (k + 1) z).toInt = z := by
  rw [BitVec.toInt_ofInt]
  apply Int.bmod_eq_of_le
  · rw [Nat.pow_succ]
    push_cast
    omega
  · rw [Nat.pow_succ]
    push_cast
    omega

/-- The low bits of a logical shift are those of the arithmetic one, as long as no
bit from above the word comes down to them. -/
theorem setWidth_ushiftRight {w v : ℕ} (x : BitVec w) {k : ℕ} (hk : k + v ≤ w) :
    (x >>> k).setWidth v = BitVec.ofInt v (x.toInt / 2 ^ k) := by
  refine BitVec.eq_of_toNat_eq ?_
  rw [BitVec.toNat_setWidth, BitVec.toNat_ushiftRight, Nat.shiftRight_eq_div_pow, BitVec.toNat_ofInt]
  have hpow : (2 ^ w : ℤ) = 2 ^ (w - v - k) * 2 ^ v * 2 ^ k := by
    rw [← pow_add, ← pow_add]
    congr 1
    omega
  have hdiv : ∃ c : ℤ, x.toInt / 2 ^ k = ((x.toNat / 2 ^ k : ℕ) : ℤ) + c * 2 ^ v := by
    rw [BitVec.toInt_eq_toNat_cond]
    split_ifs
    · exact ⟨0, by push_cast; ring⟩
    · refine ⟨-2 ^ (w - v - k), ?_⟩
      have hsub : (x.toNat : ℤ) - ((2 ^ w : ℕ) : ℤ) = x.toNat + -(2 ^ (w - v - k) * 2 ^ v) * 2 ^ k := by
        push_cast
        rw [hpow]
        ring
      rw [hsub, Int.add_mul_ediv_right _ _ (by positivity)]
      push_cast
      ring
  obtain ⟨c, hc⟩ := hdiv
  have hcast : ((2 ^ v : ℕ) : ℤ) = 2 ^ v := by push_cast; rfl
  rw [hc, hcast, Int.add_mul_emod_self_right, ← hcast, ← Int.natCast_mod, Int.toNat_natCast]

theorem toNat_absInt64 {d : BitVec 32} : (absInt64 (d.signExtend 64)).toNat = d.toInt.natAbs := by
  have hlo := BitVec.le_toInt d
  have hhi := BitVec.toInt_lt (x := d)
  have hext : (d.signExtend 64).toInt = d.toInt := BitVec.toInt_signExtend_of_le (by decide)
  have hcond := BitVec.toInt_eq_toNat_cond (d.signExtend 64)
  have hlt := (d.signExtend 64).isLt
  rw [hext] at hcond
  unfold absInt64
  rw [hext]
  split_ifs at hcond ⊢ with hpos
  all_goals
    try rw [BitVec.toNat_neg]
    omega

/-- What `ComputeSDivConstants32` finds: the reciprocal is below `2 ^ 32` and above
the half of that, so that its word is the number less `2 ^ 32`. -/
theorem computeSDivConstants32_eq {d : BitVec 32} (hd : 2 ≤ d.toInt.natAbs) : ∃ l, 1 ≤ l ∧ l ≤ 31 ∧
    d.toInt.natAbs ≤ 2 ^ l ∧ 2 ^ (l - 1) < d.toInt.natAbs ∧
    (computeSDivConstants32 d).mprime.toNat = 2 ^ (31 + l) / d.toInt.natAbs + 1 ∧
    2 ^ (31 + l) / d.toInt.natAbs + 1 < 2 ^ 32 ∧
    (computeSDivConstants32 d).shpost = BitVec.ofNat 32 (l - 1) := by
  set a := d.toInt.natAbs with ha
  have habs : (absInt64 (d.signExtend 64)).toNat = a := toNat_absInt64
  have hmax : a ≤ 2 ^ 31 := by
    have hlo := BitVec.le_toInt d
    have hhi := BitVec.toInt_lt (x := d)
    omega
  have hword : ((absInt64 (d.signExtend 64)).setWidth 32).toNat = a := by
    rw [BitVec.toNat_setWidth, habs, Nat.mod_eq_of_lt (by omega)]
  have hne : (absInt64 (d.signExtend 64)).setWidth 32 ≠ 0 := by
    intro hzero
    rw [hzero] at hword
    simp at hword
    omega
  obtain ⟨l, -, hlog, hle, hlt⟩ := log2Ceil_eq hne
  rw [hword] at hle hlt
  have hl1 : 1 ≤ l := by
    by_contra h
    have hzero : l = 0 := by omega
    rw [hzero] at hle
    omega
  replace hlt : 2 ^ (l - 1) < a := hlt.resolve_left (by omega)
  have hl31 : l ≤ 31 := by
    have := (Nat.pow_lt_pow_iff_right (a := 2) (by decide)).mp (hlt.trans_le hmax)
    omega
  have hl : (if absInt64 (d.signExtend 64) = 1#64 <<< 31 then (31 : BitVec 32)
      else if 1 < log2Ceil ((absInt64 (d.signExtend 64)).setWidth 32) then
        log2Ceil ((absInt64 (d.signExtend 64)).setWidth 32) else 1) = BitVec.ofNat 32 l := by
    rw [hlog]
    split_ifs with hmin hone
    · rw [hmin] at habs
      have habs' : 2 ^ 31 = a := habs
      rw [← habs'] at hle
      have := (Nat.pow_le_pow_iff_right (a := 2) (by decide)).mp hle
      rw [show l = 31 by omega]
      rfl
    · rfl
    · have hall : ∀ k : Fin 32, 1 ≤ k.val → ¬ 1 < BitVec.ofNat 32 k.val → (1 : BitVec 32) = BitVec.ofNat 32 k.val := by
        decide
      exact hall ⟨l, by omega⟩ hl1 hone
  have hsub : BitVec.ofNat 32 l - 1 = BitVec.ofNat 32 (l - 1) := by
    have hall : ∀ k : Fin 32, 1 ≤ k.val → BitVec.ofNat 32 k.val - 1 = BitVec.ofNat 32 (k.val - 1) := by decide
    exact hall ⟨l, by omega⟩ hl1
  have hmidlt : 2 ^ (l - 1) ≤ 2 ^ 30 := Nat.pow_le_pow_right (by decide) (by omega)
  have hmid : (expBase2 (BitVec.ofNat 32 (l - 1))).toNat = 2 ^ (l - 1) := by
    rw [expBase2_eq (by omega), Nat.mod_eq_of_lt (by omega)]
  have hpow : 2 ^ 32 * 2 ^ (l - 1) = 2 ^ (31 + l) := by
    rw [← pow_add]
    congr 1
    omega
  have hquot : 2 ^ (31 + l) / a + 1 < 2 ^ 32 := by
    have : 2 ^ (31 + l) / a < 2 ^ 32 - 1 := by
      rw [Nat.div_lt_iff_lt_mul (by omega), ← hpow]
      omega
    omega
  refine ⟨l, hl1, hl31, hle, hlt, ?_, hquot, ?_⟩
  · have hmid64 : ((expBase2 (BitVec.ofNat 32 (l - 1))).setWidth 64).toNat = 2 ^ (l - 1) := by
      rw [BitVec.toNat_setWidth, hmid, Nat.mod_eq_of_lt (by omega)]
    have hmul : 2 ^ 32 * 2 ^ (l - 1) < 2 ^ 64 := by omega
    simp only [computeSDivConstants32, hl, hsub]
    rw [BitVec.toNat_setWidth, BitVec.toNat_sub, BitVec.toNat_add, BitVec.toNat_udiv, BitVec.toNat_mul, hmid64, habs,
      show (1#64 <<< 32).toNat = 2 ^ 32 from rfl, Nat.mod_eq_of_lt hmul, show (1 : BitVec 64).toNat = 1 from rfl, hpow]
    generalize 2 ^ (31 + l) / a + 1 = m at hquot ⊢
    omega
  · simp only [computeSDivConstants32, hl, hsub]

/-- The multiple of the dividend by the reciprocal, rounded down and corrected by
the sign of the dividend, is the quotient towards zero. -/
theorem sdiv_steps {a l : ℕ} {n : ℤ} (ha : 0 < a) (hle : a ≤ 2 ^ l) (hlo : -2 ^ 31 ≤ n) (hhi : n < 2 ^ 31) :
    ((2 ^ (31 + l) / a + 1 : ℕ) : ℤ) * n / 2 ^ (31 + l) - (if n < 0 then -1 else 0) = n.tdiv a := by
  set m := 2 ^ (31 + l) / a + 1 with hm
  have hdiv := Nat.div_add_mod (2 ^ (31 + l)) a
  have hmod := Nat.mod_lt (2 ^ (31 + l)) ha
  have hprod : m * a = a * (2 ^ (31 + l) / a) + a := by rw [hm]; ring
  have hlower : 2 ^ (31 + l) < m * a := by omega
  have hupper : m * a ≤ 2 ^ (31 + l) + 2 ^ l := by omega
  split_ifs with hneg
  · obtain ⟨k, rfl⟩ : ∃ k : ℕ, n = -(k : ℤ) := ⟨n.natAbs, by omega⟩
    have hquot := MagicDivision.neg_mul_ediv (N := 31) ha (n := k) (by omega) (by omega) hlower hupper
    rw [mul_neg, hquot, Int.neg_tdiv, Int.ofNat_tdiv]
    omega
  · obtain ⟨k, rfl⟩ : ∃ k : ℕ, n = (k : ℤ) := ⟨n.natAbs, by omega⟩
    have hquot := MagicDivision.mul_div_eq (N := 31) ha (n := k) (by omega) hlower.le hupper
    rw [← Int.ofNat_tdiv, ← hquot, sub_zero]
    push_cast
    rfl

theorem xsign_eq (x : BitVec 32) : xsign x = BitVec.ofInt 32 (if x.toInt < 0 then -1 else 0) := by
  have hlo : -2 ^ 31 ≤ x.toInt := BitVec.le_toInt x
  have hhi : x.toInt < 2 ^ 31 := BitVec.toInt_lt
  have hdiv : x.toInt / 2 ^ 31 = if x.toInt < 0 then -1 else 0 := by split_ifs <;> omega
  rw [xsign, BitVec.sshiftRight, Int.shiftRight_eq_div_pow, ← hdiv]
  rfl

theorem xor_xsign_sub (q d : BitVec 32) :
    (q ^^^ xsign d) - xsign d = if d.toInt < 0 then -q else q := by
  rw [xsign_eq]
  split_ifs with hneg
  · have hones : BitVec.ofInt 32 (-1) = BitVec.allOnes 32 := by decide
    rw [hones, BitVec.xor_allOnes, BitVec.neg_eq_not_add, BitVec.sub_eq_add_neg]
    rfl
  · simp

theorem mul_range {n m B M : ℤ} (hlo : -B ≤ n) (hhi : n < B) (hpos : 0 < m) (hm : m ≤ M) :
    -(B * M) ≤ m * n ∧ m * n < B * M := by
  constructor <;> nlinarith

theorem toInt_quotient_sdiv (n : BitVec 32) {d : BitVec 32} (hd : 2 ≤ d.toInt.natAbs) :
    ((computeSDivConstants32 d).quotient n).toInt = n.toInt.tdiv d.toInt := by
  set c := computeSDivConstants32 d
  set mulsh := ((n.signExtend 64 * c.mprime.signExtend 64) >>> 32).setWidth 32
  set q0 := ((n + mulsh).signExtend 64 >>> c.shpost.toNat).setWidth 32 - xsign n
  change ((q0 ^^^ c.dsign) - c.dsign).toInt = n.toInt.tdiv d.toInt
  obtain ⟨l, hl1, hl31, hle, hlt, hmprime, hm, hshpost⟩ := computeSDivConstants32_eq hd
  have hlo : -2 ^ 31 ≤ n.toInt := BitVec.le_toInt n
  have hhi : n.toInt < 2 ^ 31 := BitVec.toInt_lt
  have hquot := sdiv_steps (by omega) hle hlo hhi
  set m := 2 ^ (31 + l) / d.toInt.natAbs + 1 with hmdef
  have hhalf : 2 ^ 31 < m := by
    have : 2 ^ 31 ≤ 2 ^ (31 + l) / d.toInt.natAbs := by
      rw [Nat.le_div_iff_mul_le (by omega), pow_add]
      exact Nat.mul_le_mul_left _ hle
    omega
  -- the word of the reciprocal is taken as a negative number
  have hmint : c.mprime.toInt = (m : ℤ) - 2 ^ 32 := by
    rw [BitVec.toInt_eq_toNat_cond, hmprime]
    split_ifs
    · omega
    · rfl
  have hmulsh : mulsh = BitVec.ofInt 32 (n.toInt * ((m : ℤ) - 2 ^ 32) / 2 ^ 32) := by
    have hprod : (n.signExtend 64 * c.mprime.signExtend 64).toInt = n.toInt * ((m : ℤ) - 2 ^ 32) := by
      rw [BitVec.toInt_mul, BitVec.toInt_signExtend_of_le (by decide), BitVec.toInt_signExtend_of_le (by decide), hmint]
      obtain ⟨hle', hlt'⟩ := mul_range (m := 2 ^ 32 - m) hlo hhi (by omega) (show _ ≤ (2 ^ 31 : ℤ) by omega)
      have hneg : n.toInt * ((m : ℤ) - 2 ^ 32) = -((2 ^ 32 - m) * n.toInt) := by ring
      rw [hneg, ← BitVec.toInt_ofInt]
      have hpow : (2 ^ 31 : ℤ) * 2 ^ 31 < 2 ^ 63 := by norm_num
      exact toInt_ofInt_of_range (k := 63) (by linarith) (by linarith)
    rw [← hprod]
    exact setWidth_ushiftRight _ (by decide)
  have hsum : n + mulsh = BitVec.ofInt 32 (m * n.toInt / 2 ^ 32) := by
    have hsplit : (m : ℤ) * n.toInt = n.toInt * ((m : ℤ) - 2 ^ 32) + n.toInt * 2 ^ 32 := by ring
    rw [hmulsh, hsplit, Int.add_mul_ediv_right _ _ (by decide), BitVec.ofInt_add, BitVec.ofInt_toInt, BitVec.add_comm]
  have hsumint : (n + mulsh).toInt = m * n.toInt / 2 ^ 32 := by
    rw [hsum]
    obtain ⟨hle', hlt'⟩ := mul_range (m := m) hlo hhi (by omega) (show _ ≤ (2 ^ 32 : ℤ) by omega)
    refine toInt_ofInt_of_range (k := 31) ?_ ?_
    · rw [Int.le_ediv_iff_mul_le (by decide), neg_mul]
      exact hle'
    · rw [Int.ediv_lt_iff_lt_mul (by decide)]
      exact hlt'
  have hshift : ((n + mulsh).signExtend 64 >>> c.shpost.toNat).setWidth 32 =
      BitVec.ofInt 32 (m * n.toInt / 2 ^ (31 + l)) := by
    have hk : c.shpost.toNat = l - 1 := by
      rw [hshpost, BitVec.toNat_ofNat, Nat.mod_eq_of_lt (by omega)]
    rw [setWidth_ushiftRight _ (by omega), BitVec.toInt_signExtend_of_le (by decide), hsumint, hk,
      Int.ediv_ediv_of_nonneg (by decide), ← pow_add]
    congr 3
    omega
  have hq0 : q0 = BitVec.ofInt 32 (n.toInt.tdiv d.toInt.natAbs) := by
    rw [← hquot, sub_eq_add_neg, BitVec.ofInt_add, BitVec.ofInt_neg, ← BitVec.sub_eq_add_neg, ← xsign_eq, ← hshift]
  have hres : (q0 ^^^ c.dsign) - c.dsign = BitVec.ofInt 32 (n.toInt.tdiv d.toInt) := by
    rw [show c.dsign = xsign d from rfl, xor_xsign_sub, hq0]
    split_ifs with hneg
    · rw [← BitVec.ofInt_neg, ← Int.tdiv_neg]
      congr 2
      omega
    · congr 2
      omega
  have hsmall : (n.toInt.tdiv d.toInt).natAbs ≤ 2 ^ 30 := by
    rw [Int.natAbs_tdiv]
    have hn : n.toInt.natAbs ≤ 2 * 2 ^ 30 := by omega
    exact Nat.div_le_of_le_mul (hn.trans (Nat.mul_le_mul_right _ hd))
  rw [hres]
  exact toInt_ofInt_of_range (k := 31) (by omega) (by omega)

end Klee
