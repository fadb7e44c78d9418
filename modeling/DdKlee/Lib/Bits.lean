import Mathlib

/-! Comparing numbers bit by bit from the top: numbers that agree from a bit on
are ordered by the first bit below where they differ. -/

namespace Bits

variable {k x y a b : ℕ}

def AgreeFrom (k x y : ℕ) : Prop := ∀ i, k ≤ i → x.testBit i = y.testBit i

namespace AgreeFrom

theorem of_lt (hx : x < 2 ^ k) (hy : y < 2 ^ k) : AgreeFrom k x y := by
  intro i hi
  have hle := Nat.pow_le_pow_right (n := 2) (by decide) hi
  rw [Nat.testBit_lt_two_pow (hx.trans_le hle), Nat.testBit_lt_two_pow (hy.trans_le hle)]

theorem symm (h : AgreeFrom k x y) : AgreeFrom k y x := fun i hi => (h i hi).symm

theorem trans {z : ℕ} (h : AgreeFrom k x y) (h' : AgreeFrom k y z) : AgreeFrom k x z :=
  fun i hi => (h i hi).trans (h' i hi)

theorem mono {w : ℕ} (h : AgreeFrom k x y) (hkw : k ≤ w) : AgreeFrom w x y := fun i hi => h i (hkw.trans hi)

theorem succ (h : AgreeFrom k x y) : AgreeFrom (k + 1) x y := h.mono (Nat.le_succ k)

theorem pred (h : AgreeFrom (k + 1) x y) (hk : x.testBit k = y.testBit k) : AgreeFrom k x y := by
  intro i hi
  rcases Nat.eq_or_lt_of_le hi with rfl | hlt
  · exact hk
  · exact h i hlt

theorem or (hx : AgreeFrom k x a) (hy : AgreeFrom k y b) : AgreeFrom k (x ||| y) (a ||| b) := by
  intro i hi
  rw [Nat.testBit_or, Nat.testBit_or, hx i hi, hy i hi]

theorem and (hx : AgreeFrom k x a) (hy : AgreeFrom k y b) : AgreeFrom k (x &&& y) (a &&& b) := by
  intro i hi
  rw [Nat.testBit_and, Nat.testBit_and, hx i hi, hy i hi]

theorem lt (h : AgreeFrom (k + 1) x y) (hx : x.testBit k = false) (hy : y.testBit k = true) : x < y :=
  Nat.lt_of_testBit k hx hy fun i hi => h i hi

theorem lt_two_pow (h : AgreeFrom k x y) (hy : y < 2 ^ k) : x < 2 ^ k := by
  refine Nat.lt_pow_two_of_testBit _ fun i hi => ?_
  rw [h i hi]
  exact Nat.testBit_lt_two_pow (hy.trans_le (Nat.pow_le_pow_right (by decide) hi))

/-- Where the bits above are the same, the bit of the smaller number is at most
that of the larger one. -/
theorem testBit_le (h : AgreeFrom (k + 1) x y) (hle : x ≤ y) (hx : x.testBit k = true) :
    y.testBit k = true := by
  by_contra hy
  exact absurd (h.symm.lt (by simpa using hy) hx) (not_lt.mpr hle)

theorem le_iff (h : AgreeFrom k x y) : x ≤ y ↔ x % 2 ^ k ≤ y % 2 ^ k := by
  have hdiv : x / 2 ^ k = y / 2 ^ k := by
    refine Nat.eq_of_testBit_eq fun i => ?_
    rw [Nat.testBit_div_two_pow, Nat.testBit_div_two_pow]
    exact h _ (Nat.le_add_left k i)
  have hx := Nat.div_add_mod x (2 ^ k)
  have hy := Nat.div_add_mod y (2 ^ k)
  rw [hdiv] at hx
  omega

end AgreeFrom

theorem testBit_up (a k i : ℕ) :
    ((a ||| 2 ^ k) >>> k <<< k).testBit i = (decide (k ≤ i) && (a.testBit i || decide (k = i))) := by
  rw [Nat.testBit_shiftLeft, Nat.testBit_shiftRight, Nat.testBit_or, Nat.testBit_two_pow]
  by_cases h : k ≤ i
  · simp [h]
  · simp [h]

theorem testBit_sub_two_pow (h : b.testBit k = true) (i : ℕ) :
    (b - 2 ^ k).testBit i = (b.testBit i && !decide (k = i)) := by
  obtain ⟨c, rfl⟩ : ∃ c, b = 2 ^ k + c := Nat.exists_eq_add_of_le (Nat.ge_two_pow_of_testBit h)
  rw [Nat.testBit_two_pow_add_eq, Bool.not_eq_true'] at h
  rw [Nat.add_sub_cancel_left]
  -- the bits above and below the cleared one do not change
  have hr : c % 2 ^ (k + 1) < 2 ^ k := by
    refine Nat.lt_pow_two_of_testBit _ fun j hj => ?_
    rcases Nat.eq_or_lt_of_le hj with rfl | hlt
    · rw [Nat.testBit_mod_two_pow, h, Bool.and_false]
    · exact Nat.testBit_lt_two_pow ((Nat.mod_lt _ (Nat.two_pow_pos _)).trans_le
        (Nat.pow_le_pow_right (by decide) hlt))
  have hlt : 2 ^ k + c % 2 ^ (k + 1) < 2 ^ (k + 1) := by have := Nat.pow_succ 2 k; omega
  have hc : c = 2 ^ (k + 1) * (c / 2 ^ (k + 1)) + c % 2 ^ (k + 1) := (Nat.div_add_mod _ _).symm
  have hb : 2 ^ k + c = 2 ^ (k + 1) * (c / 2 ^ (k + 1)) + (2 ^ k + c % 2 ^ (k + 1)) := by omega
  rcases Nat.lt_trichotomy k i with hi | rfl | hi
  · have hji : ¬ i < k + 1 := by omega
    rw [hb, Nat.testBit_two_pow_mul_add _ hlt, if_neg hji]
    conv_lhs => rw [hc, Nat.testBit_two_pow_mul_add _ (Nat.mod_lt _ (Nat.two_pow_pos _)), if_neg hji]
    simp [hi.ne]
  · simp [h]
  · rw [Nat.testBit_two_pow_add_gt hi]
    simp [hi.ne']

theorem testBit_down (h : b.testBit k = true) (i : ℕ) :
    ((b - 2 ^ k) ||| (2 ^ k - 1)).testBit i = (decide (i < k) || (b.testBit i && !decide (k = i))) := by
  rw [Nat.testBit_or, testBit_sub_two_pow h, Nat.testBit_two_pow_sub_one, Bool.or_comm]

end Bits
