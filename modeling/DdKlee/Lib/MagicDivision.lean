import Mathlib

/-! Division by an invariant number: a multiple by a reciprocal that is rounded up
has the quotient in its high part. -/

namespace MagicDivision

variable {N l n d m : ℕ}

theorem mul_div_eq (hd : 0 < d) (hn : n < 2 ^ N) (hlo : 2 ^ (N + l) ≤ m * d) (hhi : m * d ≤ 2 ^ (N + l) + 2 ^ l) :
    m * n / 2 ^ (N + l) = n / d := by
  have hlower : n / d * 2 ^ (N + l) ≤ m * n :=
    calc n / d * 2 ^ (N + l) ≤ n / d * (m * d) := Nat.mul_le_mul_left _ hlo
      _ = m * (d * (n / d)) := by ring
      _ ≤ m * n := Nat.mul_le_mul_left _ (Nat.mul_div_le n d)
  have hnext : n + 1 ≤ d * (n / d + 1) := Nat.lt_mul_div_succ n hd
  have hupper : m * n < (n / d + 1) * 2 ^ (N + l) := by
    refine Nat.lt_of_mul_lt_mul_right (a := d) ?_
    calc m * n * d = m * d * n := by ring
      _ ≤ (2 ^ (N + l) + 2 ^ l) * n := Nat.mul_le_mul_right _ hhi
      _ = 2 ^ (N + l) * n + 2 ^ l * n := by ring
      _ < 2 ^ (N + l) * n + 2 ^ l * 2 ^ N := by gcongr
      _ = 2 ^ (N + l) * (n + 1) := by rw [pow_add]; ring
      _ ≤ 2 ^ (N + l) * (d * (n / d + 1)) := Nat.mul_le_mul_left _ hnext
      _ = (n / d + 1) * 2 ^ (N + l) * d := by ring
  exact Nat.div_eq_of_lt_le hlower hupper

/-- For a dividend that is not zero, and may be `2 ^ N`, the multiple is above the
quotient and at most the next number. -/
theorem mul_bounds (hd : 0 < d) (hpos : 0 < n) (hn : n ≤ 2 ^ N) (hlo : 2 ^ (N + l) < m * d)
    (hhi : m * d ≤ 2 ^ (N + l) + 2 ^ l) :
    n / d * 2 ^ (N + l) < m * n ∧ m * n ≤ (n / d + 1) * 2 ^ (N + l) := by
  have hm : 0 < m := Nat.pos_of_mul_pos_right (lt_of_le_of_lt (Nat.zero_le _) hlo)
  constructor
  · rcases Nat.eq_zero_or_pos (n / d) with hzero | hq
    · rw [hzero, Nat.zero_mul]
      exact Nat.mul_pos hm hpos
    · calc n / d * 2 ^ (N + l) < n / d * (m * d) := Nat.mul_lt_mul_of_pos_left hlo hq
        _ = m * (d * (n / d)) := by ring
        _ ≤ m * n := Nat.mul_le_mul_left _ (Nat.mul_div_le n d)
  · have hnext : n + 1 ≤ d * (n / d + 1) := Nat.lt_mul_div_succ n hd
    refine Nat.le_of_mul_le_mul_right (c := d) ?_ hd
    calc m * n * d = m * d * n := by ring
      _ ≤ (2 ^ (N + l) + 2 ^ l) * n := Nat.mul_le_mul_right _ hhi
      _ = 2 ^ (N + l) * n + 2 ^ l * n := by ring
      _ ≤ 2 ^ (N + l) * n + 2 ^ l * 2 ^ N := by gcongr
      _ = 2 ^ (N + l) * (n + 1) := by rw [pow_add]; ring
      _ ≤ 2 ^ (N + l) * (d * (n / d + 1)) := Nat.mul_le_mul_left _ hnext
      _ = (n / d + 1) * 2 ^ (N + l) * d := by ring

/-- The quotient towards minus infinity of the multiple of a number below zero is
one less than the quotient towards zero. -/
theorem neg_mul_ediv (hd : 0 < d) (hpos : 0 < n) (hn : n ≤ 2 ^ N) (hlo : 2 ^ (N + l) < m * d)
    (hhi : m * d ≤ 2 ^ (N + l) + 2 ^ l) : (-(m * n : ℤ)) / 2 ^ (N + l) = -((n / d : ℕ) : ℤ) - 1 := by
  obtain ⟨hlower, hupper⟩ := mul_bounds hd hpos hn hlo hhi
  have hlower' : ((n / d : ℕ) : ℤ) * 2 ^ (N + l) < m * n := by exact_mod_cast hlower
  have hupper' : (m * n : ℤ) ≤ (((n / d : ℕ) : ℤ) + 1) * 2 ^ (N + l) := by exact_mod_cast hupper
  refine (Int.ediv_eq_iff_of_pos (by positivity)).mpr ⟨?_, ?_⟩
  · linarith
  · linarith

end MagicDivision
