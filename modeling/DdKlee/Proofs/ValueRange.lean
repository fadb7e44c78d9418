import DdKlee.Lib.Bits
import DdKlee.Spec.ValueRange

/-! Every operation on ranges contains the values of the operation on members
of its operands. -/

namespace Klee

open Bits

section Bounds

variable {a b c d x y k : ℕ}

/-! The bounds from below. The loop has passed the bits from `k` on; `x` and `y` agree
with the bounds the loop has kept on them, and so does the result with the
operation on these bounds. -/

theorem testBit_roundUp (a k i : ℕ) :
    (roundUp a k).testBit i = (decide (k ≤ i) && (a.testBit i || decide (k = i))) := testBit_up a k i

theorem testBit_roundDown (h : b.testBit k = true) (i : ℕ) :
    (roundDown b k).testBit i = (decide (i < k) || (b.testBit i && !decide (k = i))) := testBit_down h i

theorem roundUp_agree : AgreeFrom (k + 1) (roundUp a k) a := by
  intro i hi
  rw [testBit_roundUp]
  have hne : k ≠ i := by omega
  have hle : k ≤ i := by omega
  simp [hne, hle]

theorem roundUp_mod : roundUp a k % 2 ^ k = 0 := by
  rw [roundUp, Nat.shiftLeft_eq, Nat.mul_mod_left]

theorem roundUp_le (hx : AgreeFrom (k + 1) x a) (hbit : x.testBit k = true) : roundUp a k ≤ x := by
  have hagree : AgreeFrom k (roundUp a k) x :=
    (roundUp_agree.trans hx.symm).pred (by rw [testBit_roundUp, hbit]; simp)
  rw [hagree.le_iff, roundUp_mod]
  exact Nat.zero_le _

/-- The result of a loop over the bits below `k`, against members whose bits
from `k` on are those of the bounds, or first differ from them at bit `k`. -/
theorem AgreeFrom.le_of_passed {r s z : ℕ} (hr : AgreeFrom k r s) (hz : AgreeFrom (k + 1) s z)
    (hs : s.testBit k = false) (hbit : z.testBit k = true) : r ≤ z :=
  ((hr.succ.trans hz).lt ((hr k le_rfl).trans hs) hbit).le

theorem minOR.loop_agree (k : ℕ) : AgreeFrom k (minOR.loop b d k a c) (a ||| c) := by
  induction k with
  | zero => exact fun _ _ => rfl
  | succ k ih =>
    unfold minOR.loop
    split_ifs
    · exact roundUp_agree.or fun _ _ => rfl
    · exact ih.succ
    · exact AgreeFrom.or (fun _ _ => rfl) roundUp_agree
    · exact ih.succ
    · exact ih.succ

theorem roundUp_or_le (hx : AgreeFrom (k + 1) x a) (hy : AgreeFrom (k + 1) y c) (hcy : c ≤ y)
    (hc : c.testBit k = true) : roundUp a k ||| c ≤ x ||| y := by
  have hyk : y.testBit k = true := hy.symm.testBit_le hcy hc
  have hcy' : AgreeFrom k c y := hy.symm.pred (hc.trans hyk.symm)
  have hagree : AgreeFrom k (roundUp a k ||| c) (x ||| y) :=
    ((roundUp_agree.trans hx.symm).or hy.symm).pred (by simp [hc, hyk])
  rw [hagree.le_iff, Nat.or_mod_two_pow, roundUp_mod, Nat.zero_or, Nat.or_mod_two_pow]
  exact (hcy'.le_iff.mp hcy).trans Nat.right_le_or

theorem minOR.loop_le (k : ℕ) (hx : AgreeFrom k x a) (hy : AgreeFrom k y c) (hax : a ≤ x) (hxb : x ≤ b)
    (hcy : c ≤ y) (hyd : y ≤ d) : minOR.loop b d k a c ≤ x ||| y := by
  induction k with
  | zero =>
    rw [loop, Nat.eq_of_testBit_eq fun i => (hx.or hy) i (Nat.zero_le i)]
  | succ k ih =>
    have hxk : a.testBit k = true → x.testBit k = true := hx.symm.testBit_le hax
    have hyk : c.testBit k = true → y.testBit k = true := hy.symm.testBit_le hcy
    unfold minOR.loop
    split_ifs with h h' h h'
    · simp only [Bool.and_eq_true, Bool.not_eq_true'] at h
      exact roundUp_or_le hx hy hcy h.2
    · -- no member has the bit that the bound lacks
      simp only [Bool.and_eq_true, Bool.not_eq_true'] at h
      have hxf : x.testBit k = false := by
        by_contra hxt
        exact h' ((roundUp_le hx (by simpa using hxt)).trans hxb)
      exact ih (hx.pred (hxf.trans h.1.symm)) (hy.pred ((hyk h.2).trans h.2.symm))
    · simp only [Bool.and_eq_true, Bool.not_eq_true'] at h
      rw [Nat.or_comm a, Nat.or_comm x]
      exact roundUp_or_le hy hx hax h.1
    · simp only [Bool.and_eq_true, Bool.not_eq_true'] at h
      have hyf : y.testBit k = false := by
        by_contra hyt
        exact h' ((roundUp_le hy (by simpa using hyt)).trans hyd)
      exact ih (hx.pred ((hxk h.1).trans h.1.symm)) (hy.pred (hyf.trans h.2.symm))
    · by_cases hboth : x.testBit k = a.testBit k ∧ y.testBit k = c.testBit k
      · exact ih (hx.pred hboth.1) (hy.pred hboth.2)
      · -- the bounds have no bit here and a member has one
        refine AgreeFrom.le_of_passed (loop_agree k) (hx.or hy).symm ?_ ?_ <;> rw [Nat.testBit_or]
        · cases ha : a.testBit k <;> cases hc : c.testBit k <;> simp_all
        · cases ha : a.testBit k <;> cases hc : c.testBit k <;> simp_all
          cases hx' : x.testBit k <;> simp_all

theorem minAND.loop_agree (k : ℕ) : AgreeFrom k (minAND.loop b d k a c) (a &&& c) := by
  induction k with
  | zero => exact fun _ _ => rfl
  | succ k ih =>
    unfold minAND.loop
    split_ifs
    · exact roundUp_agree.and fun _ _ => rfl
    · exact AgreeFrom.and (fun _ _ => rfl) roundUp_agree
    · exact ih.succ
    · exact ih.succ

theorem roundUp_and_le (hx : AgreeFrom (k + 1) x a) (hy : AgreeFrom (k + 1) y c)
    (hc : c.testBit k = false) : roundUp a k &&& c ≤ x &&& y := by
  have hagree : AgreeFrom (k + 1) (roundUp a k &&& c) (x &&& y) :=
    (roundUp_agree.trans hx.symm).and hy.symm
  cases hbit : (x &&& y).testBit k with
  | true => exact (hagree.lt (by simp [hc]) hbit).le
  | false =>
    rw [(hagree.pred (by rw [hbit, Nat.testBit_and, hc, Bool.and_false])).le_iff, Nat.and_mod_two_pow,
      roundUp_mod, Nat.zero_and]
    exact Nat.zero_le _

theorem minAND.loop_le (k : ℕ) (hx : AgreeFrom k x a) (hy : AgreeFrom k y c) (hax : a ≤ x) (hxb : x ≤ b)
    (hcy : c ≤ y) (hyd : y ≤ d) : minAND.loop b d k a c ≤ x &&& y := by
  induction k with
  | zero =>
    rw [loop, Nat.eq_of_testBit_eq fun i => (hx.and hy) i (Nat.zero_le i)]
  | succ k ih =>
    have hxk : a.testBit k = true → x.testBit k = true := hx.symm.testBit_le hax
    have hyk : c.testBit k = true → y.testBit k = true := hy.symm.testBit_le hcy
    unfold minAND.loop
    split_ifs with h h' h''
    · simp only [Bool.and_eq_true, Bool.not_eq_true'] at h
      exact roundUp_and_le hx hy h.2
    · simp only [Bool.and_eq_true, Bool.not_eq_true'] at h
      rw [Nat.and_comm a, Nat.and_comm x]
      exact roundUp_and_le hy hx h.1
    · simp only [Bool.and_eq_true, Bool.not_eq_true'] at h
      have hxf : x.testBit k = false := by
        by_contra hxt
        exact h' ((roundUp_le hx (by simpa using hxt)).trans hxb)
      have hyf : y.testBit k = false := by
        by_contra hyt
        exact h'' ((roundUp_le hy (by simpa using hyt)).trans hyd)
      exact ih (hx.pred (hxf.trans h.1.symm)) (hy.pred (hyf.trans h.2.symm))
    · by_cases hboth : x.testBit k = a.testBit k ∧ y.testBit k = c.testBit k
      · exact ih (hx.pred hboth.1) (hy.pred hboth.2)
      · refine AgreeFrom.le_of_passed (loop_agree k) (hx.and hy).symm ?_ ?_ <;> rw [Nat.testBit_and]
        · cases ha : a.testBit k <;> cases hc : c.testBit k <;> simp_all
        · cases ha : a.testBit k <;> cases hc : c.testBit k <;> simp_all

/-! Each bound is the operation on two members. -/

theorem le_roundUp (h : a.testBit k = false) : a ≤ roundUp a k :=
  (roundUp_agree.symm.lt h (by rw [testBit_roundUp]; simp)).le

theorem minOR.loop_mem (hab : a ≤ b) (hcd : c ≤ d) (k : ℕ) :
    minOR.loop b d k a c ∈ Set.image2 (· ||| ·) (Set.Icc a b) (Set.Icc c d) := by
  have ha : a ∈ Set.Icc a b := ⟨le_rfl, hab⟩
  have hc : c ∈ Set.Icc c d := ⟨le_rfl, hcd⟩
  induction k with
  | zero => exact ⟨a, ha, c, hc, rfl⟩
  | succ k ih =>
    unfold minOR.loop
    split_ifs with h h' h h'
    · simp only [Bool.and_eq_true, Bool.not_eq_true'] at h
      exact ⟨_, ⟨le_roundUp h.1, h'⟩, c, hc, rfl⟩
    · exact ih
    · simp only [Bool.and_eq_true, Bool.not_eq_true'] at h
      exact ⟨a, ha, _, ⟨le_roundUp h.2, h'⟩, rfl⟩
    · exact ih
    · exact ih

theorem minAND.loop_mem (hab : a ≤ b) (hcd : c ≤ d) (k : ℕ) :
    minAND.loop b d k a c ∈ Set.image2 (· &&& ·) (Set.Icc a b) (Set.Icc c d) := by
  have ha : a ∈ Set.Icc a b := ⟨le_rfl, hab⟩
  have hc : c ∈ Set.Icc c d := ⟨le_rfl, hcd⟩
  induction k with
  | zero => exact ⟨a, ha, c, hc, rfl⟩
  | succ k ih =>
    unfold minAND.loop
    split_ifs with h h' h'
    · simp only [Bool.and_eq_true, Bool.not_eq_true'] at h
      exact ⟨_, ⟨le_roundUp h.1, h'⟩, c, hc, rfl⟩
    · simp only [Bool.and_eq_true, Bool.not_eq_true'] at h
      exact ⟨a, ha, _, ⟨le_roundUp h.2, h'⟩, rfl⟩
    · exact ih
    · exact ih

/-! The bounds from above are those from below of the complements. -/

def flipped (x : ℕ) : ℕ := 2 ^ 64 - (x + 1)

theorem flipped_lt (x : ℕ) : flipped x < 2 ^ 64 := by
  unfold flipped
  omega

theorem flipped_flipped (hx : x < 2 ^ 64) : flipped (flipped x) = x := by
  unfold flipped
  omega

theorem flipped_anti (h : x ≤ y) : flipped y ≤ flipped x := by
  unfold flipped
  omega

theorem testBit_flipped (hx : x < 2 ^ 64) (i : ℕ) : (flipped x).testBit i = (decide (i < 64) && !x.testBit i) :=
  Nat.testBit_two_pow_sub_succ hx i

theorem flipped_or (hx : x < 2 ^ 64) (hy : y < 2 ^ 64) : flipped (x ||| y) = flipped x &&& flipped y := by
  refine Nat.eq_of_testBit_eq fun i => ?_
  rw [testBit_flipped (Nat.or_lt_two_pow hx hy), Nat.testBit_and, testBit_flipped hx, testBit_flipped hy,
    Nat.testBit_or]
  cases decide (i < 64) <;> simp

theorem flipped_and (hx : x < 2 ^ 64) (hy : y < 2 ^ 64) : flipped (x &&& y) = flipped x ||| flipped y := by
  have hor := flipped_or (flipped_lt x) (flipped_lt y)
  rw [flipped_flipped hx, flipped_flipped hy] at hor
  rw [← hor, flipped_flipped (Nat.or_lt_two_pow (flipped_lt x) (flipped_lt y))]

theorem roundDown_eq (hb : b < 2 ^ 64) (hk : b.testBit k = true) :
    roundUp (flipped b) k < 2 ^ 64 ∧ roundDown b k = flipped (roundUp (flipped b) k) := by
  have hk64 : k < 64 := (Nat.pow_lt_pow_iff_right (by decide)).mp ((Nat.ge_two_pow_of_testBit hk).trans_lt hb)
  have hup : roundUp (flipped b) k < 2 ^ 64 := (AgreeFrom.mono roundUp_agree hk64).lt_two_pow (flipped_lt b)
  refine ⟨hup, Nat.eq_of_testBit_eq fun i => ?_⟩
  rw [testBit_flipped hup, testBit_roundUp, testBit_flipped hb, testBit_roundDown hk]
  by_cases hi : i < 64
  · rcases lt_trichotomy k i with h | rfl | h
    · simp [hi, h.le, h.ne, h.not_gt]
    · simp [hk64]
    · simp [hi, h, h.not_ge]
  · have hbi : b.testBit i = false :=
      Nat.testBit_lt_two_pow (hb.trans_le (Nat.pow_le_pow_right (by decide) (by omega)))
    have hik : ¬ i < k := by omega
    simp [hi, hbi, hik]

theorem le_roundDown_iff (ha : a < 2 ^ 64) (hb : b < 2 ^ 64) (hk : b.testBit k = true) :
    a ≤ roundDown b k ↔ roundUp (flipped b) k ≤ flipped a := by
  obtain ⟨hup, heq⟩ := roundDown_eq hb hk
  rw [heq]
  generalize roundUp (flipped b) k = u at hup
  unfold flipped
  omega

section Complement

variable (ha : a < 2 ^ 64) (hb : b < 2 ^ 64) (hc : c < 2 ^ 64) (hd : d < 2 ^ 64)

include ha hb hc hd

theorem maxAND.loop_eq (hk : k ≤ 64) :
    maxAND.loop a c k b d = flipped (minOR.loop (flipped a) (flipped c) k (flipped b) (flipped d)) := by
  induction k with
  | zero => rw [minOR.loop, flipped_or (flipped_lt b) (flipped_lt d), flipped_flipped hb, flipped_flipped hd, loop]
  | succ k ih =>
    have hk64 : k < 64 := hk
    rw [maxAND.loop, minOR.loop, testBit_flipped hb, testBit_flipped hd, ih hk64.le]
    cases hbk : b.testBit k <;> cases hdk : d.testBit k <;> simp only [hk64, decide_true, Bool.not_true,
      Bool.not_false, Bool.and_self, Bool.and_false, Bool.and_true, Bool.false_eq_true, if_true, if_false, ge_iff_le]
    · obtain ⟨hup, heq⟩ := roundDown_eq hd hdk
      rw [apply_ite flipped, flipped_or (flipped_lt b) hup, flipped_flipped hb, ← heq]
      exact if_congr (le_roundDown_iff hc hd hdk) rfl rfl
    · obtain ⟨hup, heq⟩ := roundDown_eq hb hbk
      rw [apply_ite flipped, flipped_or hup (flipped_lt d), flipped_flipped hd, ← heq]
      exact if_congr (le_roundDown_iff ha hb hbk) rfl rfl

theorem maxOR.loop_eq (hk : k ≤ 64) :
    maxOR.loop a c k b d = flipped (minAND.loop (flipped a) (flipped c) k (flipped b) (flipped d)) := by
  induction k with
  | zero => rw [minAND.loop, flipped_and (flipped_lt b) (flipped_lt d), flipped_flipped hb, flipped_flipped hd, loop]
  | succ k ih =>
    have hk64 : k < 64 := hk
    rw [maxOR.loop, minAND.loop, testBit_flipped hb, testBit_flipped hd, ih hk64.le]
    cases hbk : b.testBit k <;> cases hdk : d.testBit k <;> simp only [hk64, decide_true, Bool.not_true,
      Bool.not_false, Bool.and_self, Bool.and_false, Bool.and_true, Bool.false_eq_true, if_true, if_false, ge_iff_le]
    obtain ⟨hup, heq⟩ := roundDown_eq hb hbk
    obtain ⟨hup', heq'⟩ := roundDown_eq hd hdk
    rw [apply_ite flipped, apply_ite flipped, flipped_and hup (flipped_lt d), flipped_and (flipped_lt b) hup',
      flipped_flipped hb, flipped_flipped hd, ← heq, ← heq']
    exact if_congr (le_roundDown_iff ha hb hbk) rfl (if_congr (le_roundDown_iff hc hd hdk) rfl rfl)

end Complement

section Members

variable (hb : b < 2 ^ 64) (hd : d < 2 ^ 64) (hx : x ∈ Set.Icc a b) (hy : y ∈ Set.Icc c d)

include hb hd hx hy

theorem minOR_le : minOR a b c d ≤ x ||| y :=
  minOR.loop_le 64 (.of_lt (hx.2.trans_lt hb) (hx.1.trans_lt (hx.2.trans_lt hb)))
    (.of_lt (hy.2.trans_lt hd) (hy.1.trans_lt (hy.2.trans_lt hd))) hx.1 hx.2 hy.1 hy.2

theorem minAND_le : minAND a b c d ≤ x &&& y :=
  minAND.loop_le 64 (.of_lt (hx.2.trans_lt hb) (hx.1.trans_lt (hx.2.trans_lt hb)))
    (.of_lt (hy.2.trans_lt hd) (hy.1.trans_lt (hy.2.trans_lt hd))) hx.1 hx.2 hy.1 hy.2

theorem le_maxOR : x ||| y ≤ maxOR a b c d := by
  have hx' := hx.2.trans_lt hb
  have hy' := hy.2.trans_lt hd
  have hle := minAND_le (flipped_lt a) (flipped_lt c) ⟨flipped_anti hx.2, flipped_anti hx.1⟩
    ⟨flipped_anti hy.2, flipped_anti hy.1⟩
  rw [← flipped_or hx' hy'] at hle
  rw [maxOR, maxOR.loop_eq (hx.1.trans_lt hx') hb (hy.1.trans_lt hy') hd le_rfl,
    ← flipped_flipped (Nat.or_lt_two_pow hx' hy')]
  exact flipped_anti hle

theorem le_maxAND : x &&& y ≤ maxAND a b c d := by
  have hx' := hx.2.trans_lt hb
  have hy' := hy.2.trans_lt hd
  have hle := minOR_le (flipped_lt a) (flipped_lt c) ⟨flipped_anti hx.2, flipped_anti hx.1⟩
    ⟨flipped_anti hy.2, flipped_anti hy.1⟩
  rw [← flipped_and hx' hy'] at hle
  rw [maxAND, maxAND.loop_eq (hx.1.trans_lt hx') hb (hy.1.trans_lt hy') hd le_rfl,
    ← flipped_flipped (Nat.and_lt_two_pow x hy')]
  exact flipped_anti hle

end Members

theorem flipped_mem (hb : b < 2 ^ 64) (hx : x ∈ Set.Icc (flipped b) (flipped a)) (hab : a ≤ b) :
    x < 2 ^ 64 ∧ flipped x ∈ Set.Icc a b := by
  obtain ⟨hbx, hxa⟩ := hx
  unfold flipped at *
  exact ⟨by omega, by omega, by omega⟩

section Exact

variable (hab : a ≤ b) (hcd : c ≤ d) (hb : b < 2 ^ 64) (hd : d < 2 ^ 64)

include hab hcd hb hd

theorem maxOR_mem : maxOR a b c d ∈ Set.image2 (· ||| ·) (Set.Icc a b) (Set.Icc c d) := by
  obtain ⟨x, hx, y, hy, heq⟩ := minAND.loop_mem (flipped_anti hab) (flipped_anti hcd) 64
  obtain ⟨hx', hx⟩ := flipped_mem hb hx hab
  obtain ⟨hy', hy⟩ := flipped_mem hd hy hcd
  refine ⟨_, hx, _, hy, ?_⟩
  rw [maxOR, maxOR.loop_eq (hab.trans_lt hb) hb (hcd.trans_lt hd) hd le_rfl, ← heq, flipped_and hx' hy']

theorem maxAND_mem : maxAND a b c d ∈ Set.image2 (· &&& ·) (Set.Icc a b) (Set.Icc c d) := by
  obtain ⟨x, hx, y, hy, heq⟩ := minOR.loop_mem (flipped_anti hab) (flipped_anti hcd) 64
  obtain ⟨hx', hx⟩ := flipped_mem hb hx hab
  obtain ⟨hy', hy⟩ := flipped_mem hd hy hcd
  refine ⟨_, hx, _, hy, ?_⟩
  rw [maxAND, maxAND.loop_eq (hab.trans_lt hb) hb (hcd.trans_lt hd) hd le_rfl, ← heq, flipped_or hx' hy']

end Exact

/-- The bounds are those of the values of the operation on 64-bit members. -/
theorem bounds_exact (hab : a ≤ b) (hcd : c ≤ d) (hb : b < 2 ^ 64) (hd : d < 2 ^ 64) :
    IsLeast (Set.image2 (· ||| ·) (Set.Icc a b) (Set.Icc c d)) (minOR a b c d) ∧
    IsGreatest (Set.image2 (· ||| ·) (Set.Icc a b) (Set.Icc c d)) (maxOR a b c d) ∧
    IsLeast (Set.image2 (· &&& ·) (Set.Icc a b) (Set.Icc c d)) (minAND a b c d) ∧
    IsGreatest (Set.image2 (· &&& ·) (Set.Icc a b) (Set.Icc c d)) (maxAND a b c d) := by
  refine ⟨⟨minOR.loop_mem hab hcd 64, ?_⟩, ⟨maxOR_mem hab hcd hb hd, ?_⟩, ⟨minAND.loop_mem hab hcd 64, ?_⟩,
    ⟨maxAND_mem hab hcd hb hd, ?_⟩⟩ <;> rintro _ ⟨x, hx, y, hy, rfl⟩
  · exact minOR_le hb hd hx hy
  · exact le_maxOR hb hd hx hy
  · exact minAND_le hb hd hx hy
  · exact le_maxAND hb hd hx hy

theorem bounds_exact_small : minOR 2 5 8 9 = 10 ∧ IsLeast (Set.image2 (· ||| ·) (Set.Icc 2 5) (Set.Icc 8 9)) 10 :=
  ⟨by decide, (bounds_exact (a := 2) (b := 5) (c := 8) (d := 9) (by decide) (by decide) (by decide) (by decide)).1⟩

end Bounds

theorem bits64.maxValueOfNBits_eq {n m : ℕ} (h : bits64.maxValueOfNBits n = some m) :
    m = 2 ^ n - 1 ∧ n ≤ 64 := by
  unfold bits64.maxValueOfNBits at h
  split_ifs at h with hn h0
  · cases h
    subst h0
    decide
  · cases h
    refine ⟨Nat.eq_of_testBit_eq fun i => ?_, hn⟩
    rw [Nat.testBit_shiftRight, Nat.testBit_two_pow_sub_one, Nat.testBit_two_pow_sub_one, decide_eq_decide]
    omega

namespace ValueRange

/-- The number lies in the range, and the range among the numbers of `w ≤ 64`
bits. -/
structure Contains (r : ValueRange) (w x : ℕ) : Prop where
  le : r.m_min ≤ x
  ge : x ≤ r.m_max
  lt : r.m_max < 2 ^ w
  width : w ≤ 64

variable {r b out : ValueRange} {w x y : ℕ}

theorem Contains.lt_64 (h : r.Contains w x) : r.m_max < 2 ^ 64 :=
  h.lt.trans_le (Nat.pow_le_pow_right (by decide) h.width)

theorem contains_ofValue (hx : x < 2 ^ w) (hw : w ≤ 64) : (ofValue x).Contains w x :=
  ⟨le_rfl, le_rfl, hx, hw⟩

theorem Contains.not_isEmpty (h : r.Contains w x) : r.isEmpty = false := by
  have := h.le.trans h.ge
  simpa [isEmpty] using this

theorem Contains.eq_of_isFixed (h : r.Contains w x) (hf : r.isFixed = true) : x = r.m_min := by
  have heq : r.m_min = r.m_max := by simpa [isFixed] using hf
  have := h.le
  have := h.ge
  omega

theorem Contains.min_eq (h : r.Contains w x) : r.min = some r.m_min := by
  simp [ValueRange.min, h.not_isEmpty]

theorem Contains.max_eq (h : r.Contains w x) : r.max = some r.m_max := by
  simp [ValueRange.max, h.not_isEmpty]

theorem Contains.union_left (h : r.Contains w x) (hb : b.m_max < 2 ^ w) :
    (r.set_union b).Contains w x :=
  ⟨(Nat.min_le_left _ _).trans h.le, h.ge.trans (Nat.le_max_left _ _), Nat.max_lt.mpr ⟨h.lt, hb⟩, h.width⟩

theorem Contains.union_right (h : b.Contains w x) (hr : r.m_max < 2 ^ w) :
    (r.set_union b).Contains w x :=
  ⟨(Nat.min_le_right _ _).trans h.le, h.ge.trans (Nat.le_max_right _ _), Nat.max_lt.mpr ⟨hr, h.lt⟩, h.width⟩

theorem Contains.mayEqual (hr : r.Contains w x) (hb : b.Contains w x) : r.mayEqual b = true := by
  have := hr.le
  have := hr.ge
  have := hb.le
  have := hb.ge
  simp [ValueRange.mayEqual, intersects, set_intersection, isEmpty]
  omega

theorem Contains.eq_of_mustEqual (hr : r.Contains w x) (hb : b.Contains w y)
    (h : r.mustEqual b = true) : x = y := by
  simp only [mustEqual, Bool.and_eq_true, beq_iff_eq] at h
  rw [hr.eq_of_isFixed h.1.1, hb.eq_of_isFixed h.1.2, h.2]

theorem Contains.eq_of_mustBe (hr : r.Contains w x) (h : r.mustBe y = true) : x = y := by
  simp only [mustBe, Bool.and_eq_true, beq_iff_eq] at h
  rw [hr.eq_of_isFixed (by simpa [isFixed] using h.1), h.2]

theorem Contains.mem (h : r.Contains w x) : x ∈ Set.Icc r.m_min r.m_max := ⟨h.le, h.ge⟩

theorem Contains.binaryAnd (hr : r.Contains w x) (hb : b.Contains w y) (h : r.binaryAnd b = some out) :
    out.Contains w (x &&& y) := by
  simp only [ValueRange.binaryAnd, hr.not_isEmpty, hb.not_isEmpty, Bool.or_self, Bool.false_eq_true,
    if_false] at h
  split_ifs at h with hfixed
  · cases h
    rw [Bool.and_eq_true] at hfixed
    rw [← hr.eq_of_isFixed hfixed.1, ← hb.eq_of_isFixed hfixed.2]
    exact contains_ofValue (Nat.and_lt_two_pow _ (hb.ge.trans_lt hb.lt)) hr.width
  · cases h
    obtain ⟨z, -, z', hz', heq⟩ := maxAND_mem (hr.le.trans hr.ge) (hb.le.trans hb.ge) hr.lt_64 hb.lt_64
    exact ⟨minAND_le hr.lt_64 hb.lt_64 hr.mem hb.mem, le_maxAND hr.lt_64 hb.lt_64 hr.mem hb.mem,
      heq ▸ Nat.and_lt_two_pow z (hz'.2.trans_lt hb.lt), hr.width⟩

theorem Contains.binaryOr (hr : r.Contains w x) (hb : b.Contains w y) (h : r.binaryOr b = some out) :
    out.Contains w (x ||| y) := by
  simp only [ValueRange.binaryOr, hr.not_isEmpty, hb.not_isEmpty, Bool.or_self, Bool.false_eq_true,
    if_false] at h
  split_ifs at h with hfixed
  · cases h
    rw [Bool.and_eq_true] at hfixed
    rw [← hr.eq_of_isFixed hfixed.1, ← hb.eq_of_isFixed hfixed.2]
    exact contains_ofValue (Nat.or_lt_two_pow (hr.ge.trans_lt hr.lt) (hb.ge.trans_lt hb.lt)) hr.width
  · cases h
    obtain ⟨z, hz, z', hz', heq⟩ := maxOR_mem (hr.le.trans hr.ge) (hb.le.trans hb.ge) hr.lt_64 hb.lt_64
    exact ⟨minOR_le hr.lt_64 hb.lt_64 hr.mem hb.mem, le_maxOR hr.lt_64 hb.lt_64 hr.mem hb.mem,
      heq ▸ Nat.or_lt_two_pow (hz.2.trans_lt hr.lt) (hz'.2.trans_lt hb.lt), hr.width⟩

theorem testBit_and_pred {k t : ℕ} (hgt : 2 ^ k < t) (hlt : t < 2 ^ (k + 1)) :
    (t &&& (t - 1)).testBit k = true := by
  have htop : ∀ u, 2 ^ k ≤ u → u < 2 ^ (k + 1) → u.testBit k = true := fun u hle hlt =>
    Nat.testBit_of_two_pow_le_and_two_pow_add_one_gt hle hlt
  rw [Nat.testBit_and, htop t hgt.le hlt, htop (t - 1) (by omega) (by omega), Bool.and_self]

theorem highestBit_spec {k s : ℕ} (n : ℕ) : ∀ t, 2 ^ k ≤ t → t < 2 ^ (k + 1) →
    highestBit n t = some s → s = 2 ^ k := by
  induction n with
  | zero => intro t _ _ h; cases h
  | succ n ih =>
    intro t hle hlt h
    rw [highestBit] at h
    rcases Nat.eq_or_lt_of_le hle with rfl | hgt
    · have hpow : bits64.isPowerOfTwo (2 ^ k) = true := by
        simp [bits64.isPowerOfTwo, Nat.and_two_pow_sub_one_eq_mod]
      rw [if_pos hpow] at h
      exact (Option.some.inj h).symm
    · have hbit := testBit_and_pred hgt hlt
      have hpow : ¬ bits64.isPowerOfTwo t = true := by
        intro hpow
        simp only [bits64.isPowerOfTwo, Bool.and_eq_true, beq_iff_eq] at hpow
        simp [hpow.2] at hbit
      rw [if_neg hpow] at h
      exact ih _ (Nat.ge_two_pow_of_testBit hbit) (Nat.and_le_left.trans_lt hlt) h

theorem Contains.binaryXor (hr : r.Contains w x) (hb : b.Contains w y) (h : r.binaryXor b = some out) :
    out.Contains w (x ^^^ y) := by
  unfold ValueRange.binaryXor at h
  split_ifs at h with hfixed
  · cases h
    rw [Bool.and_eq_true] at hfixed
    rw [← hr.eq_of_isFixed hfixed.1, ← hb.eq_of_isFixed hfixed.2]
    exact contains_ofValue (Nat.xor_lt_two_pow (hr.ge.trans_lt hr.lt) (hb.ge.trans_lt hb.lt)) hr.width
  · obtain ⟨s, hs, hout⟩ := Option.bind_eq_some_iff.mp h
    cases hout
    generalize ht : r.m_max ||| b.m_max = t at hs
    have htw : t < 2 ^ w := ht ▸ Nat.or_lt_two_pow hr.lt hb.lt
    by_cases hzero : t = 0
    · rw [hzero, show highestBit 64 0 = none by decide] at hs
      cases hs
    · -- both operands stay below the power of two above
      have hle := Nat.log2_self_le hzero
      have hlt := Nat.lt_log2_self (n := t)
      obtain rfl := highestBit_spec 64 _ hle hlt hs
      have hk : Nat.log2 t + 1 ≤ w := (Nat.pow_lt_pow_iff_right (by decide)).mp (hle.trans_lt htw)
      have hkw := Nat.pow_le_pow_right (n := 2) (by decide) hk
      have hw := Nat.pow_le_pow_right (n := 2) (by decide) hr.width
      have hpos := Nat.two_pow_pos (Nat.log2 t + 1)
      have hmax : (2 ^ Nat.log2 t <<< 1 + 2 ^ 64 - 1) % 2 ^ 64 = 2 ^ (Nat.log2 t + 1) - 1 := by
        rw [Nat.shiftLeft_eq, ← Nat.pow_add, Nat.add_comm, Nat.add_sub_assoc hpos, Nat.add_mod_left,
          Nat.mod_eq_of_lt (by omega)]
      have hor : r.m_max ||| b.m_max < 2 ^ (Nat.log2 t + 1) := by rw [ht]; exact hlt
      have hxor := Nat.xor_lt_two_pow ((hr.ge.trans Nat.left_le_or).trans_lt hor)
        ((hb.ge.trans Nat.right_le_or).trans_lt hor)
      rw [hmax]
      exact ⟨Nat.zero_le _, by dsimp only; omega, by dsimp only; omega, hr.width⟩

theorem contains_ofConstant {c : APInt} (hw : c.width ≤ 64) :
    (ofConstant c).Contains c.width c.toNat := by
  have hc : c.toNat < 2 ^ 64 := c.toNat_lt.trans_le (Nat.pow_le_pow_right (by decide) hw)
  rw [ValueRange.ofConstant, APInt.getLimitedValue, Nat.min_eq_left (by omega)]
  exact contains_ofValue c.toNat_lt hw

theorem contains_ofWidth (h : ValueRange.ofWidth w = some out) (hx : x < 2 ^ w) : out.Contains w x := by
  obtain ⟨m, hm, hout⟩ := Option.bind_eq_some_iff.mp h
  cases hout
  obtain ⟨rfl, hw⟩ := bits64.maxValueOfNBits_eq hm
  have hpos := Nat.two_pow_pos w
  exact ⟨Nat.zero_le _, by dsimp only; omega, by dsimp only; omega, hw⟩

theorem Contains.concat {bits : ℕ} (hr : r.Contains w x) (hb : b.Contains bits y)
    (hw : w + bits ≤ 64) (h : r.concat b bits = some out) :
    out.Contains (w + bits) (x <<< bits ||| y) := by
  obtain ⟨s, hs, hout⟩ := Option.bind_eq_some_iff.mp h
  unfold binaryShiftLeft at hs
  split_ifs at hs
  cases hs
  have hlt : ∀ z ≤ r.m_max, z <<< bits < 2 ^ (w + bits) := by
    intro z hz
    rw [Nat.shiftLeft_eq, Nat.pow_add]
    exact Nat.mul_lt_mul_of_pos_right (hz.trans_lt hr.lt) (Nat.two_pow_pos _)
  have hmod : ∀ z ≤ r.m_max, z <<< bits % 2 ^ 64 = z <<< bits := fun z hz =>
    Nat.mod_eq_of_lt ((hlt z hz).trans_le (Nat.pow_le_pow_right (by decide) hw))
  have hmono : ∀ {z z' : ℕ}, z ≤ z' → z <<< bits ≤ z' <<< bits := by
    intro z z' hz
    rw [Nat.shiftLeft_eq, Nat.shiftLeft_eq]
    exact Nat.mul_le_mul_right _ hz
  rw [hmod _ le_rfl, hmod _ (hr.le.trans hr.ge)] at hout
  exact Contains.binaryOr ⟨hmono hr.le, hmono hr.ge, hlt _ le_rfl, hw⟩
    ⟨hb.le, hb.ge, hb.lt.trans_le (Nat.pow_le_pow_right (by decide) (Nat.le_add_left _ _)), hw⟩ hout

theorem exists_ofWidth (hw : w ≤ 64) : ∃ out, ofWidth w = some out := by
  simp only [ofWidth, bits64.maxValueOfNBits, if_pos hw]
  split_ifs <;> exact ⟨_, rfl⟩

theorem Contains.exists_binaryAnd (hr : r.Contains w x) (hb : b.Contains w y) :
    ∃ out, r.binaryAnd b = some out := by
  simp only [ValueRange.binaryAnd, hr.not_isEmpty, hb.not_isEmpty, Bool.or_self, Bool.false_eq_true, if_false]
  split_ifs <;> exact ⟨_, rfl⟩

theorem Contains.exists_binaryOr {w' : ℕ} (hr : r.Contains w x) (hb : b.Contains w' y) :
    ∃ out, r.binaryOr b = some out := by
  simp only [ValueRange.binaryOr, hr.not_isEmpty, hb.not_isEmpty, Bool.or_self, Bool.false_eq_true, if_false]
  split_ifs <;> exact ⟨_, rfl⟩

def bits (t : ℕ) : Finset ℕ := (Finset.range 64).filter fun i => t.testBit i = true

theorem exists_mem_bits {t : ℕ} (hzero : t ≠ 0) (hlt : t < 2 ^ 64) : ∃ i, i ∈ bits t := by
  obtain ⟨i, hi⟩ := Nat.exists_testBit_of_ne_zero hzero
  refine ⟨i, Finset.mem_filter.mpr ⟨Finset.mem_range.mpr ?_, hi⟩⟩
  by_contra hge
  have := Nat.testBit_lt_two_pow (hlt.trans_le (Nat.pow_le_pow_right (by decide) (not_lt.mp hge)))
  simp [this] at hi

theorem bits_withoutRightmostBit {t : ℕ} (hzero : t ≠ 0) (hlt : t < 2 ^ 64) :
    (bits (bits64.withoutRightmostBit t)).card < (bits t).card := by
  have hless : bits64.withoutRightmostBit t < t :=
    Nat.and_le_right.trans_lt (Nat.sub_lt (Nat.pos_of_ne_zero hzero) Nat.one_pos)
  refine Finset.card_lt_card ⟨fun i hi => ?_, fun hsub => hless.ne (Nat.eq_of_testBit_eq fun i => ?_)⟩
  · simp only [bits, bits64.withoutRightmostBit, Finset.mem_filter, Nat.testBit_and, Bool.and_eq_true] at hi ⊢
    exact ⟨hi.1, hi.2.1⟩
  · rw [bits64.withoutRightmostBit, Nat.testBit_and]
    cases hbit : t.testBit i with
    | false => rfl
    | true =>
      by_cases hi : i < 64
      · have hmem := hsub (Finset.mem_filter.mpr ⟨Finset.mem_range.mpr hi, hbit⟩)
        simpa [bits64.withoutRightmostBit, hbit] using (Finset.mem_filter.mp hmem).2
      · have := Nat.testBit_lt_two_pow (hlt.trans_le (Nat.pow_le_pow_right (by decide) (not_lt.mp hi)))
        simp [this] at hbit

theorem exists_highestBit (n : ℕ) : ∀ {t : ℕ}, t ≠ 0 → t < 2 ^ 64 → (bits t).card ≤ n →
    ∃ s, highestBit n t = some s := by
  induction n with
  | zero =>
    intro t hzero hlt hcard
    obtain ⟨i, hi⟩ := exists_mem_bits hzero hlt
    exact absurd (Finset.card_pos.mpr ⟨i, hi⟩) (by omega)
  | succ n ih =>
    intro t hzero hlt hcard
    rw [highestBit]
    split_ifs with hpow
    · exact ⟨t, rfl⟩
    · have hrest : bits64.withoutRightmostBit t ≠ 0 := by
        intro h
        simp [bits64.isPowerOfTwo, hzero, show t &&& (t - 1) = 0 from h] at hpow
      have hfewer := bits_withoutRightmostBit hzero hlt
      exact ih hrest (Nat.and_le_left.trans_lt hlt) (by omega)

theorem Contains.exists_binaryXor (hr : r.Contains w x) (hb : b.Contains w y) :
    ∃ out, r.binaryXor b = some out := by
  unfold ValueRange.binaryXor
  split_ifs with hfixed
  · exact ⟨_, rfl⟩
  · have hzero : r.m_max ||| b.m_max ≠ 0 := by
      intro h
      obtain ⟨hrmax, hbmax⟩ := Nat.or_eq_zero_iff.mp h
      have hr' := hr.le.trans hr.ge
      have hb' := hb.le.trans hb.ge
      simp only [isFixed, Bool.and_eq_true, beq_iff_eq] at hfixed
      omega
    obtain ⟨t, ht⟩ := exists_highestBit 64 hzero (Nat.or_lt_two_pow hr.lt_64 hb.lt_64)
      ((Finset.card_filter_le _ _).trans (Finset.card_range 64).le)
    exact ⟨_, by rw [ht]; rfl⟩

theorem Contains.exists_concat {bits : ℕ} (hr : r.Contains w x) (hb : b.Contains bits y) (hw : w + bits ≤ 64)
    (hbits : bits < 64) : ∃ out, r.concat b bits = some out := by
  have hlt : r.m_max <<< bits < 2 ^ 64 := by
    rw [Nat.shiftLeft_eq]
    calc r.m_max * 2 ^ bits < 2 ^ w * 2 ^ bits := Nat.mul_lt_mul_of_pos_right hr.lt (Nat.two_pow_pos _)
      _ = 2 ^ (w + bits) := (Nat.pow_add 2 w bits).symm
      _ ≤ 2 ^ 64 := Nat.pow_le_pow_right (by decide) hw
  have hle : r.m_min <<< bits ≤ r.m_max <<< bits := by
    rw [Nat.shiftLeft_eq, Nat.shiftLeft_eq]
    exact Nat.mul_le_mul_right _ (hr.le.trans hr.ge)
  simp only [ValueRange.concat, binaryShiftLeft, if_pos hbits, some_bind,
    Nat.mod_eq_of_lt hlt, Nat.mod_eq_of_lt (hle.trans_lt hlt)]
  exact Contains.exists_binaryOr (x := r.m_max <<< bits) ⟨hle, le_rfl, hlt, le_rfl⟩ hb

theorem Contains.exists_signed (hr : r.Contains w x) (hpos : 0 < w) (hw : w < 64) :
    (∃ lo, r.minSigned w = some lo) ∧ ∃ hi, r.maxSigned w = some hi := by
  have hshift : ∀ z ≤ r.m_max, z >>> w = 0 := fun z hz => by
    rw [Nat.shiftRight_eq_div_pow]
    exact Nat.div_eq_of_lt (hz.trans_lt hr.lt)
  have hdef : r.signedDefined w = true := by
    simp [signedDefined, hpos, hw, hshift _ le_rfl, hshift _ (hr.le.trans hr.ge)]
  simp only [minSigned, maxSigned, hdef, if_true]
  constructor <;> split_ifs <;> exact ⟨_, rfl⟩

end ValueRange

end Klee
