import DdKlee.Spec.Runtime

/-! `memmove` copies as if all bytes were read before the first is written. The sign of
`strcmp` is that of the C order unless the first bytes that differ lie on two sides of 128. -/

namespace Klee.Runtime

/-- Upwards, what is still to be read lies above what has been written. -/
theorem copyUp_eq (count : ℕ) {a b : ℤ} (h : a < b) (mem : Memory) (x : ℤ) :
    copyUp count a b mem x = if a ≤ x ∧ x < a + count then mem (b + (x - a)) else mem x := by
  induction count generalizing a b mem with
  | zero => rw [copyUp, if_neg (by omega)]
  | succ count ih =>
    rw [copyUp, ih (by omega)]
    by_cases hx : x = a
    · subst hx
      rw [if_neg (by omega), if_pos (by omega), Function.update_self, sub_self, add_zero]
    · rw [Function.update_of_ne hx]
      by_cases hin : a + 1 ≤ x ∧ x < a + 1 + count
      · rw [if_pos hin, if_pos (by omega), Function.update_of_ne (by omega)]
        congr 1
        omega
      · rw [if_neg hin, if_neg (by omega)]

theorem copyDown_eq (count : ℕ) {a b : ℤ} (h : b < a) (mem : Memory) (x : ℤ) :
    copyDown count a b mem x = if a - count < x ∧ x ≤ a then mem (b + (x - a)) else mem x := by
  induction count generalizing a b mem with
  | zero => rw [copyDown, if_neg (by omega)]
  | succ count ih =>
    rw [copyDown, ih (by omega)]
    by_cases hx : x = a
    · subst hx
      rw [if_neg (by omega), if_pos (by omega), Function.update_self, sub_self, add_zero]
    · rw [Function.update_of_ne hx]
      by_cases hin : a - 1 - count < x ∧ x ≤ a - 1
      · rw [if_pos hin, if_pos (by omega), Function.update_of_ne (by omega)]
        congr 1
        omega
      · rw [if_neg hin, if_neg (by omega)]

theorem memmove_simultaneous (mem : Memory) (dst src : ℤ) (count : ℕ) :
    (memmove mem dst src count).1 = dst ∧ ∀ x, (memmove mem dst src count).2 x =
      if dst ≤ x ∧ x < dst + count then mem (src + (x - dst)) else mem x := by
  unfold memmove
  split_ifs with heq hlt
  · subst heq
    refine ⟨rfl, fun x => ?_⟩
    rw [add_sub_cancel, ite_self]
  · exact ⟨rfl, copyUp_eq count hlt mem⟩
  · refine ⟨rfl, fun x => (copyDown_eq count (by omega) mem x).trans ?_⟩
    congr 1
    · rw [eq_iff_iff]
      omega
    · congr 1
      omega

def StringAt (mem : Memory) : ℤ → List (BitVec 8) → Prop
  | a, [] => mem a = 0
  | a, c :: s => c ≠ 0 ∧ mem a = c ∧ StringAt mem (a + 1) s

def IsOrder (r : ℤ) (s t : List (BitVec 8)) : Prop := (r < 0 ↔ s < t) ∧ (r = 0 ↔ s = t) ∧ (0 < r ↔ t < s)

/-- The first bytes that differ, the NUL among them, have the same top bit. -/
def SameSide : List (BitVec 8) → List (BitVec 8) → Prop
  | [], [] => True
  | [], d :: _ => d.msb = false
  | c :: _, [] => c.msb = false
  | c :: s, d :: t => if c = d then SameSide s t else c.msb = d.msb

theorem isOrder_sub {s t : List (BitVec 8)} {x y : BitVec 8} (hst : s ≠ t) (hxy : x ≠ y) (hlt : s < t ↔ x < y)
    (hgt : t < s ↔ y < x) : IsOrder (x.toInt - y.toInt) s t ↔ x.msb = y.msb := by
  have hne : ¬ x.toNat = y.toNat := fun heq => hxy (BitVec.eq_of_toNat_eq heq)
  have hx := x.isLt
  have hy := y.isLt
  rw [IsOrder, hlt, hgt, iff_false_right hst, BitVec.lt_def, BitVec.lt_def, BitVec.msb_eq_decide,
    BitVec.msb_eq_decide, decide_eq_decide, BitVec.toInt_eq_toNat_cond, BitVec.toInt_eq_toNat_cond]
  split_ifs <;> omega

theorem strcmp_eq {mem : Memory} {s t : List (BitVec 8)} {a b : ℤ} (ha : StringAt mem a s) (hb : StringAt mem b t) :
    ∃ r, strcmp mem (s.length + 1) a b = some r ∧ (IsOrder r s t ↔ SameSide s t) := by
  have hpos : ∀ c : BitVec 8, c ≠ 0 → 0#8 < c := fun c hc => by bv_omega
  induction s generalizing t a b with
  | nil =>
    refine ⟨_, if_neg fun h => h.1 ha, ?_⟩
    rw [show mem a = 0 from ha]
    cases t with
    | nil => simp [show mem b = 0 from hb, IsOrder, SameSide]
    | cons d t =>
      rw [hb.2.1, isOrder_sub (by simp) hb.1.symm (by simp [hpos d hb.1]) (by simp)]
      exact eq_comm
  | cons c s ih =>
    cases t with
    | nil =>
      have hb : mem b = 0 := hb
      refine ⟨_, if_neg fun h => h.1 (h.2.trans hb), ?_⟩
      rw [ha.2.1, hb, isOrder_sub (by simp) ha.1 (by simp) (by simp [hpos c ha.1])]
      rfl
    | cons d t =>
      by_cases hcd : c = d
      · subst hcd
        obtain ⟨r, hr, hiff⟩ := ih ha.2.2 hb.2.2
        refine ⟨r, (if_pos ⟨ha.2.1 ▸ ha.1, ha.2.1.trans hb.2.1.symm⟩).trans hr, ?_⟩
        rw [SameSide, if_pos rfl, ← hiff]
        simp [IsOrder]
      · refine ⟨_, if_neg fun h => hcd (ha.2.1.symm.trans (h.2.trans hb.2.1)), ?_⟩
        rw [SameSide, if_neg hcd, ha.2.1, hb.2.1]
        exact isOrder_sub (by simp [hcd]) hcd (by simp [List.cons_lt_cons_iff, hcd])
          (by simp [List.cons_lt_cons_iff, Ne.symm hcd])

/-- The loop ends, and the result has the sign of the C order exactly when the first bytes that
differ are on the same side of 128. -/
theorem strcmp_order_iff (mem : Memory) (a b : ℤ) (s t : List (BitVec 8)) (ha : StringAt mem a s)
    (hb : StringAt mem b t) : ∃ n r, strcmp mem n a b = some r ∧ (IsOrder r s t ↔ SameSide s t) :=
  ⟨_, strcmp_eq ha hb⟩

def abac : Memory := fun x => [97, 98, 0, 97, 99].getD x.toNat 0

theorem strcmp_order_abac : ∃ n r, strcmp abac n 0 3 = some r ∧
    (IsOrder r [97, 98] [97, 99] ↔ SameSide [97, 98] [97, 99]) :=
  strcmp_order_iff abac 0 3 _ _ ⟨by decide, rfl, by decide, rfl, rfl⟩ ⟨by decide, rfl, by decide, rfl, rfl⟩

/-- The byte 128 is above "a", and compares below it. -/
theorem strcmp_sign_wrong : ∃ mem a b s t n r, StringAt mem a s ∧ StringAt mem b t ∧
    strcmp mem n a b = some r ∧ t < s ∧ r < 0 :=
  ⟨fun x => [128, 0, 97].getD x.toNat 0, 0, 2, [128], [97], 1, -225,
    ⟨by decide, rfl, rfl⟩, ⟨by decide, rfl, rfl⟩, rfl, by decide, by decide⟩

end Klee.Runtime
