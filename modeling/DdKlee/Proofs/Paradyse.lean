import DdKlee.Spec.Paradyse

/-! Both scripts put the boundary after `k` of `g` groups at `k * (n / g) + min k (n % g)`. -/

namespace Paradyse

variable {α : Type} {n g q r : ℕ}

/-- The groups, one after the other, are the whole list, and their lengths differ by at most one. -/
structure Splits (g : ℕ) (groups : List (List α)) (whole : List α) : Prop where
  length : groups.length = g
  flatten : groups.flatten = whole
  even : ∀ l ∈ groups, ∀ l' ∈ groups, l.length ≤ l'.length + 1

def boundary (q r k : ℕ) : ℕ := k * q + min k r

theorem boundary_succ (q r k : ℕ) : boundary q r (k + 1) = boundary q r k + q + if k < r then 1 else 0 := by
  rw [boundary, boundary, Nat.succ_mul]
  split_ifs <;> omega

theorem boundary_mono {k k' : ℕ} (h : k ≤ k') : boundary q r k ≤ boundary q r k' :=
  Nat.add_le_add (Nat.mul_le_mul_right q h) (min_le_min_right r h)

theorem boundary_all (hg : 1 ≤ g) : boundary (n / g) (n % g) g = n := by
  rw [boundary, Nat.min_eq_right (Nat.mod_lt n hg).le, Nat.div_add_mod]

def slice (whole : List α) (q r k : ℕ) : List α := (whole.take (boundary q r (k + 1))).drop (boundary q r k)

theorem flatten_slices (whole : List α) (k : ℕ) :
    ((List.range k).map (slice whole q r)).flatten = whole.take (boundary q r k) := by
  induction k with
  | zero => simp [boundary]
  | succ k ih =>
    have htake : (whole.take (boundary q r (k + 1))).take (boundary q r k) = whole.take (boundary q r k) := by
      rw [List.take_take, Nat.min_eq_left (boundary_mono k.le_succ)]
    rw [List.range_succ, List.map_append, List.flatten_append, ih, ← htake, List.map_singleton, List.flatten_singleton]
    exact List.take_append_drop _ _

theorem splits_slices (whole : List α) (hg : boundary q r g = whole.length) :
    Splits g ((List.range g).map (slice whole q r)) whole := by
  have hlength : ∀ l ∈ (List.range g).map (slice whole q r), l.length = q ∨ l.length = q + 1 := by
    intro l hl
    obtain ⟨k, hk, rfl⟩ := List.mem_map.mp hl
    have hle : boundary q r (k + 1) ≤ whole.length := hg ▸ boundary_mono (List.mem_range.mp hk)
    rw [slice, List.length_drop, List.length_take, Nat.min_eq_left hle, boundary_succ]
    split_ifs <;> omega
  refine ⟨by simp, ?_, fun l hl l' hl' => ?_⟩
  · rw [flatten_slices, hg, List.take_length]
  · have := hlength l hl
    have := hlength l' hl'
    omega

theorem coreIndices_eq (m i acc : ℕ) (hacc : acc = boundary q r i) :
    coreIndices q r m i acc = (List.range m).map fun k => boundary q r (i + k + 1) := by
  induction m generalizing i acc with
  | zero => rfl
  | succ m ih =>
    have hstep : (if i < r then acc + q + 1 else acc + q) = boundary q r (i + 1) := by
      rw [boundary_succ, hacc]
      split_ifs <;> rfl
    rw [coreIndices, ih _ _ hstep, hstep, List.range_succ_eq_map, List.map_cons, List.map_map]
    congr 1
    refine List.map_congr_left fun k _ => ?_
    rw [Function.comp_apply, Nat.succ_eq_add_one, Nat.add_right_comm i 1 k, Nat.add_assoc i k 1]

theorem coreTasks_eq (m i acc : ℕ) : coreTasks q m (r - i) acc = coreIndices q r m i acc := by
  induction m generalizing i acc with
  | zero => rfl
  | succ m ih =>
    unfold coreTasks coreIndices
    by_cases hi : i < r
    · simp only [if_pos hi, if_pos (Nat.sub_pos_of_lt hi), Nat.sub_sub, ih]
    · have hzero : r - i = r - (i + 1) := by omega
      rw [if_neg (by omega), hzero, ih]
      simp only [if_neg hi]

theorem coreIndices_length (m i acc : ℕ) : (coreIndices q r m i acc).length = m := by
  induction m generalizing i acc with
  | zero => rfl
  | succ m ih => rw [coreIndices, List.length_cons, ih]

theorem boundary_getD (q r : ℕ) {k m : ℕ} (hk : k ≤ m) (first : ℕ) :
    (first :: coreIndices q r m 0 0).getD k 0 = if k = 0 then first else boundary q r k := by
  rw [coreIndices_eq m 0 0 (by simp [boundary])]
  cases k with
  | zero => rfl
  | succ k => simp [List.getElem?_range hk]

theorem slice_range' (k : ℕ) (h : boundary q r (k + 1) ≤ n) :
    slice (List.range' 1 n) q r k = range (boundary q r k + 1) (boundary q r (k + 1) + 1) := by
  have hle := boundary_mono (q := q) (r := r) k.le_succ
  refine List.ext_getElem ?_ fun i h1 h2 => ?_
  · simp [slice, range]
    omega
  · simp [slice, range]
    omega

theorem run_find_eq (hg : 1 ≤ g) :
    run_find n g = (List.range g).map (slice (List.range' 1 n) (n / g) (n % g)) := by
  have hslice : ∀ k < g, slice (List.range' 1 n) (n / g) (n % g) k =
      range (boundary (n / g) (n % g) k + 1) (boundary (n / g) (n % g) (k + 1) + 1) :=
    fun k hk => slice_range' k ((boundary_mono hk).trans_eq (boundary_all hg))
  have htasks := coreTasks_eq (q := n / g) (r := n % g) g 0 0
  rw [Nat.sub_zero] at htasks
  obtain ⟨m, rfl⟩ : ∃ m, g = m + 1 := ⟨g - 1, by omega⟩
  rw [run_find, htasks, List.range_succ_eq_map, List.map_cons, List.map_map]
  refine congrArg₂ List.cons ?_ ?_
  · rw [hslice 0 hg, boundary_getD _ _ hg]
    simp [boundary]
  · rw [range, List.length_cons, coreIndices_length, Nat.add_assoc, Nat.add_sub_cancel, List.range'_eq_map_range,
      List.map_map]
    refine List.map_congr_left fun k hk => ?_
    have hk := List.mem_range.mp hk
    rw [Function.comp_apply, Function.comp_apply, hslice _ (by omega), boundary_getD _ _ (by omega),
      boundary_getD _ _ (by omega), if_neg (by omega), if_neg (by omega)]
    congr 3 <;> omega

theorem run_all_eq (weights : List α) (n_iter : ℕ) : run_all g weights n_iter = (List.range g).map
    (slice (allTasks weights n_iter) ((allTasks weights n_iter).length / g) ((allTasks weights n_iter).length % g)) := by
  rw [run_all, range, Nat.sub_zero, ← List.range_eq_range']
  refine List.map_congr_left fun k hk => ?_
  have hk := List.mem_range.mp hk
  rw [boundary_getD _ _ hk, boundary_getD _ _ hk.le, if_neg k.succ_ne_zero]
  split_ifs with h
  · rw [h]
    simp [slice, boundary]
  · rfl

/-- The lists of `run_find` and the slices of `run_all` split the indices and the tasks evenly. -/
theorem work_split (n n_iter : ℕ) (weights : List α) (hg : 1 ≤ g) : Splits g (run_find n g) (List.range' 1 n) ∧
    Splits g (run_all g weights n_iter) (allTasks weights n_iter) := by
  rw [run_find_eq hg, run_all_eq]
  exact ⟨splits_slices _ (by rw [boundary_all hg, List.length_range']), splits_slices _ (boundary_all hg)⟩

theorem work_split_three : 1 ≤ 3 ∧ Splits 3 (run_find 2 3) (List.range' 1 2) ∧
    Splits 3 (run_all 3 ["a", "b"] 2) (allTasks ["a", "b"] 2) :=
  ⟨by decide, work_split 2 2 ["a", "b"] (by decide)⟩

end Paradyse
