import DdKlee.Proofs.TimingSolver
import DdKlee.Proofs.ValueRange
import DdKlee.Spec.SolverRange

/-! `Solver::getRange` returns the exact bounds of the values of an expression. -/

namespace Klee

open Expr TimingSolver

theorem ConstantExpr.create_eq {v w : ℕ} (hw : 0 < w) (hv : v < 2 ^ w) :
    ConstantExpr.create v w = some (ConstantExpr.alloc v w) := by
  unfold create
  have hvalid : 0 < w ∧ v = v % 2 ^ w := ⟨hw, (Nat.mod_eq_of_lt hv).symm⟩
  rw [if_pos hvalid, ite_self]

namespace Solver

variable {impl : SolverImpl} {constraints : List Expr} {e : Expr} {w : ℕ}

theorem mayBeTrue_ok (h : impl.ExactOn constraints) (he : IsConstraint e) :
    ∃ b, mayBeTrue impl ⟨constraints, e⟩ = some b ∧ (b = true ↔ ∃ σ ∈ Solutions constraints, e.holds σ) := by
  obtain ⟨b, hb, hiff⟩ := solver_mustBeTrue_ok h (createIsZero_isConstraint he)
  have hmust : mustBeTrue impl (Query.negateExpr ⟨constraints, e⟩) = some b := hb
  refine ⟨!b, by rw [mayBeTrue, mustBeFalse, hmust]; rfl, ?_⟩
  simp only [holds_createIsZero he] at hiff
  rw [Bool.not_eq_true', ← Bool.not_eq_true, hiff]
  simp only [not_forall, not_not, exists_prop]

def values (constraints : List Expr) (e : Expr) : Set ℕ := (fun σ => (e.eval σ).toNat) '' Solutions constraints

theorem eval_lshr (he : e.WellTyped ∧ e.getWidth = w) {n : ℕ} (hn : n < 2 ^ w) {σ : Bytes} :
    ((LShrExpr.create e (ConstantExpr.alloc n w)).eval σ).toNat = (e.eval σ).toNat / 2 ^ n := by
  obtain ⟨x, hx⟩ := Expr.exists_bits σ he.1 he.2
  have heval : (LShrExpr.create e (ConstantExpr.alloc n w)).eval σ = (e.eval σ).lshr (APInt.ofNat w n) :=
    (BinaryKind.create_simplifies (P := fun _ => True) .lshr (alloc_typed he (n := n))).eval σ trivial
  rw [heval, hx, APInt.lshr, APInt.toNat_ofNat, Nat.mod_eq_of_lt hn]
  simp only [APInt.toNat, BitVec.toNat_ushiftRight, Nat.shiftRight_eq_div_pow]

section Questions

variable (h : impl.ExactOn constraints) (he : e.WellTyped ∧ e.getWidth = w) (hw : 0 < w)

include h he hw

theorem askBits_ok {mid : ℕ} (hmid : mid < w) :
    ∃ b, askBits impl ⟨constraints, e⟩ e mid = some b ∧ (b = true ↔ ∀ v ∈ values constraints e, v < 2 ^ mid) := by
  have hlt : mid < 2 ^ w := hmid.trans (Nat.lt_two_pow_self)
  have hshift : (LShrExpr.create e (ConstantExpr.alloc mid w)).WellTyped ∧
      (LShrExpr.create e (ConstantExpr.alloc mid w)).getWidth = w := by
    have hs := BinaryKind.create_simplifies (P := fun _ => True) .lshr (alloc_typed he (n := mid))
    exact ⟨hs.typed, hs.width.trans he.2⟩
  obtain ⟨b, hb, hiff⟩ := solver_mustBeTrue_ok h (create_isConstraint (k := .eq) (alloc_typed hshift (n := 0)) rfl)
  refine ⟨b, ?_, ?_⟩
  · rw [askBits, he.2, ConstantExpr.create_eq hw hlt, ConstantExpr.create_eq hw (Nat.two_pow_pos w)]
    exact hb
  · rw [hiff, values, Set.forall_mem_image]
    refine forall₂_congr fun σ _ => (holds_eq_zero hshift).trans ?_
    rw [eval_lshr he hlt]
    exact Nat.div_eq_zero_iff_lt (Nat.two_pow_pos mid)

theorem askZero_ok :
    ∃ b, askZero impl ⟨constraints, e⟩ e = some b ∧ (b = true ↔ 0 ∈ values constraints e) := by
  obtain ⟨b, hb, hiff⟩ := mayBeTrue_ok h (create_isConstraint (k := .eq) (alloc_typed he (n := 0)) rfl)
  refine ⟨b, ?_, ?_⟩
  · rw [askZero, he.2, ConstantExpr.create_eq hw (Nat.two_pow_pos w)]
    exact hb
  · rw [hiff, values, Set.mem_image]
    exact exists_congr fun σ => and_congr_right fun _ => holds_eq_zero he

theorem askMin_ok {mid : ℕ} (hmid : mid < 2 ^ w) :
    ∃ b, askMin impl ⟨constraints, e⟩ e mid = some b ∧ (b = true ↔ ∃ v ∈ values constraints e, v ≤ mid) := by
  obtain ⟨b, hb, hiff⟩ := mayBeTrue_ok h (create_isConstraint (k := .ule) (alloc_typed he (n := mid)) rfl)
  refine ⟨b, ?_, ?_⟩
  · rw [askMin, he.2, ConstantExpr.create_eq hw hmid]
    exact hb
  · rw [hiff, values, Set.exists_mem_image]
    exact exists_congr fun σ => and_congr_right fun _ => holds_ule_alloc he hmid

theorem askMax_ok {mid : ℕ} (hmid : mid < 2 ^ w) :
    ∃ b, askMax impl ⟨constraints, e⟩ e mid = some b ∧ (b = true ↔ ∀ v ∈ values constraints e, v ≤ mid) := by
  obtain ⟨b, hb, hiff⟩ := solver_mustBeTrue_ok h (create_isConstraint (k := .ule) (alloc_typed he (n := mid)) rfl)
  refine ⟨b, ?_, ?_⟩
  · rw [askMax, he.2, ConstantExpr.create_eq hw hmid]
    exact hb
  · rw [hiff, values, Set.forall_mem_image]
    exact forall₂_congr fun σ _ => holds_ule_alloc he hmid

end Questions

section Searches

variable (h : impl.ExactOn constraints) (he : e.WellTyped ∧ e.getWidth = w) (hw : 0 < w) (hmax : w ≤ 64)

include h he hw hmax

omit h he hw in
theorem width_fuel : w < 2 ^ 64 := by
  have : 64 < 2 ^ 64 := by norm_num
  omega

omit he hw hmax in
theorem values_nonempty : (values constraints e).Nonempty := h.satisfiable.image _

omit h hw hmax in
theorem lt_of_mem_values {v : ℕ} (hv : v ∈ values constraints e) : v < 2 ^ w := by
  obtain ⟨σ, -, rfl⟩ := hv
  exact he.2 ▸ Expr.toNat_eval_lt σ he.1

theorem searchBits_ok : ∃ bits, search (askBits impl ⟨constraints, e⟩ e) 0 w = some bits ∧ bits ≤ w ∧
    ∀ v ∈ values constraints e, v < 2 ^ bits := by
  have hfuel : w < 2 ^ 64 := width_fuel hmax
  obtain ⟨bits, hrun, -, hle, hall, -⟩ := BinarySearch.search_eq (w := 64)
    (P := fun n => ∀ v ∈ values constraints e, v < 2 ^ n)
    (fun m n hmn hm v hv => (hm v hv).trans_le (Nat.pow_le_pow_right (by decide) hmn)) 64 0 w (Nat.zero_le w) hfuel
    (by omega) (fun v hv => lt_of_mem_values he hv) fun m _ hm => askBits_ok h he hw hm
  exact ⟨bits, hrun, hle, hall⟩

variable {bits : ℕ} (hbits : bits ≤ w) (hall : ∀ v ∈ values constraints e, v < 2 ^ bits)

include hbits hall

theorem searchMin_ok : ∃ min, search (askMin impl ⟨constraints, e⟩ e) 0 (2 ^ bits - 1) = some min ∧
    IsLeast (values constraints e) min := by
  have hpow : 2 ^ bits ≤ 2 ^ w := Nat.pow_le_pow_right (by decide) hbits
  have hpow' : 2 ^ w ≤ 2 ^ 64 := Nat.pow_le_pow_right (by decide) hmax
  have hpos := Nat.two_pow_pos bits
  obtain ⟨v0, hv0⟩ := values_nonempty h (e := e)
  have hv0lt := hall v0 hv0
  obtain ⟨min, hrun, -, -, ⟨v, hv, hle⟩, hleast⟩ := BinarySearch.search_eq (w := 64)
    (P := fun n => ∃ v ∈ values constraints e, v ≤ n) (fun m n hmn ⟨v, hv, hle⟩ => ⟨v, hv, hle.trans hmn⟩) 64
    0 (2 ^ bits - 1) (Nat.zero_le _) (by omega) (by omega) ⟨v0, hv0, by omega⟩ fun m _ hm => askMin_ok h he hw (by omega)
  have hlower : min ∈ lowerBounds (values constraints e) := fun u hu => by
    by_contra hlt
    exact hleast u (Nat.zero_le _) (not_le.mp hlt) ⟨u, hu, le_rfl⟩
  exact ⟨min, hrun, le_antisymm (hlower hv) hle ▸ hv, hlower⟩

theorem searchMax_ok {min : ℕ} (hmin : IsLeast (values constraints e) min) :
    ∃ max, search (askMax impl ⟨constraints, e⟩ e) min (2 ^ bits - 1) = some max ∧
      IsGreatest (values constraints e) max := by
  have hpow : 2 ^ bits ≤ 2 ^ w := Nat.pow_le_pow_right (by decide) hbits
  have hpow' : 2 ^ w ≤ 2 ^ 64 := Nat.pow_le_pow_right (by decide) hmax
  have hlt := hall min hmin.1
  obtain ⟨max, hrun, hle, -, hupper, hleast⟩ := BinarySearch.search_eq (w := 64)
    (P := fun n => ∀ v ∈ values constraints e, v ≤ n) (fun m n hmn hm v hv => (hm v hv).trans hmn) 64
    min (2 ^ bits - 1) (by omega) (by omega) (by omega) (fun v hv => by have := hall v hv; omega)
    fun m _ hm => askMax_ok h he hw (by omega)
  refine ⟨max, hrun, ?_, hupper⟩
  -- otherwise the number before it would be a bound too, or the minimum is above it
  by_contra hnot
  rcases Nat.lt_or_ge min max with hgt | hge
  · refine hleast (max - 1) (by omega) (by omega) fun v hv => ?_
    have hv' := hupper v hv
    have hne : v ≠ max := fun heq => hnot (heq ▸ hv)
    omega
  · exact hnot (le_antisymm hle hge ▸ hmin.1)

end Searches

theorem maxValueOfNBits_ok {n : ℕ} (hn : n ≤ 64) : bits64.maxValueOfNBits n = some (2 ^ n - 1) := by
  obtain ⟨m, hm⟩ : ∃ m, bits64.maxValueOfNBits n = some m := by
    unfold bits64.maxValueOfNBits
    rw [if_pos hn]
    split_ifs <;> exact ⟨_, rfl⟩
  rw [hm, (bits64.maxValueOfNBits_eq hm).1]

theorem getMin_ok (h : impl.ExactOn constraints) (he : e.WellTyped ∧ e.getWidth = w) (hw : 0 < w) (hmax : w ≤ 64)
    {bits : ℕ} (hbits : bits ≤ w) (hall : ∀ v ∈ values constraints e, v < 2 ^ bits) :
    ∃ min, getMin impl ⟨constraints, e⟩ e bits = some min ∧ IsLeast (values constraints e) min := by
  obtain ⟨zero, hzero, hzero_iff⟩ := askZero_ok h he hw
  simp only [getMin, hzero, maxValueOfNBits_ok (hbits.trans hmax), some_bind]
  cases zero with
  | true => exact ⟨0, rfl, hzero_iff.mp rfl, fun _ _ => Nat.zero_le _⟩
  | false => exact searchMin_ok h he hw hmax hbits hall

theorem mem_values_bool (he : IsConstraint e) {v : ℕ} : v ∈ values constraints e ↔
    v = 1 ∧ (∃ σ ∈ Solutions constraints, e.holds σ) ∨ v = 0 ∧ ∃ σ ∈ Solutions constraints, ¬ e.holds σ := by
  have hvalue : ∀ σ, e.holds σ ∧ (e.eval σ).toNat = 1 ∨ ¬ e.holds σ ∧ (e.eval σ).toNat = 0 := by
    intro σ
    obtain ⟨b, hb⟩ := Expr.exists_bool σ he.1 he.2
    rw [Expr.holds, hb, APInt.ofBool_inj]
    cases b <;> decide
  constructor
  · rintro ⟨σ, hσ, rfl⟩
    rcases hvalue σ with ⟨hholds, hone⟩ | ⟨hnot, hzero⟩
    · exact .inl ⟨hone, σ, hσ, hholds⟩
    · exact .inr ⟨hzero, σ, hσ, hnot⟩
  · rintro (⟨rfl, σ, hσ, hholds⟩ | ⟨rfl, σ, hσ, hnot⟩)
    · exact ⟨σ, hσ, ((hvalue σ).resolve_right fun h => h.1 hholds).2⟩
    · exact ⟨σ, hσ, ((hvalue σ).resolve_left fun h => hnot h.1).2⟩

theorem bounds_bool (h : (Solutions constraints).Nonempty) (he : IsConstraint e) {v : Validity}
    (hv : Evaluates constraints e v) : ∃ min max, (match v with
        | .true => some (1, 1)
        | .false => some (0, 0)
        | .unknown => some (0, 1)) = some (min, max) ∧
      IsLeast (values constraints e) min ∧ IsGreatest (values constraints e) max := by
  obtain ⟨σ0, hσ0⟩ := h
  simp only [IsLeast, IsGreatest, lowerBounds, upperBounds, Set.mem_ofPred_eq, mem_values_bool he]
  cases v with
  | true =>
    refine ⟨1, 1, rfl, ⟨.inl ⟨rfl, σ0, hσ0, hv σ0 hσ0⟩, ?_⟩, .inl ⟨rfl, σ0, hσ0, hv σ0 hσ0⟩, ?_⟩
    all_goals
      rintro u (⟨rfl, -⟩ | ⟨-, σ, hσ, hnot⟩)
      · exact le_rfl
      · exact absurd (hv σ hσ) hnot
  | false =>
    refine ⟨0, 0, rfl, ⟨.inr ⟨rfl, σ0, hσ0, hv σ0 hσ0⟩, ?_⟩, .inr ⟨rfl, σ0, hσ0, hv σ0 hσ0⟩, ?_⟩
    all_goals
      rintro u (⟨-, σ, hσ, hholds⟩ | ⟨rfl, -⟩)
      · exact absurd hholds (hv σ hσ)
      · exact le_rfl
  | unknown => exact ⟨0, 1, rfl, ⟨.inr ⟨rfl, hv.2⟩, fun _ _ => Nat.zero_le _⟩, .inl ⟨rfl, hv.1⟩, by omega⟩

theorem getBounds_ok (h : impl.ExactOn constraints) (he : e.WellTyped) (hw : 0 < e.getWidth) (hmax : e.getWidth ≤ 64) :
    ∃ min max, getBounds impl ⟨constraints, e⟩ e = some (min, max) ∧
      IsLeast (values constraints e) min ∧ IsGreatest (values constraints e) max := by
  unfold getBounds
  split_ifs with hbool
  · obtain ⟨v, hrun, hv⟩ := solver_evaluate_ok h ⟨he, hbool⟩
    rw [hrun]
    exact bounds_bool h.satisfiable ⟨he, hbool⟩ hv
  · split
    · rename_i c
      have hvalues : values constraints (constant c) = {c.toNat} := h.satisfiable.image_const c.toNat
      rw [if_pos (show c.width ≤ 64 from hmax), hvalues]
      exact ⟨_, _, rfl, isLeast_singleton, isGreatest_singleton⟩
    · obtain ⟨bits, hbits, hle, hall⟩ := searchBits_ok h ⟨he, rfl⟩ hw hmax
      obtain ⟨min, hmin, hleast⟩ := getMin_ok h ⟨he, rfl⟩ hw hmax hle hall
      obtain ⟨max, hrun, hgreatest⟩ := searchMax_ok h ⟨he, rfl⟩ hw hmax hle hall hleast
      refine ⟨min, max, ?_, hleast, hgreatest⟩
      simp only [hbits, hmin, maxValueOfNBits_ok (hle.trans hmax), some_bind, hrun]

/-- The bounds that `getRange` returns are the least and the greatest value of the
expression in the state, and fit its width. -/
theorem getRange_exact (h : impl.ExactOn constraints) (he : e.WellTyped) (hw : 0 < e.getWidth)
    (hmax : e.getWidth ≤ 64) :
    ∃ min max, getRange impl ⟨constraints, e⟩ =
        some (constant (APInt.ofNat e.getWidth min), constant (APInt.ofNat e.getWidth max)) ∧
      min < 2 ^ e.getWidth ∧ max < 2 ^ e.getWidth ∧
      IsLeast ((fun σ => (e.eval σ).toNat) '' Solutions constraints) min ∧
      IsGreatest ((fun σ => (e.eval σ).toNat) '' Solutions constraints) max := by
  obtain ⟨min, max, hrun, hleast, hgreatest⟩ := getBounds_ok h he hw hmax
  have hmin := lt_of_mem_values ⟨he, rfl⟩ hleast.1
  have hmax' := lt_of_mem_values ⟨he, rfl⟩ hgreatest.1
  refine ⟨min, max, ?_, hmin, hmax', hleast, hgreatest⟩
  simp only [getRange, hrun, ConstantExpr.create_eq hw hmin, ConstantExpr.create_eq hw hmax', some_bind]
  rfl

/-- A symbolic byte without constraints has all values. -/
theorem getRange_exact_byte :
    let e : Expr := .read (.symbolic 0 "x" 1 (by decide)) .null (constant (APInt.ofNat 32 0))
    SolverImpl.oracle.ExactOn [] ∧ e.WellTyped ∧
      getRange SolverImpl.oracle ⟨[], e⟩ = some (constant (APInt.ofNat 8 0), constant (APInt.ofNat 8 255)) := by
  intro e
  have horacle : SolverImpl.oracle.ExactOn [] :=
    SolverImpl.oracle_exactOn ⟨fun _ _ => 0, fun _ _ _ => rfl, mem_models_nil _⟩
  obtain ⟨min, max, hrun, -, hmax, hleast, hgreatest⟩ := getRange_exact (e := e) horacle (by decide) (by decide) (by decide)
  have hmem : ∀ v : BitVec 8, v.toNat ∈ (fun σ => (e.eval σ).toNat) '' Solutions [] := fun v =>
    ⟨fun array i => if i < array.size then v else 0, ⟨fun array i hi => if_neg (Nat.not_lt.mpr hi), mem_models_nil _⟩, rfl⟩
  obtain rfl : min = 0 := Nat.le_zero.mp (hleast.2 (hmem 0))
  obtain rfl : max = 255 := le_antisymm (Nat.lt_succ_iff.mp hmax) (hgreatest.2 (hmem 255))
  exact ⟨horacle, by decide, hrun⟩

end Solver

end Klee
