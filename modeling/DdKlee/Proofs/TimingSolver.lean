import DdKlee.Proofs.Query
import DdKlee.Spec.TimingSolver

/-! What a solver that is right and does not fail answers about a state. -/

namespace Klee

open Expr

def Solutions (constraints : List Expr) : Set Bytes := Assignments ∩ Models constraints

/-- The solver answers every query over the constraints, and rightly. An answer to
`computeValue` needs a solution. -/
structure SolverImpl.ExactOn (s : SolverImpl) (constraints : List Expr) : Prop where
  validity : ∀ e, IsConstraint e → ∃ v, s.computeValidity ⟨constraints, e⟩ = some v ∧
    Query.HasValidity ⟨constraints, e⟩ v
  truth : ∀ e, IsConstraint e → ∃ b, s.computeTruth ⟨constraints, e⟩ = some b ∧
    (b = true ↔ Query.Valid ⟨constraints, e⟩)
  value : ∀ e, e.WellTyped → ∃ c, s.computeValue ⟨constraints, e⟩ = some c ∧
    ∃ σ ∈ Solutions constraints, e.eval σ = c

theorem SolverImpl.oracle_exactOn {constraints : List Expr} (h : (Solutions constraints).Nonempty) :
    SolverImpl.oracle.ExactOn constraints where
  validity e _ := ⟨_, rfl, (SolverImpl.oracle_correctOn _).validity _ rfl⟩
  truth e _ := ⟨_, rfl, (SolverImpl.oracle_correctOn _).truth _ rfl⟩
  value e _ := by
    obtain ⟨σ, hσ, hmodels⟩ := h
    have hsat : ∃ σ ∈ Assignments, σ ∈ Models constraints := ⟨σ, hσ, hmodels⟩
    obtain ⟨h1, h2⟩ := hsat.choose_spec
    exact ⟨_, dif_pos hsat, _, ⟨h1, h2⟩, rfl⟩

theorem SolverImpl.ExactOn.satisfiable {s : SolverImpl} {constraints : List Expr} (h : s.ExactOn constraints) :
    (Solutions constraints).Nonempty := by
  obtain ⟨-, -, σ, hσ, -⟩ := h.value (constant (APInt.ofNat 1 0)) trivial
  exact ⟨σ, hσ⟩

namespace TimingSolver

variable {ts : TimingSolver} {constraints : List Expr} {e : Expr}

structure Exact (ts : TimingSolver) (constraints : List Expr) : Prop where
  solver : ts.solver.ExactOn constraints
  constraints : ∀ c ∈ constraints, IsConstraint c

theorem simplify_ok (h : ∀ c ∈ constraints, IsConstraint c) (he : e.WellTyped) :
    ∃ r, ts.simplify constraints e = some r ∧ Simplifies (· ∈ Models constraints) e r := by
  unfold simplify
  split_ifs
  · obtain ⟨r, hrun, hs⟩ := ConstraintManager.simplifyExpr_ok ts.opts h he (Nat.lt_succ_self _)
    exact ⟨r, by rw [hrun]; rfl, hs⟩
  · exact ⟨e, rfl, .refl he⟩

theorem valid_iff_forall : Query.Valid ⟨constraints, e⟩ ↔ ∀ σ ∈ Solutions constraints, e.holds σ := by
  simp only [Query.Valid, Solutions, Set.mem_inter_iff, and_imp]

theorem refuted_iff_forall : Query.Refuted ⟨constraints, e⟩ ↔ ∀ σ ∈ Solutions constraints, ¬ e.holds σ := by
  simp only [Query.Refuted, Solutions, Set.mem_inter_iff, and_imp]

theorem isTrue_iff_forall (h : (Solutions constraints).Nonempty) (c : APInt) :
    ConstantExpr.isTrue c = true ↔ ∀ σ ∈ Solutions constraints, (constant c).holds σ := by
  obtain ⟨σ, hσ⟩ := h
  exact ⟨fun hc _ _ => holds_constant.mpr hc, fun hall => holds_constant.mp (hall σ hσ)⟩

theorem solver_mustBeTrue_ok {s : SolverImpl} (h : s.ExactOn constraints) (he : IsConstraint e) :
    ∃ b, Solver.mustBeTrue s ⟨constraints, e⟩ = some b ∧
      (b = true ↔ ∀ σ ∈ Solutions constraints, e.holds σ) := by
  unfold Solver.mustBeTrue
  rw [if_pos he.2]
  dsimp only
  split
  · exact ⟨_, rfl, isTrue_iff_forall h.satisfiable _⟩
  · obtain ⟨b, hb, hiff⟩ := h.truth e he
    exact ⟨b, hb, hiff.trans valid_iff_forall⟩

theorem mustBeTrue_ok (h : ts.Exact constraints) (he : IsConstraint e) :
    ∃ b, ts.mustBeTrue constraints e = some b ∧ (b = true ↔ ∀ σ ∈ Solutions constraints, e.holds σ) := by
  unfold mustBeTrue
  split
  · exact ⟨_, rfl, isTrue_iff_forall h.solver.satisfiable _⟩
  · obtain ⟨r, hrun, hs⟩ := simplify_ok h.constraints he.1
    obtain ⟨b, hb, hiff⟩ := solver_mustBeTrue_ok h.solver (hs.isConstraint he)
    refine ⟨b, by rw [hrun]; exact hb, hiff.trans (forall₂_congr fun σ hσ => hs.holds_iff hσ.2)⟩

theorem mayBeTrue_ok (h : ts.Exact constraints) (he : IsConstraint e) :
    ∃ b, ts.mayBeTrue constraints e = some b ∧ (b = true ↔ ∃ σ ∈ Solutions constraints, e.holds σ) := by
  obtain ⟨b, hb, hiff⟩ := mustBeTrue_ok h (createIsZero_isConstraint he)
  refine ⟨!b, by rw [mayBeTrue, mustBeFalse, hb]; rfl, ?_⟩
  simp only [holds_createIsZero he] at hiff
  rw [Bool.not_eq_true', ← Bool.not_eq_true, hiff]
  simp only [not_forall, not_not, exists_prop]

theorem getValue_ok (h : ts.Exact constraints) (he : e.WellTyped) :
    ∃ c, ts.getValue constraints e = some c ∧ ∃ σ ∈ Solutions constraints, e.eval σ = c := by
  obtain ⟨σ0, hσ0⟩ := h.solver.satisfiable
  unfold getValue
  split
  · exact ⟨_, rfl, σ0, hσ0, rfl⟩
  · obtain ⟨r, hrun, hs⟩ := simplify_ok h.constraints he
    rw [hrun]
    simp only [some_bind, Solver.getValue]
    split
    · exact ⟨_, rfl, σ0, hσ0, (hs.eval σ0 hσ0.2).symm⟩
    · obtain ⟨c, hc, σ, hσ, heval⟩ := h.solver.value r hs.typed
      exact ⟨c, hc, σ, hσ, by rw [← hs.eval σ hσ.2, heval]⟩

def Evaluates (constraints : List Expr) (e : Expr) : Validity → Prop
  | .true => ∀ σ ∈ Solutions constraints, e.holds σ
  | .false => ∀ σ ∈ Solutions constraints, ¬ e.holds σ
  | .unknown => (∃ σ ∈ Solutions constraints, e.holds σ) ∧ ∃ σ ∈ Solutions constraints, ¬ e.holds σ

theorem evaluates_constant (c : APInt) :
    Evaluates constraints (constant c) (if ConstantExpr.isTrue c then .true else .false) := by
  split_ifs with hc
  · exact fun σ _ => holds_constant.mpr hc
  · exact fun σ _ hholds => hc (holds_constant.mp hholds)

theorem evaluates_of_hasValidity {v : Validity} (h : Query.HasValidity ⟨constraints, e⟩ v) :
    Evaluates constraints e v := by
  cases v with
  | true => exact valid_iff_forall.mp h
  | false => exact refuted_iff_forall.mp h.2
  | unknown =>
    obtain ⟨hv, hr⟩ := h
    rw [valid_iff_forall] at hv
    rw [refuted_iff_forall] at hr
    simp only [not_forall, not_not, exists_prop] at hv hr
    exact ⟨hr, hv⟩

theorem Evaluates.congr {r : Expr} {v : Validity} (h : Evaluates constraints r v)
    (hiff : ∀ σ ∈ Solutions constraints, (r.holds σ ↔ e.holds σ)) : Evaluates constraints e v := by
  cases v with
  | true => exact fun σ hσ => (hiff σ hσ).mp (h σ hσ)
  | false => exact fun σ hσ he => h σ hσ ((hiff σ hσ).mpr he)
  | unknown =>
    obtain ⟨⟨σ, hσ, hr⟩, τ, hτ, hr'⟩ := h
    exact ⟨⟨σ, hσ, (hiff σ hσ).mp hr⟩, τ, hτ, fun he => hr' ((hiff τ hτ).mpr he)⟩

theorem solver_evaluate_ok {s : SolverImpl} (h : s.ExactOn constraints) (he : IsConstraint e) :
    ∃ v, Solver.evaluate s ⟨constraints, e⟩ = some v ∧ Evaluates constraints e v := by
  unfold Solver.evaluate
  rw [if_pos he.2]
  dsimp only
  split
  · exact ⟨_, rfl, evaluates_constant _⟩
  · obtain ⟨v, hv, hval⟩ := h.validity e he
    exact ⟨v, hv, evaluates_of_hasValidity hval⟩

theorem evaluate_ok (h : ts.Exact constraints) (he : IsConstraint e) :
    ∃ v, ts.evaluate constraints e = some v ∧ Evaluates constraints e v := by
  unfold evaluate
  split
  · exact ⟨_, rfl, evaluates_constant _⟩
  · obtain ⟨r, hrun, hs⟩ := simplify_ok h.constraints he.1
    obtain ⟨v, hv, hval⟩ := solver_evaluate_ok h.solver (hs.isConstraint he)
    exact ⟨v, by rw [hrun]; exact hv, hval.congr fun σ hσ => hs.holds_iff hσ.2⟩

end TimingSolver

end Klee
