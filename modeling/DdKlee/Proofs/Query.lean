import DdKlee.Proofs.Constraints
import DdKlee.Spec.Validity

/-! The negation of a query, and the solvers whose answers are right. -/

namespace Klee

open Expr

variable {e : Expr} {q : Query} {σ : Bytes}

theorem holds_createIsZero (h : IsConstraint e) : e.createIsZero.holds σ ↔ ¬ e.holds σ := by
  obtain ⟨b, hb⟩ := Expr.exists_bool σ h.1 h.2
  have hzero := (createIsZero_simplifies (P := fun _ => True) h.1 h.2).eval σ trivial
  simp only [Expr.holds, hzero, Expr.eval, hb]
  cases b <;> decide

theorem createIsZero_isConstraint (h : IsConstraint e) : IsConstraint e.createIsZero := by
  have hneg := createIsZero_simplifies (P := fun _ => True) h.1 h.2
  exact ⟨hneg.typed, hneg.width⟩

theorem isFalse_of_constant (h : IsConstraint e) (hc : e.isConstant = true)
    (hne : e ≠ constant (APInt.ofBool true)) : e = constant (APInt.ofBool false) := by
  obtain ⟨c, rfl⟩ := exists_constant hc
  have hb := APInt.eq_ofBool (show c.width = 1 from h.2)
  cases hbit : c.getBoolValue with
  | false => rw [hb, hbit]
  | true => exact absurd (by rw [hb, hbit]) hne

theorem not_holds_false : ¬ (ConstantExpr.alloc 0 1).holds σ := fun h => by cases h

theorem holds_binary {k : BinaryKind} {l r : Expr} (h : (binary k l r).WellTyped) :
    (k.create l r).holds σ ↔ k.apply (l.eval σ) (r.eval σ) = APInt.ofBool true := by
  rw [Expr.holds, (BinaryKind.create_simplifies (P := fun _ => True) k h).eval σ trivial, Expr.eval]

theorem create_isConstraint {k : BinaryKind} {l r : Expr} (h : (binary k l r).WellTyped) (hk : k.isCmp = true) :
    IsConstraint (k.create l r) := by
  have hs := BinaryKind.create_simplifies (P := fun _ => True) k h
  exact ⟨hs.typed, hs.width.trans (by simp [Expr.getWidth, hk])⟩

theorem alloc_typed {k : BinaryKind} {w : ℕ} (he : e.WellTyped ∧ e.getWidth = w) {n : ℕ} :
    (binary k e (ConstantExpr.alloc n w)).WellTyped := ⟨he.1, trivial, he.2⟩

theorem holds_ult_alloc {w : ℕ} (he : e.WellTyped ∧ e.getWidth = w) {n : ℕ} (hn : n < 2 ^ w) :
    (UltExpr.create e (ConstantExpr.alloc n w)).holds σ ↔ (e.eval σ).toNat < n := by
  obtain ⟨x, hx⟩ := Expr.exists_bits σ he.1 he.2
  refine (holds_binary (k := .ult) (alloc_typed he)).trans ?_
  rw [BinaryKind.apply, APInt.ofBool_inj, hx, ConstantExpr.alloc, Expr.eval, APInt.ofNat, APInt.ult_mk]
  simp only [BitVec.ult, decide_eq_true_eq, BitVec.toNat_ofNat, Nat.mod_eq_of_lt hn, APInt.toNat]

theorem holds_uge_alloc {w : ℕ} (he : e.WellTyped ∧ e.getWidth = w) {n : ℕ} (hn : n < 2 ^ w) :
    (UgeExpr.create e (ConstantExpr.alloc n w)).holds σ ↔ n ≤ (e.eval σ).toNat := by
  obtain ⟨x, hx⟩ := Expr.exists_bits σ he.1 he.2
  refine (holds_binary (k := .uge) (alloc_typed he)).trans ?_
  rw [BinaryKind.apply, APInt.ofBool_inj, hx, ConstantExpr.alloc, Expr.eval, APInt.ofNat, APInt.ule_mk]
  simp only [BitVec.ule, decide_eq_true_eq, BitVec.toNat_ofNat, Nat.mod_eq_of_lt hn, APInt.toNat]

theorem holds_ule_alloc {w : ℕ} (he : e.WellTyped ∧ e.getWidth = w) {n : ℕ} (hn : n < 2 ^ w) :
    (UleExpr.create e (ConstantExpr.alloc n w)).holds σ ↔ (e.eval σ).toNat ≤ n := by
  obtain ⟨x, hx⟩ := Expr.exists_bits σ he.1 he.2
  refine (holds_binary (k := .ule) (alloc_typed he)).trans ?_
  rw [BinaryKind.apply, APInt.ofBool_inj, hx, ConstantExpr.alloc, Expr.eval, APInt.ofNat, APInt.ule_mk]
  simp only [BitVec.ule, decide_eq_true_eq, BitVec.toNat_ofNat, Nat.mod_eq_of_lt hn, APInt.toNat]

theorem holds_eq_zero {w : ℕ} (he : e.WellTyped ∧ e.getWidth = w) :
    (EqExpr.create e (ConstantExpr.alloc 0 w)).holds σ ↔ (e.eval σ).toNat = 0 := by
  obtain ⟨x, hx⟩ := Expr.exists_bits σ he.1 he.2
  refine (holds_binary (k := .eq) (alloc_typed he)).trans ?_
  rw [BinaryKind.apply, APInt.ofBool_inj, hx, ConstantExpr.alloc, Expr.eval, APInt.ofNat, APInt.eq_mk, beq_iff_eq,
    ← BitVec.toNat_inj]
  simp [APInt.toNat]

def Query.IsBool (q : Query) : Prop := ∀ e ∈ q.expr :: q.constraints, IsConstraint e

/-- The solver may fail, but does not answer a query wrongly. -/
def SolverImpl.Correct (s : SolverImpl) : Prop := ∀ q : Query, q.IsBool → s.CorrectOn q

theorem SolverImpl.oracle_correct : SolverImpl.oracle.Correct := fun q _ => SolverImpl.oracle_correctOn q

namespace Query

theorem IsBool.expr (h : q.IsBool) : IsConstraint q.expr := h _ List.mem_cons_self

theorem IsBool.withExpr (h : q.IsBool) (he : IsConstraint e) : (q.withExpr e).IsBool :=
  List.forall_mem_cons.mpr ⟨he, (List.forall_mem_cons.mp h).2⟩

theorem IsBool.negateExpr (h : q.IsBool) : q.negateExpr.IsBool := h.withExpr (createIsZero_isConstraint h.expr)

theorem counterexample_withFalse :
    q.withFalse.Counterexample σ ↔ σ ∈ Assignments ∧ σ ∈ Models q.constraints := by
  simp [Counterexample, withFalse, withExpr, not_holds_false]

theorem valid_iff : q.Valid ↔ ¬ ∃ σ, q.Counterexample σ := by
  simp [Valid, Counterexample]

theorem negateExpr_valid_iff (h : IsConstraint q.expr) : q.negateExpr.Valid ↔ q.Refuted := by
  simp only [Valid, Refuted, negateExpr, withExpr, holds_createIsZero h]

theorem negateExpr_refuted_iff (h : IsConstraint q.expr) : q.negateExpr.Refuted ↔ q.Valid := by
  simp only [Valid, Refuted, negateExpr, withExpr, holds_createIsZero h, not_not]

end Query

end Klee
