import DdKlee.Spec.Constraints
import DdKlee.Spec.Solver

/-! What the answers of a solver mean. -/

namespace Klee

/-- The assignments of bytes to the elements of arrays. What lies beyond the size
of an array has no byte and reads as zero, as in `Assignment::evaluate`. -/
def Assignments : Set Bytes := {σ | ∀ array i, array.size ≤ i → σ array i = 0}

/-- The bytes an assignment gives to an array. -/
def Array.bytes (array : Array) (σ : Bytes) : List (BitVec 8) := (List.range array.size).map (σ array)

namespace Query

/-- The expression is true under every assignment that satisfies the
constraints. -/
def Valid (q : Query) : Prop := ∀ σ ∈ Assignments, σ ∈ Models q.constraints → q.expr.holds σ

/-- The expression is false under all of them. -/
def Refuted (q : Query) : Prop := ∀ σ ∈ Assignments, σ ∈ Models q.constraints → ¬ q.expr.holds σ

/-- The meaning of `Solver::Validity`. -/
def HasValidity (q : Query) : Validity → Prop
  | .true => q.Valid
  | .false => ¬ q.Valid ∧ q.Refuted
  | .unknown => ¬ q.Valid ∧ ¬ q.Refuted

/-- An assignment that satisfies the constraints and falsifies the expression. -/
def Counterexample (q : Query) (σ : Bytes) : Prop :=
  σ ∈ Assignments ∧ σ ∈ Models q.constraints ∧ ¬ q.expr.holds σ

end Query

/-- The answers of a solver to a query are right, where it answers. -/
structure SolverImpl.CorrectOn (s : SolverImpl) (q : Query) : Prop where
  validity : ∀ v, s.computeValidity q = some v → q.HasValidity v
  truth : ∀ b, s.computeTruth q = some b → (b = true ↔ q.Valid)
  value : ∀ c, s.computeValue q = some c →
    ∃ σ ∈ Assignments, σ ∈ Models q.constraints ∧ q.expr.eval σ = c
  noSolution : ∀ objects, s.computeInitialValues q objects = some none → ¬ ∃ σ, q.Counterexample σ
  solution : ∀ objects values, s.computeInitialValues q objects = some (some values) →
    ∃ σ, q.Counterexample σ ∧ values = objects.map (·.bytes σ)

open Classical in
/-- The solver that knows every answer. -/
noncomputable def SolverImpl.oracle : SolverImpl where
  computeValidity q := some (if q.Valid then .true else if q.Refuted then .false else .unknown)
  computeTruth q := some (decide q.Valid)
  computeValue q :=
    if h : ∃ σ ∈ Assignments, σ ∈ Models q.constraints then some (q.expr.eval h.choose) else none
  computeInitialValues q objects :=
    some (if h : ∃ σ, q.Counterexample σ then some (objects.map (·.bytes h.choose)) else none)

theorem SolverImpl.oracle_correctOn (q : Query) : SolverImpl.oracle.CorrectOn q where
  validity v h := by
    obtain rfl := Option.some.inj h
    split_ifs with hv hr
    · exact hv
    · exact ⟨hv, hr⟩
    · exact ⟨hv, hr⟩
  truth b h := by
    obtain rfl := Option.some.inj h
    simp only [decide_eq_true_eq]
  value c h := by
    simp only [oracle] at h
    split_ifs at h with hsat
    obtain rfl := Option.some.inj h
    exact ⟨_, hsat.choose_spec.1, hsat.choose_spec.2, rfl⟩
  noSolution objects h := by
    have h := Option.some.inj h
    split_ifs at h with hsat
    exact hsat
  solution objects values h := by
    have h := Option.some.inj h
    split_ifs at h with hsat
    exact ⟨_, hsat.choose_spec, (Option.some.inj h).symm⟩

inductive Call
  | truth (query : Query)
  | validity (query : Query)
  | value (query : Query)
  | initialValues (query : Query) (objects : List Array)

inductive Answer
  | truth (isValid : Bool)
  | validity (result : Validity)
  | value (result : APInt)
  | initialValues (values : Option (List (List (BitVec 8))))

/-- An answer that a correct solver may give. -/
def Call.Sound : Call → Answer → Prop
  | .truth q, .truth isValid => isValid = true ↔ q.Valid
  | .validity q, .validity result => q.HasValidity result
  | .value q, .value result => ∃ σ ∈ Assignments, σ ∈ Models q.constraints ∧ q.expr.eval σ = result
  | .initialValues q _, .initialValues none => ¬ ∃ σ, q.Counterexample σ
  | .initialValues q objects, .initialValues (some values) =>
      ∃ σ, q.Counterexample σ ∧ values = objects.map (·.bytes σ)
  | _, _ => False

end Klee
