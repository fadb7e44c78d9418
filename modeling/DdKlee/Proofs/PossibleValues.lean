import DdKlee.Proofs.CexCaching
import DdKlee.Proofs.FastCex

/-! The counterexamples of `FastCexSolver` are genuine. However the possible
values were propagated, the last evaluation is under the bytes that are read out
afterwards, and it says that they satisfy the query. -/

namespace Klee

open Expr

namespace CexData

variable {cd : CexData} {useVisitorHash : Bool} {fuel : ℕ}

/-- The value tried for an element, 127 where nothing was propagated. -/
def possibleValue (cd : CexData) (array : Array) (i : ℕ) : ℕ :=
  match cd.objects array with
  | none => 127
  | some cod => cod.getPossibleValue i

/-- The bytes tried, with the contents of the constant arrays. -/
def possibleBytes (cd : CexData) : Bytes := fun array i =>
  if array.size ≤ i then 0
  else
    match array.constantValues[i]? with
    | some v => BitVec.ofNat 8 v.toNat
    | none => BitVec.ofNat 8 (cd.possibleValue array i)

theorem possibleBytes_mem : cd.possibleBytes ∈ Assignments := fun _ _ hi => if_pos hi

theorem possibleValue_lt (cd : CexData) (array : Array) (i : ℕ) : cd.possibleValue array i < 2 ^ 8 := by
  unfold possibleValue
  cases cd.objects array with
  | none => exact (by decide : 127 < 2 ^ 8)
  | some cod => exact Nat.mod_lt _ (by decide)

theorem possibleInitialValue_eq {array : Array} {i : ℕ} (hi : i < array.size) :
    cd.possibleInitialValue array i = ConstantExpr.alloc (cd.possibleValue array i) array.range := by
  unfold possibleInitialValue possibleValue
  rw [if_neg (by omega)]
  cases cd.objects array <;> rfl

theorem possibleInitialValue_ok (cd : CexData) :
    ExprEvaluator.InitialOk (· = cd.possibleBytes) (fun root => root.domain ≤ 32) cd.possibleInitialValue := by
  intro root i _ hi hnone
  by_cases hsize : root.size ≤ i
  · rw [possibleInitialValue, if_pos hsize]
    exact ReadExpr_create_simplifies ⟨root, .null⟩ ⟨trivial, trivial, rfl⟩
  · rw [possibleInitialValue_eq (by omega)]
    refine Simplifies.const rfl fun σ hσ => ?_
    subst hσ
    have htoNat : (APInt.ofNat root.domain i).toNat = i := by
      rw [APInt.toNat_ofNat, Nat.mod_eq_of_lt hi]
    have hlt := possibleValue_lt cd root i
    simp only [Expr.eval, UpdateNode.lookup, ConstantExpr.alloc, htoNat, Array.initial, hnone, possibleBytes,
      if_neg hsize]
    refine APInt.eq_of_toNat rfl ?_
    rw [APInt.toNat_ofNat, APInt.toNat, BitVec.toNat_setWidth, BitVec.toNat_ofNat, Nat.mod_eq_of_lt hlt]

theorem evaluatePossible_eval (cd : CexData) (useVisitorHash : Bool) {e : Expr} (ht : e.WellTyped)
    (hn : e.Narrow) (hfuel : e.weight < fuel) :
    ∃ r, cd.evaluatePossible useVisitorHash fuel e = some r ∧ r.eval cd.possibleBytes = e.eval cd.possibleBytes := by
  obtain ⟨r, visited, hrun, -, hr⟩ := ExprVisitor.visit_ok
    (ExprEvaluator.sound (possibleInitialValue_ok cd)) useVisitorHash fuel [] e .nil ht
    (Assignment.readsFit ht hn) hfuel
  exact ⟨r, by rw [evaluatePossible, hrun]; rfl, hr.eval _ rfl⟩

theorem eval_of_evaluatePossible {e r : Expr} (ht : e.WellTyped) (hn : e.Narrow) (hfuel : e.weight < fuel)
    (h : cd.evaluatePossible useVisitorHash fuel e = some r) : r.eval cd.possibleBytes = e.eval cd.possibleBytes := by
  obtain ⟨r', hr', heval⟩ := evaluatePossible_eval cd useVisitorHash ht hn hfuel
  rw [hr'] at h
  exact Option.some.inj h ▸ heval

theorem evaluatePossible_initialRead (cd : CexData) (useVisitorHash : Bool) {array : Array} {i : ℕ}
    (hdomain : array.domain = 32) (hrange : array.range = 8) (hi : i < array.size) (hfuel : 1 < fuel) :
    ∃ c, cd.evaluatePossible useVisitorHash fuel (initialRead array i) = some (constant c) ∧
      BitVec.ofNat 8 c.toNat = cd.possibleBytes array i := by
  obtain ⟨n, rfl⟩ : ∃ n, fuel = n + 2 := ⟨fuel - 2, by omega⟩
  have hlt : i < 2 ^ 32 := hi.trans array.size_lt
  have htoNat : (APInt.ofNat 32 i).toNat = i := by rw [APInt.toNat_ofNat, Nat.mod_eq_of_lt hlt]
  have hbytes : cd.possibleBytes array i =
      match array.constantValues[i]? with
      | some v => BitVec.ofNat 8 v.toNat
      | none => BitVec.ofNat 8 (cd.possibleValue array i) := if_neg (by omega)
  have hcreate : initialRead array i =
      match array.constantValues[i]? with
      | some v => constant v
      | none => read array .null (constant (APInt.ofNat 32 i)) := by
    simp only [initialRead, ReadExpr.create, ReadExpr.rollback, hdomain, ConstantExpr.alloc, htoNat, if_pos hi]
    cases array.constantValues[i]? <;> rfl
  rw [hcreate, hbytes]
  cases hvalue : array.constantValues[i]? with
  | some v =>
    refine ⟨v, ?_, rfl⟩
    simp [evaluatePossible, ExprVisitor.visit, ExprVisitor.visitActual, isConstant]
  | none =>
    refine ⟨APInt.ofNat array.range (cd.possibleValue array i), ?_, ?_⟩
    · have hvisit : ∀ visited, (ExprEvaluator cd.possibleInitialValue).visit useVisitorHash (n + 1) visited
          (constant (APInt.ofNat 32 i)) = some (constant (APInt.ofNat 32 i), visited) := fun visited => by
        simp [ExprVisitor.visit, ExprVisitor.visitActual, isConstant]
      have hactual : (ExprEvaluator cd.possibleInitialValue).visitActual
          ((ExprEvaluator cd.possibleInitialValue).visit useVisitorHash (n + 1)) []
          (read array .null (constant (APInt.ofNat 32 i))) =
            some (ConstantExpr.alloc (cd.possibleValue array i) array.range, []) := by
        simp only [ExprVisitor.visitActual, isConstant, ExprEvaluator, ExprEvaluator.visitExpr,
          ExprEvaluator.visitKind, ExprEvaluator.visitRead] at hvisit ⊢
        simp only [hvisit, some_bind, ExprEvaluator.evalRead, htoNat,
          Nat.mod_eq_of_lt hlt, hvalue, possibleInitialValue_eq hi]
        rfl
      rw [evaluatePossible, ExprVisitor.visit, hactual]
      cases useVisitorHash <;> rfl
    · rw [APInt.toNat_ofNat, hrange, Nat.mod_eq_of_lt (possibleValue_lt cd array i)]

end CexData

namespace FastCexSolver

variable {cd : CexData} {useVisitorHash : Bool} {fuel : ℕ}

/-- The verdict that the possible values satisfy the query is reached only if they
satisfied every constraint. -/
theorem checkConstraints_satisfied {cs : List Expr}
    (hcs : ∀ c ∈ cs, c.WellTyped ∧ c.Narrow ∧ c.weight < fuel) : ∀ {sat : Bool},
    checkConstraints useVisitorHash fuel cd cs sat = some (some false) →
      sat = true ∧ cd.possibleBytes ∈ Models cs := by
  induction cs with
  | nil =>
    intro sat h
    cases sat with
    | false => cases h
    | true => exact ⟨rfl, fun c hc => absurd hc List.not_mem_nil⟩
  | cons c cs ih =>
    intro sat h
    obtain ⟨⟨ht, hn, hfuel⟩, hcs⟩ := List.forall_mem_cons.mp hcs
    simp only [checkConstraints, bind_eq_some] at h
    obtain ⟨possible, hpossible, exact, -, h⟩ := h
    split_ifs at h
    · cases h
    · obtain ⟨rfl, hmodels⟩ := ih hcs h
      cases sat with
      | false => cases hpossible
      | true =>
        obtain ⟨r, hr, htrue⟩ := Option.map_eq_some_iff.mp hpossible
        have hholds : c.holds cd.possibleBytes :=
          (CexData.eval_of_evaluatePossible ht hn hfuel hr).symm.trans (Expr.eval_of_isTrue htrue _)
        exact ⟨rfl, List.forall_mem_cons.mpr ⟨hholds, hmodels⟩⟩

theorem propogateValues_counterexample {q : Query} (hq : (Call.truth q).Ok)
    (hfuel : ∀ e ∈ q.expr :: q.constraints, e.weight < fuel)
    (h : propogateValues useVisitorHash fuel q true = some (cd, some false)) :
    q.Counterexample cd.possibleBytes := by
  obtain ⟨hok, -⟩ := hq
  obtain ⟨hn, hns⟩ := List.forall_mem_cons.mp hok.narrow
  obtain ⟨hlt, hlts⟩ := List.forall_mem_cons.mp hfuel
  simp only [propogateValues, if_true, bind_eq_some] at h
  obtain ⟨cd', -, possible, hpossible, exact, -, h⟩ := h
  split_ifs at h
  · cases h
  · obtain ⟨verdict, hverdict, h⟩ := Option.bind_eq_some_iff.mp h
    cases h
    obtain ⟨hfalse, hmodels⟩ := checkConstraints_satisfied
      (fun c hc => ⟨(hok.constraints c hc).1, hns c hc, hlts c hc⟩) hverdict
    refine ⟨CexData.possibleBytes_mem, hmodels, fun hholds => ?_⟩
    have heval := CexData.eval_of_evaluatePossible hok.typed hn hlt hpossible
    rw [Expr.eval_of_isFalse hfalse] at heval
    exact absurd (APInt.ofBool_injective (heval.trans hholds)) (by decide)

theorem initialValuesOf_eq {array : Array} (hdomain : array.domain = 32) (hrange : array.range = 8)
    (hfuel : 1 < fuel) {is : List ℕ} (his : ∀ i ∈ is, i < array.size) :
    initialValuesOf useVisitorHash fuel cd array is = some (some (is.map (cd.possibleBytes array))) := by
  induction is with
  | nil => rfl
  | cons i is ih =>
    obtain ⟨hi, his⟩ := List.forall_mem_cons.mp his
    obtain ⟨c, hc, hbyte⟩ := CexData.evaluatePossible_initialRead cd useVisitorHash hdomain hrange hi hfuel
    rw [initialValuesOf, hc, ih his]
    simp [hbyte]

theorem initialValues_eq {objects : List Array} (hobjects : ∀ array ∈ objects, array.domain = 32 ∧ array.range = 8)
    (hfuel : 1 < fuel) :
    initialValues useVisitorHash fuel cd objects = some (some (objects.map (·.bytes cd.possibleBytes))) := by
  induction objects with
  | nil => rfl
  | cons array objects ih =>
    obtain ⟨⟨hdomain, hrange⟩, hobjects⟩ := List.forall_mem_cons.mp hobjects
    rw [initialValues, initialValuesOf_eq hdomain hrange hfuel fun i hi => List.mem_range.mp hi, ih hobjects]
    rfl

/-- The answer that a query has a counterexample rests on the bytes tried: they
satisfy the constraints and falsify the expression, they are what is read out,
and once there is that answer no read fails. -/
theorem counterexamples_genuine (useVisitorHash : Bool) (q : Query) (hq : (Call.truth q).Ok)
    (objects : List Array) (hobjects : ∀ array ∈ objects, array.domain = 32 ∧ array.range = 8) (fuel : ℕ)
    (hfuel : ∀ e ∈ q.expr :: q.constraints, e.weight < fuel) (hread : 1 < fuel) :
    (computeTruth useVisitorHash fuel q = some .mayBeFalse →
        ∃ cd, propogateValues useVisitorHash fuel q true = some (cd, some false) ∧
          q.Counterexample cd.possibleBytes) ∧
      (∀ values, computeInitialValues useVisitorHash fuel q objects = some (some (true, values)) →
        ∃ cd, propogateValues useVisitorHash fuel q true = some (cd, some false) ∧
          q.Counterexample cd.possibleBytes ∧ values = objects.map (·.bytes cd.possibleBytes)) ∧
      ∀ cd, propogateValues useVisitorHash fuel q true = some (cd, some false) →
        ∃ values, computeInitialValues useVisitorHash fuel q objects = some (some (true, values)) := by
  have hvalues : ∀ cd, propogateValues useVisitorHash fuel q true = some (cd, some false) →
      computeInitialValues useVisitorHash fuel q objects =
        some (some (true, objects.map (·.bytes cd.possibleBytes))) := by
    intro cd hcd
    rw [computeInitialValues, hcd]
    simp [initialValues_eq hobjects hread]
  refine ⟨fun h => ?_, fun values h => ?_, fun cd hcd => ⟨_, hvalues cd hcd⟩⟩
  · obtain ⟨⟨cd, verdict⟩, hrun, h⟩ := Option.bind_eq_some_iff.mp h
    rcases verdict with _ | _ | _
    · cases h
    · exact ⟨cd, hrun, propogateValues_counterexample hq hfuel hrun⟩
    · cases h
  · have hrun : ∃ cd, propogateValues useVisitorHash fuel q true = some (cd, some false) := by
      obtain ⟨⟨cd, verdict⟩, hrun, h⟩ := Option.bind_eq_some_iff.mp h
      rcases verdict with _ | _ | _
      · cases h
      · exact ⟨cd, hrun⟩
      · cases h
    obtain ⟨cd, hrun⟩ := hrun
    rw [hvalues cd hrun] at h
    cases h
    exact ⟨cd, hrun, propogateValues_counterexample hq hfuel hrun, rfl⟩

/-- `5 == X[0]`, with the question whether `7 == Y[0]`. -/
def otherByteQuery : Query :=
  let x := read (.symbolic 0 "X" 2 Array.two_lt_size) .null (ConstantExpr.alloc 0 32)
  let y := read (.symbolic 1 "Y" 1 Array.one_lt_size) .null (ConstantExpr.alloc 0 32)
  ⟨[binary .eq (ConstantExpr.alloc 5 8) x], binary .eq (ConstantExpr.alloc 7 8) y⟩

/-- The second byte of `X` is not looked at. -/
theorem counterexamples_genuine_two_arrays :
    let objects := [Array.symbolic 0 "X" 2 (by decide), Array.symbolic 1 "Y" 1 (by decide)]
    computeInitialValues true 100 otherByteQuery objects = some (some (true, [[5, 127], [3]])) ∧
      ∃ σ, otherByteQuery.Counterexample σ ∧ [[5, 127], [3]] = objects.map (·.bytes σ) := by
  intro objects
  have hvalues : computeInitialValues true 100 otherByteQuery objects = some (some (true, [[5, 127], [3]])) := by
    decide +kernel
  have hgenuine := counterexamples_genuine true otherByteQuery
    ⟨⟨by decide, by decide, by decide⟩, by decide⟩ objects (by decide) 100 (by decide) (by decide)
  obtain ⟨cd, -, hcounter, hbytes⟩ := hgenuine.2.1 _ hvalues
  exact ⟨hvalues, cd.possibleBytes, hcounter, hbytes⟩

/-- A value is that of the expression under the bytes tried, which satisfy the constraints. -/
theorem computeValue_attained (useVisitorHash : Bool) {q : Query} (hq : q.Ok) {fuel : ℕ}
    (hfuel : ∀ e ∈ q.expr :: q.constraints, e.weight < fuel) {c : APInt}
    (h : computeValue useVisitorHash fuel q = some (some c)) : (Call.value q).Sound (.value c) := by
  obtain ⟨hn, hns⟩ := List.forall_mem_cons.mp hq.narrow
  obtain ⟨hlt, hlts⟩ := List.forall_mem_cons.mp hfuel
  obtain ⟨⟨cd, _ | _ | _⟩, hrun, h⟩ := bind_eq_some.mp h
  · cases h
  · obtain ⟨value, hvalue, h⟩ := bind_eq_some.mp h
    obtain ⟨_, -, hrun⟩ := bind_eq_some.mp hrun
    obtain ⟨verdict, hverdict, hrun⟩ := bind_eq_some.mp hrun
    cases hrun
    obtain ⟨-, hmodels⟩ := checkConstraints_satisfied
      (fun c hc => ⟨(hq.constraints c hc).1, hns c hc, hlts c hc⟩) hverdict
    refine ⟨_, CexData.possibleBytes_mem, hmodels, ?_⟩
    rw [← CexData.eval_of_evaluatePossible hq.typed hn hlt hvalue]
    split at h <;> cases h
    rfl
  · cases h

theorem computeValue_attained_two_arrays : computeValue true 100 otherByteQuery = some (some (APInt.ofNat 1 0)) ∧
    (Call.value otherByteQuery).Sound (.value (APInt.ofNat 1 0)) := by
  have hvalue : computeValue true 100 otherByteQuery = some (some (APInt.ofNat 1 0)) := by decide +kernel
  exact ⟨hvalue, computeValue_attained true ⟨by decide, by decide, by decide⟩ (by decide) hvalue⟩

end FastCexSolver

end Klee
