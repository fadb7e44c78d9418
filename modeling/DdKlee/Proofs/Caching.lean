import DdKlee.Proofs.Independent
import DdKlee.Proofs.Query
import DdKlee.Spec.Caching

/-! The entries of the query cache are true of their canonical queries, and the
answers are the validity of the queries asked, whichever of a query and its
negation was asked first. -/

namespace Klee.CachingSolver

open Expr

open Calls

variable {q : Query} {r : PartialValidity}

theorem HasPartialValidity.negate (h : IsConstraint q.expr) (hr : q.HasPartialValidity r) (hne : r ≠ .none) :
    q.negateExpr.HasPartialValidity r.negate := by
  have hvalid := Query.negateExpr_valid_iff h
  have hrefuted := Query.negateExpr_refuted_iff h
  cases r <;> simp_all [Query.HasPartialValidity, PartialValidity.negate]

theorem HasPartialValidity.of_negate (h : IsConstraint q.expr) (hr : q.negateExpr.HasPartialValidity r)
    (hne : r ≠ .none) : q.HasPartialValidity r.negate := by
  have hvalid := Query.negateExpr_valid_iff h
  have hrefuted := Query.negateExpr_refuted_iff h
  cases r <;> simp_all [Query.HasPartialValidity, PartialValidity.negate]

theorem not_valid_of_refuted (hsat : ∃ σ ∈ Assignments, σ ∈ Models q.constraints) (h : q.Refuted) :
    ¬ q.Valid := by
  obtain ⟨σ, hσ, hm⟩ := hsat
  exact fun hv => h σ hσ hm (hv σ hσ hm)

theorem negate_ne_none : r.negate ≠ .none := by cases r <;> decide

def Inv (cache : Cache) : Prop := ∀ ce, ∀ r ∈ cache.lookup ce, r ≠ .none ∧ ce.HasPartialValidity r

theorem inv_empty : Inv ∅ := fun ce r h => by simp at h

variable [LinearOrder Expr] {solver : SolverImpl} {cache : Cache}

theorem cacheLookup_ok (hc : Inv cache) (hq : IsConstraint q.expr) (h : cacheLookup cache q = some r) :
    r ≠ .none ∧ q.HasPartialValidity r := by
  unfold cacheLookup canonicalizeQuery at h
  split_ifs at h
  · obtain ⟨r', hr', rfl⟩ := Option.map_eq_some_iff.mp h
    exact hc q r' hr'
  · obtain ⟨r', hr', rfl⟩ := Option.map_eq_some_iff.mp h
    obtain ⟨hne, hr'⟩ := hc _ r' hr'
    exact ⟨negate_ne_none, HasPartialValidity.of_negate hq hr' hne⟩

omit [LinearOrder Expr] in
theorem Inv.insert (hc : Inv cache) {ce : Query} (hr : ce.HasPartialValidity r) (hne : r ≠ .none) :
    Inv (if ce ∈ cache then cache else cache.insert ce r) := by
  split_ifs
  · exact hc
  · intro ce' r' hr'
    by_cases heq : ce' = ce
    · subst heq
      rw [AList.lookup_insert] at hr'
      exact Option.some.inj hr' ▸ ⟨hne, hr⟩
    · rw [AList.lookup_insert_ne heq] at hr'
      exact hc ce' r' hr'

theorem cacheInsert_ok (hc : Inv cache) (hq : IsConstraint q.expr) (hr : q.HasPartialValidity r)
    (hne : r ≠ .none) : Inv (cacheInsert cache q r) := by
  unfold cacheInsert canonicalizeQuery
  split_ifs
  · exact hc.insert hr hne
  · exact hc.insert (HasPartialValidity.negate hq hr hne) negate_ne_none

section Compute

variable (hc : Inv cache) (hq : q.IsBool) (hsolver : solver.Correct)

include hc hq

theorem answer_cached {α : Type} {ok : α → Prop} {x : α} (hx : ok x) (hr : q.HasPartialValidity r)
    (hne : r ≠ .none) : StepOk Inv ok (some x, cacheInsert cache q r) :=
  .success (cacheInsert_ok hc hq.expr hr hne) hx

include hsolver

theorem computeValidityMiss_ok : StepOk Inv q.HasValidity (computeValidityMiss solver cache q) := by
  have hcorrect := hsolver q hq
  unfold computeValidityMiss
  split
  · exact .fail hc
  · rename_i h
    have hv := hcorrect.validity _ h
    exact answer_cached hc hq hv hv (by decide)
  · rename_i h
    have hv := hcorrect.validity _ h
    exact answer_cached hc hq hv hv.2 (by decide)
  · rename_i h
    have hv := hcorrect.validity _ h
    exact answer_cached hc hq hv hv (by decide)

theorem computeTruthMiss_ok {cacheHit : Bool} (hhit : cacheHit = true → ¬ q.Refuted) :
    StepOk Inv (fun isValid => isValid = true ↔ q.Valid) (computeTruthMiss solver cache q cacheHit) := by
  have htruth := (hsolver q hq).truth
  unfold computeTruthMiss
  split
  · exact .fail hc
  · rename_i h
    exact answer_cached hc hq (htruth _ h) ((htruth _ h).mp rfl) (by decide)
  · rename_i h
    have hv : ¬ q.Valid := fun hv => by cases (htruth _ h).mpr hv
    cases cacheHit with
    | true => exact answer_cached hc hq (htruth _ h) ⟨hv, hhit rfl⟩ (by decide)
    | false => exact answer_cached hc hq (htruth _ h) hv (by decide)

variable (hsat : ∃ σ ∈ Assignments, σ ∈ Models q.constraints)

include hsat

theorem computeValidity_ok : StepOk Inv q.HasValidity (computeValidity solver cache q) := by
  have hlookup := fun r => cacheLookup_ok (r := r) hc hq.expr
  have hmiss := computeValidityMiss_ok hc hq hsolver
  unfold computeValidity
  split
  · rename_i h
    exact .success hc (hlookup _ h).2
  · rename_i h
    have hr := (hlookup _ h).2
    exact .success hc ⟨not_valid_of_refuted hsat hr, hr⟩
  · rename_i h
    exact .success hc (hlookup _ h).2
  · -- a true assignment exists, so the query is not refuted
    rename_i h
    have hr := (hlookup _ h).2
    split
    · exact .fail hc
    · rename_i ht
      have hv := ((hsolver q hq).truth _ ht).mp rfl
      exact answer_cached hc hq hv hv (by decide)
    · rename_i ht
      have hv : ¬ q.Valid := fun h => by cases ((hsolver q hq).truth _ ht).mpr h
      exact answer_cached hc hq ⟨hv, hr⟩ ⟨hv, hr⟩ (by decide)
  · -- a false assignment exists, so the query is not valid
    rename_i h
    have hr := (hlookup _ h).2
    have htruth := (hsolver _ hq.negateExpr).truth
    rw [Query.negateExpr_valid_iff hq.expr] at htruth
    split
    · exact .fail hc
    · rename_i ht
      have hv := (htruth _ ht).mp rfl
      exact answer_cached hc hq ⟨hr, hv⟩ hv (by decide)
    · rename_i ht
      have hv : ¬ q.Refuted := fun h => by cases (htruth _ ht).mpr h
      exact answer_cached hc hq ⟨hr, hv⟩ ⟨hr, hv⟩ (by decide)
  · exact hmiss
  · exact hmiss

theorem computeTruth_ok :
    StepOk Inv (fun isValid => isValid = true ↔ q.Valid) (computeTruth solver cache q) := by
  have hlookup := fun r => cacheLookup_ok (r := r) hc hq.expr
  unfold computeTruth
  split
  · rename_i h
    exact computeTruthMiss_ok hc hq hsolver fun _ => (hlookup _ h).2
  · rename_i r hne h
    obtain ⟨hnone, hr⟩ := hlookup _ h
    refine .success hc ?_
    cases r with
    | mustBeTrue => exact iff_of_true rfl hr
    | mustBeFalse => exact iff_of_false (by decide) (not_valid_of_refuted hsat hr)
    | mayBeTrue => exact absurd rfl hne
    | mayBeFalse => exact iff_of_false (by decide) hr
    | trueOrFalse => exact iff_of_false (by decide) hr.1
    | none => exact absurd rfl hnone
  · exact computeTruthMiss_ok hc hq hsolver fun h => by cases h

end Compute

/-- What is asked of a call: a query of Bool expressions with satisfiable
constraints, and a solver below that does not answer wrongly. -/
def CallOk (solver : SolverImpl) : Call → Prop
  | .truth q | .validity q =>
      solver.Correct ∧ q.IsBool ∧ ∃ σ ∈ Assignments, σ ∈ Models q.constraints
  | .value q | .initialValues q _ => solver.CorrectOn q

theorem call_ok (hc : Inv cache) {c : Call} (h : CallOk solver c) :
    StepOk Inv c.Sound (call solver cache c) := by
  cases c with
  | truth q => exact (computeTruth_ok hc h.2.1 h.1 h.2.2).map Answer.truth fun _ hb => hb
  | validity q => exact (computeValidity_ok hc h.2.1 h.1 h.2.2).map Answer.validity fun _ hv => hv
  | value q =>
    have hstep : StepOk Inv _ (solver.computeValue q, cache) := ⟨hc, h.value⟩
    exact hstep.map Answer.value fun _ hv => hv
  | initialValues q objects =>
    have hstep : StepOk Inv (fun values => solver.computeInitialValues q objects = some values)
        (solver.computeInitialValues q objects, cache) := ⟨hc, fun _ hv => hv⟩
    refine hstep.map Answer.initialValues fun values hv => ?_
    cases values with
    | none => exact h.noSolution objects hv
    | some values => exact h.solution objects values hv

/-- The query cache is sound. After any sequence of calls, over solvers that may
fail but do not answer wrongly, every entry is true of its canonical query, and
every answer given on the way is the validity of the query asked. -/
theorem run_valid (calls : List (SolverImpl × Call)) (h : ∀ p ∈ calls, CallOk p.1 p.2) :
    (∀ ce, ∀ r ∈ (run ∅ calls).2.lookup ce, r ≠ .none ∧ ce.HasPartialValidity r) ∧
      List.Forall₂ (fun p answer => ∀ x ∈ answer, p.2.Sound x) calls (run ∅ calls).1 := by
  have hcall : ∀ cache (p : SolverImpl × Call), Inv cache → CallOk p.1 p.2 →
      StepOk Inv p.2.Sound (call p.1 cache p.2) := fun _ _ hc hp => call_ok hc hp
  exact Calls.run_ok hcall calls ∅ inv_empty h

omit [LinearOrder Expr] in
/-- A query and then its negation. -/
theorem run_valid_negated : ∃ _ : LinearOrder Expr,
    let q := IndependentSolver.twoArraysQuery
    let calls := [(SolverImpl.oracle, Call.truth q), (SolverImpl.oracle, Call.validity q.negateExpr)]
    (∀ p ∈ calls, CallOk p.1 p.2) ∧
      List.Forall₂ (fun p answer => ∀ x ∈ answer, p.2.Sound x) calls (run ∅ calls).1 := by
  classical
  let _ : LinearOrder Expr := linearOrderOfSTO WellOrderingRel
  refine ⟨inferInstance, ?_⟩
  intro q calls
  have hq : q.IsBool := by unfold Query.IsBool; decide +kernel
  have hσ : (fun array i => if array.size ≤ i then 0 else if array.id = 0 then 5 else 7) ∈ Assignments :=
    fun array i hi => if_pos hi
  have hsat : ∃ σ ∈ Assignments, σ ∈ Models q.constraints := ⟨_, hσ, by decide +kernel⟩
  have hcalls : ∀ p ∈ calls, CallOk p.1 p.2 := by
    simp only [calls, List.forall_mem_cons]
    exact ⟨⟨SolverImpl.oracle_correct, hq, hsat⟩, ⟨SolverImpl.oracle_correct, hq.negateExpr, hsat⟩, by simp⟩
  exact ⟨hcalls, (run_valid calls hcalls).2⟩

end Klee.CachingSolver
