import DdKlee.Proofs.Factors
import DdKlee.Proofs.MapOfSets
import DdKlee.Spec.CexCaching

/-! The counterexample cache never lies: a key without an assignment has no
solution, the assignment of a key solves it, and so the answers found through
subsets, supersets and other assignments are right, whatever was asked before. -/

namespace Klee

open Expr

mutual

theorem Expr.eval_congr_symbolicObjects {σ τ : Bytes} (hσ : σ ∈ Assignments) (hτ : τ ∈ Assignments) :
    ∀ e : Expr, (∀ a ∈ e.symbolicObjects, ∀ i, σ a i = τ a i) → e.eval σ = e.eval τ
  | .constant _, _ => rfl
  | .notOptimized src, h => Expr.eval_congr_symbolicObjects hσ hτ src h
  | .read root head i, h => by
    simp only [Expr.symbolicObjects, List.mem_append, or_imp, forall_and] at h
    obtain ⟨⟨hhead, hroot⟩, hi⟩ := h
    have hinit : ∀ j, root.initial σ j = root.initial τ j := fun j =>
      initial_congr hσ hτ fun hs => hroot root (by simp_all [Array.isConstantArray]) j
    rw [Expr.eval, Expr.eval, Expr.eval_congr_symbolicObjects hσ hτ i hi,
      UpdateNode.lookup_congr_symbolicObjects hσ hτ root head hhead hinit]
  | .select c t f, h => by
    simp only [Expr.symbolicObjects, List.mem_append, or_imp, forall_and] at h
    rw [Expr.eval, Expr.eval, Expr.eval_congr_symbolicObjects hσ hτ c h.1.1,
      Expr.eval_congr_symbolicObjects hσ hτ t h.1.2, Expr.eval_congr_symbolicObjects hσ hτ f h.2]
  | .concat l r, h | .binary _ l r, h => by
    simp only [Expr.symbolicObjects, List.mem_append, or_imp, forall_and] at h
    rw [Expr.eval, Expr.eval, Expr.eval_congr_symbolicObjects hσ hτ l h.1,
      Expr.eval_congr_symbolicObjects hσ hτ r h.2]
  | .extract e _ _, h | .not e, h | .cast _ e _, h => by
    rw [Expr.eval, Expr.eval, Expr.eval_congr_symbolicObjects hσ hτ e h]

theorem UpdateNode.lookup_congr_symbolicObjects {σ τ : Bytes} (hσ : σ ∈ Assignments) (hτ : τ ∈ Assignments)
    (root : Array) : ∀ head : UpdateNode, (∀ a ∈ head.symbolicObjects, ∀ i, σ a i = τ a i) →
    (∀ j, root.initial σ j = root.initial τ j) → ∀ i, head.lookup σ root i = head.lookup τ root i
  | .null, _, hinit, i => hinit i.toNat
  | .node next ui uv, h, hinit, i => by
    simp only [UpdateNode.symbolicObjects, List.mem_append, or_imp, forall_and] at h
    rw [UpdateNode.lookup, UpdateNode.lookup, Expr.eval_congr_symbolicObjects hσ hτ ui h.1.1,
      Expr.eval_congr_symbolicObjects hσ hτ uv h.1.2,
      UpdateNode.lookup_congr_symbolicObjects hσ hτ root next h.2 hinit]

end

theorem mem_findSymbolicObjects {es : List Expr} {e : Expr} (he : e ∈ es) {a : Array}
    (ha : a ∈ e.symbolicObjects) : a ∈ findSymbolicObjects es :=
  List.mem_eraseDups.mpr (List.mem_flatMap.mpr ⟨e, he, ha⟩)

mutual

theorem Expr.WellTyped.allReads : ∀ {e : Expr}, e.WellTyped →
    e.AllReads fun root i => i.WellTyped ∧ i.getWidth = root.domain
  | .constant _, _ => trivial
  | .notOptimized e, h | .not e, h => Expr.WellTyped.allReads (e := e) h
  | .read _ _ _, ⟨hhead, hi, hw⟩ => ⟨⟨hi, hw⟩, UpdateNode.WellTyped.allReads hhead, Expr.WellTyped.allReads hi⟩
  | .select _ _ _, ⟨hc, ht, hf, _⟩ =>
    ⟨Expr.WellTyped.allReads hc, Expr.WellTyped.allReads ht, Expr.WellTyped.allReads hf⟩
  | .concat _ _, ⟨hl, hr⟩ => ⟨Expr.WellTyped.allReads hl, Expr.WellTyped.allReads hr⟩
  | .extract e _ _, h | .cast _ e _, h => Expr.WellTyped.allReads (e := e) h.1
  | .binary _ _ _, ⟨hl, hr, _⟩ => ⟨Expr.WellTyped.allReads hl, Expr.WellTyped.allReads hr⟩

theorem UpdateNode.WellTyped.allReads {root : Array} : ∀ {head : UpdateNode}, head.WellTyped root →
    head.AllReads fun root i => i.WellTyped ∧ i.getWidth = root.domain
  | .null, _ => trivial
  | .node _ _ _, ⟨hnext, hi, hv, _⟩ =>
    ⟨UpdateNode.WellTyped.allReads hnext, Expr.WellTyped.allReads hi, Expr.WellTyped.allReads hv⟩

end

/-- The indices of all reads are at most 32 bits wide, and so survive the passing
as an `unsigned`. -/
def Expr.Narrow : Expr → Prop := Expr.AllReads fun root _ => root.domain ≤ 32

instance (e : Expr) : Decidable e.Narrow := inferInstanceAs (Decidable (e.AllReads fun root _ => root.domain ≤ 32))

namespace Assignment

variable {a : Assignment} {e r : Expr}

def bytes (a : Assignment) : Bytes := fun array i => ((a.bindings.lookup array).getD [])[i]?.getD 0

/-- No values are free, and a byte is bound to every element of a bound array. -/
structure Complete (a : Assignment) : Prop where
  fixed : a.allowFreeValues = false
  length : ∀ array, ∀ v ∈ a.bindings.lookup array, v.length = array.size

theorem Complete.bytes_mem (h : a.Complete) : a.bytes ∈ Assignments :=
  fun array _ hi => getD_eq_zero (h.length array) hi

theorem Complete.initialOk (h : a.Complete) :
    ExprEvaluator.InitialOk (· = a.bytes) (fun root => root.domain ≤ 32) a.evaluateByte := by
  intro root i _ hi hconst
  have hbyte : a.evaluateByte root i = ConstantExpr.alloc (a.bytes root i).toNat root.range := by
    unfold evaluateByte bytes
    rw [h.fixed]
    rcases a.bindings.lookup root with _ | v
    · rfl
    · simp only [Option.bind_some, Option.getD_some]
      cases v[i]? <;> rfl
  rw [hbyte]
  refine Simplifies.const rfl fun σ hσ => ?_
  subst hσ
  have htoNat : (APInt.ofNat root.domain i).toNat = i := by
    rw [APInt.toNat_ofNat, Nat.mod_eq_of_lt hi]
  simp only [Expr.eval, UpdateNode.lookup, ConstantExpr.alloc, htoNat, Array.initial, hconst]
  simp only [APInt.ofNat, BitVec.ofNat_toNat]

theorem readsFit {P : Bytes → Prop} (ht : e.WellTyped) (hn : e.Narrow) :
    ExprEvaluator.ReadsFit P (fun root => root.domain ≤ 32) e := by
  refine (hn.forall fun σ (_ : P σ) => ht.allReads).imp fun root i h => ⟨h.1, fun σ hσ => ?_⟩
  obtain ⟨hi, hw⟩ := h.2 σ hσ
  calc (i.eval σ).toNat < 2 ^ i.getWidth := Expr.toNat_eval_lt σ hi
    _ ≤ 2 ^ 32 := Nat.pow_le_pow_right (by decide) (hw ▸ h.1)

section Evaluate

variable (ha : a.Complete) (ht : e.WellTyped) (hn : e.Narrow)

include ha ht hn

theorem evaluator_visit (useVisitorHash : Bool) {visited : Visited}
    (hs : ExprVisitor.VisitedSound (· = a.bytes) False
      (ExprEvaluator.ReadsFit (· = a.bytes) fun root => root.domain ≤ 32) visited) :
    ∃ r visited', a.evaluator.visit useVisitorHash (e.weight + 1) visited e = some (r, visited') ∧
      ExprVisitor.VisitedSound (· = a.bytes) False
        (ExprEvaluator.ReadsFit (· = a.bytes) fun root => root.domain ≤ 32) visited' ∧
      r.eval a.bytes = e.eval a.bytes := by
  obtain ⟨r, visited', hrun, hs', hshrink⟩ := ExprVisitor.visit_ok (ExprEvaluator.sound ha.initialOk)
    useVisitorHash (e.weight + 1) visited e hs ht (readsFit ht hn) (Nat.lt_succ_self _)
  exact ⟨r, visited', hrun, hs', hshrink.eval _ rfl⟩

theorem evaluate_eval {useVisitorHash : Bool} (h : a.evaluate useVisitorHash e = some r) : r.eval a.bytes = e.eval a.bytes := by
  obtain ⟨r', visited', hrun, -, heval⟩ := evaluator_visit ha ht hn useVisitorHash .nil
  rw [evaluate, hrun] at h
  exact Option.some.inj h ▸ heval

end Evaluate

theorem satisfies_models (ha : a.Complete) {useVisitorHash : Bool} (es : List Expr) : ∀ visited,
    ExprVisitor.VisitedSound (· = a.bytes) False
      (ExprEvaluator.ReadsFit (· = a.bytes) fun root => root.domain ≤ 32) visited →
    (∀ e ∈ es, e.WellTyped ∧ e.Narrow) → a.satisfies useVisitorHash visited es = some true →
    a.bytes ∈ Models es := by
  induction es with
  | nil => exact fun _ _ _ _ e he => absurd he List.not_mem_nil
  | cons e es ih =>
    intro visited hs hes h
    obtain ⟨⟨ht, hn⟩, hes⟩ := List.forall_mem_cons.mp hes
    obtain ⟨r, visited', hrun, hs', heval⟩ := evaluator_visit ha ht hn useVisitorHash hs
    simp only [satisfies, hrun, some_bind] at h
    split_ifs at h with htrue
    · have hholds : e.holds a.bytes := heval.symm.trans (Expr.eval_of_isTrue htrue _)
      exact List.forall_mem_cons.mpr ⟨hholds, ih visited' hs' hes h⟩
    · cases h

end Assignment

/-- A query of well-typed expressions whose constraints are of type Bool. -/
structure Query.Ok (q : Query) : Prop where
  constraints : ∀ c ∈ q.constraints, IsConstraint c
  typed : q.expr.WellTyped
  narrow : ∀ e ∈ q.expr :: q.constraints, e.Narrow

def Call.Ok : Call → Prop
  | .truth q | .validity q | .initialValues q _ => q.Ok ∧ q.expr.getWidth = 1
  | .value q => q.Ok

namespace Query.Ok

variable {q : Query} (h : q.Ok)

include h

theorem isBool (hw : q.expr.getWidth = 1) : q.IsBool := List.forall_mem_cons.mpr ⟨⟨h.typed, hw⟩, h.constraints⟩

theorem withFalse : q.withFalse.Ok :=
  ⟨h.constraints, trivial, List.forall_mem_cons.mpr ⟨trivial, (List.forall_mem_cons.mp h.narrow).2⟩⟩

theorem negateExpr (hw : q.expr.getWidth = 1) : q.negateExpr.Ok ∧ q.negateExpr.expr.getWidth = 1 := by
  have hneg : IsConstraint q.negateExpr.expr := createIsZero_isConstraint ⟨h.typed, hw⟩
  obtain ⟨hexpr, hconstraints⟩ := List.forall_mem_cons.mp h.narrow
  exact ⟨⟨h.constraints, hneg.1,
    List.forall_mem_cons.mpr ⟨(allReads_closed _).createIsZero hexpr, hconstraints⟩⟩, hneg.2⟩

end Query.Ok

namespace CexCachingSolver

open Calls

/-- What is bound to a key: the null assignment if the key has no solution, or a
solution. -/
def Bound (key : List Expr) : Option Assignment → Prop
  | none => ∀ σ ∈ Assignments, σ ∉ Models key
  | some a => a.Complete ∧ a.bytes ∈ Models key

theorem Bound.of_superset {key sup : List Expr} {v : Option Assignment} (h : Bound sup v)
    (hsub : ∀ e ∈ key, e ∈ sup) (hv : v.isSome = true) : Bound key v := by
  cases v with
  | none => cases hv
  | some a => exact ⟨h.1, fun e he => h.2 e (hsub e he)⟩

theorem bound_none_of_subset {key sub : List Expr} (h : Bound sub none) (hsub : ∀ e ∈ sub, e ∈ key) :
    Bound key none :=
  fun σ hσ hm => h σ hσ fun e he => hm e (hsub e he)

structure Inv (s : State) : Prop where
  cache : ∀ key v, s.cache.Bound key v → Bound key v
  table : ∀ a ∈ s.assignmentsTable, a.Complete

theorem inv_init : Inv {} := ⟨fun key v h => absurd h (MapOfSets.not_bound_empty key), by simp⟩

/-- What a query is answered with: no counterexample, or one. -/
def Answers (q : Query) : Option Assignment → Prop
  | none => ¬ ∃ σ, q.Counterexample σ
  | some a => a.Complete ∧ q.Counterexample a.bytes

theorem mem_keyOf {q : Query} (hq : q.Ok) (hw : q.expr.getWidth = 1) {e : Expr} (he : e ∈ keyOf q) :
    e.WellTyped ∧ e.Narrow := by
  obtain ⟨hn, hns⟩ := List.forall_mem_cons.mp hq.narrow
  have hconstraint : e ∈ q.constraints → e.WellTyped ∧ e.Narrow := fun h => ⟨(hq.constraints e h).1, hns e h⟩
  unfold keyOf at he
  dsimp only at he
  split_ifs at he
  · exact hconstraint (by simpa using he)
  · rcases Finset.mem_insert.mp he with rfl | he
    · exact ⟨(hq.negateExpr hw).1.typed, (allReads_closed _).createIsZero hn⟩
    · exact hconstraint (by simpa using he)

variable [LinearOrder Expr] {opts : Options} {solver : SolverImpl} {s : State} {key : Finset Expr} {q : Query}
  {v : Option Assignment}

section Key

variable (hq : q.Ok) (hw : q.expr.getWidth = 1) (hfalse : q.expr.createIsZero.isFalse = false)

include hq hw hfalse

/-- The solutions of the key are the counterexamples of the query. -/
theorem mem_models_keyOf {σ : Bytes} (hσ : σ ∈ Assignments) :
    σ ∈ Models (keyOf q).sort ↔ q.Counterexample σ := by
  have hkey : σ ∈ Models (keyOf q).sort ↔ q.expr.createIsZero.holds σ ∧ σ ∈ Models q.constraints := by
    simp only [Models, Set.mem_ofPred_eq, Finset.mem_sort]
    unfold keyOf
    dsimp only
    split_ifs with hc
    · -- a constant that is not false holds
      have hneg := createIsZero_isConstraint (e := q.expr) ⟨hq.typed, hw⟩
      have htrue : q.expr.createIsZero.holds σ := by
        by_contra hnot
        rw [isFalse_of_constant hneg hc fun h => hnot (by rw [h]; rfl)] at hfalse
        cases hfalse
      simp [htrue]
    · simp
  rw [hkey, holds_createIsZero ⟨hq.typed, hw⟩]
  exact ⟨fun h => ⟨hσ, h.2, h.1⟩, fun h => ⟨h.2.2, h.2.1⟩⟩

theorem bound_keyOf_iff : Bound (keyOf q).sort v ↔ Answers q v := by
  cases v with
  | none =>
    constructor
    · rintro h ⟨σ, hσ⟩
      exact h σ hσ.1 ((mem_models_keyOf hq hw hfalse hσ.1).mpr hσ)
    · exact fun h σ hσ hm => h ⟨σ, (mem_models_keyOf hq hw hfalse hσ).mp hm⟩
  | some a => exact and_congr_right fun ha => mem_models_keyOf hq hw hfalse ha.bytes_mem

end Key

theorem Inv.insert (h : Inv s) (hv : Bound key.sort v) {table : Finset Assignment}
    (htable : ∀ a ∈ table, a.Complete) : Inv ⟨s.cache.insert key v, table⟩ where
  cache key' v' h' := by
    rcases MapOfSets.bound_of_insert h' with ⟨rfl, rfl⟩ | h'
    · exact hv
    · exact h.cache key' v' h'
  table := htable

theorem bound_of_satisfies (hkey : ∀ e ∈ key, e.WellTyped ∧ e.Narrow) {a : Assignment} (ha : a.Complete)
    (h : satisfies opts a key = true) : Bound key.sort (some a) :=
  ⟨ha, Assignment.satisfies_models ha key.sort [] .nil (fun e he => hkey e ((Finset.mem_sort _).mp he))
    (by simpa [satisfies] using h)⟩

theorem searchSets_ok (hs : Inv s) {p : Option Assignment → Bool}
    (hp : ∀ a, p (some a) = true → a.Complete → Bound key.sort (some a))
    (h : searchSets opts s key p = some v) : Bound key.sort v := by
  unfold searchSets at h
  split at h
  · rename_i hsup
    cases h
    split_ifs at hsup
    obtain ⟨hv, sup, hbound, hsub⟩ := MapOfSets.bound_of_findSuperset hsup
    exact (hs.cache sup v hbound).of_superset (fun e he => hsub e ((Finset.mem_sort _).mp he)) hv
  · obtain ⟨hv, sub, hbound, hsub⟩ := MapOfSets.bound_of_findSubset h
    have hval := hs.cache sub v hbound
    cases v with
    | none => exact bound_none_of_subset hval fun e he => (Finset.mem_sort _).mpr (hsub e he)
    | some a => exact hp a hv hval.1

variable [LinearOrder Assignment]

theorem searchForAssignment_ok (hs : Inv s) (hkey : ∀ e ∈ key, e.WellTyped ∧ e.Narrow)
    (h : searchForAssignment opts s key = some v) : Bound key.sort v := by
  unfold searchForAssignment at h
  split at h
  · rename_i hlookup
    cases h
    exact hs.cache _ v (MapOfSets.bound_of_lookup hlookup)
  · split_ifs at h
    · split at h
      · rename_i hsets
        cases h
        exact searchSets_ok hs (fun a ha => by cases ha) hsets
      · obtain ⟨a, hfind, rfl⟩ := Option.map_eq_some_iff.mp h
        have hmem := (Finset.mem_sort _).mp (List.mem_of_find?_eq_some hfind)
        have hsat : satisfies opts a key = true := by simpa using List.find?_some hfind
        exact bound_of_satisfies hkey (hs.table a hmem) hsat
    · exact searchSets_ok hs (fun a ha hc => bound_of_satisfies hkey hc ha) h

theorem lookupAssignment_ok (hq : q.Ok) (hw : q.expr.getWidth = 1) (hs : Inv s)
    (h : lookupAssignment opts s q = some v) : Answers q v := by
  unfold lookupAssignment at h
  split_ifs at h with hfalse
  · cases h
    -- the negated expression is false, so the expression is true
    rintro ⟨σ, hσ⟩
    have hneg := (holds_createIsZero ⟨hq.typed, hw⟩).mpr hσ.2.2
    rw [holds, Expr.eval_of_isFalse hfalse] at hneg
    exact absurd (APInt.ofBool_injective hneg) (by decide)
  · rw [← bound_keyOf_iff hq hw (by simpa using hfalse)]
    exact searchForAssignment_ok hs (fun e he => mem_keyOf hq hw he) h

section Binding

omit [LinearOrder Expr] [LinearOrder Assignment]

def binding (σ : Bytes) (objects : List Array) : Assignment where
  bindings := objects.zip (objects.map (·.bytes σ))

theorem lookup_binding (σ : Bytes) (array : Array) (objects : List Array) :
    (binding σ objects).bindings.lookup array = if array ∈ objects then some (array.bytes σ) else none := by
  unfold binding
  induction objects with
  | nil => rfl
  | cons x objects ih =>
    by_cases h : array = x
    · simp [h]
    · simp_all [List.lookup_cons, beq_false_of_ne h]

theorem binding_complete (σ : Bytes) (objects : List Array) : (binding σ objects).Complete := by
  refine ⟨rfl, fun array v hv => ?_⟩
  rw [lookup_binding] at hv
  split_ifs at hv
  · cases hv
    simp [Array.bytes]
  · cases hv

theorem bound_binding {es : List Expr} {σ : Bytes} (hσ : σ ∈ Assignments) (hm : σ ∈ Models es) :
    Bound es (some (binding σ (findSymbolicObjects es))) := by
  have hcomplete := binding_complete σ (findSymbolicObjects es)
  refine ⟨hcomplete, fun e he => ?_⟩
  refine (Expr.eval_congr_symbolicObjects hcomplete.bytes_mem hσ e fun a ha i => ?_).trans (hm e he)
  rw [Assignment.bytes, lookup_binding, if_pos (mem_findSymbolicObjects he ha)]
  exact IndependentSolver.getD_bytes hσ a i

end Binding

theorem getAssignment_ok (opts : Options) (hq : q.Ok) (hw : q.expr.getWidth = 1) (hsolver : solver.Correct) (hs : Inv s) :
    StepOk Inv (Answers q) (getAssignment opts solver s q) := by
  unfold getAssignment
  split
  · rename_i v hv
    exact ⟨hs, fun x hx => by cases hx; exact lookupAssignment_ok hq hw hs hv⟩
  · rename_i hnone
    have hfalse : q.expr.createIsZero.isFalse = false := by
      by_contra htrue
      rw [lookupAssignment, if_pos (by simpa using htrue)] at hnone
      cases hnone
    have hcorrect := hsolver q (hq.isBool hw)
    dsimp only
    split
    · exact ⟨hs, by simp⟩
    · rename_i hanswer
      have hunsat : Answers q none := hcorrect.noSolution _ hanswer
      exact ⟨hs.insert ((bound_keyOf_iff hq hw hfalse).mpr hunsat) hs.table, fun x hx => by cases hx; exact hunsat⟩
    · rename_i values hanswer
      obtain ⟨σ, hσ, rfl⟩ := hcorrect.solution _ _ hanswer
      have hbound := bound_binding hσ.1 ((mem_models_keyOf hq hw hfalse hσ.1).mpr hσ)
      refine ⟨hs.insert hbound fun a ha => ?_, fun x hx => ?_⟩
      · rcases Finset.mem_insert.mp ha with rfl | ha
        · exact hbound.1
        · exact hs.table a ha
      · cases hx
        exact (bound_keyOf_iff hq hw hfalse).mp hbound

omit [LinearOrder Expr] [LinearOrder Assignment] in
theorem evaluate_ok {a : Assignment} (ha : a.Complete) (hq : q.Ok) {c : APInt}
    (h : evaluate opts q (some a) = some c) : q.expr.eval a.bytes = c := by
  simp only [evaluate] at h
  split at h
  · rename_i c' hc
    cases h
    exact (Assignment.evaluate_eval ha hq.typed (List.forall_mem_cons.mp hq.narrow).1 hc).symm
  · cases h

theorem validity_answer (hsolver : solver.Correct) (hs : Inv s) {q' : Query} (hq' : q'.Ok)
    (hw' : q'.expr.getWidth = 1) {r : Validity} (hnone : (¬ ∃ σ, q'.Counterexample σ) → q.HasValidity r)
    (hsome : ∀ σ, q'.Counterexample σ → q.HasValidity .unknown) :
    StepOk Inv q.HasValidity
      (match getAssignment opts solver s q' with
      | (none, s) => (none, s)
      | (some a, s) => (some (if a.isNone then r else .unknown), s)) := by
  have hstep := getAssignment_ok opts hq' hw' hsolver hs
  rcases hrun : getAssignment opts solver s q' with ⟨_ | a, s1⟩ <;> rw [hrun] at hstep
  · exact ⟨hstep.inv, by simp⟩
  · refine ⟨hstep.inv, fun x hx => ?_⟩
    cases hx
    have hanswer := hstep.answer a rfl
    cases a with
    | none => exact hnone hanswer
    | some a => exact hsome _ hanswer.2

section Compute

variable (hsolver : solver.Correct) (hs : Inv s) (hq : q.Ok)

include hsolver hs hq

theorem computeTruth_ok (hw : q.expr.getWidth = 1) :
    StepOk Inv (fun isValid => isValid = true ↔ q.Valid) (computeTruth opts solver s q) := by
  have hstep := getAssignment_ok opts hq hw hsolver hs
  unfold computeTruth
  rcases hrun : getAssignment opts solver s q with ⟨_ | a, s1⟩ <;> rw [hrun] at hstep
  · exact ⟨hstep.inv, by simp⟩
  · refine ⟨hstep.inv, fun x hx => ?_⟩
    cases hx
    have hanswer := hstep.answer a rfl
    rw [Query.valid_iff]
    cases a with
    | none => exact iff_of_true rfl hanswer
    | some a => exact iff_of_false (by simp) fun h => h ⟨_, hanswer.2⟩

theorem computeValue_ok :
    StepOk Inv (fun c => ∃ σ ∈ Assignments, σ ∈ Models q.constraints ∧ q.expr.eval σ = c)
      (computeValue opts solver s q) := by
  have hstep := getAssignment_ok opts hq.withFalse rfl hsolver hs
  unfold computeValue
  rcases hrun : getAssignment opts solver s q.withFalse with ⟨_ | a, s1⟩ <;> rw [hrun] at hstep
  · exact ⟨hstep.inv, by simp⟩
  · refine ⟨hstep.inv, fun c hc => ?_⟩
    cases a with
    | none => cases hc
    | some a =>
      obtain ⟨ha, hcounter⟩ := hstep.answer _ rfl
      obtain ⟨hσ, hm⟩ := Query.counterexample_withFalse.mp hcounter
      exact ⟨_, hσ, hm, evaluate_ok ha hq hc⟩

theorem computeInitialValues_ok (hw : q.expr.getWidth = 1) (objects : List Array) :
    StepOk Inv (fun out => (Call.initialValues q objects).Sound (.initialValues out))
      (computeInitialValues opts solver s q objects) := by
  have hstep := getAssignment_ok opts hq hw hsolver hs
  unfold computeInitialValues
  rcases hrun : getAssignment opts solver s q with ⟨_ | a, s1⟩ <;> rw [hrun] at hstep
  · exact ⟨hstep.inv, by simp⟩
  · refine ⟨hstep.inv, fun x hx => ?_⟩
    cases hx
    have hanswer := hstep.answer a rfl
    cases a with
    | none => exact hanswer
    | some a =>
      exact ⟨_, hanswer.2, List.map_congr_left fun os _ => getD_eq_bytes (hanswer.1.length os) fun _ => rfl⟩

theorem computeValidity_ok (hw : q.expr.getWidth = 1) :
    StepOk Inv q.HasValidity (computeValidity opts solver s q) := by
  have hexpr : IsConstraint q.expr := ⟨hq.typed, hw⟩
  have hstep := getAssignment_ok opts hq.withFalse rfl hsolver hs
  unfold computeValidity
  rcases hrun : getAssignment opts solver s q.withFalse with ⟨_ | a, s1⟩ <;> rw [hrun] at hstep
  · exact ⟨hstep.inv, by simp⟩
  dsimp only
  split
  · exact ⟨hstep.inv, by simp⟩
  rename_i c hc
  cases a with
  | none => cases hc
  | some a =>
    obtain ⟨ha, hcounter⟩ := hstep.answer _ rfl
    obtain ⟨hσ, hm⟩ := Query.counterexample_withFalse.mp hcounter
    have heval := evaluate_ok ha hq hc
    split_ifs with htrue
    · -- the expression is true under the assignment, so it may be valid
      have hholds : q.expr.holds a.bytes := heval.trans (isTrue_iff.mp htrue)
      refine validity_answer hsolver hstep.inv hq hw (fun h => Query.valid_iff.mpr h) fun σ hσ' => ?_
      exact ⟨fun h => Query.valid_iff.mp h ⟨σ, hσ'⟩, fun h => h _ hσ hm hholds⟩
    · -- it is false, so its negation may be valid
      have hnot : ¬ q.expr.holds a.bytes := fun h => htrue (isTrue_iff.mpr (heval.symm.trans h))
      have hvalid : ¬ q.Valid := fun h => hnot (h _ hσ hm)
      obtain ⟨hq', hw'⟩ := hq.negateExpr hw
      have hrefuted := Query.negateExpr_valid_iff (q := q) hexpr
      refine validity_answer hsolver hstep.inv hq' hw'
        (fun h => ⟨hvalid, hrefuted.mp (Query.valid_iff.mpr h)⟩)
        fun σ hσ' => ⟨hvalid, fun h => Query.valid_iff.mp (hrefuted.mpr h) ⟨σ, hσ'⟩⟩

end Compute

/-- One call: the state is left right, and a successful answer is right. -/
theorem call_ok (hsolver : solver.Correct) (hs : Inv s) {c : Call} (hc : c.Ok) :
    StepOk Inv c.Sound (call opts solver s c) := by
  cases c with
  | truth q => exact (computeTruth_ok hsolver hs hc.1 hc.2).map Answer.truth fun _ hb => hb
  | validity q => exact (computeValidity_ok hsolver hs hc.1 hc.2).map Answer.validity fun _ hv => hv
  | value q => exact (computeValue_ok hsolver hs hc).map Answer.value fun _ hv => hv
  | initialValues q objects =>
    exact (computeInitialValues_ok hsolver hs hc.1 hc.2 objects).map Answer.initialValues fun _ hv => hv

/-- The counterexample cache never lies. After any sequence of calls, over solvers
that may fail but do not answer wrongly, a key bound to the null assignment has no
solution and a key bound to an assignment is solved by it, and every answer given
on the way is one that a correct solver may give. -/
theorem run_sound (opts : Options) (calls : List (SolverImpl × Call))
    (h : ∀ p ∈ calls, p.1.Correct ∧ p.2.Ok) :
    (∀ key, (run opts {} calls).2.cache.Bound key none → ∀ σ ∈ Assignments, σ ∉ Models key) ∧
      (∀ key a, (run opts {} calls).2.cache.Bound key (some a) →
        a.bytes ∈ Assignments ∧ a.bytes ∈ Models key) ∧
      List.Forall₂ (fun p answer => ∀ x ∈ answer, p.2.Sound x) calls (run opts {} calls).1 := by
  have hcall : ∀ s (p : SolverImpl × Call), Inv s → p.1.Correct ∧ p.2.Ok →
      StepOk Inv p.2.Sound (call opts p.1 s p.2) := fun _ _ hs hp => call_ok hp.1 hs hp.2
  obtain ⟨hinv, hanswers⟩ := Calls.run_ok hcall calls {} inv_init h
  refine ⟨fun key hb => hinv.cache key none hb, fun key a hb => ?_, hanswers⟩
  obtain ⟨ha, hm⟩ := hinv.cache key (some a) hb
  exact ⟨ha.bytes_mem, hm⟩

omit [LinearOrder Expr] [LinearOrder Assignment] in
theorem run_sound_two_calls : ∃ (_ : LinearOrder Expr) (_ : LinearOrder Assignment),
    let q := IndependentSolver.twoArraysQuery
    let calls := [(SolverImpl.oracle, Call.truth q), (SolverImpl.oracle, Call.validity q)]
    (∀ p ∈ calls, p.1.Correct ∧ p.2.Ok) ∧
      List.Forall₂ (fun p answer => ∀ x ∈ answer, p.2.Sound x) calls (run {} {} calls).1 := by
  classical
  let _ : LinearOrder Expr := linearOrderOfSTO WellOrderingRel
  let _ : LinearOrder Assignment := linearOrderOfSTO WellOrderingRel
  refine ⟨inferInstance, inferInstance, ?_⟩
  intro q calls
  have hq : q.Ok := ⟨by decide, by decide, by decide⟩
  have hcalls : ∀ p ∈ calls, p.1.Correct ∧ p.2.Ok := by
    simp only [calls, List.forall_mem_cons]
    exact ⟨⟨SolverImpl.oracle_correct, hq, rfl⟩, ⟨SolverImpl.oracle_correct, hq, rfl⟩, by simp⟩
  exact ⟨hcalls, (run_sound {} calls hcalls).2.2⟩

theorem computeTruthExp_of_unknown (h : lookupAssignment opts s q.negateExpr ≠ some none) :
    computeTruthExp opts solver s q = computeTruth opts solver s q := by
  unfold computeTruthExp
  split
  · rename_i hnull
    exact absurd hnull h
  · rfl

theorem computeTruthExp_of_null (h : lookupAssignment opts s q.negateExpr = some none) :
    computeTruthExp opts solver s q = (none, s) := by
  unfold computeTruthExp
  rw [h]

theorem callExp_ok (hsolver : solver.Correct) (hs : Inv s) {c : Call} (hc : c.Ok) :
    StepOk Inv c.Sound (callExp opts solver s c) := by
  cases c with
  | truth q =>
    by_cases hnull : lookupAssignment opts s q.negateExpr = some none
    · rw [callExp, computeTruthExp_of_null hnull]
      exact .fail hs
    · rw [callExp, computeTruthExp_of_unknown hnull]
      exact call_ok hsolver hs hc
  | validity q => exact call_ok hsolver hs hc
  | value q => exact call_ok hsolver hs hc
  | initialValues q objects => exact call_ok hsolver hs hc

section Runs

variable {calls : List (SolverImpl × Call)} (h : ∀ p ∈ calls, p.1.Correct ∧ p.2.Ok)

include h

theorem run_inv : Inv (run opts {} calls).2 :=
  (Calls.run_ok (fun _ _ hs hp => call_ok hp.1 hs hp.2) calls {} inv_init h).1

theorem runExp_inv : Inv (runExp opts {} calls).2 :=
  (Calls.run_ok (fun _ _ hs hp => callExp_ok hp.1 hs hp.2) calls {} inv_init h).1

end Runs

theorem exists_computeTruth (hfail : ∀ objects, solver.computeInitialValues q objects ≠ none) :
    ∃ b, (computeTruth opts solver s q).1 = some b := by
  unfold computeTruth getAssignment
  cases lookupAssignment opts s q with
  | some v => exact ⟨_, rfl⟩
  | none =>
    dsimp only
    split
    · rename_i hnone
      split at hnone
      · rename_i hanswer
        exact absurd hanswer (hfail _)
      · cases hnone
      · cases hnone
    · exact ⟨_, rfl⟩

/-- With `-cex-cache-exp` on a truth query is answered, and as with it off, exactly
when the cache does not know that the constraints and the expression have no
solution together: over the same cache, and over the caches that one history of
calls leaves with the option on and off. -/
theorem computeTruthExp_agrees_iff (opts : Options) (solver : SolverImpl) (q : Query)
    (hfail : ∀ objects, solver.computeInitialValues q objects ≠ none) :
    (∀ s, (∃ b, (computeTruthExp opts solver s q).1 = some b ∧ (computeTruth opts solver s q).1 = some b) ↔
        lookupAssignment opts s q.negateExpr ≠ some none) ∧
      ∀ calls : List (SolverImpl × Call), (∀ p ∈ calls, p.1.Correct ∧ p.2.Ok) → solver.Correct →
        (Call.truth q).Ok →
        ((∃ b, (computeTruthExp opts solver (runExp opts {} calls).2 q).1 = some b ∧
            (computeTruth opts solver (run opts {} calls).2 q).1 = some b) ↔
          lookupAssignment opts (runExp opts {} calls).2 q.negateExpr ≠ some none) := by
  have hnull : ∀ {s b}, (computeTruthExp opts solver s q).1 = some b →
      lookupAssignment opts s q.negateExpr ≠ some none := by
    intro s b hb hnull
    rw [computeTruthExp_of_null hnull] at hb
    cases hb
  refine ⟨fun s => ⟨fun ⟨b, hb, _⟩ => hnull hb, fun h => ?_⟩,
    fun calls hcalls hsolver hq => ⟨fun ⟨b, hb, _⟩ => hnull hb, fun h => ?_⟩⟩
  · obtain ⟨b, hb⟩ : ∃ b, (computeTruth opts solver s q).1 = some b := exists_computeTruth hfail
    exact ⟨b, by rw [computeTruthExp_of_unknown h]; exact hb, hb⟩
  · -- both answers say whether the query is valid, so they are the same
    obtain ⟨b, hb⟩ := exists_computeTruth (s := (runExp opts {} calls).2) hfail
    obtain ⟨b', hb'⟩ := exists_computeTruth (s := (run opts {} calls).2) hfail
    have hvalid := (computeTruth_ok hsolver (runExp_inv hcalls) hq.1 hq.2).answer b hb
    have hvalid' := (computeTruth_ok hsolver (run_inv hcalls) hq.1 hq.2).answer b' hb'
    have hsame : b' = b := Bool.eq_iff_iff.mpr (hvalid'.trans hvalid.symm)
    exact ⟨b, by rw [computeTruthExp_of_unknown h]; exact hb, hsame ▸ hb'⟩

def falseQuery : Query := ⟨[], ConstantExpr.alloc 0 1⟩

omit [LinearOrder Expr] [LinearOrder Assignment] in
theorem falseQuery_ok : (Call.truth falseQuery).Ok := ⟨⟨by decide, by decide, by decide⟩, rfl⟩

omit [LinearOrder Expr] [LinearOrder Assignment] in
theorem computeTruthExp_agrees_iff_oracle : ∃ (_ : LinearOrder Expr) (_ : LinearOrder Assignment),
    let q := IndependentSolver.twoArraysQuery
    (∀ objects, SolverImpl.oracle.computeInitialValues q objects ≠ none) ∧
      ∃ b, (computeTruthExp {} SolverImpl.oracle {} q).1 = some b ∧
        (computeTruth {} SolverImpl.oracle {} q).1 = some b := by
  classical
  let _ : LinearOrder Expr := linearOrderOfSTO WellOrderingRel
  let _ : LinearOrder Assignment := linearOrderOfSTO WellOrderingRel
  refine ⟨inferInstance, inferInstance, ?_⟩
  intro q
  have hfail : ∀ objects, SolverImpl.oracle.computeInitialValues q objects ≠ none := fun _ => by
    simp [SolverImpl.oracle]
  refine ⟨hfail, ((computeTruthExp_agrees_iff {} SolverImpl.oracle q hfail).1 {}).mpr ?_⟩
  intro hnull
  have hq : q.Ok := ⟨by decide, by decide, by decide⟩
  obtain ⟨hneg, hw⟩ := hq.negateExpr rfl
  have hσ : (fun array i => if array.size ≤ i then 0 else if array.id = 0 then 5 else 7) ∈ Assignments :=
    fun array i hi => if_pos hi
  exact lookupAssignment_ok hneg hw inv_init hnull ⟨_, hσ, by decide +kernel, by decide +kernel⟩

omit [LinearOrder Expr] [LinearOrder Assignment] in
/-- On an empty cache the query whether false is true fails with `-cex-cache-exp`
on; with it off the answer is no. -/
theorem computeTruthExp_fails : ∃ (_ : LinearOrder Expr) (_ : LinearOrder Assignment),
    (Call.truth falseQuery).Ok ∧ (∃ σ ∈ Assignments, σ ∈ Models falseQuery.constraints) ∧
      (∀ objects, SolverImpl.oracle.computeInitialValues falseQuery objects ≠ none) ∧
      (computeTruthExp {} SolverImpl.oracle {} falseQuery).1 = none ∧
      (computeTruth {} SolverImpl.oracle {} falseQuery).1 = some false := by
  classical
  let _ : LinearOrder Expr := linearOrderOfSTO WellOrderingRel
  let _ : LinearOrder Assignment := linearOrderOfSTO WellOrderingRel
  refine ⟨inferInstance, inferInstance, ?_⟩
  have hσ : (fun _ _ => 0) ∈ Assignments := fun _ _ _ => rfl
  have hfail : ∀ objects, SolverImpl.oracle.computeInitialValues falseQuery objects ≠ none := fun _ => by
    simp [SolverImpl.oracle]
  refine ⟨falseQuery_ok, ⟨_, hσ, by simp [falseQuery, Models]⟩, hfail, ?_, ?_⟩
  · rw [computeTruthExp_of_null]
    rfl
  · obtain ⟨b, hb⟩ : ∃ b, (computeTruth {} SolverImpl.oracle {} falseQuery).1 = some b :=
      exists_computeTruth hfail
    have hvalid : b = true ↔ falseQuery.Valid :=
      (computeTruth_ok SolverImpl.oracle_correct inv_init falseQuery_ok.1 rfl).answer b hb
    have hnot : ¬ falseQuery.Valid := fun h => absurd (h _ hσ (by simp [falseQuery, Models])) (by decide)
    rw [hb, Bool.eq_false_iff.mpr (hvalid.not.mpr hnot)]

end CexCachingSolver

end Klee
