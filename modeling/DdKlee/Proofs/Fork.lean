import DdKlee.Proofs.PTree
import DdKlee.Proofs.TimingSolver
import DdKlee.Spec.Executor

/-! `fork` and `branch` divide the solutions of a path condition among states that
are otherwise the same. -/

namespace Klee

open Expr

/-- A path condition is a list of Bool expressions that can hold together. -/
structure Feasible (constraints : List Expr) : Prop where
  typed : ∀ c ∈ constraints, IsConstraint c
  satisfiable : (Solutions constraints).Nonempty

/-- The solver is right about every path condition and does not fail. -/
def SolverImpl.Reliable (s : SolverImpl) : Prop := ∀ constraints, Feasible constraints → s.ExactOn constraints

theorem SolverImpl.oracle_reliable : SolverImpl.oracle.Reliable := fun _ h => oracle_exactOn h.satisfiable

theorem Feasible.exact {constraints : List Expr} (h : Feasible constraints) {ts : TimingSolver}
    (hts : ts.solver.Reliable) : ts.Exact constraints := ⟨hts _ h, h.typed⟩

/-- The object states that an address space reads, in the order of their addresses. -/
def AddressSpace.contents (heap : Heap) (as : AddressSpace) : List (MemoryObject × Option ObjectState) :=
  as.objects.entries.map fun (mo, os) => (mo, heap[os]?)

namespace ExecutionState

variable {s t u : ExecutionState}

/-- The program is at the same place with the same data. -/
structure Resembles (s t : ExecutionState) : Prop where
  pc : t.pc = s.pc
  prevPC : t.prevPC = s.prevPC
  stack : t.stack = s.stack
  objects : t.addressSpace.objects = s.addressSpace.objects
  symbolics : t.symbolics = s.symbolics

theorem Resembles.refl (s : ExecutionState) : Resembles s s := ⟨rfl, rfl, rfl, rfl, rfl⟩

theorem Resembles.trans (h : Resembles s t) (h' : Resembles t u) : Resembles s u :=
  ⟨h'.pc.trans h.pc, h'.prevPC.trans h.prevPC, h'.stack.trans h.stack, h'.objects.trans h.objects,
    h'.symbolics.trans h.symbolics⟩

theorem addConstraint_ok (opts : ConstraintOptions) (hs : ∀ c ∈ s.constraints, IsConstraint c) {c : Expr}
    (hc : IsConstraint c) (hsat : ∃ σ ∈ Solutions s.constraints, c.holds σ) :
    ∃ cs, s.addConstraint opts c = some { s with constraints := cs } ∧ Feasible cs ∧
      Solutions cs = {σ ∈ Solutions s.constraints | c.holds σ} := by
  obtain ⟨σ, hσ, hholds⟩ := hsat
  obtain ⟨cs, hrun, htyped, -, hmodels⟩ := ConstraintManager.addConstraint_ok opts _ s.constraints c hs hc
    (Nat.lt_succ_self _) ⟨σ, hσ.2, hholds⟩
  have hsolutions : Solutions cs = {σ ∈ Solutions s.constraints | c.holds σ} := by
    ext τ
    simp only [Solutions, Set.mem_inter_iff, Set.mem_ofPred_eq, hmodels, and_assoc]
  refine ⟨cs, ?_, ⟨htyped, σ, hsolutions ▸ ⟨hσ, hholds⟩⟩, hsolutions⟩
  change (ConstraintManager.addConstraint opts _ s.constraints c).toOption.bind _ = _
  unfold totalWeight at hrun
  rw [hrun]
  rfl

end ExecutionState

namespace Executor

open ExecutionState

variable {ex ex' : Executor} {i j : ℕ} {s t : ExecutionState} {ts : TimingSolver} {c : Expr}

/-- A state of the interpreter, which is at a leaf of the process tree. -/
structure Live (ex : Executor) (i : ℕ) (s : ExecutionState) : Prop where
  get : ex.store.get i = some s
  leaf : ex.processTree.leafAt s.ptreeNode = some (some i)

structure Sets (ex ex' : Executor) (i : ℕ) (s : ExecutionState) : Prop where
  same : ex' = { ex with store := ex'.store }
  get : ex'.store.get i = some s
  others : ∀ j ≠ i, ex'.store.get j = ex.store.get j

theorem addConstraint_ok (opts : ConstraintOptions) (hget : ex.store.get i = some s)
    (hs : ∀ c ∈ s.constraints, IsConstraint c) (hc : IsConstraint c)
    (hsat : ∃ σ ∈ Solutions s.constraints, c.holds σ) :
    ∃ ex' cs, ex.addConstraint opts i c = some ex' ∧ Sets ex ex' i { s with constraints := cs } ∧ Feasible cs ∧
      Solutions cs = {σ ∈ Solutions s.constraints | c.holds σ} := by
  unfold addConstraint
  split
  · rename_i k
    obtain ⟨σ, hσ, hholds⟩ := hsat
    have htrue : ConstantExpr.isTrue k = true := holds_constant.mp hholds
    refine ⟨ex, s.constraints, if_pos htrue, ⟨rfl, hget, fun _ _ => rfl⟩, ⟨hs, σ, hσ⟩, ?_⟩
    ext τ
    exact ⟨fun hτ => ⟨hτ, holds_constant.mpr htrue⟩, fun hτ => hτ.1⟩
  · obtain ⟨cs, hrun, hcs⟩ := s.addConstraint_ok opts hs hc hsat
    refine ⟨{ ex with store := ex.store.set i { s with constraints := cs } }, cs, ?_,
      ⟨rfl, Store.get_set_self hget, fun j hj => Store.get_set_ne hj⟩, hcs⟩
    simp only [hget, hrun, some_bind]

theorem Sets.processTree (h : Sets ex ex' i s) : ex'.processTree = ex.processTree := by rw [h.same]

theorem Sets.live {cs : List Expr} (h : Sets ex ex' i { s with constraints := cs }) (hs : Live ex i s) :
    Live ex' i { s with constraints := cs } :=
  ⟨h.get, by rw [h.processTree]; exact hs.leaf⟩

theorem Sets.live_of_ne (h : Sets ex ex' i s) (hj : j ≠ i) (ht : Live ex j t) : Live ex' j t :=
  ⟨(h.others j hj).trans ht.get, by rw [h.processTree]; exact ht.leaf⟩

structure Branches (ex ex' : Executor) (es ns : ℕ) : Prop where
  same : ex' = { ex with store := ex'.store, processTree := ex'.processTree, addedStates := ex.addedStates ++ [ns] }
  fresh : ex.store.get ns = none
  get : ∀ j ≠ es, j ≠ ns → ex'.store.get j = ex.store.get j
  others : ∀ j ≠ es, ∀ t, Live ex j t → Live ex' j t

theorem Branches.ne (h : Branches ex ex' i j) (hs : Live ex i s) : j ≠ i := by
  rintro rfl
  cases h.fresh.symm.trans hs.get

theorem Branches.sets {ns : ℕ} {ex₁ : Executor} (h : Branches ex ex₁ i ns) (hi : j = i ∨ j = ns)
    (hs : Sets ex₁ ex' j s) : Branches ex ex' i ns where
  same := by
    rw [hs.same, h.same]
  fresh := h.fresh
  get k hk hns := (hs.others k (by rcases hi with rfl | rfl <;> assumption)).trans (h.get k hk hns)
  others k hk t ht := by
    have hne : k ≠ j := by
      rintro rfl
      rcases hi with rfl | rfl
      · exact hk rfl
      · cases h.fresh.symm.trans ht.get
    exact hs.live_of_ne hne (h.others k hk t ht)

theorem addBranch_ok (h : Live ex i s) :
    ∃ ns ex', ex.addBranch i = some (ns, ex') ∧ Branches ex ex' i ns ∧
      Live ex' i { s.branch.1 with ptreeNode := s.ptreeNode ++ [true] } ∧
      Live ex' ns { s.branch.2 with ptreeNode := s.ptreeNode ++ [false] } := by
  let source := { s.branch.1 with ptreeNode := s.ptreeNode ++ [true] }
  let copy := { s.branch.2 with ptreeNode := s.ptreeNode ++ [false] }
  let ns := ((ex.store.set i source).alloc copy).1
  obtain ⟨tree, hrun, hleaves⟩ := PTree.attach_ok ns i s.ptreeNode h.leaf
  have hself : (ex.store.set i source).get i = some source := Store.get_set_self h.get
  have hne : i ≠ ns := Store.ne_alloc hself
  have hfresh : ex.store.get ns = none := (Store.get_set_ne hne.symm).symm.trans Store.get_alloc_fst
  have hget : ∀ j ≠ i, j ≠ ns → ((ex.store.set i source).alloc copy).2.get j = ex.store.get j := fun j hj hns =>
    (Store.get_alloc hns).trans (Store.get_set_ne hj)
  refine ⟨ns, { ex with
    store := ((ex.store.set i source).alloc copy).2
    addedStates := ex.addedStates ++ [ns]
    processTree := tree }, ?_, ⟨rfl, hfresh, hget, fun j hj t ht => ⟨?_, ?_⟩⟩, ⟨?_, ?_⟩, ⟨?_, ?_⟩⟩
  · simp only [addBranch, h.get, some_bind]
    exact congrArg (Option.bind · _) hrun
  · have hns : j ≠ ns := by
      rintro rfl
      cases hfresh.symm.trans ht.get
    exact (hget j hj hns).trans ht.get
  · refine (hleaves _ _).mpr (.inr (.inr ⟨fun hnode => hj ?_, ht.leaf⟩))
    simpa [hnode, h.leaf, eq_comm] using ht.leaf
  · exact (Store.get_alloc hne).trans hself
  · exact (hleaves _ _).mpr (.inr (.inl ⟨rfl, rfl⟩))
  · exact Store.get_alloc_self
  · exact (hleaves _ _).mpr (.inl ⟨rfl, rfl⟩)

structure Splits (ex ex' : Executor) (i ns : ℕ) (s : ExecutionState) (c : Expr) (cs cs' : List Expr) : Prop extends
    Branches ex ex' i ns where
  trueState : Live ex' i { s.branch.1 with ptreeNode := s.ptreeNode ++ [true], constraints := cs }
  falseState : Live ex' ns { s.branch.2 with ptreeNode := s.ptreeNode ++ [false], constraints := cs' }
  feasible : Feasible cs ∧ Feasible cs'
  solutions : Solutions cs = {σ ∈ Solutions s.constraints | c.holds σ} ∧
    Solutions cs' = {σ ∈ Solutions s.constraints | ¬ c.holds σ}

theorem fork_ok (hts : ts.solver.Reliable) (h : Live ex i s) (hs : Feasible s.constraints) (hc : IsConstraint c) :
    ((∀ σ ∈ Solutions s.constraints, c.holds σ) ∧ ex.fork ts i c = some ((some i, none), ex)) ∨
    ((∀ σ ∈ Solutions s.constraints, ¬ c.holds σ) ∧ ex.fork ts i c = some ((none, some i), ex)) ∨
    ∃ ns ex' cs cs', ex.fork ts i c = some ((some i, some ns), ex') ∧ Splits ex ex' i ns s c cs cs' := by
  obtain ⟨v, heval, hv⟩ := TimingSolver.evaluate_ok (hs.exact hts) hc
  cases v with
  | true => exact .inl ⟨hv, by simp only [fork, h.get, heval, some_bind]⟩
  | false => exact .inr (.inl ⟨hv, by simp only [fork, h.get, heval, some_bind]⟩)
  | unknown =>
    obtain ⟨htrue, σ, hσ, hfalse⟩ := hv
    obtain ⟨ns, ex₁, hrun1, hb, htrue1, hfalse1⟩ := addBranch_ok h
    have hne : ns ≠ i := hb.ne h
    obtain ⟨ex₂, cs, hrun2, hset, hcs, hsol⟩ := addConstraint_ok ts.opts htrue1.get hs.typed hc htrue
    have hfalse2 := hset.live_of_ne hne hfalse1
    obtain ⟨ex3, cs', hrun3, hset', hcs', hsol'⟩ := addConstraint_ok ts.opts hfalse2.get hs.typed
      (createIsZero_isConstraint hc) ⟨σ, hσ, (holds_createIsZero hc).mpr hfalse⟩
    refine .inr (.inr ⟨ns, ex3, cs, cs', ?_, ⟨(hb.sets (.inl rfl) hset).sets (.inr rfl) hset',
      hset'.live_of_ne hne.symm (hset.live htrue1), hset'.live hfalse2, ⟨hcs, hcs'⟩, hsol, ?_⟩⟩)
    · simp only [fork, h.get, heval, hrun1, hrun2, hrun3, some_bind]
    · rw [hsol']
      ext τ
      simp only [Set.mem_ofPred_eq, holds_createIsZero hc]
      rfl

/-- The states that the loop of `branch` has made of one. -/
structure Multiplies (ex ex' : Executor) (i : ℕ) (s : ExecutionState) (copies : List ℕ) : Prop where
  same : ex' = { ex with store := ex'.store, processTree := ex'.processTree, addedStates := ex.addedStates ++ copies }
  nodup : (i :: copies).Nodup
  live : ∀ j ∈ i :: copies, ∃ t, Live ex' j t ∧ Resembles s t ∧ t.constraints = s.constraints

theorem branchStates_ok (h : Live ex i s) (getInt32 : ℕ → ℕ) (n : ℕ) :
    ∃ copies ex', ex.branchStates getInt32 i n = some (i :: copies, ex') ∧ copies.length = n ∧
      Multiplies ex ex' i s copies := by
  induction n with
  | zero =>
    refine ⟨[], ex, rfl, rfl, ⟨by simp, by simp, fun j hj => ⟨s, ?_, .refl s, rfl⟩⟩⟩
    exact List.mem_singleton.mp hj ▸ h
  | succ n ih =>
    obtain ⟨copies, ex₁, hrun, hlen, hm⟩ := ih
    have hpick : getInt32 (n + 1) % (n + 1) < (i :: copies).length := by
      rw [List.length_cons, hlen]
      exact Nat.mod_lt _ (Nat.succ_pos n)
    obtain ⟨t, ht, hst, hcs⟩ := hm.live _ (List.getElem_mem hpick)
    obtain ⟨ns, ex₂, hbranch, hb, hsource, hcopy⟩ := addBranch_ok ht
    have hnew : ns ∉ i :: copies := fun hns => by
      obtain ⟨u, hu, -⟩ := hm.live ns hns
      cases hb.fresh.symm.trans hu.get
    refine ⟨copies ++ [ns], ex₂, ?_, by simp [hlen], ⟨?_, ?_, fun j hj => ?_⟩⟩
    · simp only [branchStates, hrun, some_bind, List.getElem?_eq_getElem hpick, hbranch,
        List.cons_append]
    · rw [hb.same, hm.same]
      simp
    · rw [← List.cons_append]
      exact hm.nodup.append (List.nodup_singleton ns) (by simpa using hnew)
    · rw [← List.cons_append, List.mem_append, List.mem_singleton] at hj
      rcases hj with hj | rfl
      · by_cases hes : j = (i :: copies)[getInt32 (n + 1) % (n + 1)]
        · subst hes
          exact ⟨_, hsource, hst.trans ⟨rfl, rfl, rfl, rfl, rfl⟩, hcs⟩
        · obtain ⟨u, hu, hsu, hcu⟩ := hm.live j hj
          exact ⟨u, hb.others j hes u hu, hsu, hcu⟩
      · exact ⟨_, hcopy, hst.trans ⟨rfl, rfl, rfl, rfl, rfl⟩, hcs⟩

theorem addConstraints_ok (opts : ConstraintOptions) (hs : ∀ c ∈ s.constraints, IsConstraint c)
    (pairs : List (ℕ × Expr)) : ∀ {ex : Executor}, (pairs.map Prod.fst).Nodup →
      (∀ p ∈ pairs, ∃ t, ex.store.get p.1 = some t ∧ Resembles s t ∧ t.constraints = s.constraints) →
      (∀ p ∈ pairs, IsConstraint p.2 ∧ ∃ σ ∈ Solutions s.constraints, p.2.holds σ) →
      ∃ ex', pairs.foldlM (fun ex p => ex.addConstraint opts p.1 p.2) ex = some ex' ∧
        ex' = { ex with store := ex'.store } ∧
        (∀ j ∉ pairs.map Prod.fst, ex'.store.get j = ex.store.get j) ∧
        ∀ p ∈ pairs, ∃ t, ex'.store.get p.1 = some t ∧ Resembles s t ∧
          Solutions t.constraints = {σ ∈ Solutions s.constraints | p.2.holds σ} := by
  induction pairs with
  | nil => exact fun _ _ _ => ⟨_, rfl, rfl, fun _ _ => rfl, by simp⟩
  | cons p pairs ih =>
    intro ex hnodup hstates hconds
    rw [List.map_cons, List.nodup_cons] at hnodup
    obtain ⟨⟨t, ht, hst, hcs⟩, hstates⟩ := List.forall_mem_cons.mp hstates
    obtain ⟨⟨hc, hsat⟩, hconds⟩ := List.forall_mem_cons.mp hconds
    rw [← hcs] at hs hsat
    obtain ⟨ex₁, cs, hrun1, hset, -, hsol⟩ := addConstraint_ok opts ht hs hc hsat
    have hothers : ∀ q ∈ pairs, q.1 ≠ p.1 := fun q hq heq => hnodup.1 (heq ▸ List.mem_map_of_mem hq)
    obtain ⟨ex₂, hrun2, hsame, hkept, hdone⟩ := ih hnodup.2
      (fun q hq => by rw [hset.others _ (hothers q hq)]; exact hstates q hq) hconds
    refine ⟨ex₂, ?_, by rw [hsame, hset.same], fun j hj => ?_, List.forall_mem_cons.mpr ⟨?_, hdone⟩⟩
    · rw [List.foldlM_cons, hrun1]
      exact hrun2
    · rw [List.map_cons, List.mem_cons, not_or] at hj
      rw [hkept j hj.2, hset.others j hj.1]
    · refine ⟨_, (hkept p.1 hnodup.1).trans hset.get, hst.trans ⟨rfl, rfl, rfl, rfl, rfl⟩, ?_⟩
      rw [hsol, hcs]

/-- A state of its own for some solutions, in which the program is where it was. -/
def Explores (ex ex' : Executor) (s : ExecutionState) (solutions : Set Bytes) (j : ℕ) : Prop :=
  ∃ t, ex'.store.get j = some t ∧ Solutions t.constraints = solutions ∧ solutions.Nonempty ∧ t.pc = s.pc ∧
    t.stack = s.stack ∧ t.addressSpace.contents ex'.heap = s.addressSpace.contents ex.heap

theorem Explores.of_resembles {solutions : Set Bytes} (hheap : ex'.heap = ex.heap) (hget : ex'.store.get j = some t)
    (hst : Resembles s t) (hsol : Solutions t.constraints = solutions) (hsat : solutions.Nonempty) :
    Explores ex ex' s solutions j :=
  ⟨t, hget, hsol, hsat, hst.pc, hst.stack, by unfold AddressSpace.contents; rw [hst.objects, hheap]⟩

theorem fork_explores (hts : ts.solver.Reliable) (h : Live ex i s) (hs : Feasible s.constraints)
    (hc : IsConstraint c) :
    ∃ l r ex', ex.fork ts i c = some ((l, r), ex') ∧
      (∀ j ∈ l, Explores ex ex' s {σ ∈ Solutions s.constraints | c.holds σ} j) ∧
      (l = none ↔ ¬ ∃ σ ∈ Solutions s.constraints, c.holds σ) ∧
      (∀ j ∈ r, Explores ex ex' s {σ ∈ Solutions s.constraints | ¬ c.holds σ} j) ∧
      (r = none ↔ ¬ ∃ σ ∈ Solutions s.constraints, ¬ c.holds σ) ∧
      ex'.addedStates = ex.addedStates ++ (l.toList ++ r.toList).filter (· ≠ i) := by
  obtain ⟨σ, hσ⟩ := hs.satisfiable
  rcases fork_ok hts h hs hc with ⟨hall, hrun⟩ | ⟨hall, hrun⟩ | ⟨ns, ex', cs, cs', hrun, hsplit⟩
  · refine ⟨_, _, _, hrun, ?_, ?_, by simp, ?_, by simp⟩
    · rintro j ⟨⟩
      refine .of_resembles rfl h.get (.refl s) ?_ ⟨σ, hσ, hall σ hσ⟩
      ext τ
      exact ⟨fun hτ => ⟨hτ, hall τ hτ⟩, fun hτ => hτ.1⟩
    · simpa using ⟨σ, hσ, hall σ hσ⟩
    · simpa using hall
  · refine ⟨_, _, _, hrun, by simp, ?_, ?_, ?_, by simp⟩
    · simpa using hall
    · rintro j ⟨⟩
      refine .of_resembles rfl h.get (.refl s) ?_ ⟨σ, hσ, hall σ hσ⟩
      ext τ
      exact ⟨fun hτ => ⟨hτ, hall τ hτ⟩, fun hτ => hτ.1⟩
    · simpa using ⟨σ, hσ, hall σ hσ⟩
  · have hheap : ex'.heap = ex.heap := by rw [hsplit.same]
    have htrue : {σ ∈ Solutions s.constraints | c.holds σ}.Nonempty :=
      hsplit.solutions.1 ▸ hsplit.feasible.1.satisfiable
    have hfalse : {σ ∈ Solutions s.constraints | ¬ c.holds σ}.Nonempty :=
      hsplit.solutions.2 ▸ hsplit.feasible.2.satisfiable
    refine ⟨_, _, _, hrun, ?_, ?_, ?_, ?_, ?_⟩
    · rintro j ⟨⟩
      exact .of_resembles hheap hsplit.trueState.get ⟨rfl, rfl, rfl, rfl, rfl⟩ hsplit.solutions.1 htrue
    · exact ⟨fun h => (by cases h), fun h => absurd htrue h⟩
    · rintro j ⟨⟩
      exact .of_resembles hheap hsplit.falseState.get ⟨rfl, rfl, rfl, rfl, rfl⟩ hsplit.solutions.2 hfalse
    · exact ⟨fun h => (by cases h), fun h => absurd hfalse h⟩
    · rw [hsplit.same]
      simp [hsplit.ne h]

theorem branch_explores (opts : ConstraintOptions) (getInt32 : ℕ → ℕ) (h : Live ex i s)
    (hs : ∀ c ∈ s.constraints, IsConstraint c) {conditions : List Expr} (hne : conditions ≠ [])
    (hconds : ∀ c ∈ conditions, IsConstraint c ∧ ∃ σ ∈ Solutions s.constraints, c.holds σ) :
    ∃ result ex', ex.branch opts getInt32 i conditions = some (result, ex') ∧ result.Nodup ∧
      List.Forall₂ (fun j c => Explores ex ex' s {σ ∈ Solutions s.constraints | c.holds σ} j) result conditions ∧
      ex'.addedStates = ex.addedStates ++ result.filter (· ≠ i) := by
  obtain ⟨copies, ex₁, hrun1, hlen, hm⟩ := branchStates_ok h getInt32 (conditions.length - 1)
  have hpos := List.length_pos_iff.mpr hne
  have hlen' : (i :: copies).length = conditions.length := by rw [List.length_cons, hlen]; omega
  have hfst : ((i :: copies).zip conditions).map Prod.fst = i :: copies := List.map_fst_zip hlen'.le
  obtain ⟨ex₂, hrun2, hsame, -, hdone⟩ := addConstraints_ok opts hs ((i :: copies).zip conditions)
    (hfst.symm ▸ hm.nodup)
    (fun p hp => by
      obtain ⟨t, ht, hst⟩ := hm.live p.1 (List.of_mem_zip hp).1
      exact ⟨t, ht.get, hst⟩)
    fun p hp => hconds p.2 (List.of_mem_zip hp).2
  refine ⟨i :: copies, ex₂, ?_, hm.nodup, List.forall₂_iff_zip.mpr ⟨hlen', fun {j c} hp => ?_⟩, ?_⟩
  · simp only [branch, if_neg hne, hrun1, some_bind]
    exact congrArg (Option.bind · _) hrun2
  · obtain ⟨t, hget, hst, hsol⟩ := hdone (j, c) hp
    exact .of_resembles (by rw [hsame, hm.same]) hget hst hsol (hconds c (List.of_mem_zip hp).2).2
  · have hcopies : copies.filter (· ≠ i) = copies := List.filter_eq_self.mpr fun j hj => by
      have hi := (List.nodup_cons.mp hm.nodup).1
      exact decide_eq_true fun hji => hi (hji ▸ hj)
    rw [hsame, hm.same, List.filter_cons_of_neg (by simp), hcopies]

/-- Forking partitions the path condition. The states that `fork` and `branch` return
have the solutions of their sides, and only states other than the one forked are new. -/
theorem fork_branch_partition (hts : ts.solver.Reliable) (h : Live ex i s) (hs : Feasible s.constraints) :
    (∀ c, IsConstraint c → ∃ l r ex', ex.fork ts i c = some ((l, r), ex') ∧
      (∀ j ∈ l, Explores ex ex' s {σ ∈ Solutions s.constraints | c.holds σ} j) ∧
      (l = none ↔ ¬ ∃ σ ∈ Solutions s.constraints, c.holds σ) ∧
      (∀ j ∈ r, Explores ex ex' s {σ ∈ Solutions s.constraints | ¬ c.holds σ} j) ∧
      (r = none ↔ ¬ ∃ σ ∈ Solutions s.constraints, ¬ c.holds σ) ∧
      ex'.addedStates = ex.addedStates ++ (l.toList ++ r.toList).filter (· ≠ i)) ∧
    ∀ conditions ≠ [], (∀ c ∈ conditions, IsConstraint c ∧ ∃ σ ∈ Solutions s.constraints, c.holds σ) →
      ∀ getInt32, ∃ result ex', ex.branch ts.opts getInt32 i conditions = some (result, ex') ∧ result.Nodup ∧
        List.Forall₂ (fun j c => Explores ex ex' s {σ ∈ Solutions s.constraints | c.holds σ} j) result conditions ∧
        ex'.addedStates = ex.addedStates ++ result.filter (· ≠ i) :=
  ⟨fun _ hc => fork_explores hts h hs hc,
    fun _ hne hconds getInt32 => branch_explores ts.opts getInt32 h hs.typed hne hconds⟩

/-- A state with one symbolic byte is forked on a bound for it. -/
theorem fork_branch_partition_byte :
    let x := Expr.read (Array.symbolic 0 "x" 1 (by decide)) .null (constant (APInt.ofNat 32 0))
    let c := binary .ult x (constant (APInt.ofNat 8 10))
    let s : ExecutionState := ⟨0, 0, [], {}, [], 0, false, [], []⟩
    let ex : Executor := ⟨[], {}, ⟨[some s]⟩, [0], [], [], .leaf 0, []⟩
    (∃ j ns ex', ex.fork ⟨SolverImpl.oracle, true, {}⟩ 0 c = some ((some j, some ns), ex') ∧
      Explores ex ex' s {σ ∈ Solutions [] | c.holds σ} j ∧ Explores ex ex' s {σ ∈ Solutions [] | ¬ c.holds σ} ns) ∧
    ∃ result ex', ex.branch {} (fun _ => 7) 0 [c, c.createIsZero] = some (result, ex') ∧ result.Nodup := by
  intro x c s ex
  have hσ : ∀ b : BitVec 8, (fun array i => if array.size ≤ i then 0 else b) ∈ Solutions [] := fun b =>
    ⟨fun array i hi => if_pos hi, mem_models_nil _⟩
  have htrue : ∃ σ ∈ Solutions [], c.holds σ := ⟨_, hσ 0, by decide⟩
  have hfalse : ∃ σ ∈ Solutions [], ¬ c.holds σ := ⟨_, hσ 200, by decide⟩
  have hfeasible : Feasible s.constraints := ⟨by simp [s], _, hσ 0⟩
  let ts : TimingSolver := ⟨SolverImpl.oracle, true, {}⟩
  have hts : ts.solver.Reliable := SolverImpl.oracle_reliable
  have hlive : Live ex 0 s := ⟨rfl, rfl⟩
  have hc : IsConstraint c := by decide
  obtain ⟨hfork, hbranch⟩ := fork_branch_partition hts hlive hfeasible
  obtain ⟨l, r, ex', hrun, hl, hlnone, hr, hrnone, -⟩ := hfork c hc
  obtain ⟨j, rfl⟩ := Option.ne_none_iff_exists'.mp fun h => hlnone.mp h htrue
  obtain ⟨ns, rfl⟩ := Option.ne_none_iff_exists'.mp fun h => hrnone.mp h hfalse
  refine ⟨⟨j, ns, ex', hrun, hl j rfl, hr ns rfl⟩, ?_⟩
  obtain ⟨result, ex'', hrun', hnodup, -⟩ := hbranch [c, c.createIsZero] (by simp) (fun e he => by
    rcases List.mem_cons.mp he with rfl | he
    · exact ⟨hc, htrue⟩
    · obtain rfl := List.mem_singleton.mp he
      obtain ⟨σ, hsol, hno⟩ := hfalse
      exact ⟨createIsZero_isConstraint hc, σ, hsol, (holds_createIsZero hc).mpr hno⟩) fun _ => 7
  exact ⟨result, ex'', hrun', hnodup⟩

end Executor

end Klee
