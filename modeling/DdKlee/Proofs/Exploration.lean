import DdKlee.Proofs.MainLoop
import DdKlee.Proofs.Successors
import DdKlee.Spec.Exploration

/-! Every input that satisfies the path condition of the first state is on exactly one path:
that of a state which is still active, or one that ended. -/

namespace Klee.Executor

open Expr

variable {ex ex' : Executor} {i : ℕ} {s t : ExecutionState} {ts : TimingSolver} {whole : Set Bytes}
  {paths succs : List Successor}

/-- An active state, which the executor knows of. -/
structure Runs (ex : Executor) (i : ℕ) (s : ExecutionState) : Prop extends Live ex i s where
  typed : ∀ c ∈ s.constraints, IsConstraint c
  listed : i ∈ ex.states ∨ i ∈ ex.addedStates

/-- The states that `updateStates` will delete, each of them once. -/
structure Discards (ex : Executor) : Prop where
  nodup : ex.removedStates.Nodup
  known : ∀ i ∈ ex.removedStates, i ∈ ex.states ∧ ∃ s, Live ex i s

/-- The active states and the ends of the others divide the inputs. -/
structure Explored (ex : Executor) (whole : Set Bytes) (paths : List Successor) : Prop extends Discards ex where
  active : ∀ j t, Active ex j t ↔ .active j t ∈ paths
  runs : ∀ j t, .active j t ∈ paths → Runs ex j t
  ended : ex.terminated.Perm (paths.filterMap Successor.ending)
  partitions : Partitions (paths.map Successor.solutions) whole

namespace Explored

variable (h : Explored ex whole paths)

include h

theorem perm {paths' : List Successor} (hp : paths.Perm paths') :
    Explored ex whole paths' where
  toDiscards := h.toDiscards
  active j t := (h.active j t).trans hp.mem_iff
  runs j t ht := h.runs j t (hp.mem_iff.mpr ht)
  ended := h.ended.trans (hp.filterMap _)
  partitions := h.partitions.perm (hp.map _)

theorem split (hi : Active ex i s) : ∃ rest, Explored ex whole (.active i s :: rest) := by
  obtain ⟨pre, post, rfl⟩ := List.append_of_mem ((h.active i s).mp hi)
  exact ⟨_, h.perm List.perm_middle⟩

theorem runs_of_active (hi : Active ex i s) : Runs ex i s :=
  h.runs i s ((h.active i s).mp hi)

theorem feasible (hi : Active ex i s) : Feasible s.constraints :=
  ⟨(h.runs_of_active hi).typed, h.partitions.nonempty _ (List.mem_map_of_mem ((h.active i s).mp hi))⟩

theorem tidy : Tidy ex := fun i hi => by
  obtain ⟨-, s, hs⟩ := h.known i hi
  exact ⟨s, hs.get⟩

/-- The path of a state gives way to those of its successors. -/
theorem replaces (hi : Active ex i s) (hr : Replaces ex ex' i succs)
    (hdiscards : Discards ex') (hstates : ex'.states = ex.states)
    (hadded : ∀ j ∈ ex.addedStates, j ≠ i → j ∈ ex'.addedStates) (hruns : ∀ j t, .active j t ∈ succs → Runs ex' j t)
    (hp : Partitions (succs.map Successor.solutions) (Solutions s.constraints)) :
    ∃ paths', Explored ex' whole paths' := by
  obtain ⟨rest, h⟩ := h.split hi
  have hrest : ∀ j t, .active j t ∈ rest ↔ j ≠ i ∧ Active ex j t := fun j t => by
    constructor
    · intro hmem
      have hj := (h.active j t).mpr (List.mem_cons_of_mem _ hmem)
      refine ⟨fun hji => ?_, hj⟩
      -- a path that occurred twice would share its inputs with itself
      subst hji
      cases hi.1.symm.trans hj.1
      have hdisjoint := (List.pairwise_cons.mp h.partitions.disjoint).1 _ (List.mem_map_of_mem hmem)
      exact (h.partitions.nonempty _ List.mem_cons_self).ne_empty (disjoint_self.mp hdisjoint)
    · rintro ⟨hji, hj⟩
      refine List.mem_of_ne_of_mem (fun heq => ?_) ((h.active j t).mp hj)
      cases heq
      exact hji rfl
  refine ⟨succs ++ rest, hdiscards, fun j t => ?_, fun j t hmem => ?_, ?_, ?_⟩
  · rw [hr.active, List.mem_append, hrest, or_comm]
  · rcases List.mem_append.mp hmem with hmem | hmem
    · exact hruns j t hmem
    · obtain ⟨hji, hj⟩ := (hrest j t).mp hmem
      have hj := h.runs_of_active hj
      exact ⟨hr.live j hji t hj.toLive, hj.typed, hj.listed.imp (hstates ▸ ·) (hadded j · hji)⟩
  · rw [hr.terminated, List.filterMap_append]
    exact (h.ended.append_right _).trans List.perm_append_comm
  · rw [List.map_append]
    exact h.partitions.refine hp

/-- The states to be removed are not the one that was replaced. -/
theorem discards (hi : Active ex i s) (hr : Replaces ex ex' i succs)
    (hstates : ex'.states = ex.states) (hremoved : ex'.removedStates = ex.removedStates) : Discards ex' where
  nodup := hremoved ▸ h.nodup
  known j hj := by
    rw [hremoved] at hj
    obtain ⟨hmem, t, ht⟩ := h.known j hj
    exact ⟨hstates ▸ hmem, t, hr.live j (fun hji => hi.2 (hji ▸ hj)) t ht⟩

theorem fork (hts : ts.solver.Reliable) (hi : Active ex i s) {c : Expr}
    (hc : IsConstraint c) :
    ∃ r ex' paths', ex.fork ts i c = some (r, ex') ∧ Explored ex' whole paths' := by
  have hruns := h.runs_of_active hi
  rcases fork_ok hts hruns.toLive (h.feasible hi) hc with ⟨-, hrun⟩ | ⟨-, hrun⟩ | ⟨ns, ex', cs, cs', hrun, hs⟩
  · exact ⟨_, ex, paths, hrun, h⟩
  · exact ⟨_, ex, paths, hrun, h⟩
  · have hr := hs.toBranches.replaces h.tidy hi.2 hs.trueState hs.falseState
    have hstates : ex'.states = ex.states := by rw [hs.same]
    have hadded : ex'.addedStates = ex.addedStates ++ [ns] := by rw [hs.same]
    obtain ⟨paths', h'⟩ := h.replaces hi hr (h.discards hi hr hstates (by rw [hs.same])) hstates
      (fun j hj _ => hadded ▸ List.mem_append_left _ hj)
      (fun j t hmem => by
        rcases List.mem_pair.mp hmem with hjt | hjt <;> cases hjt
        · exact ⟨hs.trueState, hs.feasible.1.typed,
            hruns.listed.imp (hstates ▸ ·) fun hj => hadded ▸ List.mem_append_left _ hj⟩
        · exact ⟨hs.falseState, hs.feasible.2.typed, .inr (by simp [hadded])⟩)
      (by
        simp only [List.map_cons, List.map_nil, Successor.solutions, Successor.state]
        rw [hs.solutions.1, hs.solutions.2]
        exact .split (hs.solutions.1 ▸ hs.feasible.1.satisfiable)
          (.single (hs.solutions.2 ▸ hs.feasible.2.satisfiable)))
    exact ⟨_, ex', paths', hrun, h'⟩

theorem change (hi : Active ex i s) (hconstraints : t.constraints = s.constraints)
    (hnode : t.ptreeNode = s.ptreeNode) : ∃ paths', Explored { ex with store := ex.store.set i t } whole paths' := by
  have hruns := h.runs_of_active hi
  have hget : (ex.store.set i t).get i = some t := Store.get_set_self hi.1
  have hr : Replaces ex { ex with store := ex.store.set i t } i [.active i t] :=
    replaces_of_sets h.tidy hi hget (fun j hj => Store.get_set_ne hj) rfl rfl rfl
  refine h.replaces hi hr (h.discards hi hr rfl rfl) rfl (fun _ hj _ => hj) (fun j u hmem => ?_) ?_
  · cases List.mem_singleton.mp hmem
    exact ⟨⟨hget, hnode ▸ hruns.leaf⟩, hconstraints ▸ hruns.typed, hruns.listed⟩
  · have hsolutions : Successor.solutions (.active i t) = Solutions s.constraints := congrArg Solutions hconstraints
    rw [List.map_singleton, hsolutions]
    exact .single (h.feasible hi).satisfiable

theorem terminate (hi : Active ex i s) (reason : Termination) :
    ∃ ex' paths', ex.terminateStateWith i reason = some ex' ∧ Explored ex' whole paths' := by
  have hruns := h.runs_of_active hi
  obtain ⟨ex', hrun, hr, -⟩ := terminateStateWith_ok hruns.toLive h.tidy hi.2 reason
  have hsplit : ex'.states = ex.states ∧ Discards ex' ∧ ∀ j ∈ ex.addedStates, j ≠ i → j ∈ ex'.addedStates := by
    by_cases hadded : i ∈ ex.addedStates
    · have heq := (terminate_added hi.1 hadded reason).symm.trans hrun
      obtain ⟨tree, -, heq⟩ := Option.bind_eq_some_iff.mp heq
      cases heq
      exact ⟨rfl, h.discards hi hr rfl rfl, fun j hj hji => (List.mem_erase_of_ne hji).mpr hj⟩
    · cases (terminate_running hi.1 hadded reason).symm.trans hrun
      refine ⟨rfl, ⟨h.nodup.append (List.nodup_singleton i) (by simpa using hi.2), ?_⟩, fun _ hj _ => hj⟩
      refine List.forall_mem_append.mpr ⟨fun j hj => ?_, List.forall_mem_singleton.mpr ?_⟩
      · obtain ⟨hmem, t, ht⟩ := h.known j hj
        exact ⟨hmem, t, hr.live j (fun hji => hi.2 (hji ▸ hj)) t ht⟩
      · exact ⟨hruns.listed.resolve_right hadded, _, Store.get_set_self hi.1, hruns.leaf⟩
  obtain ⟨paths', h'⟩ := h.replaces hi hr hsplit.2.1 hsplit.1 hsplit.2.2 (by simp) (.single (h.feasible hi).satisfiable)
  exact ⟨ex', paths', hrun, h'⟩

end Explored

/-- The loop of `updateStates` deletes the states, and leaves the others where they are. -/
theorem removeStates_live {removed : List ℕ} (hnodup : removed.Nodup)
    (hknown : ∀ i ∈ removed, i ∈ ex.states ∧ ∃ s, Live ex i s) :
    ∃ ex', removed.foldlM removeState ex = some ex' ∧ ex'.terminated = ex.terminated ∧
      (∀ j t, ex'.store.get j = some t ↔ j ∉ removed ∧ ex.store.get j = some t) ∧
      ∀ j ∉ removed, (∀ t, Live ex j t → Live ex' j t) ∧ (j ∈ ex.states → j ∈ ex'.states) := by
  induction removed generalizing ex with
  | nil => exact ⟨ex, rfl, rfl, by simp, fun _ _ => ⟨fun _ ht => ht, id⟩⟩
  | cons i removed ih =>
    obtain ⟨hi, hnodup⟩ := List.nodup_cons.mp hnodup
    obtain ⟨⟨himem, s, hs⟩, hknown⟩ := List.forall_mem_cons.mp hknown
    obtain ⟨tree, htree, hleaves⟩ := PTree.remove_keeps hs.leaf
    let ex₁ := { ex with states := ex.states.erase i, processTree := tree, store := ex.store.free i }
    have hkeep : ∀ j ≠ i, (∀ t, Live ex j t → Live ex₁ j t) ∧ (j ∈ ex.states → j ∈ ex₁.states) := fun j hji => by
      refine ⟨fun t ht => ⟨(Store.get_free_ne hji).trans ht.get, hleaves _ (fun hpath => hji ?_) _ ht.leaf⟩,
        (List.mem_erase_of_ne hji).mpr⟩
      simpa [hpath, hs.leaf, eq_comm] using ht.leaf
    have hknown' : ∀ j ∈ removed, j ∈ ex₁.states ∧ ∃ t, Live ex₁ j t := fun j hj => by
      obtain ⟨hmem, t, ht⟩ := hknown j hj
      have hji : j ≠ i := fun hji => hi (hji ▸ hj)
      exact ⟨(hkeep j hji).2 hmem, t, (hkeep j hji).1 t ht⟩
    obtain ⟨ex', hrun, hended, hget, hothers⟩ := ih hnodup hknown'
    refine ⟨ex', ?_, hended, fun j t => ?_, fun j hj => ?_⟩
    · rw [List.foldlM_cons, removeState, if_pos himem, hs.get, some_bind, htree]
      exact hrun
    · rw [hget, List.mem_cons, not_or, and_assoc, and_left_comm]
      by_cases hji : j = i
      · subst hji
        simp [ex₁, Store.get_free_self]
      · simp [ex₁, hji, Store.get_free_ne hji]
    · rw [List.mem_cons, not_or] at hj
      exact ⟨fun t ht => (hothers j hj.2).1 t ((hkeep j hj.1).1 t ht), fun hmem =>
        (hothers j hj.2).2 ((hkeep j hj.1).2 hmem)⟩

theorem Explored.update (h : Explored ex whole paths) : ∃ ex', ex.updateStates = some ex' ∧ Explored ex' whole paths := by
  let ex₁ := { ex with states := ex.states ∪ ex.addedStates, addedStates := [] }
  have hknown : ∀ i ∈ ex.removedStates, i ∈ ex₁.states ∧ ∃ s, Live ex₁ i s := fun i hi => by
    obtain ⟨hmem, s, hs⟩ := h.known i hi
    exact ⟨List.mem_union_left hmem _, s, hs.get, hs.leaf⟩
  obtain ⟨ex', hrun, hended, hget, hothers⟩ := removeStates_live h.nodup hknown
  have hactive : ∀ j t, Active { ex' with removedStates := [] } j t ↔ Active ex j t := fun j t => by
    simp [Active, hget, ex₁, and_comm]
  refine ⟨{ ex' with removedStates := [] }, by rw [updateStates, hrun]; rfl, ⟨List.nodup_nil, by simp⟩,
    fun j t => (hactive j t).trans (h.active j t), fun j t hmem => ?_, hended ▸ h.ended, h.partitions⟩
  have hj := (h.active j t).mpr hmem
  have hruns := h.runs j t hmem
  obtain ⟨hlive, hlisted⟩ := hothers j hj.2
  have ht := hlive t ⟨hruns.get, hruns.leaf⟩
  exact ⟨⟨ht.get, ht.leaf⟩, hruns.typed, .inl (hlisted (List.mem_union_iff.mpr hruns.listed))⟩

/-- Operations on active states. A change keeps the path condition. -/
def Explorable (ex : Executor) : ExploreOp → Prop
  | .fork i c => IsConstraint c ∧ ∃ s, Active ex i s
  | .change i new => ∃ s, Active ex i s ∧ new.constraints = s.constraints
  | .terminate i _ => ∃ s, Active ex i s
  | .update => True

theorem Explored.explore (h : Explored ex whole paths) (hts : ts.solver.Reliable) {op : ExploreOp}
    (hop : Explorable ex op) : ∃ ex' paths', ex.explore ts op = some ex' ∧ Explored ex' whole paths' := by
  cases op with
  | fork i c =>
    obtain ⟨hc, s, hi⟩ := hop
    obtain ⟨r, ex', paths', hrun, h'⟩ := h.fork hts hi hc
    exact ⟨ex', paths', by rw [Executor.explore, hrun]; rfl, h'⟩
  | change i new =>
    obtain ⟨s, hi, hconstraints⟩ := hop
    obtain ⟨paths', h'⟩ := h.change (t := { new with ptreeNode := s.ptreeNode }) hi hconstraints rfl
    exact ⟨_, paths', by rw [Executor.explore, hi.1]; rfl, h'⟩
  | terminate i reason =>
    obtain ⟨s, hi⟩ := hop
    exact h.terminate hi reason
  | update =>
    obtain ⟨ex', hrun, h'⟩ := h.update
    exact ⟨ex', paths, hrun, h'⟩

/-- Each operation is one of these when its turn comes. -/
def Legal (ts : TimingSolver) : Executor → List ExploreOp → Prop
  | _, [] => True
  | ex, op :: ops => Explorable ex op ∧ ∀ ex', ex.explore ts op = some ex' → Legal ts ex' ops

theorem Explored.run (hts : ts.solver.Reliable) {ops : List ExploreOp} (h : Explored ex whole paths)
    (hops : Legal ts ex ops) : ∃ ex' paths', ops.foldlM (Executor.explore ts) ex = some ex' ∧ Explored ex' whole paths' := by
  induction ops generalizing ex paths with
  | nil => exact ⟨ex, paths, rfl, h⟩
  | cons op ops ih =>
    obtain ⟨ex₁, paths1, hstep, h1⟩ := h.explore hts hops.1
    obtain ⟨ex', paths', hrun, h'⟩ := ih h1 (hops.2 ex₁ hstep)
    refine ⟨ex', paths', ?_, h'⟩
    rw [List.foldlM_cons, hstep]
    exact hrun

/-- An executor with a single state. -/
structure Starts (ex : Executor) (i : ℕ) (s : ExecutionState) : Prop extends Live ex i s where
  only : ∀ j t, ex.store.get j = some t → j = i
  states : ex.states = [i]
  removed : ex.removedStates = []
  terminated : ex.terminated = []

theorem Starts.explored (h : Starts ex i s) (hs : Feasible s.constraints) :
    Explored ex (Solutions s.constraints) [.active i s] := by
  refine ⟨⟨by simp [h.removed], by simp [h.removed]⟩, fun j t => ?_, fun j t hmem => ?_,
    by simp [h.terminated, Successor.ending], .single hs.satisfiable⟩
  · rw [List.mem_singleton, Successor.active.injEq]
    constructor
    · rintro ⟨ht, -⟩
      obtain rfl := h.only j t ht
      exact ⟨rfl, Option.some.inj (ht.symm.trans h.get)⟩
    · rintro ⟨rfl, rfl⟩
      exact ⟨h.get, by simp [h.removed]⟩
  · cases List.mem_singleton.mp hmem
    exact ⟨h.toLive, hs.typed, .inl (by simp [h.states])⟩

end Klee.Executor
