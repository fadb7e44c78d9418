import DdKlee.Proofs.Fork
import DdKlee.Proofs.Searcher
import DdKlee.Spec.MainLoop

/-! The states, the process tree and the searcher stay in step. -/

namespace Klee

namespace Executor

variable {ex ex' : Executor} {i j es ns : ℕ} {s t : ExecutionState} {current : List ℕ}

/-- The states are those that were made and not deleted, and each has its leaf. -/
structure Consistent (ex : Executor) : Prop where
  nodup : ex.states.Nodup
  added_nodup : ex.addedStates.Nodup
  fresh : ∀ i ∈ ex.addedStates, i ∉ ex.states
  allocated : ∀ i, (∃ s, ex.store.get i = some s) ↔ i ∈ ex.states ∨ i ∈ ex.addedStates
  live : ∀ {i s}, ex.store.get i = some s → Live ex i s
  leaves : ∀ {q i}, ex.processTree.leafAt q = some (some i) → ∃ s, ex.store.get i = some s ∧ s.ptreeNode = q
  full : ex.processTree = .bare ∨ ex.processTree.Full
  forked : ∀ i ∈ ex.addedStates, ∀ s, ex.store.get i = some s → s.ptreeNode ≠ []

theorem Consistent.full_of_get (h : Consistent ex) (hget : ex.store.get i = some s) : ex.processTree.Full := by
  rcases h.full with hbare | hfull
  · have hleaf := (h.live hget).leaf
    rw [hbare] at hleaf
    cases hq : s.ptreeNode with
    | nil => simp [hq, PTree.bare, PTree.leafAt] at hleaf
    | cons b q => cases b <;> simp [hq, PTree.bare, PTree.leafAt_cons, PTree.child, PTree.leafAt_null] at hleaf
  · exact hfull

theorem Consistent.node_inj (h : Consistent ex) (hs : ex.store.get i = some s) (ht : ex.store.get j = some t)
    (hnode : s.ptreeNode = t.ptreeNode) : i = j := by
  have hi := (h.live hs).leaf
  rw [hnode, (h.live ht).leaf] at hi
  cases hi
  rfl

theorem Consistent.set (h : Consistent ex) (removed : List ℕ) (terminated : List (ExecutionState × Termination))
    (hget : ex.store.get i = some s) (hnode : t.ptreeNode = s.ptreeNode) :
    Consistent { ex with store := ex.store.set i t, removedStates := removed, terminated } := by
  have hother : ∀ j, (∃ u, (ex.store.set i t).get j = some u) ↔ ∃ u, ex.store.get j = some u := fun j => by
    by_cases hj : j = i
    · subst hj
      exact ⟨fun _ => ⟨s, hget⟩, fun _ => ⟨t, Store.get_set_self hget⟩⟩
    · rw [Store.get_set_ne hj]
  have hnodes : ∀ {j u}, (ex.store.set i t).get j = some u → ∃ v, ex.store.get j = some v ∧ u.ptreeNode = v.ptreeNode := by
    intro j u hu
    by_cases hj : j = i
    · subst hj
      rw [Store.get_set_self hget] at hu
      cases hu
      exact ⟨s, hget, hnode⟩
    · rw [Store.get_set_ne hj] at hu
      exact ⟨u, hu, rfl⟩
  refine ⟨h.nodup, h.added_nodup, h.fresh, fun j => (hother j).trans (h.allocated j), fun {j u} hu => ⟨hu, ?_⟩,
    fun {q j} hq => ?_, h.full, fun j hj u hu => ?_⟩
  · obtain ⟨v, hv, huv⟩ := hnodes hu
    rw [huv]
    exact (h.live hv).leaf
  · obtain ⟨v, hv, rfl⟩ := h.leaves hq
    obtain ⟨u, hu⟩ := (hother j).mpr ⟨v, hv⟩
    obtain ⟨w, hw, huw⟩ := hnodes hu
    cases hv.symm.trans hw
    exact ⟨u, hu, huw⟩
  · obtain ⟨v, hv, huv⟩ := hnodes hu
    rw [huv]
    exact h.forked j hj v hv

theorem Consistent.free (h : Consistent ex) (terminated : List (ExecutionState × Termination))
    (hget : ex.store.get i = some s) (hroot : s.ptreeNode ≠ []) :
    ∃ tree, ex.processTree.remove s.ptreeNode = some tree ∧ Consistent { ex with
      states := ex.states.erase i, addedStates := ex.addedStates.erase i, store := ex.store.free i,
      processTree := tree, terminated } := by
  have hfull := h.full_of_get hget
  obtain ⟨tree, hrun, htree, hleaf⟩ := PTree.remove_full hfull (h.live hget).leaf hroot
  have hget_free : ∀ {j u}, (ex.store.free i).get j = some u ↔ j ≠ i ∧ ex.store.get j = some u := by
    intro j u
    by_cases hj : j = i
    · subst hj
      simp [Store.get_free_self]
    · simp [Store.get_free_ne hj, hj]
  refine ⟨tree, hrun, h.nodup.erase i, h.added_nodup.erase i, fun j hj hmem => ?_, fun j => ?_,
    fun {j u} hu => ?_, fun {q j} hq => ?_, htree, fun j hj u hu => ?_⟩
  · exact h.fresh j (List.mem_of_mem_erase hj) (List.mem_of_mem_erase hmem)
  · simp only [hget_free, h.nodup.mem_erase_iff, h.added_nodup.mem_erase_iff, exists_and_left, h.allocated, and_or_left]
  · obtain ⟨hj, hu'⟩ := hget_free.mp hu
    exact ⟨hu, (hleaf _ _).mpr ⟨fun hnode => hj (h.node_inj hu' hget hnode), (h.live hu').leaf⟩⟩
  · obtain ⟨hne, hq⟩ := (hleaf _ _).mp hq
    obtain ⟨u, hu, rfl⟩ := h.leaves hq
    refine ⟨u, hget_free.mpr ⟨?_, hu⟩, rfl⟩
    rintro rfl
    cases hu.symm.trans hget
    exact hne rfl
  · exact h.forked j (List.mem_of_mem_erase hj) u (hget_free.mp hu).2

theorem addBranch_tree (hget : ex.store.get i = some s) (h : ex.addBranch i = some (ns, ex')) :
    ex.processTree.attach ns i s.ptreeNode = some ex'.processTree := by
  simp only [addBranch, hget, some_bind] at h
  obtain ⟨tree, htree, heq⟩ := Option.bind_eq_some_iff.mp h
  cases heq
  exact htree

theorem Consistent.addBranch (h : Consistent ex) (hget : ex.store.get i = some s) :
    ∃ ns ex', ex.addBranch i = some (ns, ex') ∧ Consistent ex' ∧ Branches ex ex' i ns := by
  obtain ⟨ns, ex', hrun, hb, hsource, hcopy⟩ := addBranch_ok (h.live hget)
  have htree := addBranch_tree hget hrun
  have hfull := PTree.attach_full _ _ _ (h.full_of_get hget) (h.live hget).leaf htree
  obtain ⟨tree, htree', hleaves⟩ := PTree.attach_ok ns i s.ptreeNode (h.live hget).leaf
  cases htree.symm.trans htree'
  have hstates : ex'.states = ex.states := by rw [hb.same]
  have hadded : ex'.addedStates = ex.addedStates ++ [ns] := by rw [hb.same]
  have hnew : ¬ (ns ∈ ex.states ∨ ns ∈ ex.addedStates) := fun hmem => by
    obtain ⟨t, ht⟩ := (h.allocated ns).mpr hmem
    cases hb.fresh.symm.trans ht
  obtain ⟨hnew_states, hnew_added⟩ := not_or.mp hnew
  refine ⟨ns, ex', hrun, ⟨hstates ▸ h.nodup, ?_, ?_, fun j => ?_, fun {j t} ht => ?_, fun {q j} hq => ?_,
    .inr hfull, fun j hj t ht => ?_⟩, hb⟩
  · rw [hadded]
    exact List.nodup_append.mpr ⟨h.added_nodup, List.nodup_singleton ns, fun j hj k hk hjk =>
      hnew_added (List.mem_singleton.mp hk ▸ hjk ▸ hj)⟩
  · rw [hadded, hstates]
    exact List.forall_mem_append.mpr ⟨h.fresh, List.forall_mem_singleton.mpr hnew_states⟩
  · rw [hstates, hadded, List.mem_append, List.mem_singleton, ← or_assoc, ← h.allocated]
    by_cases hj : j = ns
    · subst hj
      exact ⟨fun _ => .inr rfl, fun _ => ⟨_, hcopy.get⟩⟩
    · by_cases hi : j = i
      · subst hi
        exact ⟨fun _ => .inl ⟨s, hget⟩, fun _ => ⟨_, hsource.get⟩⟩
      · rw [hb.get j hi hj]
        exact ⟨.inl, fun hor => hor.resolve_right hj⟩
  · by_cases hj : j = ns
    · subst hj
      cases hcopy.get.symm.trans ht
      exact hcopy
    · by_cases hi : j = i
      · subst hi
        cases hsource.get.symm.trans ht
        exact hsource
      · rw [hb.get j hi hj] at ht
        exact hb.others j hi t (h.live ht)
  · rcases (hleaves _ _).mp hq with ⟨rfl, heq⟩ | ⟨rfl, heq⟩ | ⟨hne, hq⟩
    · cases heq
      exact ⟨_, hcopy.get, rfl⟩
    · cases heq
      exact ⟨_, hsource.get, rfl⟩
    · obtain ⟨t, ht, rfl⟩ := h.leaves hq
      refine ⟨t, ?_, rfl⟩
      have hi : j ≠ i := by
        rintro rfl
        cases hget.symm.trans ht
        exact hne rfl
      exact (hb.others j hi t (h.live ht)).get
  · rw [hadded] at hj
    by_cases hi : j = i
    · subst hi
      cases hsource.get.symm.trans ht
      simp
    · rcases List.mem_append.mp hj with hj | hj
      · have hns : j ≠ ns := fun heq => hnew_added (heq ▸ hj)
        rw [hb.get j hi hns] at ht
        exact h.forked j hj t ht
      · cases List.mem_singleton.mp hj
        cases hcopy.get.symm.trans ht
        simp

structure AtHand (ex₀ ex : Executor) (es : ℕ) (current : List ℕ) : Prop where
  consistent : Consistent ex
  states : ex.states = ex₀.states
  nodup : current.Nodup
  given : ∀ i ∈ current, i = es ∨ i ∈ ex.addedStates
  running : es ∈ ex.states
  removed : ex.removedStates = [] ∨ ex.removedStates = [es] ∧ es ∉ current

variable {ex₀ : Executor}

theorem AtHand.get (h : AtHand ex₀ ex es current) (hi : i ∈ current) : ∃ s, ex.store.get i = some s := by
  rw [h.consistent.allocated]
  rcases h.given i hi with rfl | hadded
  · exact .inl h.running
  · exact .inr hadded

theorem AtHand.fork (h : AtHand ex₀ ex es current) (hi : i ∈ current) :
    ∃ ns ex', ex.addBranch i = some (ns, ex') ∧ AtHand ex₀ ex' es (current ++ [ns]) := by
  obtain ⟨s, hs⟩ := h.get hi
  obtain ⟨ns, ex', hrun, hcons, hb⟩ := h.consistent.addBranch hs
  have hstates : ex'.states = ex.states := by rw [hb.same]
  have hadded : ex'.addedStates = ex.addedStates ++ [ns] := by rw [hb.same]
  have hremoved : ex'.removedStates = ex.removedStates := by rw [hb.same]
  have hnew : ns ∉ current := fun hmem => by
    obtain ⟨t, ht⟩ := h.get hmem
    cases hb.fresh.symm.trans ht
  have hne : es ≠ ns := by
    rintro rfl
    obtain ⟨t, ht⟩ := (h.consistent.allocated es).mpr (.inl h.running)
    cases hb.fresh.symm.trans ht
  refine ⟨ns, ex', hrun, hcons, hstates.trans h.states, ?_, ?_, hstates ▸ h.running, ?_⟩
  · exact List.nodup_append.mpr ⟨h.nodup, List.nodup_singleton ns, fun j hj k hk hjk =>
      hnew (List.mem_singleton.mp hk ▸ hjk ▸ hj)⟩
  · rw [hadded]
    refine List.forall_mem_append.mpr ⟨fun j hj => (h.given j hj).imp_right (List.mem_append_left _), ?_⟩
    exact List.forall_mem_singleton.mpr (.inr (List.mem_append_right _ List.mem_cons_self))
  · rw [hremoved]
    refine h.removed.imp_right fun ⟨heq, hes⟩ => ⟨heq, ?_⟩
    simp [hes, hne]

theorem terminate_added (hget : ex.store.get i = some s) (hi : i ∈ ex.addedStates) (reason : Termination) :
    ex.terminateStateWith i reason = (ex.processTree.remove s.ptreeNode).bind fun processTree => some { ex with
      addedStates := ex.addedStates.erase i, processTree, store := ex.store.free i,
      terminated := ex.terminated ++ [(s, reason)] } := by
  simp only [terminateStateWith, terminateState, hget, some_bind, if_pos hi]
  cases ex.processTree.remove s.ptreeNode <;> rfl

theorem terminate_running (hget : ex.store.get i = some s) (hi : i ∉ ex.addedStates) (reason : Termination) :
    ex.terminateStateWith i reason = some { ex with
      store := ex.store.set i { s with pc := s.prevPC }, removedStates := ex.removedStates ++ [i],
      terminated := ex.terminated ++ [(s, reason)] } := by
  simp only [terminateStateWith, terminateState, hget, some_bind, if_neg hi]

theorem AtHand.terminate {k : ℕ} (h : AtHand ex₀ ex es current) (hk : current[k]? = some i) (reason : Termination) :
    ∃ ex', ex.terminateStateWith i reason = some ex' ∧ AtHand ex₀ ex' es (current.eraseIdx k) := by
  have hi : i ∈ current := List.mem_of_getElem? hk
  have herase : current.eraseIdx k = current.erase i := by
    obtain ⟨hlt, rfl⟩ := List.getElem?_eq_some_iff.mp hk
    rw [List.Nodup.erase_getElem h.nodup]
  obtain ⟨s, hs⟩ := h.get hi
  rw [herase]
  by_cases hadded : i ∈ ex.addedStates
  · -- a state that was forked by the instruction is deleted
    obtain ⟨tree, htree, hcons⟩ := h.consistent.free (ex.terminated ++ [(s, reason)]) hs
      (h.consistent.forked i hadded s hs)
    have hstates : ex.states.erase i = ex.states := List.erase_of_not_mem (h.consistent.fresh i hadded)
    rw [hstates] at hcons
    refine ⟨_, by rw [terminate_added hs hadded, htree]; rfl, hcons, h.states, h.nodup.erase i, fun j hj => ?_,
      h.running, ?_⟩
    · obtain ⟨hne, hj⟩ := h.nodup.mem_erase_iff.mp hj
      exact (h.given j hj).imp_right fun hmem => (List.mem_erase_of_ne hne).mpr hmem
    · exact h.removed.imp_right fun ⟨heq, hes⟩ => ⟨heq, fun hmem => hes (List.mem_of_mem_erase hmem)⟩
  · -- the state that is running is removed later
    have hes : i = es := (h.given i hi).resolve_right hadded
    subst hes
    have hnone : ex.removedStates = [] := h.removed.resolve_right fun hr => hr.2 hi
    exact ⟨_, terminate_running hs hadded reason, h.consistent.set _ _ hs rfl, h.states, h.nodup.erase i,
      fun j hj => h.given j (List.mem_of_mem_erase hj), h.running,
      .inr ⟨congrArg (· ++ [i]) hnone, h.nodup.not_mem_erase⟩⟩

theorem AtHand.applyOp (h : AtHand ex₀ ex es current) (op : InstructionOp) :
    ∃ current' ex', ex.applyOp current op = some (current', ex') ∧ AtHand ex₀ ex' es current' := by
  cases op with
  | fork k =>
    simp only [Executor.applyOp]
    cases hk : current[k]? with
    | none => exact ⟨current, ex, rfl, h⟩
    | some i =>
      obtain ⟨ns, ex', hrun, h'⟩ := h.fork (List.mem_of_getElem? hk)
      exact ⟨_, ex', by simp only [hrun, some_bind], h'⟩
  | change k state =>
    simp only [Executor.applyOp]
    cases hk : current[k]? with
    | none => exact ⟨current, ex, rfl, h⟩
    | some i =>
      obtain ⟨s, hs⟩ := h.get (List.mem_of_getElem? hk)
      exact ⟨current, { ex with store := ex.store.set i { state with ptreeNode := s.ptreeNode } },
        by simp only [hs, some_bind], h.consistent.set _ _ hs rfl, h.states, h.nodup,
        h.given, h.running, h.removed⟩
  | terminate k reason =>
    simp only [Executor.applyOp]
    cases hk : current[k]? with
    | none => exact ⟨current, ex, rfl, h⟩
    | some i =>
      obtain ⟨ex', hrun, h'⟩ := h.terminate hk reason
      exact ⟨_, ex', by simp only [hrun, some_bind], h'⟩

theorem AtHand.applyOps (h : AtHand ex₀ ex es current) (ops : List InstructionOp) :
    ∃ current' ex', ops.foldlM (fun (p : List ℕ × Executor) op => p.2.applyOp p.1 op) (current, ex) =
      some (current', ex') ∧ AtHand ex₀ ex' es current' := by
  induction ops generalizing current ex with
  | nil => exact ⟨current, ex, rfl, h⟩
  | cons op ops ih =>
    obtain ⟨current1, ex₁, hrun1, h1⟩ := h.applyOp op
    obtain ⟨current', ex', hrun, h'⟩ := ih h1
    refine ⟨current', ex', ?_, h'⟩
    rw [List.foldlM_cons, hrun1]
    exact hrun

theorem executeInstruction_ok (h : Consistent ex) (hes : es ∈ ex.states) (hidle : ex.removedStates = [])
    (ops : List InstructionOp) :
    ∃ current ex', ex.executeInstruction es ops = some ex' ∧ AtHand ex ex' es current := by
  have hstart : AtHand ex ex es [es] :=
    ⟨h, rfl, List.nodup_singleton es, List.forall_mem_singleton.mpr (.inl rfl), hes, .inl hidle⟩
  obtain ⟨current, ex', hrun, h'⟩ := hstart.applyOps ops
  exact ⟨current, ex', by simp only [executeInstruction]; rw [hrun]; rfl, h'⟩

structure Kills (ex ex' : Executor) (arr picked : List ℕ) : Prop where
  consistent : Consistent ex'
  states : ex'.states = ex.states
  added : ex'.addedStates = ex.addedStates
  removed : ex'.removedStates = ex.removedStates ++ picked
  nodup : picked.Nodup
  mem : ∀ i ∈ picked, i ∈ arr
  node : ∀ i s, ex'.store.get i = some s → ∃ t, ex.store.get i = some t ∧ t.ptreeNode = s.ptreeNode

theorem Kills.none (h : Consistent ex) (arr : List ℕ) : Kills ex ex arr [] :=
  ⟨h, rfl, rfl, by simp, List.nodup_nil, by simp, fun _ s hs => ⟨s, hs, rfl⟩⟩

theorem kill_ok (h : Consistent ex) (hi : i ∈ ex.states) (reason : Termination) (arr : List ℕ) (harr : i ∈ arr) :
    ∃ ex', ex.terminateStateWith i reason = some ex' ∧ Kills ex ex' arr [i] := by
  obtain ⟨s, hs⟩ := (h.allocated i).mpr (.inl hi)
  have hadded : i ∉ ex.addedStates := fun hmem => h.fresh i hmem hi
  refine ⟨_, terminate_running hs hadded reason, h.set _ _ hs rfl, rfl, rfl, rfl, List.nodup_singleton i,
    List.forall_mem_singleton.mpr harr, fun j t ht => ?_⟩
  by_cases hj : j = i
  · subst hj
    cases (Store.get_set_self hs).symm.trans ht
    exact ⟨s, hs, rfl⟩
  · exact ⟨t, (Store.get_set_ne hj).symm.trans ht, rfl⟩

theorem swapLast_perm {arr : List ℕ} {idx last : ℕ} (hi : arr[idx]? = some i) (hlast : arr.getLast? = some last) :
    List.Perm (i :: (arr.set idx last).dropLast) arr := by
  obtain ⟨init, rfl⟩ := List.getLast?_eq_some_iff.mp hlast
  obtain ⟨hlt, rfl⟩ := List.getElem?_eq_some_iff.mp hi
  rcases Nat.lt_or_ge idx init.length with hidx | hidx
  · rw [List.set_append_left _ _ hidx, List.dropLast_concat, List.getElem_append_left hidx]
    calc List.Perm (init[idx] :: init.set idx last) (init[idx] :: last :: init.eraseIdx idx) :=
          (List.set_perm_cons_eraseIdx hidx last).cons _
      _ |>.Perm (last :: init[idx] :: init.eraseIdx idx) := .swap _ _ _
      _ |>.Perm (last :: init) := (List.getElem_cons_eraseIdx_perm hidx).cons _
      _ |>.Perm (init ++ [last]) := (List.perm_append_singleton _ _).symm
  · have hidx : idx = init.length := by simp at hlt; omega
    subst hidx
    simpa using (List.perm_append_singleton last init).symm

theorem killStates_ok (rand : ℕ → ℕ) (toKill : ℕ) : ∀ {arr calls ex}, Consistent ex → arr.Nodup →
    (∀ i ∈ arr, i ∈ ex.states) → ∃ ex' picked, killStates rand toKill arr calls ex = some ex' ∧
      Kills ex ex' arr picked := by
  induction toKill with
  | zero => exact fun {arr calls ex} h _ _ => ⟨ex, [], rfl, .none h arr⟩
  | succ toKill ih =>
    intro arr calls ex h hnodup harr
    by_cases hnil : arr = []
    · subst hnil
      exact ⟨ex, [], rfl, .none h []⟩
    have hpick : ∀ n, ∃ i, arr[rand n % arr.length]? = some i := fun n =>
      ⟨_, List.getElem?_eq_getElem (Nat.mod_lt _ (List.length_pos_iff.mpr hnil))⟩
    obtain ⟨j, hj⟩ := hpick calls
    obtain ⟨state, hstate⟩ := (h.allocated j).mpr (.inl (harr j (List.mem_of_getElem? hj)))
    obtain ⟨last, hlast⟩ : ∃ last, arr.getLast? = some last := ⟨_, List.getLast?_eq_some_getLast hnil⟩
    obtain ⟨idx, hidx⟩ : ∃ idx, idx =
      if state.coveredNew then rand (calls + 1) % arr.length else rand calls % arr.length := ⟨_, rfl⟩
    obtain ⟨i, hi⟩ : ∃ i, arr[idx]? = some i := by
      rw [hidx]
      split
      · exact hpick _
      · exact hpick _
    have hmem : i ∈ arr := List.mem_of_getElem? hi
    have hperm := swapLast_perm hi hlast
    obtain ⟨ex₁, hrun1, h1⟩ := kill_ok h (harr i hmem) (.early "Memory limit exceeded.") arr hmem
    obtain ⟨hnew, hnodup'⟩ := List.nodup_cons.mp (hperm.nodup_iff.mpr hnodup)
    have hrest : ∀ k ∈ (arr.set idx last).dropLast, k ∈ arr := fun k hk =>
      hperm.mem_iff.mp (List.mem_cons_of_mem _ hk)
    obtain ⟨ex', picked, hrun, h'⟩ := @ih _ (if state.coveredNew then calls + 2 else calls + 1) ex₁ h1.consistent hnodup'
      fun k hk => h1.states ▸ harr k (hrest k hk)
    refine ⟨ex', i :: picked, ?_, h'.consistent, h'.states.trans h1.states, h'.added.trans h1.added, ?_, ?_, ?_, ?_⟩
    · obtain ⟨a, arr', rfl⟩ := List.exists_cons_of_ne_nil hnil
      simp only [killStates, hj, hstate, ← hidx, hi, hlast, hrun1, some_bind]
      exact hrun
    · rw [h'.removed, h1.removed, List.append_assoc]
      rfl
    · exact List.nodup_cons.mpr ⟨fun hp => hnew (h'.mem i hp), h'.nodup⟩
    · exact List.forall_mem_cons.mpr ⟨hmem, fun k hk => hrest k (h'.mem k hk)⟩
    · intro k s hs
      obtain ⟨t, ht, hst⟩ := h'.node k s hs
      obtain ⟨u, hu, htu⟩ := h1.node k t ht
      exact ⟨u, hu, htu.trans hst⟩

theorem checkMemoryUsage_ok (h : Consistent ex) (maxMemory : ℕ) (usage : MemoryUsage) (rand : ℕ → ℕ) :
    ∃ ex' picked, ex.checkMemoryUsage maxMemory usage rand = some ex' ∧ Kills ex ex' ex.states picked := by
  unfold checkMemoryUsage
  split
  · exact ⟨ex, [], rfl, .none h _⟩
  · split
    · exact killStates_ok rand _ h h.nodup fun _ hi => hi
    · exact ⟨ex, [], rfl, .none h _⟩

theorem removeState_ok (h : Consistent ex) (hadded : ex.addedStates = []) (hi : i ∈ ex.states)
    (hget : ex.store.get i = some s) (hroot : s.ptreeNode ≠ []) :
    ∃ ex', ex.removeState i = some ex' ∧ Consistent ex' ∧ ex'.states = ex.states.erase i ∧ ex'.addedStates = [] ∧
      ∀ j ≠ i, ex'.store.get j = ex.store.get j := by
  obtain ⟨tree, htree, hcons⟩ := h.free ex.terminated hget hroot
  have hnil : ex.addedStates.erase i = ex.addedStates := by rw [hadded]; rfl
  rw [hnil] at hcons
  refine ⟨_, ?_, hcons, rfl, hadded, fun j hj => Store.get_free_ne hj⟩
  simp only [removeState, if_pos hi, hget, htree, some_bind]

theorem removeStates_ok {removed : List ℕ} (hnodup : removed.Nodup) (h : Consistent ex) (hadded : ex.addedStates = [])
    (hmem : ∀ i ∈ removed, i ∈ ex.states)
    (hroot : ∀ i ∈ removed, ∀ s, ex.store.get i = some s → s.ptreeNode ≠ []) :
    ∃ ex', removed.foldlM removeState ex = some ex' ∧ Consistent ex' ∧ ex'.addedStates = [] ∧
      ∀ i, i ∈ ex'.states ↔ i ∈ ex.states ∧ i ∉ removed := by
  induction removed generalizing ex with
  | nil => exact ⟨ex, rfl, h, hadded, by simp⟩
  | cons i removed ih =>
    obtain ⟨hi, hnodup⟩ := List.nodup_cons.mp hnodup
    obtain ⟨himem, hmem⟩ := List.forall_mem_cons.mp hmem
    obtain ⟨hiroot, hroot⟩ := List.forall_mem_cons.mp hroot
    obtain ⟨s, hs⟩ := (h.allocated i).mpr (.inl himem)
    obtain ⟨ex₁, hrun1, h1, hstates1, hadded1, hget1⟩ := removeState_ok h hadded himem hs (hiroot s hs)
    have hne : ∀ j ∈ removed, j ≠ i := fun j hj heq => hi (heq ▸ hj)
    obtain ⟨ex', hrun, h', hadded', hstates'⟩ := ih hnodup h1 hadded1
      (fun j hj => by rw [hstates1]; exact (List.mem_erase_of_ne (hne j hj)).mpr (hmem j hj))
      (fun j hj t ht => hroot j hj t ((hget1 j (hne j hj)).symm.trans ht))
    refine ⟨ex', ?_, h', hadded', fun j => ?_⟩
    · rw [List.foldlM_cons, hrun1]
      exact hrun
    · rw [hstates', hstates1, h.nodup.mem_erase_iff, List.mem_cons, not_or]
      tauto

theorem Consistent.insert (h : Consistent ex) :
    Consistent { ex with states := ex.states ∪ ex.addedStates, addedStates := [] } :=
  ⟨h.added_nodup.union _, List.nodup_nil, by simp, fun i => by simp [h.allocated], fun hi => ⟨hi, (h.live hi).leaf⟩,
    h.leaves, h.full, by simp⟩

theorem Consistent.root (h : Consistent ex) (hget : ex.store.get i = some s) (hroot : s.ptreeNode = []) :
    ex.processTree = .leaf i ∧ ∀ j, j ∈ ex.states ∨ j ∈ ex.addedStates → j = i := by
  have hleaf := (h.live hget).leaf
  rw [hroot] at hleaf
  have htree := PTree.eq_leaf_of_root hleaf
  refine ⟨htree, fun j hj => ?_⟩
  obtain ⟨t, ht⟩ := (h.allocated j).mpr hj
  have hleaf' := (h.live ht).leaf
  rw [htree, PTree.leafAt_leaf] at hleaf'
  exact Option.some.inj hleaf'.2

end Executor

namespace MainLoop

open Executor

variable {S : Type} {c : Searcher S} {Holds : Finset ℕ → S → Prop} {maxMemory current : ℕ} {m m' : MainLoop S}
  {it : Iteration} {its : List Iteration}

/-- The states are the leaves of the process tree, the states that the searcher holds, and
those that were not deleted. -/
structure InStep (Holds : Finset ℕ → S → Prop) (m : MainLoop S) : Prop where
  leaves : ∀ i, i ∈ m.executor.states ↔ ∃ q, m.executor.processTree.leafAt q = some (some i)
  held : Holds m.executor.states.toFinset m.searcher
  undeleted : ∀ i, i ∈ m.executor.states ↔ ∃ s, m.executor.store.get i = some s

/-- No assertion fails in the iteration, no state is removed twice, and what it leaves is in
step. -/
def Survives (c : Searcher S) (Holds : Finset ℕ → S → Prop) (maxMemory : ℕ) (m : MainLoop S) (it : Iteration) :
    Prop :=
  ∃ current m₁ ex m', m.execute c it = some (current, m₁) ∧
    m₁.executor.checkMemoryUsage maxMemory it.usage it.rand = some ex ∧
    ex.removedStates.Nodup ∧ (∀ i ∈ ex.removedStates, i ∈ ex.states) ∧
    updateStates c ⟨ex, m₁.searcher⟩ it.update (some current) = some m' ∧ m'.InStep Holds

/-- None of the states that are killed was terminated by the instruction, and no state is
removed that is still at the root of the process tree. -/
def Avoids (c : Searcher S) (maxMemory : ℕ) (m : MainLoop S) (it : Iteration) : Prop :=
  ∀ current m₁ ex, m.execute c it = some (current, m₁) →
    m₁.executor.checkMemoryUsage maxMemory it.usage it.rand = some ex →
    (∀ i ∈ ex.removedStates.drop m₁.executor.removedStates.length, i ∉ m₁.executor.removedStates) ∧
    ∀ i ∈ ex.removedStates, ∀ s, ex.store.get i = some s → s.ptreeNode ≠ []

structure Idle (Holds : Finset ℕ → S → Prop) (m : MainLoop S) : Prop where
  consistent : m.executor.Consistent
  added : m.executor.addedStates = []
  removed : m.executor.removedStates = []
  held : Holds m.executor.states.toFinset m.searcher

theorem Idle.undeleted (h : m.Idle Holds) (i : ℕ) : i ∈ m.executor.states ↔ ∃ s, m.executor.store.get i = some s := by
  rw [h.consistent.allocated, h.added]
  simp

theorem Idle.leaves (h : m.Idle Holds) (i : ℕ) :
    i ∈ m.executor.states ↔ ∃ q, m.executor.processTree.leafAt q = some (some i) := by
  rw [h.undeleted]
  constructor
  · rintro ⟨s, hs⟩
    exact ⟨s.ptreeNode, (h.consistent.live hs).leaf⟩
  · rintro ⟨q, hq⟩
    obtain ⟨s, hs, -⟩ := h.consistent.leaves hq
    exact ⟨s, hs⟩

theorem Idle.inStep (h : m.Idle Holds) : m.InStep Holds := ⟨h.leaves, h.held, h.undeleted⟩

theorem Idle.env_inStep (h : m.Idle Holds) (hne : m.executor.states ≠ []) (env : SearchEnv) :
    (m.executor.env env).InStep m.executor.states.toFinset := by
  obtain ⟨i, hi⟩ := List.exists_mem_of_ne_nil _ hne
  obtain ⟨s, hs⟩ := (h.undeleted i).mp hi
  exact ⟨fun j => List.mem_toFinset.symm, h.consistent.full_of_get hs, fun j => List.mem_toFinset.trans (h.leaves j)⟩

structure Ready (Holds : Finset ℕ → S → Prop) (m m₁ : MainLoop S) (ex : Executor) (current : ℕ) (picked : List ℕ) :
    Prop where
  running : current ∈ ex.states
  consistent : ex.Consistent
  states : ex.states = m.executor.states
  removed : ex.removedStates = m₁.executor.removedStates ++ picked
  terminated : m₁.executor.removedStates = [] ∨ m₁.executor.removedStates = [current]
  nodup : picked.Nodup
  mem : ∀ i ∈ ex.removedStates, i ∈ ex.states
  held : Holds ex.states.toFinset m₁.searcher

theorem Idle.ready (hc : c.Lawful Holds) (h : m.Idle Holds) (hne : m.executor.states ≠ []) (maxMemory : ℕ)
    (it : Iteration) :
    ∃ current m₁ ex picked, m.execute c it = some (current, m₁) ∧
      m₁.executor.checkMemoryUsage maxMemory it.usage it.rand = some ex ∧ Ready Holds m m₁ ex current picked := by
  obtain ⟨current, hcurrent, searcher, hselect, hheld⟩ := hc.select h.held
    (List.toFinset_nonempty_iff _ |>.mpr hne) (h.env_inStep hne it.select)
  obtain ⟨hands, ex₁, hexec, hhand⟩ := executeInstruction_ok h.consistent (List.mem_toFinset.mp hcurrent) h.removed
    it.instruction
  obtain ⟨ex, picked, hcheck, hkills⟩ := checkMemoryUsage_ok hhand.consistent maxMemory it.usage it.rand
  have hstates := hkills.states.trans hhand.states
  have hterminated : ex₁.removedStates = [] ∨ ex₁.removedStates = [current] := hhand.removed.imp_right And.left
  refine ⟨current, ⟨ex₁, searcher⟩, ex, picked, ?_, hcheck, hkills.states ▸ hhand.running, hkills.consistent,
    hstates, hkills.removed, hterminated, hkills.nodup, ?_, by rw [hstates]; exact hheld⟩
  · simp only [execute, hselect, hexec, some_bind]
  · rw [hkills.removed, hkills.states]
    refine List.forall_mem_append.mpr ⟨fun i hi => ?_, hkills.mem⟩
    rcases hterminated with hnil | hone
    · rw [hnil] at hi
      cases hi
    · rw [hone, List.mem_singleton] at hi
      exact hi ▸ hhand.running

variable {m₁ : MainLoop S} {ex : Executor} {picked : List ℕ}

theorem Ready.nodup_iff (h : Ready Holds m m₁ ex current picked) :
    ex.removedStates.Nodup ↔
      ∀ i ∈ ex.removedStates.drop m₁.executor.removedStates.length, i ∉ m₁.executor.removedStates := by
  have hterminated : m₁.executor.removedStates.Nodup := by
    rcases h.terminated with heq | heq <;> simp [heq]
  rw [h.removed, List.drop_left, List.nodup_append]
  constructor
  · exact fun ⟨_, _, hdisj⟩ i hi hmem => hdisj i hmem i hi rfl
  · exact fun hdisj => ⟨hterminated, h.nodup, fun i hi j hj heq => hdisj j hj (heq ▸ hi)⟩

theorem Ready.legal (h : Ready Holds m m₁ ex current picked) (hnodup : ex.removedStates.Nodup) :
    LegalUpdate ex.states.toFinset (some current) ex.addedStates ex.removedStates where
  current i hi := by
    cases hi
    exact List.mem_toFinset.mpr h.running
  added_nodup := h.consistent.added_nodup
  fresh i hi := by
    rw [List.mem_toFinset]
    exact h.consistent.fresh i hi
  removed_nodup := hnodup
  known i hi := .inl (List.mem_toFinset.mpr (h.mem i hi))

theorem Ready.update (hc : c.Lawful Holds) (h : Ready Holds m m₁ ex current picked) (hnodup : ex.removedStates.Nodup)
    (hroot : ∀ i ∈ ex.removedStates, ∀ s, ex.store.get i = some s → s.ptreeNode ≠ []) (env : SearchEnv) :
    ∃ m', updateStates c ⟨ex, m₁.searcher⟩ env (some current) = some m' ∧ m'.Idle Holds := by
  obtain ⟨searcher, hupdate, hheld⟩ := hc.update h.held (h.legal hnodup)
  obtain ⟨ex', hrun, hcons, hadded, hstates⟩ :=
    Executor.removeStates_ok hnodup h.consistent.insert rfl
    (fun i hi => List.mem_union_left (h.mem i hi) _) hroot
  refine ⟨⟨{ ex' with removedStates := [] }, searcher⟩, ?_, ⟨⟨hcons.nodup, hcons.added_nodup, hcons.fresh,
    hcons.allocated, fun hi => ⟨hi, (hcons.live hi).leaf⟩, hcons.leaves, hcons.full, hcons.forked⟩, hadded, rfl, ?_⟩⟩
  · simp only [updateStates, Option.bind_eq_bind]
    rw [hupdate, Option.bind_some, hrun, Option.bind_some]
  · convert hheld using 1
    ext i
    simp [mem_liveAfter, hstates]

/-- The root keeps the state that was removed. -/
theorem Ready.root (h : Ready Holds m m₁ ex current picked) (hnodup : ex.removedStates.Nodup) {env : SearchEnv}
    (hrun : updateStates c ⟨ex, m₁.searcher⟩ env (some current) = some m') (hstep : m'.InStep Holds)
    {i : ℕ} (hi : i ∈ ex.removedStates) {s : ExecutionState} (hget : ex.store.get i = some s) : s.ptreeNode ≠ [] := by
  intro hroot
  obtain ⟨htree, honly⟩ := h.consistent.root hget hroot
  have hremoved : ex.removedStates = [i] := by
    refine List.perm_singleton.mp ((List.perm_ext_iff_of_nodup hnodup (List.nodup_singleton i)).mpr fun j => ?_)
    rw [List.mem_singleton]
    exact ⟨fun hj => honly j (.inl (h.mem j hj)), fun hj => hj ▸ hi⟩
  have hmem : i ∈ ex.states ∪ ex.addedStates := List.mem_union_left (h.mem i hi) _
  have hremove : ex.processTree.remove s.ptreeNode = some ex.processTree := by
    rw [hroot, htree]
    rfl
  simp only [updateStates, Option.bind_eq_bind, hremoved, List.foldlM_cons, List.foldlM_nil, removeState, if_pos hmem,
    hget, hremove, Option.bind_some, Option.pure_def] at hrun
  obtain ⟨searcher, -, heq⟩ := Option.bind_eq_some_iff.mp hrun
  cases heq
  have hgone : i ∉ (ex.states ∪ ex.addedStates).erase i := (h.consistent.added_nodup.union _).not_mem_erase
  exact hgone ((hstep.leaves i).mpr ⟨[], by simp [htree, PTree.leaf, PTree.leafAt]⟩)

theorem Idle.survives_iff (hc : c.Lawful Holds) (h : m.Idle Holds) (hne : m.executor.states ≠ []) :
    Survives c Holds maxMemory m it ↔ Avoids c maxMemory m it := by
  obtain ⟨current, m₁, ex, picked, hexec, hcheck, hready⟩ := h.ready hc hne maxMemory it
  constructor
  · rintro ⟨current', m1', ex', m', hexec', hcheck', hnodup, -, hupdate, hstep⟩ current'' m1'' ex'' hexec'' hcheck''
    cases hexec.symm.trans hexec'
    cases hexec.symm.trans hexec''
    cases hcheck.symm.trans hcheck'
    cases hcheck.symm.trans hcheck''
    exact ⟨hready.nodup_iff.mp hnodup, fun i hi s hs => hready.root hnodup hupdate hstep hi hs⟩
  · intro havoids
    obtain ⟨hdisj, hroot⟩ := havoids current m₁ ex hexec hcheck
    have hnodup := hready.nodup_iff.mpr hdisj
    obtain ⟨m', hupdate, hidle⟩ := hready.update hc hnodup hroot it.update
    exact ⟨current, m₁, ex, m', hexec, hcheck, hnodup, hready.mem, hupdate, hidle.inStep⟩

theorem Idle.iterate (hc : c.Lawful Holds) (h : m.Idle Holds) (hne : m.executor.states ≠ [])
    (havoids : Avoids c maxMemory m it) : ∃ m', iterate c maxMemory m it = some m' ∧ m'.Idle Holds := by
  obtain ⟨current, m₁, ex, picked, hexec, hcheck, hready⟩ := h.ready hc hne maxMemory it
  obtain ⟨hdisj, hroot⟩ := havoids current m₁ ex hexec hcheck
  obtain ⟨m', hupdate, hidle⟩ := hready.update hc (hready.nodup_iff.mpr hdisj) hroot it.update
  refine ⟨m', ?_, hidle⟩
  simp only [MainLoop.iterate, hexec, hcheck, some_bind]
  exact hupdate

def Reaches (c : Searcher S) (maxMemory : ℕ) (m : MainLoop S) (its : List Iteration) (m' : MainLoop S)
    (it : Iteration) : Prop :=
  ∃ before after, its = before ++ it :: after ∧ run c maxMemory m before = some m' ∧ m'.executor.states ≠ []

theorem Reaches.cons {m₁ : MainLoop S} {it1 : Iteration} (hne : m.executor.states ≠ [])
    (hrun : iterate c maxMemory m it1 = some m₁) (h : Reaches c maxMemory m₁ its m' it) :
    Reaches c maxMemory m (it1 :: its) m' it := by
  obtain ⟨before, after, rfl, hbefore, hne'⟩ := h
  refine ⟨it1 :: before, after, rfl, ?_, hne'⟩
  rw [run, if_neg hne, hrun]
  exact hbefore

/-- Every iteration starts between two iterations, when those before it kept to a condition
under which that is so. -/
theorem Idle.reaches (hc : c.Lawful Holds) {P : MainLoop S → Iteration → Prop}
    (hP : ∀ {m it}, m.Idle Holds → m.executor.states ≠ [] → P m it → Avoids c maxMemory m it)
    (h : m.Idle Holds) (hall : ∀ m' it, Reaches c maxMemory m its m' it → P m' it)
    (hreach : Reaches c maxMemory m its m' it) : m'.Idle Holds := by
  obtain ⟨before, after, rfl, hrun, hne'⟩ := hreach
  induction before generalizing m with
  | nil =>
    cases hrun
    exact h
  | cons it1 before ih =>
    by_cases hne : m.executor.states = []
    · rw [run, if_pos hne] at hrun
      cases hrun
      exact absurd hne hne'
    · have hfirst : P m it1 := hall m it1 ⟨[], before ++ it :: after, rfl, rfl, hne⟩
      obtain ⟨m₁, hrun1, h1⟩ := h.iterate hc hne (hP h hne hfirst)
      rw [run, if_neg hne, hrun1, Option.bind_some] at hrun
      exact ih h1 (fun m2 it2 hr => hall m2 it2 (hr.cons hne hrun1)) hrun

/-- At the start of the main loop there is the initial state, which the searcher was given. -/
structure Started (Holds : Finset ℕ → S → Prop) (m : MainLoop S) (i : ℕ) (s : ExecutionState) : Prop where
  states : m.executor.states = [i]
  added : m.executor.addedStates = []
  removed : m.executor.removedStates = []
  get : ∀ j t, m.executor.store.get j = some t ↔ j = i ∧ t = s
  tree : m.executor.processTree = .leaf i
  node : s.ptreeNode = []
  held : Holds {i} m.searcher

theorem Started.idle {i : ℕ} {s : ExecutionState} (h : m.Started Holds i s) : m.Idle Holds := by
  refine ⟨⟨by simp [h.states], by simp [h.added], by simp [h.added], fun j => ?_, fun {j t} hj => ⟨hj, ?_⟩,
    fun {q j} hq => ?_, .inr (h.tree ▸ .leaf i), by simp [h.added]⟩, h.added, h.removed, ?_⟩
  · simp [h.get, h.states, h.added]
  · obtain ⟨rfl, rfl⟩ := (h.get j t).mp hj
    simp [h.tree, h.node, PTree.leafAt_leaf]
  · rw [h.tree, PTree.leafAt_leaf] at hq
    obtain ⟨rfl, heq⟩ := hq
    cases heq
    exact ⟨s, (h.get _ _).mpr ⟨rfl, rfl⟩, h.node⟩
  · simpa [h.states] using h.held

def pureState : ExecutionState where
  pc := 0
  prevPC := 0
  stack := []
  addressSpace := ⟨0, .empty⟩
  constraints := []
  depth := 0
  coveredNew := false
  ptreeNode := []
  symbolics := []

def oneState : MainLoop (List ℕ) where
  executor :=
    { heap := [], arrayCache := .empty, store := ⟨[some pureState]⟩, states := [0], addedStates := [],
      removedStates := [], processTree := .leaf 0, terminated := [] }
  searcher := [0]

def anyEnv : SearchEnv where
  wallTime _ := 0
  instructions := 0
  getInt32 _ := 0
  getDoubleL := 0
  getDoubleL_nonneg := le_refl 0
  getDoubleL_lt := zero_lt_one
  getWeight _ _ := 1
  states := []
  processTree := .null

def forks : Iteration := ⟨anyEnv, [.fork 0], ⟨1, 0⟩, fun _ => 0, anyEnv⟩

/-- The state ends and there is too much memory in use, so that a state is killed. -/
def endsAndKills (pick : ℕ) : Iteration :=
  ⟨anyEnv, [.terminate 0 (.early "exit")], ⟨0, 301⟩, fun _ => pick, anyEnv⟩

theorem oneState_started : oneState.Started Lists 0 pureState := by
  refine ⟨rfl, rfl, rfl, fun j t => ?_, rfl, rfl, ⟨by decide, by simp [oneState]⟩⟩
  cases j with
  | zero => simp [oneState, Store.get, eq_comm]
  | succ j => simp [oneState, Store.get]

theorem avoids_two_states (m' : MainLoop (List ℕ)) (it : Iteration)
    (h : Reaches DFSSearcher 200 oneState [forks, endsAndKills 0] m' it) : Avoids DFSSearcher 200 m' it := by
  obtain ⟨before, after, heq, hrun, -⟩ := h
  intro current m₁ ex hexec hcheck
  rcases before with _ | ⟨it1, _ | ⟨it2, before⟩⟩
  · cases heq
    cases hrun
    cases hexec
    cases hcheck
    simp [oneState]
  · cases heq
    cases hrun
    cases hexec
    cases hcheck
    refine ⟨by decide, fun i hi s hs hroot => ?_⟩
    change i ∈ [1, 0] at hi
    rw [List.mem_pair] at hi
    rcases hi with rfl | rfl
    · cases hs
      cases hroot
    · cases hs
      cases hroot
  · simp at heq

end MainLoop

end Klee
