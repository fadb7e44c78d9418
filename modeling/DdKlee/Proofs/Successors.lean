import DdKlee.Lib.Partition
import DdKlee.Proofs.Fork

/-! What an operation makes of a state: the states that go on, and the paths that ended.
The other states stay as they are. -/

namespace Klee

open Expr

inductive Successor
  | active (i : ℕ) (state : ExecutionState)
  | ended (state : ExecutionState) (termination : Termination)

namespace Successor

def state : Successor → ExecutionState
  | active _ state => state
  | ended state _ => state

def solutions (x : Successor) : Set Bytes := Solutions x.state.constraints

def ending : Successor → Option (ExecutionState × Termination)
  | active _ _ => none
  | ended state termination => some (state, termination)

end Successor

namespace Executor

variable {ex ex' ex₁ ex₂ : Executor} {i j ns : ℕ} {s t t' : ExecutionState} {succs : List Successor}

def Active (ex : Executor) (i : ℕ) (s : ExecutionState) : Prop := ex.store.get i = some s ∧ i ∉ ex.removedStates

def Tidy (ex : Executor) : Prop := ∀ i ∈ ex.removedStates, ∃ s, ex.store.get i = some s

structure Replaces (ex ex' : Executor) (i : ℕ) (succs : List Successor) : Prop where
  active : ∀ j t, Active ex' j t ↔ j ≠ i ∧ Active ex j t ∨ .active j t ∈ succs
  live : ∀ j ≠ i, ∀ t, Live ex j t → Live ex' j t
  tidy : Tidy ex'
  terminated : ex'.terminated = ex.terminated ++ succs.filterMap Successor.ending

theorem replaces_of_sets (htidy : Tidy ex) (h : Active ex i s) (hget : ex'.store.get i = some t)
    (hothers : ∀ j ≠ i, ex'.store.get j = ex.store.get j) (htree : ex'.processTree = ex.processTree)
    (hremoved : ex'.removedStates = ex.removedStates) (hended : ex'.terminated = ex.terminated) :
    Replaces ex ex' i [.active i t] where
  active j u := by
    rw [List.mem_singleton, Successor.active.injEq, Active, Active, hremoved]
    by_cases hj : j = i
    · subst hj
      simp [hget, h.2, eq_comm]
    · simp [hj, hothers j hj]
  live j hj u hu := ⟨(hothers j hj).trans hu.get, htree ▸ hu.leaf⟩
  tidy j hj := by
    by_cases hji : j = i
    · exact ⟨t, hji ▸ hget⟩
    · rw [hothers j hji]
      exact htidy j (hremoved ▸ hj)
  terminated := by simp [hended, Successor.ending]

theorem Branches.replaces (h : Branches ex ex' i ns) (htidy : Tidy ex) (hi : i ∉ ex.removedStates)
    (hs : Live ex' i s) (ht : Live ex' ns t) : Replaces ex ex' i [.active i s, .active ns t] where
  active j u := by
    have hremoved : ex'.removedStates = ex.removedStates := by rw [h.same]
    have hns : ns ∉ ex.removedStates := fun hmem => by
      obtain ⟨u, hu⟩ := htidy ns hmem
      cases h.fresh.symm.trans hu
    simp only [List.mem_cons, List.not_mem_nil, or_false, Successor.active.injEq, Active, hremoved]
    by_cases hji : j = i
    · subst hji
      by_cases hjn : j = ns
      · subst hjn
        have hst : s = t := Option.some.inj (hs.get.symm.trans ht.get)
        simp [hs.get, hi, hst, eq_comm]
      · simp [hs.get, hi, hjn, eq_comm]
    · by_cases hjn : j = ns
      · subst hjn
        simp [hji, ht.get, hns, h.fresh, eq_comm]
      · simp [hji, hjn, h.get j hji hjn]
  live := h.others
  tidy j hj := by
    have hremoved : ex'.removedStates = ex.removedStates := by rw [h.same]
    by_cases hji : j = i
    · exact ⟨s, hji ▸ hs.get⟩
    · by_cases hjn : j = ns
      · exact ⟨t, hjn ▸ ht.get⟩
      · rw [h.get j hji hjn]
        exact htidy j (hremoved ▸ hj)
  terminated := by
    rw [h.same]
    simp [Successor.ending]

theorem Replaces.fork {x : Successor} (h : Replaces ex ex₁ i [.active i s, .active ns t]) (hfresh : ex.store.get ns = none)
    (hne : ns ≠ i) (hx : ∀ j u, x = .active j u → j = i) (h1 : Replaces ex₁ ex₂ i [x])
    (h2 : Replaces ex₂ ex' ns succs) : Replaces ex ex' i (x :: succs) where
  active j u := by
    have hnot : Active ex j u → j ≠ ns := by
      rintro hu rfl
      cases hfresh.symm.trans hu.1
    rw [h2.active, h1.active, h.active]
    simp only [List.mem_cons, List.not_mem_nil, or_false, Successor.active.injEq]
    constructor
    · rintro (⟨hjn, ⟨hji, ⟨-, hu⟩ | ⟨rfl, -⟩ | ⟨rfl, -⟩⟩ | hju⟩ | hmem)
      · exact .inl ⟨hji, hu⟩
      · exact absurd rfl hji
      · exact absurd rfl hjn
      · exact .inr (.inl hju)
      · exact .inr (.inr hmem)
    · rintro (⟨hji, hu⟩ | hju | hmem)
      · exact .inl ⟨hnot hu, .inl ⟨hji, .inl ⟨hji, hu⟩⟩⟩
      · exact .inl ⟨hx j u hju.symm ▸ hne.symm, .inr hju⟩
      · exact .inr hmem
  live j hj u hu := by
    have hjn : j ≠ ns := by
      rintro rfl
      cases hfresh.symm.trans hu.get
    exact h2.live j hjn u (h1.live j hj u (h.live j hj u hu))
  tidy := h2.tidy
  terminated := by
    rw [h2.terminated, h1.terminated, h.terminated]
    cases x <;> simp [List.filterMap_cons, Successor.ending]

theorem terminateStateWith_ok (h : Live ex i s) (htidy : Tidy ex) (hi : i ∉ ex.removedStates)
    (termination : Termination) :
    ∃ ex', ex.terminateStateWith i termination = some ex' ∧ Replaces ex ex' i [.ended s termination] ∧
      ex'.heap = ex.heap := by
  by_cases hadded : i ∈ ex.addedStates
  · obtain ⟨tree, hrun, hleaves⟩ := PTree.remove_keeps h.leaf
    refine ⟨{ ex with
      addedStates := ex.addedStates.erase i
      processTree := tree
      store := ex.store.free i
      terminated := ex.terminated ++ [(s, termination)] }, ?_,
      ⟨fun j t => ?_, fun j hj t ht => ⟨?_, ?_⟩, fun j hj => ?_, rfl⟩, rfl⟩
    · simp [terminateStateWith, terminateState, h.get, hadded, hrun]
    · by_cases hj : j = i
      · subst hj
        simp [Active, Store.get_free_self]
      · simp [Active, hj, Store.get_free_ne hj]
    · exact (Store.get_free_ne hj).trans ht.get
    · refine hleaves _ (fun hpath => hj ?_) _ ht.leaf
      simpa [hpath, h.leaf, eq_comm] using ht.leaf
    · have hji : j ≠ i := fun hji => hi (hji ▸ hj)
      obtain ⟨t, ht⟩ := htidy j hj
      exact ⟨t, (Store.get_free_ne hji).trans ht⟩
  · refine ⟨{ ex with
      store := ex.store.set i { s with pc := s.prevPC }
      removedStates := ex.removedStates ++ [i]
      terminated := ex.terminated ++ [(s, termination)] }, ?_,
      ⟨fun j t => ?_, fun j hj t ht => ⟨?_, ht.leaf⟩, fun j hj => ?_, rfl⟩, rfl⟩
    · simp [terminateStateWith, terminateState, h.get, hadded]
    · by_cases hj : j = i
      · subst hj
        simp [Active]
      · simp [Active, hj, Store.get_set_ne hj]
    · exact (Store.get_set_ne hj).trans ht.get
    · by_cases hji : j = i
      · subst hji
        exact ⟨_, Store.get_set_self h.get⟩
      · obtain ⟨t, ht⟩ := htidy j (by simpa [hji] using hj)
        exact ⟨t, (Store.get_set_ne hji).trans ht⟩

end Executor

end Klee
