import DdKlee.Proofs.PTree
import DdKlee.Spec.Searcher

/-! The searchers hold the live states. -/

namespace Klee

structure SearchEnv.InStep (env : SearchEnv) (live : Finset ℕ) : Prop where
  states : ∀ i, i ∈ env.states ↔ i ∈ live
  full : env.processTree.Full
  leaves : ∀ i, i ∈ live ↔ ∃ q, env.processTree.leafAt q = some (some i)

structure LegalUpdate (live : Finset ℕ) (current : Option ℕ) (added removed : List ℕ) : Prop where
  current : ∀ i, current = some i → i ∈ live
  added_nodup : added.Nodup
  fresh : ∀ i ∈ added, i ∉ live
  removed_nodup : removed.Nodup
  known : ∀ i ∈ removed, i ∈ live ∨ i ∈ added

def liveAfter (live : Finset ℕ) (added removed : List ℕ) : Finset ℕ :=
  (live ∪ added.toFinset) \ removed.toFinset

theorem mem_liveAfter {live : Finset ℕ} {added removed : List ℕ} {i : ℕ} :
    i ∈ liveAfter live added removed ↔ (i ∈ live ∨ i ∈ added) ∧ i ∉ removed := by
  simp [liveAfter]

/-- What is asked of a searcher. `Holds` relates it to the live states. -/
structure Searcher.Lawful {S : Type} (c : Searcher S) (Holds : Finset ℕ → S → Prop) : Prop where
  select : ∀ {env live s}, Holds live s → live.Nonempty → env.InStep live →
    ∃ i ∈ live, ∃ s', c.selectState env s = some (i, s') ∧ Holds live s'
  update : ∀ {env live s current added removed}, Holds live s → LegalUpdate live current added removed →
    ∃ s', c.update env s current added removed = some s' ∧ Holds (liveAfter live added removed) s'

structure Lists (live : Finset ℕ) (states : List ℕ) : Prop where
  nodup : states.Nodup
  mem : ∀ i, i ∈ states ↔ i ∈ live

theorem Lists.ne_nil {live : Finset ℕ} {states : List ℕ} (h : Lists live states) (hne : live.Nonempty) :
    states ≠ [] := by
  rintro rfl
  obtain ⟨i, hi⟩ := hne
  cases (h.mem i).mpr hi

theorem Lists.append {live : Finset ℕ} {states added : List ℕ} (h : Lists live states) (hadded : added.Nodup)
    (hfresh : ∀ i ∈ added, i ∉ live) : Lists (live ∪ added.toFinset) (states ++ added) where
  nodup := List.nodup_append.mpr ⟨h.nodup, hadded, fun i hi j hj hij => hfresh j hj (hij ▸ (h.mem i).mp hi)⟩
  mem i := by simp [h.mem]

theorem eraseState_ok {live : Finset ℕ} {states : List ℕ} {es : ℕ} (h : Lists live states) (hes : es ∈ live) :
    ∃ states', Searcher.eraseState states es = some states' ∧ Lists (live.erase es) states' := by
  refine ⟨_, if_pos ((h.mem es).mpr hes), h.nodup.erase es, fun i => ?_⟩
  rw [h.nodup.mem_erase_iff, Finset.mem_erase, h.mem]

theorem removeStates_ok {remove : List ℕ → ℕ → Option (List ℕ)}
    (hremove : ∀ {live states es}, Lists live states → es ∈ live →
      ∃ states', remove states es = some states' ∧ Lists (live.erase es) states')
    {removed : List ℕ} (hnodup : removed.Nodup) {live : Finset ℕ} {states : List ℕ}
    (h : Lists live states) (hmem : ∀ i ∈ removed, i ∈ live) :
    ∃ states', removed.foldlM remove states = some states' ∧ Lists (live \ removed.toFinset) states' := by
  induction removed generalizing live states with
  | nil => exact ⟨states, rfl, by simpa using h⟩
  | cons es removed ih =>
    obtain ⟨hes, hnodup⟩ := List.nodup_cons.mp hnodup
    obtain ⟨states1, hrun1, h1⟩ := hremove h (hmem es List.mem_cons_self)
    obtain ⟨states', hrun, h'⟩ := ih hnodup h1 fun i hi =>
      Finset.mem_erase.mpr ⟨fun heq => hes (heq ▸ hi), hmem i (List.mem_cons_of_mem _ hi)⟩
    refine ⟨states', ?_, ?_⟩
    · rw [List.foldlM_cons, hrun1]
      exact hrun
    · rwa [List.toFinset_cons, Finset.sdiff_insert, ← Finset.erase_sdiff_comm]

theorem LegalUpdate.lists {live : Finset ℕ} {current : Option ℕ} {added removed states : List ℕ}
    (h : LegalUpdate live current added removed) {remove : List ℕ → ℕ → Option (List ℕ)}
    (hremove : ∀ {live states es}, Lists live states → es ∈ live →
      ∃ states', remove states es = some states' ∧ Lists (live.erase es) states')
    (hstates : Lists (live ∪ added.toFinset) states) :
    ∃ states', removed.foldlM remove states = some states' ∧ Lists (liveAfter live added removed) states' :=
  removeStates_ok hremove h.removed_nodup hstates fun i hi => by simpa using h.known i hi

theorem DFSSearcher.removeState_ok {live : Finset ℕ} {states : List ℕ} {es : ℕ} (h : Lists live states)
    (hes : es ∈ live) : ∃ states', DFSSearcher.removeState states es = some states' ∧ Lists (live.erase es) states' := by
  unfold DFSSearcher.removeState
  split
  · rename_i hlast
    obtain ⟨init, rfl⟩ := List.getLast?_eq_some_iff.mp hlast
    have hnodup := List.nodup_append.mp h.nodup
    refine ⟨_, rfl, by simpa using hnodup.1, fun i => ?_⟩
    rw [List.dropLast_concat, Finset.mem_erase, ← h.mem, List.mem_append, List.mem_singleton]
    constructor
    · exact fun hi => ⟨hnodup.2.2 i hi es List.mem_cons_self, .inl hi⟩
    · rintro ⟨hne, hi | rfl⟩
      · exact hi
      · exact absurd rfl hne
  · exact eraseState_ok h hes

theorem DFSSearcher.lawful : DFSSearcher.Lawful Lists where
  select h hne _ := by
    have hlast := List.getLast?_eq_some_getLast (h.ne_nil hne)
    exact ⟨_, (h.mem _).mp (List.getLast_mem _), _, congrArg (Option.map _) hlast, h⟩
  update h hlegal := hlegal.lists DFSSearcher.removeState_ok (h.append hlegal.added_nodup hlegal.fresh)

end Klee
