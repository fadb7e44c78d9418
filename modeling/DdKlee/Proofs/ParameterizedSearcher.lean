import DdKlee.Proofs.FeatureHandler
import DdKlee.Proofs.MainLoop

/-! The searcher with learned weights in the main loop: it always has a state to run, and one
of the best score as soon as the groups of the features are not empty. -/

namespace Klee.ParameterizedSearcher

open FeatureHandler MainLoop

variable {V : Type} [LinearOrder V] {value : SearchEnv → Feature → ℕ → V} {weights : List ℚ} {live : Finset ℕ}
  {s : ParameterizedSearcher} {es : ℕ}

/-- With ten states there is one in each group, and the features are used. -/
structure Holds (weights : List ℚ) (live : Finset ℕ) (s : ParameterizedSearcher) : Prop extends Lists live s.states where
  weights : s.weights = weights
  features : s.updateFeatureMap = true ↔ 10 ≤ s.states.length

/-- No state has a better score than the one that is selected. -/
def Best (value : Feature → ℕ → V) (s : ParameterizedSearcher) (es : ℕ) : Prop :=
  ∀ j ∈ s.states, score s.weights (vector (extractFeatures value s.states) j) ≤
    score s.weights (vector (extractFeatures value s.states) es)

theorem Holds.update (h : Holds weights live s) {current : Option ℕ} {added removed : List ℕ}
    (hlegal : LegalUpdate live current added removed) :
    ∃ s', s.update added removed = some s' ∧ Holds weights (liveAfter live added removed) s' := by
  obtain ⟨states, hrun, hlists⟩ := hlegal.lists eraseState_ok (h.append hlegal.added_nodup hlegal.fresh)
  have hupdate : s.update added removed = some ⟨s.weights, states, 1 ≤ (states.length : ℚ) * Feature.criterion⟩ := by
    rw [ParameterizedSearcher.update, hrun]
    rfl
  refine ⟨_, hupdate, hlists, h.weights, ?_⟩
  have hten : 1 ≤ (states.length : ℚ) * Feature.criterion ↔ (10 : ℚ) ≤ states.length := by
    rw [Feature.criterion, mul_one_div, one_le_div₀ (by norm_num)]
  exact decide_eq_true_iff.trans (hten.trans Nat.ofNat_le_cast)

theorem Holds.select (hweights : ∀ w ∈ weights, -10 ≤ w ∧ w ≤ 10) (h : Holds weights live s) (hne : live.Nonempty)
    (value : Feature → ℕ → V) (getInt32 : ℕ) :
    ∃ es ∈ live, s.selectState value getInt32 = some es ∧ (10 ≤ s.states.length → Best value s es) := by
  have hstates := h.ne_nil hne
  rw [selectState]
  split
  · -- the score that the search starts from is below those of all states
    obtain ⟨top, hmem, htop, hbest⟩ : ∃ top ∈ s.states,
        getTop s.weights (extractFeatures value s.states) = some top ∧ Best value s top :=
      getTop_max h.nodup (h.weights ▸ hweights) hstates
    exact ⟨top, (h.mem top).mp hmem, htop, fun _ => hbest⟩
  · rename_i hfew
    have hpos := List.length_pos_iff.mpr hstates
    have hlt := Nat.mod_lt getInt32 hpos
    rw [if_neg hpos.ne', List.getElem?_eq_getElem hlt]
    exact ⟨_, (h.mem _).mp (List.getElem_mem hlt), rfl, fun hten => absurd (h.features.mpr hten) hfew⟩

theorem lawful (hweights : ∀ w ∈ weights, -10 ≤ w ∧ w ≤ 10) : (searcher value).Lawful (Holds weights) where
  select h hne _ := by
    obtain ⟨es, hes, hselect, -⟩ := h.select hweights hne (value _) _
    exact ⟨es, hes, _, congrArg (Option.map _) hselect, h⟩
  update h hlegal := h.update hlegal

end Klee.ParameterizedSearcher
