import DdKlee.Lib.Prog

/-! Binary search for the least number of an interval with a property that goes
on upwards. The arithmetic is that of words, and a question may fail. -/

namespace BinarySearch

def search (w : ℕ) (ask : ℕ → Option Bool) : ℕ → ℕ → ℕ → Option ℕ
  | 0, lo, hi => if lo < hi then none else some lo
  | fuel + 1, lo, hi =>
      if lo < hi then do
        let mid := (lo + (hi - lo) / 2) % 2 ^ w
        if ← ask mid then search w ask fuel lo mid else search w ask fuel ((mid + 1) % 2 ^ w) hi
      else some lo

/-- A search over less than `2 ^ fuel` numbers that has the property at its end
finds the least one, and does not leave the words. -/
theorem search_eq {w : ℕ} {ask : ℕ → Option Bool} {P : ℕ → Prop} (hmono : ∀ m n, m ≤ n → P m → P n) (fuel : ℕ) :
    ∀ lo hi : ℕ, lo ≤ hi → hi < 2 ^ w → hi - lo < 2 ^ fuel → P hi →
      (∀ m, lo ≤ m → m < hi → ∃ b, ask m = some b ∧ (b = true ↔ P m)) →
      ∃ n, search w ask fuel lo hi = some n ∧ lo ≤ n ∧ n ≤ hi ∧ P n ∧ ∀ m, lo ≤ m → m < n → ¬ P m := by
  induction fuel with
  | zero =>
    intro lo hi hle _ hfuel hhi _
    obtain rfl : lo = hi := by omega
    exact ⟨lo, by simp [search], le_rfl, le_rfl, hhi, by omega⟩
  | succ fuel ih =>
    intro lo hi hle hw hfuel hhi hask
    rw [pow_succ] at hfuel
    by_cases hlt : lo < hi
    · have hmid : (lo + (hi - lo) / 2) % 2 ^ w = lo + (hi - lo) / 2 := Nat.mod_eq_of_lt (by omega)
      have hnext : (lo + (hi - lo) / 2 + 1) % 2 ^ w = lo + (hi - lo) / 2 + 1 := Nat.mod_eq_of_lt (by omega)
      obtain ⟨b, hb, hiff⟩ := hask (lo + (hi - lo) / 2) (by omega) (by omega)
      rw [search, if_pos hlt]
      simp only [hmid, hnext, hb, some_bind]
      cases b with
      | true =>
        obtain ⟨n, hrun, hlo, hn, hP, hleast⟩ := ih lo (lo + (hi - lo) / 2) (by omega) (by omega)
          (by omega) (hiff.mp rfl) fun m hm hm' => hask m hm (by omega)
        exact ⟨n, hrun, hlo, by omega, hP, hleast⟩
      | false =>
        have hnot : ¬ P (lo + (hi - lo) / 2) := fun h => by cases hiff.mpr h
        obtain ⟨n, hrun, hlo, hn, hP, hleast⟩ := ih (lo + (hi - lo) / 2 + 1) hi (by omega) hw
          (by omega) hhi fun m hm hm' => hask m (by omega) hm'
        refine ⟨n, hrun, by omega, hn, hP, fun m hm hmn hPm => ?_⟩
        rcases Nat.lt_or_ge (lo + (hi - lo) / 2) m with hgt | hge
        · exact hleast m hgt hmn hPm
        · exact hnot (hmono m _ hge hPm)
    · obtain rfl : lo = hi := by omega
      exact ⟨lo, by simp [search], le_rfl, le_rfl, hhi, by omega⟩

end BinarySearch
