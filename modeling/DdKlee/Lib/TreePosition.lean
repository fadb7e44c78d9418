import DdKlee.Lib.LinkedTree
import DdKlee.Lib.SearchTree

/-! The elements of a tree as positions. A position is the path to an element, with the element
first and the root last. -/

def Side.before {α : Type} : Side → HeightTree α → HeightTree α → HeightTree α
  | .right, l, _ => l
  | .left, _, r => r

def Side.after {α : Type} : Side → HeightTree α → HeightTree α → HeightTree α
  | .right, _, r => r
  | .left, l, _ => l

namespace HeightTree

variable {α : Type}

/-- The positions in a direction, for a tree that hangs below a path. -/
def positions : Side → HeightTree α → List α → List (List α)
  | _, leaf, _ => []
  | .right, node l v r, above => positions .right l (v :: above) ++ (v :: above) :: positions .right r (v :: above)
  | .left, node l v r, above => positions .left r (v :: above) ++ (v :: above) :: positions .left l (v :: above)

/-- The first position, and the path itself for a tree without elements. -/
def spine : Side → HeightTree α → List α → List α
  | _, leaf, above => above
  | .right, node l v _, above => spine .right l (v :: above)
  | .left, node _ v r, above => spine .left r (v :: above)

variable (side : Side) (l r : HeightTree α) (v : α) (above : List α)

theorem positions_node : positions side (node l v r) above =
    positions side (side.before l r) (v :: above) ++ (v :: above) :: positions side (side.after l r) (v :: above) := by
  cases side <;> rfl

theorem mem_positions_node {s : List α} : s ∈ positions side (node l v r) above ↔
    s ∈ positions side l (v :: above) ∨ s = v :: above ∨ s ∈ positions side r (v :: above) := by
  rw [positions_node, List.mem_append, List.mem_cons]
  cases side with
  | left =>
    rw [Side.before, Side.after, or_left_comm, or_comm (a := s ∈ _), or_left_comm]
  | right => rfl

theorem spine_node : spine side (node l v r) above = spine side (side.before l r) (v :: above) := by
  cases side <;> rfl

theorem height_before : (side.before l r).height < (node l v r).height := by
  cases side <;> simp only [Side.before, height] <;> omega

theorem height_after : (side.after l r).height < (node l v r).height := by
  cases side <;> simp only [Side.after, height] <;> omega

theorem positions_left (t : HeightTree α) (above : List α) :
    positions .left t above = (positions .right t above).reverse := by
  induction t generalizing above with
  | leaf => rfl
  | node l v r ihl ihr => simp [positions, ihl, ihr]

theorem length_positions (t : HeightTree α) (above : List α) : (positions .right t above).length = t.toList.length := by
  induction t generalizing above with
  | leaf => rfl
  | node l v r ihl ihr => simp [positions, toList, ihl, ihr]

theorem map_head_positions (t : HeightTree α) (above : List α) :
    (positions .right t above).map List.head? = t.toList.map some := by
  induction t generalizing above with
  | leaf => rfl
  | node l v r ihl ihr => simp [positions, toList, ihl, ihr]

theorem exists_getElem_positions {t : HeightTree α} {above s : List α} {j : ℕ}
    (h : (positions .right t above)[j]? = some s) : ∃ v rest, s = v :: rest ∧ t.toList[j]? = some v := by
  have hmap := congrArg (·[j]?) (map_head_positions t above)
  simp only [List.getElem?_map, h, Option.map_some] at hmap
  obtain ⟨v, hv, hhead⟩ := Option.map_eq_some_iff.mp hmap.symm
  cases s with
  | nil => cases hhead
  | cons w rest =>
    cases hhead
    exact ⟨_, rest, rfl, hv⟩

theorem exists_positions_eq {t : HeightTree α} (h : t ≠ leaf) (above : List α) :
    ∃ rest, positions side t above = spine side t above :: rest := by
  induction hheight : t.height using Nat.strongRecOn generalizing t above with
  | ind height ih =>
    cases t with
    | leaf => exact absurd rfl h
    | node l v r =>
      rw [positions_node, spine_node]
      by_cases hbefore : side.before l r = leaf
      · rw [hbefore]
        cases side <;> exact ⟨_, rfl⟩
      · obtain ⟨rest, hrest⟩ := ih _ (hheight ▸ height_before side l r v) hbefore (v :: above) rfl
        rw [hrest]
        exact ⟨_, rfl⟩

section

variable {l r v above} {s : List α} {j : ℕ}

theorem getElem_positions_left (h : (positions .right l (v :: above))[j]? = some s) :
    (positions .right (node l v r) above)[j]? = some s := by
  rw [positions, List.getElem?_append_left (List.getElem?_eq_some_iff.mp h).1, h]

theorem getElem_positions_root : (positions .right (node l v r) above)[l.toList.length]? = some (v :: above) := by
  rw [positions, ← length_positions l (v :: above), List.getElem?_append_right le_rfl, Nat.sub_self]
  rfl

theorem getElem_positions_right (h : (positions .right r (v :: above))[j]? = some s) :
    (positions .right (node l v r) above)[l.toList.length + 1 + j]? = some s := by
  rw [positions, ← length_positions l (v :: above), List.getElem?_append_right (by omega),
    show (positions .right l (v :: above)).length + 1 + j - (positions .right l (v :: above)).length = j + 1 by omega,
    List.getElem?_cons_succ, h]

end

theorem length_le_of_mem_positions {t : HeightTree α} {above s : List α} (h : s ∈ positions side t above) :
    s.length ≤ above.length + t.height := by
  induction t generalizing above with
  | leaf => cases side <;> cases h
  | node l v r ihl ihr =>
    have hcons : (v :: above).length = above.length + 1 := rfl
    rw [height]
    rcases (mem_positions_node ..).mp h with h | rfl | h
    · have := ihl h
      omega
    · omega
    · have := ihr h
      omega

section

variable {K : Type} {lt : K → K → Prop} [DecidableRel lt] {key : α → K} {k : K} {vs : List α} {w : α} {q : α → Bool}

theorem findIdx_eq_of (hle : i ≤ vs.length) (hbefore : ∀ j v, j < i → vs[j]? = some v → q v = false)
    (hat : ∀ v, vs[i]? = some v → q v = true) : vs.findIdx q = i := by
  rcases lt_trichotomy (vs.findIdx q) i with hlt | heq | hgt
  · have hfound := List.findIdx_getElem (w := lt_of_lt_of_le hlt hle)
    rw [hbefore _ _ hlt (List.getElem?_eq_getElem _)] at hfound
    cases hfound
  · exact heq
  · have hi : i < vs.length := lt_of_lt_of_le hgt List.findIdx_le_length
    exact absurd (hat _ (List.getElem?_eq_getElem hi)) (by simpa using List.not_of_lt_findIdx hgt)

variable (lt key k vs) in
/-- The number of the first element that is not below a key. -/
def lowerIndex : ℕ := vs.findIdx fun v => ¬ lt (key v) k

variable (lt key k vs) in
def upperIndex : ℕ := vs.findIdx fun v => lt k (key v)

variable (lt key k vs) in
def sameIndex : ℕ := vs.findIdx fun v => ¬ lt (key v) k ∧ ¬ lt k (key v)

theorem lt_of_lt_lowerIndex {j : ℕ} {v : α} (hj : j < lowerIndex lt key k vs) (hv : vs[j]? = some v) :
    lt (key v) k := by
  obtain ⟨hlt, rfl⟩ := List.getElem?_eq_some_iff.mp hv
  simpa using List.not_of_lt_findIdx hj

theorem not_lt_lowerIndex (hw : vs[lowerIndex lt key k vs]? = some w) : ¬ lt (key w) k := by
  obtain ⟨hlt, rfl⟩ := List.getElem?_eq_some_iff.mp hw
  simpa [lowerIndex] using List.findIdx_getElem (w := hlt)

theorem lowerIndex_le : lowerIndex lt key k vs ≤ vs.length := List.findIdx_le_length

section

variable {l r : HeightTree α} {v : α}

theorem lowerIndex_node_of_not_lt (hv : ¬ lt (key v) k) :
    lowerIndex lt key k (node l v r).toList = lowerIndex lt key k l.toList := by
  have hle : lowerIndex lt key k l.toList ≤ l.toList.length := lowerIndex_le
  rw [toList, lowerIndex, List.findIdx_append]
  split
  case isTrue => rfl
  case isFalse h =>
    rw [List.findIdx_cons, decide_eq_true hv, cond_true, Nat.zero_add]
    exact le_antisymm (not_lt.mp h) hle

theorem lowerIndex_eq_length (h : ∀ v ∈ vs, lt (key v) k) : lowerIndex lt key k vs = vs.length :=
  List.findIdx_eq_length.mpr fun v hv => by simpa using h v hv

theorem lowerIndex_node_of_lt (hl : ∀ a ∈ l.toList, lt (key a) k) (hv : lt (key v) k) :
    lowerIndex lt key k (node l v r).toList = l.toList.length + 1 + lowerIndex lt key k r.toList := by
  have hlength : lowerIndex lt key k l.toList = l.toList.length := lowerIndex_eq_length hl
  rw [toList, lowerIndex, List.findIdx_append, if_neg (by rw [← lowerIndex, hlength]; exact lt_irrefl _),
    List.findIdx_cons, decide_eq_false (not_not_intro hv), cond_false, ← lowerIndex]
  omega

end

theorem sameIndex_of_none (hnone : vs[lowerIndex lt key k vs]? = none) : sameIndex lt key k vs = vs.length := by
  have hle := List.getElem?_eq_none_iff.mp hnone
  refine findIdx_eq_of le_rfl (fun j v hj hv => ?_) (by simp)
  simpa using fun h => absurd (lt_of_lt_lowerIndex (by omega) hv) h

variable [IsStrictWeakOrder K lt]

theorem upperIndex_of_none (hnone : vs[lowerIndex lt key k vs]? = none) :
    upperIndex lt key k vs = lowerIndex lt key k vs :=
  findIdx_eq_of lowerIndex_le (fun _ _ hj hv => by simpa using asymm_of lt (lt_of_lt_lowerIndex hj hv))
    (by simp [hnone])

variable (hsorted : vs.Pairwise fun a b => lt (key a) (key b)) (hw : vs[lowerIndex lt key k vs]? = some w)

include hw

theorem upperIndex_of_lt (hlt : lt k (key w)) : upperIndex lt key k vs = lowerIndex lt key k vs := by
  refine findIdx_eq_of lowerIndex_le (fun _ _ hj hv => by simpa using asymm_of lt (lt_of_lt_lowerIndex hj hv)) ?_
  intro v hv
  cases hw.symm.trans hv
  exact decide_eq_true hlt

omit [IsStrictWeakOrder K lt] in
theorem sameIndex_of_not_lt (hlt : ¬ lt k (key w)) : sameIndex lt key k vs = lowerIndex lt key k vs := by
  refine findIdx_eq_of lowerIndex_le (fun _ _ hj hv => by simpa using fun h => absurd (lt_of_lt_lowerIndex hj hv) h) ?_
  intro v hv
  cases hw.symm.trans hv
  simpa using ⟨not_lt_lowerIndex hw, hlt⟩

include hsorted

theorem sameIndex_of_lt (hlt : lt k (key w)) : sameIndex lt key k vs = vs.length := by
  obtain ⟨hi, rfl⟩ := List.getElem?_eq_some_iff.mp hw
  refine findIdx_eq_of le_rfl (fun j v hj hv => ?_) (by simp)
  obtain ⟨_, rfl⟩ := List.getElem?_eq_some_iff.mp hv
  rcases lt_trichotomy j (lowerIndex lt key k vs) with hbelow | rfl | habove
  · simpa using fun h => absurd (lt_of_lt_lowerIndex hbelow hv) h
  · simpa using fun _ => hlt
  · have hnext := List.pairwise_iff_getElem.mp hsorted _ j hi hj habove
    simpa using fun _ => trans_of lt hlt hnext

theorem upperIndex_of_not_lt (hlt : ¬ lt k (key w)) : upperIndex lt key k vs = lowerIndex lt key k vs + 1 := by
  have hnot := not_lt_lowerIndex hw
  obtain ⟨hi, rfl⟩ := List.getElem?_eq_some_iff.mp hw
  refine findIdx_eq_of hi (fun j v hj hv => ?_) fun v hv => ?_
  · rcases Nat.lt_succ_iff_lt_or_eq.mp hj with hj | rfl
    · simpa using asymm_of lt (lt_of_lt_lowerIndex hj hv)
    · cases hw.symm.trans hv
      simpa using hlt
  · obtain ⟨hj, rfl⟩ := List.getElem?_eq_some_iff.mp hv
    have hnext := List.pairwise_iff_getElem.mp hsorted _ _ hi hj (Nat.lt_succ_self _)
    exact decide_eq_true (lt_of_not_lt_of_lt hnot hnext)

end

end HeightTree
