import Mathlib

/-! Search trees in which the heights of siblings differ by a bounded slack. -/

inductive HeightTree (α : Type)
  | leaf
  | node (left : HeightTree α) (value : α) (right : HeightTree α)

namespace HeightTree

variable {α : Type}

def height : HeightTree α → ℕ
  | leaf => 0
  | node l _ r => max l.height r.height + 1

def size : HeightTree α → ℕ
  | leaf => 0
  | node l _ r => l.size + 1 + r.size

def toList : HeightTree α → List α
  | leaf => []
  | node l v r => l.toList ++ v :: r.toList

def Balanced (slack : ℕ) : HeightTree α → Prop
  | leaf => True
  | node l _ r => l.height ≤ r.height + slack ∧ r.height ≤ l.height + slack ∧ l.Balanced slack ∧ r.Balanced slack

theorem size_eq (t : HeightTree α) : t.size = t.toList.length := by
  induction t with
  | leaf => rfl
  | node l v r ihl ihr =>
    simp only [size, toList, List.length_append, List.length_cons, ihl, ihr]
    omega

section

variable (slack : ℕ)

def rotateRight : HeightTree α → α → HeightTree α → HeightTree α
  | node ll lv lr, v, r =>
      if lr.height ≤ ll.height then node ll lv (node lr v r)
      else match lr with
        | node lrl lrv lrr => node (node ll lv lrl) lrv (node lrr v r)
        | leaf => node (node ll lv leaf) v r
  | leaf, v, r => node leaf v r

def rotateLeft : HeightTree α → α → HeightTree α → HeightTree α
  | l, v, node rl rv rr =>
      if rl.height ≤ rr.height then node (node l v rl) rv rr
      else match rl with
        | node rll rlv rlr => node (node l v rll) rlv (node rlr rv rr)
        | leaf => node l v (node leaf rv rr)
  | l, v, leaf => node l v leaf

def balance (l : HeightTree α) (v : α) (r : HeightTree α) : HeightTree α :=
  if r.height + slack < l.height then rotateRight l v r
  else if l.height + slack < r.height then rotateLeft l v r
  else node l v r

end

theorem height_le {l r : HeightTree α} {v : α} {fuel : ℕ} (h : (node l v r).height ≤ fuel) :
    ∃ k, fuel = k + 1 ∧ l.height ≤ k ∧ r.height ≤ k := by
  rw [height] at h
  exact ⟨fuel - 1, by omega, by omega, by omega⟩

theorem rotateRight_single {ll lr r : HeightTree α} {lv v : α} (h : lr.height ≤ ll.height) :
    rotateRight (node ll lv lr) v r = node ll lv (node lr v r) := by
  unfold rotateRight
  exact if_pos h

theorem rotateLeft_single {l rl rr : HeightTree α} {rv v : α} (h : rl.height ≤ rr.height) :
    rotateLeft l v (node rl rv rr) = node (node l v rl) rv rr := by
  unfold rotateLeft
  exact if_pos h

theorem toList_rotateRight (l : HeightTree α) (v : α) (r : HeightTree α) :
    (rotateRight l v r).toList = l.toList ++ v :: r.toList := by
  unfold rotateRight
  repeat' split
  all_goals simp [toList]

theorem toList_rotateLeft (l : HeightTree α) (v : α) (r : HeightTree α) :
    (rotateLeft l v r).toList = l.toList ++ v :: r.toList := by
  unfold rotateLeft
  repeat' split
  all_goals simp [toList]

@[simp]
theorem toList_balance (slack : ℕ) (l : HeightTree α) (v : α) (r : HeightTree α) :
    (balance slack l v r).toList = l.toList ++ v :: r.toList := by
  unfold balance
  split
  · exact toList_rotateRight l v r
  · split
    · exact toList_rotateLeft l v r
    · rfl

variable {slack : ℕ} {l r : HeightTree α} {v : α}

theorem rotateRight_balanced (hslack : 0 < slack) (hl : l.Balanced slack) (hr : r.Balanced slack)
    (h : l.height = r.height + slack + 1) :
    (rotateRight l v r).Balanced slack ∧ l.height ≤ (rotateRight l v r).height ∧
      (rotateRight l v r).height ≤ l.height + 1 := by
  cases l with
  | leaf => simp [height] at h
  | node ll lv lr =>
    obtain ⟨h1, h2, hll, hlr⟩ := hl
    simp only [height] at h
    simp only [rotateRight]
    split
    · simp only [Balanced, height, hll, hlr, hr, and_true, true_and]
      omega
    · cases lr with
      | leaf => simp [height] at *
      | node lrl lrv lrr =>
        obtain ⟨h3, h4, hlrl, hlrr⟩ := hlr
        simp only [height] at *
        simp only [Balanced, height, hll, hlrl, hlrr, hr, and_true]
        omega

theorem rotateLeft_balanced (hslack : 0 < slack) (hl : l.Balanced slack) (hr : r.Balanced slack)
    (h : r.height = l.height + slack + 1) :
    (rotateLeft l v r).Balanced slack ∧ r.height ≤ (rotateLeft l v r).height ∧
      (rotateLeft l v r).height ≤ r.height + 1 := by
  cases r with
  | leaf => simp [height] at h
  | node rl rv rr =>
    obtain ⟨h1, h2, hrl, hrr⟩ := hr
    simp only [height] at h
    simp only [rotateLeft]
    split
    · simp only [Balanced, height, hrl, hrr, hl, and_true]
      omega
    · cases rl with
      | leaf => simp [height] at *
      | node rll rlv rlr =>
        obtain ⟨h3, h4, hrll, hrlr⟩ := hrl
        simp only [height] at *
        simp only [Balanced, height, hrll, hrlr, hrr, hl, and_true]
        omega

theorem balance_balanced (hslack : 0 < slack) (hl : l.Balanced slack) (hr : r.Balanced slack)
    (h1 : l.height ≤ r.height + slack + 1) (h2 : r.height ≤ l.height + slack + 1) :
    (balance slack l v r).Balanced slack ∧ max l.height r.height ≤ (balance slack l v r).height ∧
      (balance slack l v r).height ≤ max l.height r.height + 1 ∧
      (l.height ≤ r.height + slack → r.height ≤ l.height + slack →
        (balance slack l v r).height = max l.height r.height + 1) := by
  unfold balance
  split
  · obtain ⟨hbal, hge, hle⟩ := rotateRight_balanced (v := v) hslack hl hr (by omega)
    exact ⟨hbal, by omega, by omega, fun _ _ => by omega⟩
  · split
    · obtain ⟨hbal, hge, hle⟩ := rotateLeft_balanced (v := v) hslack hl hr (by omega)
      exact ⟨hbal, by omega, by omega, fun _ _ => by omega⟩
    · exact ⟨⟨by omega, by omega, hl, hr⟩, by simp only [height]; omega, by simp only [height]; omega, fun _ _ => rfl⟩

section

variable (slack : ℕ)

def popMin : HeightTree α → Option (α × HeightTree α)
  | leaf => none
  | node l v r =>
      match l.popMin with
      | none => some (v, r)
      | some (m, l') => some (m, balance slack l' v r)

def popMax : HeightTree α → Option (α × HeightTree α)
  | leaf => none
  | node l v r =>
      match r.popMax with
      | none => some (v, l)
      | some (m, r') => some (m, balance slack l v r')

end

theorem popMin_eq_none {t : HeightTree α} : t.popMin slack = none ↔ t = leaf := by
  cases t with
  | leaf => simp [popMin]
  | node l v r =>
    simp only [popMin]
    split <;> simp

theorem popMax_eq_none {t : HeightTree α} : t.popMax slack = none ↔ t = leaf := by
  cases t with
  | leaf => simp [popMax]
  | node l v r =>
    simp only [popMax]
    split <;> simp

theorem toList_popMin {t t' : HeightTree α} {m : α} (h : t.popMin slack = some (m, t')) :
    t.toList = m :: t'.toList := by
  induction t generalizing t' m with
  | leaf => cases h
  | node l v r ihl ihr =>
    simp only [popMin] at h
    split at h
    · rename_i hnone
      cases h
      simp [popMin_eq_none.mp hnone, toList]
    · rename_i hsome
      cases h
      simp [toList, ihl hsome]

theorem toList_popMax {t t' : HeightTree α} {m : α} (h : t.popMax slack = some (m, t')) :
    t.toList = t'.toList ++ [m] := by
  induction t generalizing t' m with
  | leaf => cases h
  | node l v r ihl ihr =>
    simp only [popMax] at h
    split at h
    · rename_i hnone
      cases h
      simp [popMax_eq_none.mp hnone, toList]
    · rename_i hsome
      cases h
      simp [toList, ihr hsome]

def Shrunk (slack : ℕ) (t t' : HeightTree α) : Prop :=
  t'.Balanced slack ∧ t'.height ≤ t.height ∧ t.height ≤ t'.height + 1

def Grown (slack : ℕ) (t t' : HeightTree α) : Prop :=
  t'.Balanced slack ∧ t.height ≤ t'.height ∧ t'.height ≤ t.height + 1

theorem Shrunk.left {l' : HeightTree α} {v' : α} (hslack : 0 < slack) (h : (node l v r).Balanced slack)
    (hl : Shrunk slack l l') : Shrunk slack (node l v r) (balance slack l' v' r) := by
  obtain ⟨h1, h2, -, hr⟩ := h
  obtain ⟨hl', hle, hge⟩ := hl
  obtain ⟨hbal, hbge, hble, heq⟩ := balance_balanced (v := v') hslack hl' hr (by omega) (by omega)
  refine ⟨hbal, ?_, ?_⟩ <;> simp only [height] <;> omega

theorem Shrunk.right {r' : HeightTree α} {v' : α} (hslack : 0 < slack) (h : (node l v r).Balanced slack)
    (hr : Shrunk slack r r') : Shrunk slack (node l v r) (balance slack l v' r') := by
  obtain ⟨h1, h2, hl, -⟩ := h
  obtain ⟨hr', hle, hge⟩ := hr
  obtain ⟨hbal, hbge, hble, heq⟩ := balance_balanced (v := v') hslack hl hr' (by omega) (by omega)
  refine ⟨hbal, ?_, ?_⟩ <;> simp only [height] <;> omega

theorem Grown.left {l' : HeightTree α} (hslack : 0 < slack) (h : (node l v r).Balanced slack)
    (hl : Grown slack l l') : Grown slack (node l v r) (balance slack l' v r) := by
  obtain ⟨h1, h2, -, hr⟩ := h
  obtain ⟨hl', hle, hge⟩ := hl
  obtain ⟨hbal, hbge, hble, heq⟩ := balance_balanced (v := v) hslack hl' hr (by omega) (by omega)
  refine ⟨hbal, ?_, ?_⟩ <;> simp only [height] <;> omega

theorem Grown.right {r' : HeightTree α} (hslack : 0 < slack) (h : (node l v r).Balanced slack)
    (hr : Grown slack r r') : Grown slack (node l v r) (balance slack l v r') := by
  obtain ⟨h1, h2, hl, -⟩ := h
  obtain ⟨hr', hle, hge⟩ := hr
  obtain ⟨hbal, hbge, hble, heq⟩ := balance_balanced (v := v) hslack hl hr' (by omega) (by omega)
  refine ⟨hbal, ?_, ?_⟩ <;> simp only [height] <;> omega

theorem popMin_shrunk (hslack : 0 < slack) {t t' : HeightTree α} {m : α} (ht : t.Balanced slack)
    (h : t.popMin slack = some (m, t')) : Shrunk slack t t' := by
  induction t generalizing t' m with
  | leaf => cases h
  | node l v r ihl ihr =>
    simp only [popMin] at h
    split at h
    · rename_i hnone
      cases h
      obtain rfl := popMin_eq_none.mp hnone
      exact ⟨ht.2.2.2, by simp only [height]; omega, by simp only [height]; omega⟩
    · rename_i hsome
      cases h
      exact .left hslack ht (ihl ht.2.2.1 hsome)

theorem popMax_shrunk (hslack : 0 < slack) {t t' : HeightTree α} {m : α} (ht : t.Balanced slack)
    (h : t.popMax slack = some (m, t')) : Shrunk slack t t' := by
  induction t generalizing t' m with
  | leaf => cases h
  | node l v r ihl ihr =>
    simp only [popMax] at h
    split at h
    · rename_i hnone
      cases h
      obtain rfl := popMax_eq_none.mp hnone
      exact ⟨ht.2.2.1, by simp only [height]; omega, by simp only [height]; omega⟩
    · rename_i hsome
      cases h
      exact .right hslack ht (ihr ht.2.2.2 hsome)

section

variable {K : Type} (lt : K → K → Prop) [DecidableRel lt] (key : α → K) (slack : ℕ)

def lookup (k : K) : HeightTree α → Option α
  | leaf => none
  | node l v r =>
      if lt k (key v) then l.lookup k
      else if lt (key v) k then r.lookup k
      else some v

def lookupPrevious (k : K) : HeightTree α → Option α
  | leaf => none
  | node l v r =>
      if lt k (key v) then l.lookupPrevious k
      else if lt (key v) k then (r.lookupPrevious k).or (some v)
      else some v

def insert (x : α) : HeightTree α → HeightTree α
  | leaf => node leaf x leaf
  | node l v r =>
      if lt (key x) (key v) then balance slack (l.insert x) v r
      else if lt (key v) (key x) then balance slack l v (r.insert x)
      else node l v r

def replace (x : α) : HeightTree α → HeightTree α
  | leaf => node leaf x leaf
  | node l v r =>
      if lt (key x) (key v) then balance slack (l.replace x) v r
      else if lt (key v) (key x) then balance slack l v (r.replace x)
      else node l x r

def removeRoot : HeightTree α → HeightTree α → HeightTree α
  | leaf, r => r
  | l, r =>
      match r.popMin slack with
      | none => l
      | some (m, r') => balance slack l m r'

def remove (k : K) : HeightTree α → HeightTree α
  | leaf => leaf
  | node l v r =>
      if lt k (key v) then balance slack (l.remove k) v r
      else if lt (key v) k then balance slack l v (r.remove k)
      else removeRoot slack l r

end

theorem toList_removeRoot (l r : HeightTree α) : (removeRoot slack l r).toList = l.toList ++ r.toList := by
  unfold removeRoot
  split
  · simp [toList]
  · split
    · rename_i hnone
      simp [popMin_eq_none.mp hnone, toList]
    · rename_i hsome
      simp [toList_popMin hsome]

theorem removeRoot_shrunk (hslack : 0 < slack) (h : (node l v r).Balanced slack) :
    Shrunk slack (node l v r) (removeRoot slack l r) := by
  unfold removeRoot
  split
  · exact ⟨h.2.2.2, by simp only [height]; omega, by simp only [height]; omega⟩
  · split
    · rename_i hnone
      obtain rfl := popMin_eq_none.mp hnone
      exact ⟨h.2.2.1, by simp only [height]; omega, by simp only [height]; omega⟩
    · rename_i hsome
      exact .right hslack h (popMin_shrunk hslack h.2.2.2 hsome)

variable {K : Type} {lt : K → K → Prop} [DecidableRel lt] {key : α → K} {t : HeightTree α} {x : α} {k : K}

theorem insert_grown (hslack : 0 < slack) (ht : t.Balanced slack) : Grown slack t (t.insert lt key slack x) := by
  induction t with
  | leaf => exact ⟨⟨by simp, by simp, trivial, trivial⟩, by simp [height], by simp [insert, height]⟩
  | node l v r ihl ihr =>
    simp only [insert]
    split
    · exact .left hslack ht (ihl ht.2.2.1)
    · split
      · exact .right hslack ht (ihr ht.2.2.2)
      · exact ⟨ht, Nat.le_refl _, Nat.le_succ _⟩

theorem replace_grown (hslack : 0 < slack) (ht : t.Balanced slack) : Grown slack t (t.replace lt key slack x) := by
  induction t with
  | leaf => exact ⟨⟨by simp, by simp, trivial, trivial⟩, by simp [height], by simp [replace, height]⟩
  | node l v r ihl ihr =>
    simp only [replace]
    split
    · exact .left hslack ht (ihl ht.2.2.1)
    · split
      · exact .right hslack ht (ihr ht.2.2.2)
      · exact ⟨ht, Nat.le_refl _, Nat.le_succ _⟩

theorem remove_shrunk (hslack : 0 < slack) (ht : t.Balanced slack) : Shrunk slack t (t.remove lt key slack k) := by
  induction t with
  | leaf => exact ⟨trivial, Nat.le_refl _, Nat.le_succ _⟩
  | node l v r ihl ihr =>
    simp only [remove]
    split
    · exact .left hslack ht (ihl ht.2.2.1)
    · split
      · exact .right hslack ht (ihr ht.2.2.2)
      · exact removeRoot_shrunk hslack ht

end HeightTree
