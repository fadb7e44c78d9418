import DdKlee.Spec.Varargs

/-! The layout of variadic arguments is consistent exactly when its size is below `2 ^ 32`. -/

namespace Klee.Varargs

def slot : WordSize → Width → ℕ
  | .int32, w => (w.toNat + 7) / 8
  | .int64, w => alignTo w.toNat 64 / 8

def start (word : WordSize) (offset : ℕ) (w : Width) : ℕ :=
  if word = .int64 ∧ 64 < w.toNat then alignTo offset 16 else offset

def extent (word : WordSize) : ℕ → List Width → ℕ
  | offset, [] => offset
  | offset, w :: rest => extent word (start word offset w + slot word w) rest

def Fits (word : WordSize) (offset : ℕ) (widths : List Width) : Prop :=
  extent word offset widths < 2 ^ 32 ∧ (word = .int32 → ∀ w ∈ widths, w.toNat + 7 < 2 ^ 32)

/-- What is asked of a layout: the two loops agree, the bytes of each argument are inside the
object, after the slots of all earlier ones, and aligned when the object is. -/
structure Consistent (word : WordSize) (widths : List Width) : Prop where
  size : (allocation word widths).1 = (writeLoop word 0 widths).1
  inside : ∀ p ∈ (writeLoop word 0 widths).2, p.1 + (p.2.toNat + 7) / 8 ≤ (allocation word widths).1
  order : (writeLoop word 0 widths).2.Pairwise fun p q => p.1 + slot word p.2 ≤ q.1
  aligned : word = .int64 → ∀ address, (allocation word widths).2 ∣ address →
    ∀ p ∈ (writeLoop word 0 widths).2, 8 ∣ address + p.1 ∧ (64 < p.2.toNat → 16 ∣ address + p.1)

variable {word : WordSize} {offset : ℕ} {w : Width} {widths : List Width}

def advance : WordSize → Width → ℕ
  | .int32, w => getMinBytesForWidth w
  | .int64, w => slot .int64 w

def next (word : WordSize) (offset : ℕ) (w : Width) : ℕ := (start word offset w % 2 ^ 32 + advance word w) % 2 ^ 32

theorem writeLoop_cons (h : offset < 2 ^ 32) : writeLoop word offset (w :: widths) =
    ((writeLoop word (next word offset w) widths).1,
      (start word offset w % 2 ^ 32, w) :: (writeLoop word (next word offset w) widths).2) := by
  cases word with
  | int32 => simpa [writeLoop, next, start, advance] using (Nat.mod_eq_of_lt h).symm
  | int64 =>
    by_cases hw : 64 < w.toNat
    · simp [writeLoop, next, start, advance, slot, hw]
    · simpa [writeLoop, next, start, advance, slot, hw] using (Nat.mod_eq_of_lt h).symm

theorem sizeLoop_eq (h : offset < 2 ^ 32) (b : Bool) : sizeLoop word (offset, b) widths =
    ((writeLoop word offset widths).1, b || word = .int64 && widths.any (64 < ·.toNat)) := by
  induction widths generalizing offset b with
  | nil => simp [sizeLoop, writeLoop]
  | cons w widths ih =>
    have hnext : next word offset w < 2 ^ 32 := Nat.mod_lt _ (by decide)
    rw [writeLoop_cons h]
    cases word with
    | int32 => simpa [sizeLoop, next, start, advance, Nat.mod_eq_of_lt h] using ih hnext b
    | int64 =>
      by_cases hw : 64 < w.toNat
      · simpa [sizeLoop, next, start, advance, slot, hw] using ih hnext true
      · simpa [sizeLoop, next, start, advance, slot, hw, Nat.mod_eq_of_lt h] using ih hnext b

theorem le_start : offset ≤ start word offset w := by
  unfold start alignTo
  split_ifs <;> omega

theorem le_extent : offset ≤ extent word offset widths := by
  induction widths generalizing offset with
  | nil => exact le_rfl
  | cons w widths ih => exact (le_start.trans (Nat.le_add_right _ _)).trans ih

theorem next_eq (hend : start word offset w + slot word w < 2 ^ 32) (hw : word = .int32 → w.toNat + 7 < 2 ^ 32) :
    next word offset w = start word offset w + slot word w := by
  unfold next
  rw [Nat.mod_eq_of_lt (by omega : start word offset w < 2 ^ 32)]
  cases word with
  | int32 =>
    rw [advance, getMinBytesForWidth, Nat.mod_eq_of_lt (hw rfl)]
    exact Nat.mod_eq_of_lt hend
  | int64 => exact Nat.mod_eq_of_lt hend

theorem start_lt (h : offset < 2 ^ 32) (hstart : offset ≤ start word offset w % 2 ^ 32) :
    start word offset w < 2 ^ 32 := by
  unfold start alignTo at *
  split_ifs at * <;> omega

theorem end_lt (h : offset < 2 ^ 32) (hstart : offset ≤ start word offset w % 2 ^ 32)
    (hnext : start word offset w % 2 ^ 32 + (w.toNat + 7) / 8 ≤ next word offset w ∨
      ∃ w', start word offset w % 2 ^ 32 + slot word w ≤ start word (next word offset w) w' % 2 ^ 32) :
    start word offset w + slot word w < 2 ^ 32 ∧ (word = .int32 → w.toNat + 7 < 2 ^ 32) := by
  have hw := w.isLt
  have hlt := start_lt h hstart
  rw [Nat.mod_eq_of_lt hlt] at hnext
  unfold next at hnext
  rw [Nat.mod_eq_of_lt hlt] at hnext
  cases word with
  | int32 =>
    simp only [start, slot, advance, getMinBytesForWidth, reduceCtorEq, false_and, if_false, exists_const] at *
    omega
  | int64 =>
    have hslot : slot .int64 w < 2 ^ 32 := by
      simp only [slot, alignTo]
      omega
    simp only [advance, reduceCtorEq, false_implies, and_true] at *
    obtain hnext | ⟨w', hnext⟩ := hnext
    · omega
    · exact hnext.trans_lt (Nat.mod_lt _ (by decide))

structure Placed (word : WordSize) (offset : ℕ) (widths : List Width) : Prop where
  last : (writeLoop word offset widths).1 = extent word offset widths
  bounds : ∀ p ∈ (writeLoop word offset widths).2, offset ≤ p.1 ∧ p.1 + slot word p.2 ≤ extent word offset widths
  order : (writeLoop word offset widths).2.Pairwise fun p q => p.1 + slot word p.2 ≤ q.1

theorem Fits.placed (h : Fits word offset widths) : Placed word offset widths := by
  induction widths generalizing offset with
  | nil => exact ⟨rfl, by simp [writeLoop], by simp [writeLoop]⟩
  | cons w widths ih =>
    obtain ⟨hextent, hw⟩ := h
    have hle : start word offset w + slot word w ≤ extent word offset (w :: widths) := le_extent
    have hle' : offset ≤ start word offset w := le_start
    have hnext := next_eq (hle.trans_lt hextent) fun h32 => hw h32 w List.mem_cons_self
    obtain ⟨hlast, hbounds, horder⟩ := ih ⟨hextent, fun h32 w' hw' => hw h32 w' (List.mem_cons_of_mem _ hw')⟩
    have hloop : writeLoop word offset (w :: widths) = _ := writeLoop_cons (by omega)
    rw [hnext, Nat.mod_eq_of_lt (by omega)] at hloop
    refine ⟨by rw [hloop, hlast]; rfl, ?_, ?_⟩
    · rw [hloop]
      refine List.forall_mem_cons.mpr ⟨⟨hle', hle⟩, fun p hp => ?_⟩
      have hp := hbounds p hp
      exact ⟨by omega, hp.2⟩
    · rw [hloop]
      exact List.pairwise_cons.mpr ⟨fun p hp => (hbounds p hp).1, horder⟩

theorem fits_of_writes (h : offset < 2 ^ 32) (hstart : ∀ p ∈ (writeLoop word offset widths).2, offset ≤ p.1)
    (hinside : ∀ p ∈ (writeLoop word offset widths).2, p.1 + (p.2.toNat + 7) / 8 ≤ (writeLoop word offset widths).1)
    (horder : (writeLoop word offset widths).2.Pairwise fun p q => p.1 + slot word p.2 ≤ q.1) :
    Fits word offset widths := by
  induction widths generalizing offset with
  | nil => exact ⟨h, by simp⟩
  | cons w widths ih =>
    rw [writeLoop_cons h] at hstart hinside horder
    obtain ⟨hstart, -⟩ := List.forall_mem_cons.mp hstart
    obtain ⟨hin, hinside⟩ := List.forall_mem_cons.mp hinside
    obtain ⟨hfirst, horder⟩ := List.pairwise_cons.mp horder
    have hnext : next word offset w < 2 ^ 32 := Nat.mod_lt _ (by decide)
    obtain ⟨hend, hw⟩ := end_lt h hstart (by
      cases widths with
      | nil => exact .inl hin
      | cons w' widths =>
        rw [writeLoop_cons hnext] at hfirst
        exact .inr ⟨w', hfirst _ List.mem_cons_self⟩)
    have heq := next_eq hend hw
    rw [Nat.mod_eq_of_lt (by omega)] at hfirst
    obtain ⟨hextent, hws⟩ := ih hnext (fun p hp => heq ▸ hfirst p hp) hinside horder
    rw [heq] at hextent
    exact ⟨hextent, fun h32 => List.forall_mem_cons.mpr ⟨hw h32, hws h32⟩⟩

theorem writes_aligned (h : offset < 2 ^ 32) (h8 : 8 ∣ offset) :
    ∀ p ∈ (writeLoop .int64 offset widths).2, p.2 ∈ widths ∧ 8 ∣ p.1 ∧ (64 < p.2.toNat → 16 ∣ p.1) := by
  induction widths generalizing offset with
  | nil => simp [writeLoop]
  | cons w widths ih =>
    rw [writeLoop_cons h]
    have hnext : 8 ∣ next .int64 offset w := by
      simp only [next, start, advance, slot, alignTo]
      split_ifs <;> omega
    refine List.forall_mem_cons.mpr ⟨⟨List.mem_cons_self, ?_, fun hw => ?_⟩, fun p hp => ?_⟩
    · simp only [start, alignTo]
      split_ifs <;> omega
    · rw [start, if_pos ⟨rfl, hw⟩, alignTo]
      omega
    · obtain ⟨hmem, hp⟩ := ih (Nat.mod_lt _ (by decide)) hnext p hp
      exact ⟨List.mem_cons_of_mem _ hmem, hp⟩

theorem bytes_le_slot : (w.toNat + 7) / 8 ≤ slot word w := by
  cases word <;> simp only [slot, alignTo] <;> omega

theorem allocation_eq : allocation word widths = ((writeLoop word 0 widths).1,
    if word = .int64 ∧ ∃ w ∈ widths, 64 < w.toNat then 16 else 8) := by
  have hsize : sizeLoop word (0, false) widths = _ := sizeLoop_eq (by decide) false
  simp [allocation, hsize]

end Klee.Varargs
