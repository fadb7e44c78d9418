import DdKlee.Spec.MemoryManager

/-! Deterministic allocation hands out objects that are apart as long as no sum of an address
and a size that wraps around looks as if it were in the mapped space. -/

namespace Klee

theorem toNat_isPowerOf2_64 {value : BitVec 64} (h : isPowerOf2_64 value = true) : ∃ k < 64, value.toNat = 2 ^ k := by
  obtain ⟨hne, hand⟩ := of_decide_eq_true h
  have hnat : value.toNat ≠ 0 := fun h0 => hne (BitVec.eq_of_toNat_eq h0)
  have hsub : (value - 1).toNat = value.toNat - 1 := by
    rw [BitVec.toNat_sub_of_le (by rw [BitVec.le_def]; exact Nat.one_le_iff_ne_zero.mpr hnat)]
    rfl
  have hzero : value.toNat &&& (value.toNat - 1) = 0 := by
    rw [← hsub, ← BitVec.toNat_and, hand]
    rfl
  obtain ⟨k, hk⟩ := (Nat.and_sub_one_eq_zero_iff_isPowerOfTwo hnat).mp hzero
  refine ⟨k, ?_, hk⟩
  have hlt := value.isLt
  rw [hk] at hlt
  exact (Nat.pow_lt_pow_iff_right (by decide)).mp hlt

def slotAddress (slot align : ℕ) : ℕ := (slot + 2 * (align - 1)) / align * align

theorem slot_le_slotAddress (slot : ℕ) {align : ℕ} (h : 0 < align) : slot ≤ slotAddress slot align := by
  have hmod := Nat.mod_lt (slot + 2 * (align - 1)) h
  have hdiv := Nat.div_add_mod (slot + 2 * (align - 1)) align
  rw [slotAddress, Nat.mul_comm]
  omega

theorem toNat_alignTo (slot align : BitVec 64) {k : ℕ} (hk : k < 64) (halign : align.toNat = 2 ^ k) :
    (alignTo (slot + align - 1) align).toNat = slotAddress slot.toNat align.toNat % 2 ^ 64 := by
  have hpos : 0 < align.toNat := halign ▸ Nat.two_pow_pos k
  have hsum : (slot + align - 1 + align - 1).toNat = (slot.toNat + 2 * (align.toNat - 1)) % 2 ^ 64 := by
    bv_omega
  have hpow : 2 ^ 64 = align.toNat * 2 ^ (64 - k) := by
    rw [halign, ← pow_add, Nat.add_sub_cancel' hk.le]
  rw [alignTo, BitVec.toNat_mul, BitVec.toNat_udiv, hsum, slotAddress, hpow, Nat.mod_mul_right_div_self,
    Nat.mul_comm align.toNat, Nat.mul_mod_mul_right, Nat.mod_mod, Nat.mul_mod_mul_right]

namespace MemoryManager

def extent (r : AllocRequest) : ℕ := max r.size.toNat 1

def spaceEnd (m : MemoryManager) : ℕ := m.deterministicSpace.toNat + m.spaceSize.toNat

def address (m : MemoryManager) (r : AllocRequest) : ℕ := slotAddress m.nextFreeSlot.toNat r.alignment.toNat

def Fits (m : MemoryManager) (r : AllocRequest) : Prop := m.address r + extent r < m.spaceEnd

/-- What the system promises about the address that `mmap` returns: the space is in the lower
half of the addresses, and not at zero. -/
structure Mapped (m : MemoryManager) : Prop where
  pos : 0 < m.deterministicSpace.toNat
  spaceEnd_le : m.spaceEnd ≤ 2 ^ 63

variable (opts : MemoryOptions)

def Requested (r : AllocRequest) : Prop :=
  ¬ (opts.nullOnZeroMalloc = true ∧ r.size = 0) ∧ isPowerOf2_64 r.alignment = true

/-- The end of the object wraps around to an address below the end of the space, and the slot
moves. -/
def Wraps (m : MemoryManager) (r : AllocRequest) : Prop :=
  Requested opts r ∧ 2 ^ 64 ≤ m.address r + extent r ∧ (m.address r + extent r) % 2 ^ 64 < m.spaceEnd ∧
    (2 ^ 64 ∣ m.address r →
      (m.address r + extent r) % 2 ^ 64 + opts.redzoneSize.toNat ≠ m.nextFreeSlot.toNat)

instance (r : AllocRequest) : Decidable (Requested opts r) :=
  inferInstanceAs (Decidable (_ ∧ _))

instance (m : MemoryManager) (r : AllocRequest) : Decidable (Wraps opts m r) :=
  inferInstanceAs (Decidable (_ ∧ _))

/-- A request without space is refused and changes nothing, and an object is in the space and
aligned. -/
structure StepCorrect (s : AllocStep) : Prop where
  refused : ¬ s.before.Fits s.request → s.result = none ∧ s.after = s.before
  returned : ∀ mo, s.result = some mo → mo.size = s.request.size.toNat ∧ s.request.alignment.toNat ∣ mo.address ∧
    s.before.deterministicSpace.toNat ≤ mo.address ∧ mo.address + extent s.request ≤ s.before.spaceEnd

def Apart (s s' : AllocStep) : Prop :=
  ∀ mo mo', s.result = some mo → s'.result = some mo' →
    mo.address + extent s.request + opts.redzoneSize.toNat ≤ mo'.address

variable {opts} {m : MemoryManager} {r : AllocRequest}

theorem toNat_extent : (if r.size < 1 then 1 else r.size).toNat = extent r := by
  rw [extent]
  split
  case isTrue h =>
    have hlt : r.size.toNat < 1 := h
    rw [max_eq_right hlt.le]
    rfl
  case isFalse h => 
    have hle : 1 ≤ r.size.toNat := not_lt.mp h
    rw [max_eq_left hle]

theorem Mapped.toNat_end (hm : m.Mapped) : (m.deterministicSpace + m.spaceSize).toNat = m.spaceEnd := by
  have hle := hm.spaceEnd_le
  rw [BitVec.toNat_add]
  rw [spaceEnd] at hle ⊢
  omega

theorem toNat_objectEnd (hr : isPowerOf2_64 r.alignment = true) :
    (alignTo (m.nextFreeSlot + r.alignment - 1) r.alignment).toNat = m.address r % 2 ^ 64 ∧
    (alignTo (m.nextFreeSlot + r.alignment - 1) r.alignment + if r.size < 1 then 1 else r.size).toNat =
      (m.address r + extent r) % 2 ^ 64 := by
  obtain ⟨k, hk, halign⟩ := toNat_isPowerOf2_64 hr
  have haddress := toNat_alignTo m.nextFreeSlot r.alignment hk halign
  refine ⟨haddress, ?_⟩
  rw [BitVec.toNat_add, haddress, toNat_extent, Nat.mod_add_mod]
  rfl

section

variable (hm : m.Mapped) (hr : Requested opts r)

include hm hr

theorem allocate_of_lt (h : (m.address r + extent r) % 2 ^ 64 < m.spaceEnd) : ∃ next address : BitVec 64,
    next.toNat = (m.address r + extent r) % 2 ^ 64 + opts.redzoneSize.toNat ∧ address.toNat = m.address r % 2 ^ 64 ∧
      m.allocate opts r = if address = 0 then (none, { m with nextFreeSlot := next })
        else (some (newObject m address r), { m with nextFreeSlot := next, counter := m.counter + 1 }) := by
  obtain ⟨haddress, hend⟩ := toNat_objectEnd (m := m) hr.2
  have hplace : m.place opts r = _ := if_pos (by rw [BitVec.lt_def, hend, hm.toNat_end]; exact h)
  have hred := opts.redzoneSize.isLt
  have hle := hm.spaceEnd_le
  refine ⟨alignTo (m.nextFreeSlot + r.alignment - 1) r.alignment + (if r.size < 1 then 1 else r.size) +
    opts.redzoneSize.setWidth 64, _, ?_, haddress, ?_⟩
  · rw [BitVec.toNat_add, hend, BitVec.toNat_setWidth]
    omega
  · rw [allocate, if_neg hr.1, if_pos hr.2, hplace]
    rfl

theorem allocate_of_le (h : ¬ (m.address r + extent r) % 2 ^ 64 < m.spaceEnd) : m.allocate opts r = (none, m) := by
  have hend := (toNat_objectEnd (m := m) hr.2).2
  have hplace : m.place opts r = _ := if_neg (by rw [BitVec.lt_def, hend, hm.toNat_end]; exact h)
  rw [allocate, if_neg hr.1, if_pos hr.2, hplace]
  rfl

end

theorem allocate_of_not_requested (hr : ¬ Requested opts r) : m.allocate opts r = (none, m) := by
  rw [allocate]
  split
  case isTrue => rfl
  case isFalse h => rw [if_neg fun h' => hr ⟨h, h'⟩]

structure Ready (m : MemoryManager) : Prop where
  mapped : m.Mapped
  spaceSize_lt : m.spaceSize.toNat < 2 ^ 32
  space_le : m.deterministicSpace.toNat ≤ m.nextFreeSlot.toNat

inductive Outcome (opts : MemoryOptions) (m : MemoryManager) (r : AllocRequest) : Option MemoryObject → MemoryManager → Prop
  | refused : Outcome opts m r none m
  | returned {address next : BitVec 64} (hr : Requested opts r) (hfits : m.Fits r) (haddress : address.toNat = m.address r)
      (hnext : next.toNat = m.address r + extent r + opts.redzoneSize.toNat) :
      Outcome opts m r (some (newObject m address r)) { m with nextFreeSlot := next, counter := m.counter + 1 }

theorem Ready.outcome (h : Ready m) (hw : ¬ Wraps opts m r) :
    Outcome opts m r (m.allocate opts r).1 (m.allocate opts r).2 := by
  by_cases hr : Requested opts r
  · by_cases hlt : (m.address r + extent r) % 2 ^ 64 < m.spaceEnd
    · obtain ⟨next, address, hnext, haddress, hallocate⟩ := allocate_of_lt h.mapped hr hlt
      rw [hallocate]
      by_cases hover : 2 ^ 64 ≤ m.address r + extent r
      · -- the address is zero and the slot does not move
        have hlucky : 2 ^ 64 ∣ m.address r ∧ next = m.nextFreeSlot := by
          by_contra hnot
          refine hw ⟨hr, hover, hlt, fun hdvd hsame => hnot ⟨hdvd, BitVec.eq_of_toNat_eq ?_⟩⟩
          rw [hnext, hsame]
        have hzero : address = 0 := BitVec.eq_of_toNat_eq (by rw [haddress, Nat.mod_eq_zero_of_dvd hlucky.1]; rfl)
        rw [if_pos hzero, hlucky.2]
        exact .refused
      · rw [Nat.mod_eq_of_lt (not_le.mp hover)] at hlt hnext
        rw [Nat.mod_eq_of_lt (by omega)] at haddress
        obtain ⟨k, -, halign⟩ := toNat_isPowerOf2_64 hr.2
        have hle := slot_le_slotAddress m.nextFreeSlot.toNat (halign ▸ Nat.two_pow_pos k : 0 < r.alignment.toNat)
        have hne : address ≠ 0 := by
          rintro rfl
          have := h.mapped.pos
          have := h.space_le
          rw [address] at haddress
          exact absurd haddress.symm (by simp; omega)
        rw [if_neg hne]
        exact .returned hr hlt haddress hnext
    · rw [allocate_of_le h.mapped hr hlt]
      exact .refused
  · rw [allocate_of_not_requested hr]
    exact .refused

section

variable {result : Option MemoryObject} {after : MemoryManager} (ho : Outcome opts m r result after)

include ho

theorem Outcome.slot_le : m.nextFreeSlot.toNat ≤ after.nextFreeSlot.toNat ∧ ∀ mo, result = some mo →
    m.nextFreeSlot.toNat ≤ mo.address ∧ mo.address + extent r + opts.redzoneSize.toNat ≤ after.nextFreeSlot.toNat := by
  cases ho with
  | refused => exact ⟨le_rfl, fun _ hmo => by cases hmo⟩
  | @returned address next hr hfits haddress hnext =>
    obtain ⟨k, -, halign⟩ := toNat_isPowerOf2_64 hr.2
    have hle : m.nextFreeSlot.toNat ≤ m.address r :=
      slot_le_slotAddress m.nextFreeSlot.toNat (halign ▸ Nat.two_pow_pos k)
    refine ⟨?_, fun mo hmo => ?_⟩
    · change _ ≤ next.toNat
      omega
    · cases hmo
      change _ ≤ address.toNat ∧ address.toNat + _ + _ ≤ next.toNat
      omega

variable (h : Ready m)

include h

theorem Outcome.correct : StepCorrect ⟨m, r, result, after⟩ := by
  cases ho with
  | refused => exact ⟨fun _ => ⟨rfl, rfl⟩, fun _ hmo => by cases hmo⟩
  | @returned address next hr hfits haddress _ =>
    refine ⟨fun hnot => absurd hfits hnot, fun mo hmo => ?_⟩
    cases hmo
    obtain ⟨k, -, halign⟩ := toNat_isPowerOf2_64 hr.2
    have hle := slot_le_slotAddress m.nextFreeSlot.toNat (halign ▸ Nat.two_pow_pos k : 0 < r.alignment.toNat)
    have hspace := h.space_le
    have hsize := h.spaceSize_lt
    have hextent : r.size.toNat ≤ extent r := le_max_left ..
    rw [Fits, spaceEnd, MemoryManager.address] at hfits
    refine ⟨?_, ?_, ?_, ?_⟩
    · change (r.size.setWidth 32).toNat = r.size.toNat
      rw [BitVec.toNat_setWidth, Nat.mod_eq_of_lt (by omega)]
    · change r.alignment.toNat ∣ address.toNat
      rw [haddress]
      exact Nat.dvd_mul_left ..
    · change m.deterministicSpace.toNat ≤ address.toNat
      rw [haddress, MemoryManager.address]
      omega
    · change address.toNat + extent r ≤ m.spaceEnd
      rw [haddress, MemoryManager.address, spaceEnd]
      exact hfits.le

theorem Outcome.ready : Ready after := by
  have hslot := (Outcome.slot_le ho).1
  cases ho with
  | refused => exact h
  | returned => exact ⟨⟨h.mapped.pos, h.mapped.spaceEnd_le⟩, h.spaceSize_lt, h.space_le.trans hslot⟩

end

theorem StepCorrect.not_wraps (hm : m.Mapped) (h : StepCorrect ⟨m, r, (m.allocate opts r).1, (m.allocate opts r).2⟩) :
    ¬ Wraps opts m r := by
  rintro ⟨hr, hover, hlt, hmoves⟩
  have hle := hm.spaceEnd_le
  have hfits : ¬ m.Fits r := by
    rw [Fits]
    omega
  obtain ⟨hnone, hsame⟩ := h.refused hfits
  obtain ⟨next, address, hnext, haddress, hallocate⟩ := allocate_of_lt hm hr hlt
  rw [hallocate] at hnone hsame
  by_cases hzero : address = 0
  · rw [if_pos hzero] at hsame
    have hdvd : 2 ^ 64 ∣ m.address r := Nat.dvd_of_mod_eq_zero (by rw [← haddress, hzero]; rfl)
    refine hmoves hdvd ?_
    rw [← hnext]
    exact congrArg (fun m => BitVec.toNat (nextFreeSlot m)) hsame
  · rw [if_neg hzero] at hnone
    cases hnone

variable (opts) in
structure Correct (steps : List AllocStep) : Prop where
  correct : ∀ s ∈ steps, StepCorrect s
  apart : steps.Pairwise (Apart opts)

theorem allocate_space (opts : MemoryOptions) (m : MemoryManager) (r : AllocRequest) :
    (m.allocate opts r).2.deterministicSpace = m.deterministicSpace ∧
    (m.allocate opts r).2.spaceSize = m.spaceSize := by
  unfold allocate
  repeat' split
  all_goals exact ⟨rfl, rfl⟩

theorem Mapped.allocate (h : m.Mapped) (r : AllocRequest) : (m.allocate opts r).2.Mapped := by
  obtain ⟨hspace, hsize⟩ := allocate_space opts m r
  constructor
  · rw [hspace]
    exact h.pos
  · rw [spaceEnd, hspace, hsize]
    exact h.spaceEnd_le

theorem trace_not_wraps (rs : List AllocRequest) (hm : m.Mapped) (h : ∀ s ∈ m.trace opts rs, StepCorrect s) :
    ∀ s ∈ m.trace opts rs, ¬ Wraps opts s.before s.request := by
  induction rs generalizing m with
  | nil => simp [trace]
  | cons r rs ih =>
    obtain ⟨hr, hrs⟩ := List.forall_mem_cons.mp h
    exact List.forall_mem_cons.mpr ⟨hr.not_wraps hm, ih (hm.allocate r) hrs⟩

theorem trace_correct (rs : List AllocRequest) (h : Ready m)
    (hw : ∀ s ∈ m.trace opts rs, ¬ Wraps opts s.before s.request) :
    Correct opts (m.trace opts rs) ∧
      ∀ s ∈ m.trace opts rs, ∀ mo, s.result = some mo → m.nextFreeSlot.toNat ≤ mo.address := by
  induction rs generalizing m with
  | nil => exact ⟨⟨by simp [trace], .nil⟩, by simp [trace]⟩
  | cons r rs ih =>
    obtain ⟨hr, hrs⟩ := List.forall_mem_cons.mp hw
    have ho := h.outcome hr
    obtain ⟨hslot, hobject⟩ := ho.slot_le
    obtain ⟨⟨hsteps, hapart⟩, hbehind⟩ := ih (ho.ready h) hrs
    refine ⟨⟨List.forall_mem_cons.mpr ⟨ho.correct h, hsteps⟩, List.pairwise_cons.mpr ⟨?_, hapart⟩⟩,
      List.forall_mem_cons.mpr ⟨fun mo hmo => (hobject mo hmo).1, ?_⟩⟩
    · intro s hs mo mo' hmo hmo'
      exact (hobject mo hmo).2.trans (hbehind s hs mo' hmo')
    · intro s hs mo hmo
      exact hslot.trans (hbehind s hs mo hmo)

theorem new_ready {newSpace : BitVec 64} (hnew : new opts newSpace = some m) (hm : m.Mapped) : Ready m := by
  rw [new] at hnew
  split at hnew
  · cases hnew
  · split at hnew
    · cases hnew
    · cases hnew
      refine ⟨hm, ?_, le_rfl⟩
      rw [spaceBytes, BitVec.toNat_setWidth]
      exact lt_of_le_of_lt (Nat.mod_le ..) (BitVec.isLt _)

/-- From a new manager, requests are served correctly exactly when none of them wraps around. -/
theorem allocate_correct_iff {newSpace : BitVec 64} (hnew : new opts newSpace = some m) (hm : m.Mapped)
    (rs : List AllocRequest) :
    Correct opts (m.trace opts rs) ↔ ∀ s ∈ m.trace opts rs, ¬ Wraps opts s.before s.request :=
  ⟨fun h => trace_not_wraps rs hm h.correct, fun hw => (trace_correct rs (new_ready hnew hm) hw).1⟩

def defaults : MemoryOptions := ⟨100, false, 10, 0x7ff30000000⟩

def start : MemoryManager := ⟨0x7ff30000000, 0x7ff30000000, 104857600, 0⟩

/-- Two objects behind one another, and a request without space. -/
theorem allocate_correct_three :
    Correct defaults (start.trace defaults [⟨16, 0, 8⟩, ⟨0, 0, 16⟩, ⟨104857600, 0, 8⟩]) := by
  have hnew : new defaults 0x7ff30000000 = some start := by decide
  exact (allocate_correct_iff hnew ⟨by decide, by decide⟩ _).mpr (by decide)

/-- A request for nearly all addresses is served, and the one after it gets the bytes that the
first one got. -/
theorem allocate_overlaps :
    ((start.trace defaults [⟨16, 0, 8⟩, ⟨-64, 0, 8⟩, ⟨16, 0, 8⟩]).map fun s => s.result.map MemoryObject.address) =
        [some 0x7ff30000008, some 0x7ff30000030, some 0x7ff30000008] ∧
      ¬ Correct defaults (start.trace defaults [⟨16, 0, 8⟩, ⟨-64, 0, 8⟩, ⟨16, 0, 8⟩]) := by
  refine ⟨by decide, fun h => ?_⟩
  have hapart := List.pairwise_iff_getElem.mp h.apart 0 2 (by decide) (by decide) (by decide)
  exact absurd (hapart _ _ rfl rfl) (by decide)

end MemoryManager

end Klee
