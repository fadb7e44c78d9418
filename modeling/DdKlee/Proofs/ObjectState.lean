import DdKlee.Lib.Machine
import DdKlee.Proofs.Create.Folded
import DdKlee.Spec.ObjectState

/-! The bytes of an `ObjectState`: where each one is kept, that the caches agree,
and what the reads and writes of single bytes do. -/

namespace Klee

open Expr

namespace BitArray

theorem get_eq (b : BitArray) (i : ℕ) : b.get i = (b.bits (i / 32)).getLsbD (i % 32) := by
  have hidx : i &&& 0x1F = i % 32 := Nat.and_two_pow_sub_one_eq_mod i 5
  rw [get, hidx, Bool.eq_iff_iff, decide_eq_true_iff]
  constructor
  · intro h
    have hbit := congrArg (BitVec.getLsbD · 0) h
    simpa using hbit
  · intro h
    ext j hj
    rcases Nat.eq_zero_or_pos j with rfl | hpos
    · simp [h]
    · have hne : j ≠ 0 := by omega
      simp [hne]

theorem get_ofValue (value : Bool) (i : ℕ) : (ofValue value).get i = value := by
  rw [get_eq]
  cases value with
  | false => simp [ofValue]
  | true =>
    have hlt : i % 32 < 32 := Nat.mod_lt _ (by decide)
    have hones : (0xFFFFFFFF : BitVec 32) = BitVec.allOnes 32 := rfl
    simp only [ofValue, if_true]
    rw [hones, BitVec.getLsbD_allOnes, decide_eq_true hlt]

theorem bit_shiftLeft (i j : ℕ) : ((1 : BitVec 32) <<< (i &&& 0x1F)).getLsbD (j % 32) = decide (i % 32 = j % 32) := by
  have hidx : i &&& 0x1F = i % 32 := Nat.and_two_pow_sub_one_eq_mod i 5
  have hlt : i % 32 < 32 := Nat.mod_lt _ (by decide)
  rw [hidx]
  change (1#32 <<< (i % 32)).getLsbD (j % 32) = _
  rw [← BitVec.twoPow_eq, BitVec.getLsbD_twoPow, decide_eq_true hlt, Bool.true_and]

@[simp] theorem get_set (b : BitArray) (i j : ℕ) : (b.set i).get j = (b.get j || decide (i = j)) := by
  rw [get_eq, get_eq]
  dsimp only [set]
  by_cases hword : j / 32 = i / 32
  · have hij : i = j ↔ i % 32 = j % 32 := by omega
    rw [hword, Function.update_self, BitVec.getLsbD_or, bit_shiftLeft]
    simp only [hij]
  · have hij : i ≠ j := by rintro rfl; exact hword rfl
    rw [Function.update_of_ne hword, decide_eq_false hij, Bool.or_false]

@[simp] theorem get_unset (b : BitArray) (i j : ℕ) : (b.unset i).get j = (b.get j && !decide (i = j)) := by
  rw [get_eq, get_eq]
  dsimp only [unset]
  by_cases hword : j / 32 = i / 32
  · have hij : i = j ↔ i % 32 = j % 32 := by omega
    have hlt : j % 32 < 32 := Nat.mod_lt _ (by decide)
    rw [hword, Function.update_self, BitVec.getLsbD_and, BitVec.getLsbD_not, bit_shiftLeft]
    simp [hij, hlt]
  · have hij : i ≠ j := by rintro rfl; exact hword rfl
    rw [Function.update_of_ne hword, decide_eq_false hij, Bool.not_false, Bool.and_true]

end BitArray

namespace ObjectState

section Observers

variable (os : ObjectState) (i j : ℕ) (v : Option Expr)

@[simp] theorem isByteConcrete_markByteConcrete :
    (os.markByteConcrete i).isByteConcrete j = (os.isByteConcrete j || decide (i = j)) := by
  cases h : os.concreteMask <;> simp [isByteConcrete, markByteConcrete, h]

@[simp] theorem isByteConcrete_markByteSymbolic :
    (os.markByteSymbolic i).isByteConcrete j = (os.isByteConcrete j && !decide (i = j)) := by
  cases h : os.concreteMask <;> simp [isByteConcrete, markByteSymbolic, h, BitArray.get_ofValue]

@[simp] theorem isByteFlushed_markByteUnflushed :
    (os.markByteUnflushed i).isByteFlushed j = (os.isByteFlushed j && !decide (i = j)) := by
  cases h : os.flushMask <;> simp [isByteFlushed, markByteUnflushed, h]

theorem isByteFlushed_markByteFlushed (h : os.flushMask.isSome) :
    (os.markByteFlushed i).isByteFlushed j = (os.isByteFlushed j || decide (i = j)) := by
  obtain ⟨mask, hmask⟩ := Option.isSome_iff_exists.mp h
  simp [isByteFlushed, markByteFlushed, hmask]

@[simp] theorem knownSymbolic_setKnownSymbolic :
    (os.setKnownSymbolic i v).knownSymbolic j = if i = j then v else os.knownSymbolic j := by
  cases h : os.knownSymbolics <;> cases v <;>
    simp [knownSymbolic, setKnownSymbolic, h, Function.update_apply, eq_comm]

end Observers

/-- The cache invariants documented in `Memory.cpp`. The first two of the three
are one. -/
structure CacheInv (os : ObjectState) : Prop where
  known : ∀ i < os.size, os.isByteKnownSymbolic i = true → os.isByteConcrete i = false
  unflushed : ∀ i < os.size, os.isByteFlushed i = false →
    os.isByteConcrete i = true ∨ os.isByteKnownSymbolic i = true

def ByteWrite (w : Expr × Expr) : Prop :=
  w.1.WellTyped ∧ w.1.getWidth = 32 ∧ w.2.WellTyped ∧ w.2.getWidth = 8

/-- The cache invariants, with the types of what is cached. As long as there is no
array, its size bounds the constant indices. -/
structure Valid (os : ObjectState) : Prop extends CacheInv os where
  size_lt : os.size < 2 ^ 32
  known_typed : ∀ i < os.size, ∀ e ∈ os.knownSymbolic i, e.WellTyped ∧ e.getWidth = 8
  root : ∀ r ∈ os.updates.root, r.domain = 32 ∧ r.range = 8
  writes : ∀ w ∈ writes os.updates.head, ByteWrite w
  inRange : os.updates.root = none → ∀ w ∈ ObjectState.writes os.updates.head,
    ∀ c, w.1 = constant c → c.toNat < os.size

/-- An array that the updates may be on: the root if there is one, and any array
of bytes otherwise. -/
def IsRoot (os : ObjectState) (root : Array) : Prop :=
  root.domain = 32 ∧ root.range = 8 ∧ ∀ r ∈ os.updates.root, r = root

/-- The bytes of the object under an assignment. A byte may be in several places. -/
structure Represents (σ : Bytes) (os : ObjectState) (bytes : ℕ → BitVec 8) : Prop where
  concrete : ∀ i < os.size, os.isByteConcrete i = true → os.concreteStore i = bytes i
  known : ∀ i < os.size, ∀ e ∈ os.knownSymbolic i, e.eval σ = ⟨8, bytes i⟩
  flushed : ∀ i < os.size, os.isByteFlushed i = true → ∀ root, os.IsRoot root →
    os.updates.head.lookup σ root (APInt.ofNat 32 i) = ⟨8, bytes i⟩

structure HasByte (σ : Bytes) (os : ObjectState) (i : ℕ) (v : BitVec 8) : Prop where
  concrete : os.isByteConcrete i = true → os.concreteStore i = v
  known : ∀ e ∈ os.knownSymbolic i, e.eval σ = ⟨8, v⟩
  flushed : os.isByteFlushed i = true → ∀ root, os.IsRoot root →
    os.updates.head.lookup σ root (APInt.ofNat 32 i) = ⟨8, v⟩

theorem represents_iff {σ : Bytes} {os : ObjectState} {bytes : ℕ → BitVec 8} :
    os.Represents σ bytes ↔ ∀ i < os.size, os.HasByte σ i (bytes i) :=
  ⟨fun h i hi => ⟨h.concrete i hi, h.known i hi, h.flushed i hi⟩,
    fun h => ⟨fun i hi => (h i hi).concrete, fun i hi => (h i hi).known, fun i hi => (h i hi).flushed⟩⟩

structure SameBytes (os os' : ObjectState) : Prop where
  valid : os'.Valid
  size : os'.size = os.size
  object : os'.object = os.object
  owner : os'.copyOnWriteOwner = os.copyOnWriteOwner
  readOnly : os'.readOnly = os.readOnly
  represents : ∀ σ bytes, os.Represents σ bytes → os'.Represents σ bytes

variable {os os' : ObjectState} {cache : ArrayCache} {i : ℕ}

theorem SameBytes.refl (h : os.Valid) : SameBytes os os := ⟨h, rfl, rfl, rfl, rfl, fun _ _ hr => hr⟩

theorem SameBytes.trans {os'' : ObjectState} (h : SameBytes os os') (h' : SameBytes os' os'') :
    SameBytes os os'' :=
  ⟨h'.valid, h'.size.trans h.size, h'.object.trans h.object, h'.owner.trans h.owner,
    h'.readOnly.trans h.readOnly, fun σ bytes hr => h'.represents σ bytes (h.represents σ bytes hr)⟩

theorem wellTyped_of_writes {root : Array} (hroot : root.domain = 32 ∧ root.range = 8) {head : UpdateNode}
    (h : ∀ w ∈ writes head, ByteWrite w) : head.WellTyped root := by
  induction head with
  | null => trivial
  | node next i v ih =>
    simp only [writes, List.mem_append, List.mem_singleton] at h
    obtain ⟨hi, hiw, hv, hvw⟩ := h (i, v) (.inr rfl)
    exact ⟨ih fun w hw => h w (.inl hw), hi, hv, hiw.trans hroot.1.symm, hvw.trans hroot.2.symm⟩

theorem cachedValue_hasByte (h : os.Valid) (hi : i < os.size) {e : Expr} (he : os.cachedValue i = some e) :
    e.WellTyped ∧ e.getWidth = 8 ∧ ∀ σ v, os.HasByte σ i v → e.eval σ = ⟨8, v⟩ := by
  unfold cachedValue at he
  split_ifs at he with hc
  · obtain rfl := Option.some.inj he
    refine ⟨trivial, rfl, fun σ v hv => ?_⟩
    rw [← hv.concrete hc, ConstantExpr.alloc, Expr.eval, APInt.ofNat, BitVec.ofNat_toNat, BitVec.setWidth_eq]
  · obtain ⟨ht, hw⟩ := h.known_typed i hi e he
    exact ⟨ht, hw, fun σ v hv => hv.known e he⟩

theorem cachedValue_ok (h : os.Valid) (hi : i < os.size) {e : Expr} (he : os.cachedValue i = some e) :
    e.WellTyped ∧ e.getWidth = 8 ∧ ∀ σ bytes, os.Represents σ bytes → e.eval σ = ⟨8, bytes i⟩ := by
  obtain ⟨ht, hw, heval⟩ := cachedValue_hasByte h hi he
  exact ⟨ht, hw, fun σ bytes hr => heval σ _ (represents_iff.mp hr i hi)⟩

theorem exists_cachedValue (h : os.CacheInv) (hi : i < os.size) (hf : os.isByteFlushed i = false) :
    ∃ e, os.cachedValue i = some e := by
  unfold cachedValue
  rcases h.unflushed i hi hf with hc | hk
  · exact ⟨_, if_pos hc⟩
  · rw [if_neg (by rw [h.known i hi hk]; decide)]
    exact Option.isSome_iff_exists.mp hk

def extended (os : ObjectState) (index value : Expr) : ObjectState :=
  { os with updates := { os.updates with head := .node os.updates.head index value } }

theorem extend_ok (h : os.Valid) {index value : Expr} (hw : ByteWrite (index, value)) :
    os.updates.extend index value = some (os.extended index value).updates := by
  refine if_pos ?_
  cases hroot : os.updates.root with
  | none => rfl
  | some r =>
    obtain ⟨hd, hr⟩ := h.root r hroot
    obtain ⟨-, hi, -, hv⟩ := hw
    simp only [Option.all_some, decide_eq_true_eq]
    exact ⟨hd.trans hi.symm, hr.trans hv.symm⟩

theorem mem_writes_node {head : UpdateNode} {index value : Expr} {w : Expr × Expr} :
    w ∈ writes (.node head index value) ↔ w ∈ writes head ∨ w = (index, value) := by
  simp [writes]

theorem Valid.extended (h : os.Valid) {index value : Expr} (hw : ByteWrite (index, value))
    (hin : ∀ c, index = constant c → c.toNat < os.size) : (os.extended index value).Valid where
  known := h.known
  unflushed := h.unflushed
  size_lt := h.size_lt
  known_typed := h.known_typed
  root := h.root
  writes w hmem := by
    rcases mem_writes_node.mp hmem with hmem | rfl
    · exact h.writes w hmem
    · exact hw
  inRange hroot w hmem c hc := by
    rcases mem_writes_node.mp hmem with hmem | rfl
    · exact h.inRange hroot w hmem c hc
    · exact hin c hc

theorem offset_inj {n i j : ℕ} (hn : n < 2 ^ 32) (hi : i < n) (hj : j < n) :
    APInt.ofNat 32 i = APInt.ofNat 32 j ↔ i = j := by
  refine ⟨fun h => ?_, fun h => h ▸ rfl⟩
  have hnat := congrArg APInt.toNat h
  rwa [APInt.toNat_ofNat, APInt.toNat_ofNat, Nat.mod_eq_of_lt (hi.trans hn), Nat.mod_eq_of_lt (hj.trans hn)]
    at hnat

theorem offset_toNat {n i : ℕ} (hn : n < 2 ^ 32) (hi : i < n) : (APInt.ofNat 32 i).toNat = i := by
  rw [APInt.toNat_ofNat, Nat.mod_eq_of_lt (hi.trans hn)]

theorem lookup_extended {σ : Bytes} {root : Array} {index value : Expr} {n j : ℕ} (hn : n < 2 ^ 32)
    (hi : i < n) (hj : j < n) (hindex : index.eval σ = APInt.ofNat 32 i) :
    (os.extended index value).updates.head.lookup σ root (APInt.ofNat 32 j) =
      if i = j then value.eval σ else os.updates.head.lookup σ root (APInt.ofNat 32 j) := by
  change UpdateNode.lookup σ root (.node _ index value) _ = _
  rw [UpdateNode.lookup, hindex]
  simp only [offset_inj hn hi hj]

structure Flushes (os os' : ObjectState) : Prop where
  valid : os'.Valid
  size : os'.size = os.size
  object : os'.object = os.object
  owner : os'.copyOnWriteOwner = os.copyOnWriteOwner
  readOnly : os'.readOnly = os.readOnly
  concrete : ∀ j, os'.isByteConcrete j = os.isByteConcrete j
  known : ∀ j, os'.knownSymbolic j = os.knownSymbolic j
  store : os'.concreteStore = os.concreteStore
  root : os'.updates.root = os.updates.root
  mask : os'.flushMask.isSome
  flushed : ∀ j, os.isByteFlushed j = true → os'.isByteFlushed j = true
  kept : ∀ j < os.size, os.isByteFlushed j = true → ∀ σ root,
    os'.updates.head.lookup σ root (APInt.ofNat 32 j) = os.updates.head.lookup σ root (APInt.ofNat 32 j)
  fresh : ∀ j < os.size, os.isByteFlushed j = false → os'.isByteFlushed j = true → ∀ e ∈ os.cachedValue j,
    ∀ σ root, os'.updates.head.lookup σ root (APInt.ofNat 32 j) = e.eval σ

namespace Flushes

theorem refl (h : os.Valid) (hmask : os.flushMask.isSome) : Flushes os os :=
  ⟨h, rfl, rfl, rfl, rfl, fun _ => rfl, fun _ => rfl, rfl, rfl, hmask, fun _ hf => hf, fun _ _ _ _ _ => rfl,
    fun _ _ hf hf' => absurd (hf.symm.trans hf') (by decide)⟩

theorem cachedValue (h : Flushes os os') (j : ℕ) : os'.cachedValue j = os.cachedValue j := by
  rw [ObjectState.cachedValue, ObjectState.cachedValue, h.concrete, h.known, h.store]

theorem trans {os'' : ObjectState} (h : Flushes os os') (h' : Flushes os' os'') : Flushes os os'' where
  valid := h'.valid
  size := h'.size.trans h.size
  object := h'.object.trans h.object
  owner := h'.owner.trans h.owner
  readOnly := h'.readOnly.trans h.readOnly
  concrete j := (h'.concrete j).trans (h.concrete j)
  known j := (h'.known j).trans (h.known j)
  store := h'.store.trans h.store
  root := h'.root.trans h.root
  mask := h'.mask
  flushed j hf := h'.flushed j (h.flushed j hf)
  kept j hj hf σ root := (h'.kept j (h.size.symm ▸ hj) (h.flushed j hf) σ root).trans (h.kept j hj hf σ root)
  fresh j hj hf hf'' e he σ root := by
    have hj' : j < os'.size := h.size.symm ▸ hj
    cases hf' : os'.isByteFlushed j with
    | false => exact h'.fresh j hj' hf' hf'' e (h.cachedValue j ▸ he) σ root
    | true => exact (h'.kept j hj' hf' σ root).trans (h.fresh j hj hf hf' e he σ root)

theorem isRoot (h : Flushes os os') {root : Array} (hroot : os'.IsRoot root) : os.IsRoot root :=
  ⟨hroot.1, hroot.2.1, fun r hr => hroot.2.2 r (h.root.symm ▸ hr)⟩

theorem same (hvalid : os.Valid) (h : Flushes os os') : SameBytes os os' := by
  refine ⟨h.valid, h.size, h.object, h.owner, h.readOnly, fun σ bytes hr => ⟨fun j hj hc => ?_,
    fun j hj e he => ?_, fun j hj hf root hroot => ?_⟩⟩
  · rw [h.store]
    exact hr.concrete j (h.size ▸ hj) (h.concrete j ▸ hc)
  · exact hr.known j (h.size ▸ hj) e (h.known j ▸ he)
  · rw [h.size] at hj
    cases hf' : os.isByteFlushed j with
    | true => exact (h.kept j hj hf' σ root).trans (hr.flushed j hj hf' root (h.isRoot hroot))
    | false =>
      obtain ⟨e, he⟩ := exists_cachedValue hvalid.toCacheInv hj hf'
      exact (h.fresh j hj hf' hf e he σ root).trans ((cachedValue_ok hvalid hj he).2.2 σ bytes hr)

end Flushes

theorem flushByte_ok (h : os.Valid) (hi : i < os.size) (hf : os.isByteFlushed i = false)
    (hmask : os.flushMask.isSome) :
    ∃ os', os.flushByte i = some os' ∧ Flushes os os' ∧ os'.isByteFlushed i = true := by
  obtain ⟨e, he⟩ := exists_cachedValue h.toCacheInv hi hf
  obtain ⟨het, hew, -⟩ := cachedValue_ok h hi he
  have hwrite : ByteWrite (ConstantExpr.alloc i 32, e) := ⟨trivial, rfl, het, hew⟩
  have hext : (os.extended (ConstantExpr.alloc i 32) e).Valid := by
    refine h.extended hwrite fun c hc => ?_
    cases hc
    rwa [offset_toNat h.size_lt hi]
  have hflushed := fun j => isByteFlushed_markByteFlushed (os.extended (ConstantExpr.alloc i 32) e) i j hmask
  have hlookup : ∀ {j}, j < os.size → ∀ σ root,
      (os.extended (ConstantExpr.alloc i 32) e).updates.head.lookup σ root (APInt.ofNat 32 j) =
        if i = j then e.eval σ else os.updates.head.lookup σ root (APInt.ofNat 32 j) :=
    fun hj σ root => lookup_extended h.size_lt hi hj rfl
  refine ⟨(os.extended (ConstantExpr.alloc i 32) e).markByteFlushed i, ?_, ⟨⟨⟨h.known, fun j hj hfj => ?_⟩,
    h.size_lt, h.known_typed, h.root, hext.writes, hext.inRange⟩, rfl, rfl, rfl, rfl, fun _ => rfl, fun _ => rfl, rfl,
    rfl, rfl, fun j hfj => ?_, fun j hj hfj σ root => ?_, fun j hj hfj hfj' e' he' σ root => ?_⟩, ?_⟩
  · obtain ⟨mask, hmask⟩ := Option.isSome_iff_exists.mp hmask
    simp only [flushByte, he, extend_ok h hwrite, markByteFlushed, extended, hmask, some_bind, Option.map_some, Option.getD_some]
  · rw [hflushed, Bool.or_eq_false_iff] at hfj
    exact h.unflushed j hj hfj.1
  · rw [hflushed, Bool.or_eq_true]
    exact .inl hfj
  · refine (hlookup hj σ root).trans (if_neg ?_)
    rintro rfl
    exact absurd (hf.symm.trans hfj) (by decide)
  · rw [hflushed, Bool.or_eq_true, decide_eq_true_iff] at hfj'
    obtain rfl := hfj'.resolve_left fun h => absurd (hfj.symm.trans h) (by decide)
    obtain rfl := Option.some.inj (he.symm.trans he')
    exact (hlookup hj σ root).trans (if_pos rfl)
  · rw [hflushed, Bool.or_eq_true, decide_eq_true_iff]
    exact .inr rfl

theorem flushByteForRead_ok (h : os.Valid) (hi : i < os.size) (hmask : os.flushMask.isSome) :
    ∃ os', os.flushByteForRead i = some os' ∧ Flushes os os' ∧ os'.isByteFlushed i = true := by
  unfold flushByteForRead
  split_ifs with hf
  · exact ⟨os, rfl, .refl h hmask, hf⟩
  · exact flushByte_ok h hi (by simpa using hf) hmask

theorem allocFlushMask_ok (h : os.Valid) : Flushes os os.allocFlushMask := by
  have hflushed : ∀ j, os.allocFlushMask.isByteFlushed j = os.isByteFlushed j := by
    intro j
    cases hmask : os.flushMask <;> simp [allocFlushMask, isByteFlushed, hmask, BitArray.get_ofValue]
  exact ⟨⟨⟨h.known, fun j hj hf => h.unflushed j hj (hflushed j ▸ hf)⟩, h.size_lt, h.known_typed, h.root,
    h.writes, h.inRange⟩, rfl, rfl, rfl, rfl, fun _ => rfl, fun _ => rfl, rfl, rfl, rfl,
    fun j hf => (hflushed j).trans hf, fun _ _ _ _ _ => rfl,
    fun j _ hf hf' => absurd (hf.symm.trans ((hflushed j).symm.trans hf')) (by decide)⟩

theorem flushRangeForRead_ok (h : os.Valid) :
    ∃ os', os.flushRangeForRead = some os' ∧ Flushes os os' ∧ ∀ i < os.size, os'.isByteFlushed i = true := by
  have hstep : ∀ {os' i}, Flushes os os' → i < os.size → ∃ os'', os'.flushByteForRead i = some os'' ∧
      Flushes os os'' ∧ os''.isByteFlushed i = true ∧
      ∀ k, os'.isByteFlushed k = true → os''.isByteFlushed k = true := by
    intro os' i hos' hi
    obtain ⟨os'', hrun, hflush, hdone⟩ :=
      flushByteForRead_ok hos'.valid (hos'.size.symm ▸ hi) hos'.mask
    exact ⟨os'', hrun, hos'.trans hflush, hdone, hflush.flushed⟩
  obtain ⟨os', hrun, hos', hdone, -⟩ := Machine.foldlM_done hstep (List.range os.size)
    (allocFlushMask_ok h) fun i hi => List.mem_range.mp hi
  exact ⟨os', hrun, hos', fun i hi => hdone i (List.mem_range.mpr hi)⟩

theorem knownSymbolic_eq_none (h : os.CacheInv) (hi : i < os.size) (hc : os.isByteConcrete i = true) :
    os.knownSymbolic i = none := by
  by_contra hk
  exact absurd (hc.symm.trans (h.known i hi (Option.isSome_iff_ne_none.mpr hk))) (by decide)

theorem isByteConcrete_markOut (os : ObjectState) (i j : ℕ) :
    (os.markOut i).isByteConcrete j = (os.isByteConcrete j && !decide (i = j)) := by
  unfold markOut
  split_ifs with hc hk
  · exact isByteConcrete_markByteSymbolic os i j
  all_goals
    by_cases hij : i = j
    · subst hij
      simp_all [isByteConcrete, setKnownSymbolic]
    · simp [hij, isByteConcrete, setKnownSymbolic]

theorem knownSymbolic_markOut (h : os.CacheInv) (hi : i < os.size) (j : ℕ) :
    (os.markOut i).knownSymbolic j = if i = j then none else os.knownSymbolic j := by
  by_cases hij : i = j
  · subst hij
    rw [if_pos rfl]
    unfold markOut
    split_ifs with hc hk
    · have hnone := knownSymbolic_eq_none h hi hc
      exact hnone
    · simp
    · simpa [isByteKnownSymbolic] using hk
  · rw [if_neg hij]
    unfold markOut
    split_ifs
    · rfl
    · simp [hij]
    · rfl

theorem markOut_ok (h : os.Valid) (hi : i < os.size) (hf : os.isByteFlushed i = true) :
    SameBytes os (os.markOut i) := by
  have hconcrete := isByteConcrete_markOut os i
  have hknown := knownSymbolic_markOut h.toCacheInv hi
  have hsame : ∃ mask known, os.markOut i = { os with concreteMask := mask, knownSymbolics := known } := by
    unfold markOut
    split_ifs
    · exact ⟨_, _, rfl⟩
    · exact ⟨_, _, rfl⟩
    · exact ⟨_, _, rfl⟩
  obtain ⟨mask, known, hsame⟩ := hsame
  rw [hsame] at hconcrete hknown ⊢
  have hsub : ∀ {j e}, e ∈ ({ os with concreteMask := mask, knownSymbolics := known } : ObjectState).knownSymbolic j →
      e ∈ os.knownSymbolic j := by
    intro j e he
    rw [hknown j] at he
    split_ifs at he
    · cases he
    · exact he
  refine ⟨⟨⟨fun j hj hk => ?_, fun j hj hfj => ?_⟩, h.size_lt, fun j hj e he => h.known_typed j hj e (hsub he),
    h.root, h.writes, h.inRange⟩, rfl, rfl, rfl, rfl,
    fun σ bytes hr => ⟨fun j hj hc => ?_, fun j hj e he => hr.known j hj e (hsub he), hr.flushed⟩⟩
  · obtain ⟨e, he⟩ := Option.isSome_iff_exists.mp hk
    rw [hconcrete j, h.known j hj (Option.isSome_iff_exists.mpr ⟨e, hsub he⟩), Bool.false_and]
  · have hij : i ≠ j := by
      rintro rfl
      exact absurd (hf.symm.trans hfj) (by decide)
    simp only [isByteKnownSymbolic]
    rw [hconcrete j, hknown j, if_neg hij, decide_eq_false hij, Bool.not_false, Bool.and_true]
    exact h.unflushed j hj hfj
  · rw [hconcrete j, Bool.and_eq_true] at hc
    exact hr.concrete j hj hc.1

def OnlyFlushed (os : ObjectState) (i : ℕ) : Prop :=
  os.isByteFlushed i = true ∧ os.isByteConcrete i = false ∧ os.knownSymbolic i = none

theorem flushByteForWrite_ok (h : os.Valid) (hi : i < os.size) (hmask : os.flushMask.isSome) :
    ∃ os', os.flushByteForWrite i = some os' ∧ SameBytes os os' ∧ os'.flushMask.isSome ∧ os'.OnlyFlushed i ∧
      ∀ j, os.OnlyFlushed j → os'.OnlyFlushed j := by
  obtain ⟨os', hrun, hflush, hf⟩ := flushByteForRead_ok h hi hmask
  have hi' : i < os'.size := hflush.size.symm ▸ hi
  have hconcrete := isByteConcrete_markOut os' i
  have hknown := knownSymbolic_markOut hflush.valid.toCacheInv hi'
  have hflushed : (os'.markOut i).flushMask = os'.flushMask := by
    unfold markOut
    split_ifs <;> rfl
  refine ⟨os'.markOut i, by rw [flushByteForWrite, hrun]; rfl, (hflush.same h).trans (markOut_ok hflush.valid hi' hf),
    hflushed ▸ hflush.mask, ⟨?_, ?_, ?_⟩, fun j hj => ⟨?_, ?_, ?_⟩⟩
  · rw [isByteFlushed, hflushed]
    exact hf
  · rw [hconcrete, decide_eq_true rfl, Bool.not_true, Bool.and_false]
  · rw [hknown, if_pos rfl]
  · rw [isByteFlushed, hflushed]
    exact hflush.flushed j hj.1
  · rw [hconcrete, hflush.concrete, hj.2.1, Bool.false_and]
  · rw [hknown, hflush.known, hj.2.2, ite_self]

/-- Every byte is in the update list, and nowhere else. -/
theorem flushRangeForWrite_ok (h : os.Valid) :
    ∃ os', os.flushRangeForWrite = some os' ∧ SameBytes os os' ∧ ∀ i < os.size, os'.OnlyFlushed i := by
  have hstep : ∀ {os' i}, SameBytes os os' ∧ os'.flushMask.isSome → i < os.size →
      ∃ os'', os'.flushByteForWrite i = some os'' ∧ (SameBytes os os'' ∧ os''.flushMask.isSome) ∧
        os''.OnlyFlushed i ∧ ∀ k, os'.OnlyFlushed k → os''.OnlyFlushed k := by
    intro os' i ⟨hos', hmask⟩ hi
    obtain ⟨os'', hrun, hsame, hmask', hdone, hkeep⟩ :=
      flushByteForWrite_ok hos'.valid (hos'.size.symm ▸ hi) hmask
    exact ⟨os'', hrun, ⟨hos'.trans hsame, hmask'⟩, hdone, hkeep⟩
  have halloc := allocFlushMask_ok h
  obtain ⟨os', hrun, ⟨hos', -⟩, hdone, -⟩ := Machine.foldlM_done hstep (List.range os.size)
    ⟨halloc.same h, halloc.mask⟩ fun i hi => List.mem_range.mp hi
  exact ⟨os', hrun, hos', fun i hi => hdone i (List.mem_range.mpr hi)⟩

theorem applyWrites_append (head : UpdateNode) (ws ws' : List (Expr × Expr)) :
    applyWrites head (ws ++ ws') = applyWrites (applyWrites head ws) ws' := by
  rw [applyWrites, List.foldl_append]
  rfl

theorem applyWrites_writes (head : UpdateNode) : applyWrites .null (writes head) = head := by
  induction head with
  | null => rfl
  | node next i v ih =>
    rw [writes, applyWrites_append, ih]
    rfl

theorem writes_applyWrites (ws : List (Expr × Expr)) (head : UpdateNode) :
    writes (applyWrites head ws) = writes head ++ ws := by
  induction ws generalizing head with
  | nil => simp [applyWrites]
  | cons w ws ih =>
    change writes (applyWrites (.node head w.1 w.2) ws) = _
    rw [ih, writes, List.append_assoc]
    rfl

theorem lookup_applyWrites_congr {σ : Bytes} {root root' : Array} {idx : APInt} (ws : List (Expr × Expr)) :
    ∀ {head head' : UpdateNode}, head.lookup σ root idx = head'.lookup σ root' idx →
      (applyWrites head ws).lookup σ root idx = (applyWrites head' ws).lookup σ root' idx := by
  induction ws with
  | nil => exact fun h => h
  | cons w ws ih =>
    intro head head' h
    refine ih ?_
    rw [UpdateNode.lookup, UpdateNode.lookup, h]

theorem pullWrites_ok (contents : List APInt) (ws : List (Expr × Expr)) (hws : ∀ w ∈ ws, ByteWrite w)
    (hcontents : ∀ v ∈ contents, v.width = 8)
    (hin : ∀ w ∈ ws, ∀ c, w.1 = constant c → c.toNat < contents.length) :
    ∃ contents' pulled rest, pullWrites contents ws = some (contents', rest) ∧ ws = pulled ++ rest ∧
      contents'.length = contents.length ∧ (∀ v ∈ contents', v.width = 8) ∧
      ∀ σ root head i, i < 2 ^ 32 → contents[i]? = some (head.lookup σ root (APInt.ofNat 32 i)) →
        contents'[i]? = some ((applyWrites head pulled).lookup σ root (APInt.ofNat 32 i)) := by
  fun_induction pullWrites contents ws with
  | case1 contents index value rest hlt ih =>
    obtain ⟨⟨-, hiw, -, hvw⟩, hrest⟩ := List.forall_mem_cons.mp hws
    have hset : ∀ v ∈ contents.set index.toNat value, v.width = 8 := by
      intro v hv
      rcases List.mem_or_eq_of_mem_set hv with hv | rfl
      · exact hcontents v hv
      · exact hvw
    obtain ⟨contents', pulled, rest', hrun, rfl, hlen, hwidth, hlookup⟩ := ih hrest hset fun w hw c hc => by
      rw [List.length_set]
      exact hin w (List.mem_cons_of_mem _ hw) c hc
    refine ⟨contents', (constant index, constant value) :: pulled, rest', hrun, rfl, hlen.trans (List.length_set ..),
      hwidth, fun σ root head i hi hentry => hlookup σ root _ i hi ?_⟩
    rw [UpdateNode.lookup, Expr.eval, Expr.eval, List.getElem?_set]
    have heq : index = APInt.ofNat 32 i ↔ index.toNat = i := by
      constructor
      · rintro rfl
        rw [APInt.toNat_ofNat, Nat.mod_eq_of_lt hi]
      · intro h
        exact APInt.eq_of_toNat hiw (by rw [h, APInt.toNat_ofNat, Nat.mod_eq_of_lt hi])
    simp only [heq]
    split_ifs with hidx
    · rfl
    · exact hentry
  | case2 contents index value rest hlt =>
    exact absurd (hin _ List.mem_cons_self index rfl) hlt
  | case3 contents rest => exact ⟨contents, [], rest, rfl, rfl, rfl, hcontents, fun _ _ _ _ _ h => h⟩

/-- The array of zeros that the updates of an object without array are on. -/
def zeroArray (n : ℕ) (h : n < 2 ^ 32) : Array where
  id := 0
  name := ""
  size := n
  domain := 32
  range := 8
  constantValues := List.replicate n (APInt.ofNat 8 0)
  size_lt := h
  constant_size := .inr List.length_replicate
  constant_range v hv := by rw [List.eq_of_mem_replicate hv]; rfl

theorem initial_of_constantValues {root : Array} {σ : Bytes} {v : APInt} (h : root.constantValues[i]? = some v) :
    root.initial σ i = v := by
  rw [Array.initial, h]

/-- The updates are on an array afterwards, and what they say of a byte without
regard to the array, they say with it. -/
theorem getUpdates_ok (h : os.Valid) (cache : ArrayCache) :
    ∃ ul os' cache', os.getUpdates cache = some (ul, os', cache') ∧
      os' = { os with updates := ⟨some ul.root, ul.head⟩ } ∧ os'.Valid ∧
      ∀ i < os.size, ∀ σ v, (∀ root, os.IsRoot root → os.updates.head.lookup σ root (APInt.ofNat 32 i) = v) →
        ul.head.lookup σ ul.root (APInt.ofNat 32 i) = v := by
  unfold getUpdates
  split
  · rename_i root hroot
    refine ⟨_, _, _, rfl, by rw [← hroot], h, fun i hi σ v hv => hv root ?_⟩
    obtain ⟨hdomain, hrange⟩ := h.root root hroot
    exact ⟨hdomain, hrange, fun r hr => Option.some.inj (hr.symm.trans hroot)⟩
  · rename_i hroot
    obtain ⟨contents, pulled, rest, hpull, hws, hlen, hwidth, hlookup⟩ :=
      pullWrites_ok (List.replicate os.size (APInt.ofNat 8 0)) (writes os.updates.head) h.writes
        (fun v hv => by rw [List.eq_of_mem_replicate hv]; rfl)
        (fun w hw c hc => by rw [List.length_replicate]; exact h.inRange hroot w hw c hc)
    rw [List.length_replicate] at hlen
    have hcreate : ∃ array cache', cache.createConstant s!"const_arr{cache.constArrays + 1}" os.size contents =
        some (array, cache') ∧ array.domain = 32 ∧ array.range = 8 ∧ array.constantValues = contents :=
      ⟨_, _, dif_pos ⟨h.size_lt, .inr hlen, hwidth⟩, rfl, rfl, rfl⟩
    obtain ⟨array, cache', hcreate, hdomain, hrange, hvalues⟩ := hcreate
    refine ⟨⟨array, applyWrites .null rest⟩, { os with updates := ⟨some array, applyWrites .null rest⟩ }, _,
      by simp only [hpull, hcreate, some_bind]; rfl, rfl, ⟨⟨h.known, h.unflushed⟩,
      h.size_lt, h.known_typed, fun r hr => ?_, fun w hw => ?_, fun hnone => by cases hnone⟩,
      fun i hi σ v hv => ?_⟩
    · cases hr
      exact ⟨hdomain, hrange⟩
    · rw [writes_applyWrites] at hw
      exact h.writes w (hws ▸ List.mem_append_right _ (by simpa [writes] using hw))
    · -- on zeros the pulled writes give what is in the array now
      have hi' : i < 2 ^ 32 := hi.trans h.size_lt
      have hzero := hv (zeroArray os.size h.size_lt) ⟨rfl, rfl, fun r hr => by rw [hroot] at hr; cases hr⟩
      rw [← applyWrites_writes os.updates.head, hws, applyWrites_append] at hzero
      refine (lookup_applyWrites_congr rest ?_).trans hzero
      have hentry := hlookup σ (zeroArray os.size h.size_lt) .null i hi' (by
        rw [UpdateNode.lookup, APInt.toNat_ofNat, Nat.mod_eq_of_lt hi']
        rw [initial_of_constantValues (v := APInt.ofNat 8 0) (by simp [zeroArray, hi])]
        simp [hi])
      rw [UpdateNode.lookup, APInt.toNat_ofNat, Nat.mod_eq_of_lt hi',
        initial_of_constantValues (hvalues ▸ hentry)]

structure KeepsBytes (os os' : ObjectState) : Prop extends SameBytes os os' where
  hasByte : ∀ i < os.size, ∀ σ v, os.HasByte σ i v → os'.HasByte σ i v

theorem KeepsBytes.refl (h : os.Valid) : KeepsBytes os os := ⟨.refl h, fun _ _ _ _ hv => hv⟩

theorem KeepsBytes.trans {os'' : ObjectState} (h : KeepsBytes os os') (h' : KeepsBytes os' os'') :
    KeepsBytes os os'' :=
  ⟨h.toSameBytes.trans h'.toSameBytes, fun i hi σ v hv => h'.hasByte i (h.size.symm ▸ hi) σ v (h.hasByte i hi σ v hv)⟩

theorem getUpdates_keeps (h : os.Valid) {ul : UpdateList} {cache cache' : ArrayCache}
    (hrun : os.getUpdates cache = some (ul, os', cache')) : KeepsBytes os os' := by
  obtain ⟨ul', os'', cache'', hrun', heq, hvalid, hlookup⟩ := getUpdates_ok h cache
  obtain ⟨rfl, rfl, -⟩ : ul' = ul ∧ os'' = os' ∧ cache'' = cache' := by
    simpa using hrun'.symm.trans hrun
  rw [heq] at hvalid ⊢
  have hbyte : ∀ i < os.size, ∀ σ v, os.HasByte σ i v →
      { os with updates := ⟨some ul'.root, ul'.head⟩ : ObjectState }.HasByte σ i v := fun i hi σ v hv =>
    ⟨hv.concrete, hv.known, fun hf root hroot => by
      obtain rfl := hroot.2.2 _ rfl
      exact hlookup i hi σ _ fun root hroot => hv.flushed hf root hroot⟩
  exact ⟨⟨hvalid, rfl, rfl, rfl, rfl, fun σ bytes hr => represents_iff.mpr fun i hi =>
    hbyte i hi σ _ (represents_iff.mp hr i hi)⟩, hbyte⟩

theorem getUpdates_same (h : os.Valid) {ul : UpdateList} {cache cache' : ArrayCache}
    (hrun : os.getUpdates cache = some (ul, os', cache')) : SameBytes os os' :=
  (getUpdates_keeps h hrun).toSameBytes

theorem read_simplifies (h : os.Valid) {ul : UpdateList} (hul : os.updates = ⟨some ul.root, ul.head⟩)
    {index : Expr} (hi : index.WellTyped) (hw : index.getWidth = 32) :
    (ReadExpr.create ul index).WellTyped ∧ (ReadExpr.create ul index).getWidth = 8 ∧
      ∀ σ, (ReadExpr.create ul index).eval σ = ul.head.lookup σ ul.root (index.eval σ) := by
  obtain ⟨hdomain, hrange⟩ := h.root ul.root (by rw [hul]; rfl)
  have hhead : ul.head.WellTyped ul.root :=
    wellTyped_of_writes ⟨hdomain, hrange⟩ fun w hmem => h.writes w (by rw [hul]; exact hmem)
  have hs := ReadExpr_create_simplifies (P := fun _ => True) ul ⟨hhead, hi, hw.trans hdomain.symm⟩
  exact ⟨hs.typed, hs.width.trans hrange, fun σ => hs.eval σ trivial⟩

theorem read8_keeps (h : os.Valid) (cache : ArrayCache) (hi : i < os.size) :
    ∃ e os' cache', os.read8 cache i = some (e, os', cache') ∧ KeepsBytes os os' ∧ e.WellTyped ∧ e.getWidth = 8 ∧
      ∀ σ v, os.HasByte σ i v → e.eval σ = ⟨8, v⟩ := by
  unfold read8
  cases he : os.cachedValue i with
  | some e => exact ⟨e, os, cache, rfl, .refl h, cachedValue_hasByte h hi he⟩
  | none =>
    have hf : os.isByteFlushed i = true := by
      by_contra hf
      obtain ⟨e, he'⟩ := exists_cachedValue h.toCacheInv hi (by simpa using hf)
      rw [he] at he'
      cases he'
    obtain ⟨ul, os', cache', hrun, heq, hvalid, hlookup⟩ := getUpdates_ok h cache
    have hindex : (ConstantExpr.alloc i 32).WellTyped := trivial
    obtain ⟨ht, hw, heval⟩ := read_simplifies hvalid (by rw [heq]) hindex rfl
    refine ⟨_, os', cache', by simp only [hf, if_true, hrun, some_bind],
      getUpdates_keeps h hrun, ht, hw, fun σ v hv => ?_⟩
    rw [heval]
    exact hlookup i hi σ _ fun root hroot => hv.flushed hf root hroot

theorem read8_ok (h : os.Valid) (cache : ArrayCache) (hi : i < os.size) :
    ∃ e os' cache', os.read8 cache i = some (e, os', cache') ∧ SameBytes os os' ∧ e.WellTyped ∧ e.getWidth = 8 ∧
      ∀ σ bytes, os.Represents σ bytes → e.eval σ = ⟨8, bytes i⟩ := by
  obtain ⟨e, os', cache', hrun, hkeeps, ht, hw, heval⟩ := read8_keeps h cache hi
  exact ⟨e, os', cache', hrun, hkeeps.toSameBytes, ht, hw, fun σ bytes hr => heval σ _ (represents_iff.mp hr i hi)⟩

theorem eval_offset {offset : Expr} (ht : offset.WellTyped) (hw : offset.getWidth = 32) (σ : Bytes) :
    offset.eval σ = APInt.ofNat 32 (offset.eval σ).toNat := by
  have hwidth := (Expr.eval_width σ ht).trans hw
  refine APInt.eq_of_toNat hwidth ?_
  have hlt := (offset.eval σ).toNat_lt
  rw [hwidth] at hlt
  rw [APInt.toNat_ofNat, Nat.mod_eq_of_lt hlt]

theorem ZExtExpr_create_self {offset : Expr} (hw : offset.getWidth = 32) : ZExtExpr.create offset 32 = offset := by
  unfold ZExtExpr.create CastKind.create
  exact if_pos hw.symm

theorem read8Symbolic_value (h : os.Valid) (cache : ArrayCache) {offset : Expr} (ht : offset.WellTyped)
    (hw : offset.getWidth = 32) (hconst : offset.isConstant = false) :
    ∃ e os' cache', os.read8Symbolic cache offset = some (e, os', cache') ∧ SameBytes os os' ∧ e.WellTyped ∧
      e.getWidth = 8 ∧ ∀ σ, (offset.eval σ).toNat < os.size →
        (os.isByteFlushed (offset.eval σ).toNat = true → ∀ v,
          (∀ root, os.IsRoot root → os.updates.head.lookup σ root (offset.eval σ) = v) → e.eval σ = v) ∧
        (os.isByteFlushed (offset.eval σ).toNat = false →
          ∀ e' ∈ os.cachedValue (offset.eval σ).toNat, e.eval σ = e'.eval σ) := by
  obtain ⟨os₁, hrun1, hflush, hall⟩ := flushRangeForRead_ok h
  obtain ⟨ul, os2, cache', hrun2, heq, hvalid, hlookup⟩ := getUpdates_ok hflush.valid cache
  obtain ⟨het, hew, heval⟩ := read_simplifies hvalid (by rw [heq]) ht hw
  refine ⟨_, os2, cache', ?_, (hflush.same h).trans (getUpdates_same hflush.valid hrun2), het, hew, fun σ hσ => ?_⟩
  · rw [read8Symbolic, if_neg (by rw [hconst]; decide), hrun1, ZExtExpr_create_self hw]
    simp only [some_bind, hrun2]
  have hidx := eval_offset ht hw σ
  rw [heval]
  generalize hi : (offset.eval σ).toNat = i at hσ hidx
  rw [hidx]
  refine ⟨fun hf v hv => ?_, fun hf e' he' => ?_⟩
  · exact hlookup i (hflush.size.symm ▸ hσ) σ v fun root hroot =>
      (hflush.kept i hσ hf σ root).trans (hv root (hflush.isRoot hroot))
  · exact hlookup i (hflush.size.symm ▸ hσ) σ _ fun root _ =>
      hflush.fresh i hσ hf (hall i hσ) e' he' σ root

theorem read8Symbolic_ok (h : os.Valid) (cache : ArrayCache) {offset : Expr} (ht : offset.WellTyped)
    (hw : offset.getWidth = 32) (hconst : offset.isConstant = false) :
    ∃ e os' cache', os.read8Symbolic cache offset = some (e, os', cache') ∧ SameBytes os os' ∧ e.WellTyped ∧
      e.getWidth = 8 ∧ ∀ σ bytes, os.Represents σ bytes → (offset.eval σ).toNat < os.size →
        e.eval σ = ⟨8, bytes (offset.eval σ).toNat⟩ := by
  obtain ⟨e, os', cache', hrun, hsame, het, hew, hvalue⟩ := read8Symbolic_value h cache ht hw hconst
  refine ⟨e, os', cache', hrun, hsame, het, hew, fun σ bytes hr hσ => ?_⟩
  obtain ⟨hflushed, hcached⟩ := hvalue σ hσ
  cases hf : os.isByteFlushed (offset.eval σ).toNat with
  | true =>
    refine hflushed hf _ fun root hroot => ?_
    rw [eval_offset ht hw σ, APInt.toNat_ofNat, Nat.mod_eq_of_lt (hσ.trans h.size_lt)]
    exact hr.flushed _ hσ hf root hroot
  | false =>
    obtain ⟨e', he'⟩ := exists_cachedValue h.toCacheInv hσ hf
    exact (hcached hf e' he').trans ((cachedValue_ok h hσ he').2.2 σ bytes hr)

/-- The bytes of an object change, under the assignments that keep within bounds. -/
structure Changes (os os' : ObjectState) (bounds : Bytes → Prop)
    (change : Bytes → (ℕ → BitVec 8) → ℕ → BitVec 8) : Prop where
  valid : os'.Valid
  size : os'.size = os.size
  object : os'.object = os.object
  owner : os'.copyOnWriteOwner = os.copyOnWriteOwner
  readOnly : os'.readOnly = os.readOnly
  represents : ∀ σ bytes, os.Represents σ bytes → bounds σ → os'.Represents σ (change σ bytes)

def WritesByte (os os' : ObjectState) (place : Bytes → ℕ) (value : Bytes → BitVec 8) : Prop :=
  Changes os os' (fun σ => place σ < os.size) fun σ bytes => Function.update bytes (place σ) (value σ)

/-- A byte that is cached, and not flushed any more, has the value in the cache. -/
structure Caches (os os' : ObjectState) (i : ℕ) (e : Expr) : Prop where
  size : os'.size = os.size
  object : os'.object = os.object
  owner : os'.copyOnWriteOwner = os.copyOnWriteOwner
  readOnly : os'.readOnly = os.readOnly
  updates : os'.updates = os.updates
  flushed : ∀ j, os'.isByteFlushed j = (os.isByteFlushed j && !decide (i = j))
  concrete : ∀ j, i ≠ j → os'.isByteConcrete j = os.isByteConcrete j
  known : ∀ j, i ≠ j → os'.knownSymbolic j = os.knownSymbolic j
  store : ∀ j, i ≠ j → os'.concreteStore j = os.concreteStore j
  cached : os'.isByteConcrete i = true ∧ os'.knownSymbolic i = none ∧
      (∀ σ, e.eval σ = ⟨8, os'.concreteStore i⟩) ∨
    os'.isByteConcrete i = false ∧ os'.knownSymbolic i = some e ∧ e.WellTyped ∧ e.getWidth = 8

variable {e : Expr}

theorem Caches.valid (h : os.Valid) (hc : Caches os os' i e) : os'.Valid where
  known j hj hk := by
    by_cases hij : i = j
    · subst hij
      rcases hc.cached with ⟨-, hnone, -⟩ | ⟨hfalse, -⟩
      · simp [isByteKnownSymbolic, hnone] at hk
      · exact hfalse
    · rw [hc.concrete j hij]
      rw [isByteKnownSymbolic, hc.known j hij] at hk
      exact h.known j (hc.size ▸ hj) hk
  unflushed j hj hf := by
    by_cases hij : i = j
    · subst hij
      rcases hc.cached with ⟨htrue, -⟩ | ⟨-, hsome, -⟩
      · exact .inl htrue
      · exact .inr (by simp [isByteKnownSymbolic, hsome])
    · rw [isByteKnownSymbolic, hc.concrete j hij, hc.known j hij]
      rw [hc.flushed j, decide_eq_false hij, Bool.not_false, Bool.and_true] at hf
      exact h.unflushed j (hc.size ▸ hj) hf
  size_lt := hc.size.symm ▸ h.size_lt
  known_typed j hj e' he' := by
    by_cases hij : i = j
    · subst hij
      rcases hc.cached with ⟨-, hnone, -⟩ | ⟨-, hsome, ht, hw⟩
      · rw [hnone] at he'
        cases he'
      · obtain rfl := Option.some.inj (hsome.symm.trans he')
        exact ⟨ht, hw⟩
    · exact h.known_typed j (hc.size ▸ hj) e' (hc.known j hij ▸ he')
  root := hc.updates.symm ▸ h.root
  writes := hc.updates.symm ▸ h.writes
  inRange := hc.updates.symm ▸ hc.size.symm ▸ h.inRange

theorem Caches.hasByte (hc : Caches os os' i e) {σ : Bytes} {v : BitVec 8} (hv : e.eval σ = ⟨8, v⟩) :
    os'.HasByte σ i v where
  concrete htrue := by
    rcases hc.cached with ⟨-, -, hstore⟩ | ⟨hfalse, -⟩
    · simpa using (hstore σ).symm.trans hv
    · exact absurd (hfalse.symm.trans htrue) (by decide)
  known e' he' := by
    rcases hc.cached with ⟨-, hnone, -⟩ | ⟨-, hsome, -⟩
    · rw [hnone] at he'
      cases he'
    · exact Option.some.inj (hsome.symm.trans he') ▸ hv
  flushed hf := by
    rw [hc.flushed i, decide_eq_true rfl, Bool.not_true, Bool.and_false] at hf
    cases hf

theorem Caches.hasByte_of_ne (hc : Caches os os' i e) {j : ℕ} (hij : i ≠ j) {σ : Bytes} {v : BitVec 8}
    (hv : os.HasByte σ j v) : os'.HasByte σ j v where
  concrete htrue := by
    rw [hc.store j hij]
    exact hv.concrete (hc.concrete j hij ▸ htrue)
  known e' he' := hv.known e' (hc.known j hij ▸ he')
  flushed hf root hroot := by
    rw [hc.flushed j, decide_eq_false hij, Bool.not_false, Bool.and_true] at hf
    rw [hc.updates]
    exact hv.flushed hf root ⟨hroot.1, hroot.2.1, hc.updates ▸ hroot.2.2⟩

theorem Caches.writesByte (h : os.Valid) (hc : Caches os os' i e) {value : Bytes → BitVec 8}
    (hvalue : ∀ σ, e.eval σ = ⟨8, value σ⟩) : WritesByte os os' (fun _ => i) value := by
  refine ⟨hc.valid h, hc.size, hc.object, hc.owner, hc.readOnly, fun σ bytes hr hi => represents_iff.mpr fun j hj => ?_⟩
  by_cases hij : i = j
  · subst hij
    rw [Function.update_self]
    exact hc.hasByte (hvalue σ)
  · rw [Function.update_of_ne (Ne.symm hij)]
    exact hc.hasByte_of_ne hij (represents_iff.mp hr j (hc.size ▸ hj))

theorem write8Concrete_caches (os : ObjectState) (i : ℕ) (value : BitVec 8) :
    Caches os (os.write8Concrete i value) i (constant ⟨8, value⟩) := by
  refine ⟨rfl, rfl, rfl, rfl, rfl, fun j => isByteFlushed_markByteUnflushed _ i j, fun j hij => ?_, fun j hij => ?_,
    fun j hij => Function.update_of_ne (Ne.symm hij) _ _, .inl ⟨?_, ?_, fun σ => ?_⟩⟩
  · refine (isByteConcrete_markByteConcrete _ i j).trans ?_
    rw [decide_eq_false hij, Bool.or_false]
    rfl
  · exact (knownSymbolic_setKnownSymbolic _ i j none).trans (if_neg hij)
  · refine (isByteConcrete_markByteConcrete _ i i).trans ?_
    rw [decide_eq_true rfl, Bool.or_true]
  · exact (knownSymbolic_setKnownSymbolic _ i i none).trans (if_pos rfl)
  · exact congrArg (APInt.mk 8) (Function.update_self (f := os.concreteStore) i value).symm

theorem write8Concrete_ok (h : os.Valid) (i : ℕ) (value : BitVec 8) :
    WritesByte os (os.write8Concrete i value) (fun _ => i) fun _ => value :=
  (write8Concrete_caches os i value).writesByte h fun _ => rfl

theorem write8_caches (os : ObjectState) (i : ℕ) (ht : e.WellTyped) (hw : e.getWidth = 8) :
    ∃ os', os.write8 i e = some os' ∧ Caches os os' i e := by
  unfold write8
  split
  · rename_i c
    have hc : c = ⟨8, .ofNat 8 c.toNat⟩ := by
      refine APInt.eq_of_toNat hw ?_
      have hlt := c.toNat_lt
      rw [show c.width = 8 from hw] at hlt
      change _ = (BitVec.ofNat 8 c.toNat).toNat
      rw [BitVec.toNat_ofNat, Nat.mod_eq_of_lt hlt]
    refine ⟨_, if_pos (le_of_eq hw), ?_⟩
    nth_rewrite 2 [hc]
    exact write8Concrete_caches os i _
  · refine ⟨_, rfl, rfl, rfl, rfl, rfl, rfl, fun j => isByteFlushed_markByteUnflushed _ i j, fun j hij => ?_,
      fun j hij => ?_, fun _ _ => rfl, .inr ⟨?_, ?_, ht, hw⟩⟩
    · refine (isByteConcrete_markByteSymbolic _ i j).trans ?_
      rw [decide_eq_false hij, Bool.not_false, Bool.and_true]
      rfl
    · exact (knownSymbolic_setKnownSymbolic _ i j _).trans (if_neg hij)
    · refine (isByteConcrete_markByteSymbolic _ i i).trans ?_
      rw [decide_eq_true rfl, Bool.not_true, Bool.and_false]
    · exact (knownSymbolic_setKnownSymbolic _ i i _).trans (if_pos rfl)

theorem write8_ok (h : os.Valid) (i : ℕ) (ht : e.WellTyped) (hw : e.getWidth = 8) {value : Bytes → BitVec 8}
    (hvalue : ∀ σ, e.eval σ = ⟨8, value σ⟩) :
    ∃ os', os.write8 i e = some os' ∧ WritesByte os os' (fun _ => i) value := by
  obtain ⟨os', hrun, hc⟩ := write8_caches os i ht hw
  exact ⟨os', hrun, hc.writesByte h hvalue⟩

theorem write8Symbolic_ok (h : os.Valid) {offset : Expr} (ht : offset.WellTyped) (hw : offset.getWidth = 32)
    (hconst : offset.isConstant = false) (het : e.WellTyped) (hew : e.getWidth = 8) {value : Bytes → BitVec 8}
    (hvalue : ∀ σ, e.eval σ = ⟨8, value σ⟩) :
    ∃ os', os.write8Symbolic offset e = some os' ∧ WritesByte os os' (fun σ => (offset.eval σ).toNat) value := by
  obtain ⟨os₁, hrun, hsame, honly⟩ := flushRangeForWrite_ok h
  have hwrite : ByteWrite (offset, e) := ⟨ht, hw, het, hew⟩
  have hvalid := hsame.valid.extended hwrite fun c hc => by rw [hc] at hconst; cases hconst
  refine ⟨os₁.extended offset e, ?_, hvalid, hsame.size, hsame.object, hsame.owner, hsame.readOnly,
    fun σ bytes hr hi => ⟨fun j hj hc => ?_, fun j hj e' he' => ?_, fun j hj hf root hroot => ?_⟩⟩
  · rw [write8Symbolic, if_neg (by rw [hconst]; decide), hrun, ZExtExpr_create_self hw]
    simp only [some_bind, extend_ok hsame.valid hwrite]
    rfl
  · -- nothing is cached after the flush
    exact absurd ((honly j (hsame.size ▸ hj)).2.1.symm.trans hc) (by decide)
  · exact absurd ((honly j (hsame.size ▸ hj)).2.2.symm.trans he') (by simp)
  · have hr1 := (hsame.represents σ bytes hr).flushed j hj (honly j (hsame.size ▸ hj)).1 root hroot
    rw [lookup_extended hsame.valid.size_lt (hsame.size.symm ▸ hi) hj (eval_offset ht hw σ), hr1, hvalue σ,
      Function.update_apply]
    simp only [eq_comm]
    split_ifs <;> rfl

end ObjectState

end Klee
