import DdKlee.Proofs.CopyIn
import DdKlee.Proofs.Resolve
import DdKlee.Proofs.Successors
import DdKlee.Spec.MemoryOperation

/-! Loads and stores. The paths that come out of one divide the solutions of the path
that goes in, each has the access done in the one object it is in, and what is in no
object is an error. -/

namespace Klee

open Expr

def MemoryObject.Encloses (mo : MemoryObject) (place n : ℕ) : Prop :=
  mo.address ≤ place ∧ place + n ≤ mo.address + mo.size

theorem ObjectState.Represents.unique {os : ObjectState} {σ : Bytes} {bytes bytes' : ℕ → BitVec 8} (hv : os.Valid)
    (hr : os.Represents σ bytes) (hr' : os.Represents σ bytes') {i : ℕ} (hi : i < os.size) : bytes i = bytes' i := by
  cases hf : os.isByteFlushed i with
  | false =>
    rcases hv.unflushed i hi hf with hc | hk
    · exact (hr.concrete i hi hc).symm.trans (hr'.concrete i hi hc)
    · obtain ⟨e, he⟩ := Option.isSome_iff_exists.mp hk
      exact eq_of_heq (APInt.mk.inj ((hr.known i hi e he).symm.trans (hr'.known i hi e he))).2
  | true =>
    have hroot : ∃ root, os.IsRoot root := by
      cases hroot : os.updates.root with
      | some r => exact ⟨r, (hv.root r hroot).1, (hv.root r hroot).2, by simp [hroot]⟩
      | none => exact ⟨.symbolic 0 "" 1 (by decide), rfl, rfl, by simp [hroot]⟩
    obtain ⟨root, hroot⟩ := hroot
    exact eq_of_heq (APInt.mk.inj ((hr.flushed i hi hf root hroot).symm.trans (hr'.flushed i hi hf root hroot))).2

namespace AddressSpace

variable {σ : Bytes} {heap heap' : Heap} {as : AddressSpace} {m : MemoryObject → ℕ → BitVec 8} {mo : MemoryObject}
  {os : ObjectState} {p : ℕ}

def Binds (as : AddressSpace) (mo : MemoryObject) : Prop := ∃ os, (mo, os) ∈ as.objects

def Holds (as : AddressSpace) (heap : Heap) (σ : Bytes) (m : MemoryObject → ℕ → BitVec 8) : Prop :=
  ∀ op ∈ as.objects, ∃ os, heap[op.2]? = some os ∧ os.object = op.1 ∧ os.size = op.1.size ∧ os.Valid ∧
    os.Represents σ (m op.1)

def Frozen (heap heap' : Heap) : Prop :=
  ∀ (p : ℕ) os, heap[p]? = some os → ∃ os', heap'[p]? = some os' ∧
    os'.copyOnWriteOwner = os.copyOnWriteOwner ∧ (os' = os ∨ ObjectState.SameBytes os os')

/-- Only object states that the address space owns are written to. -/
def KeepsOthers (as : AddressSpace) (heap heap' : Heap) : Prop :=
  ∀ (p : ℕ) os, heap[p]? = some os → ∃ os', heap'[p]? = some os' ∧
    os'.copyOnWriteOwner = os.copyOnWriteOwner ∧
    (os' = os ∨ ObjectState.SameBytes os os' ∨ os.copyOnWriteOwner = as.cowKey ∧ ∃ op ∈ as.objects, op.2 = p)

def OwnedUpTo (as : AddressSpace) (heap : Heap) (key : ℕ) : Prop :=
  ∀ op ∈ as.objects, ∀ os, heap[op.2]? = some os → os.copyOnWriteOwner ≤ key

theorem Frozen.refl (heap : Heap) : Frozen heap heap := fun _ os hos => ⟨os, hos, rfl, .inl rfl⟩

theorem Frozen.trans {heap'' : Heap} (h : Frozen heap heap') (h' : Frozen heap' heap'') : Frozen heap heap'' := by
  intro p os hos
  obtain ⟨os', hos', howner, hsame⟩ := h p os hos
  obtain ⟨os'', hos'', howner', hsame'⟩ := h' p os' hos'
  refine ⟨os'', hos'', howner'.trans howner, ?_⟩
  rcases hsame with rfl | hsame
  · exact hsame'
  · rcases hsame' with rfl | hsame'
    · exact .inr hsame
    · exact .inr (hsame.trans hsame')

theorem Frozen.keepsOthers (h : Frozen heap heap') (as : AddressSpace) : as.KeepsOthers heap heap' := by
  intro p os hos
  obtain ⟨os', hos', howner, hsame⟩ := h p os hos
  exact ⟨os', hos', howner, hsame.imp_right .inl⟩

theorem KeepsOthers.frozen (h : as.KeepsOthers heap heap') {key : ℕ} (howned : as.OwnedUpTo heap key)
    (hkey : key < as.cowKey) : Frozen heap heap' := by
  intro p os hos
  obtain ⟨os', hos', howner, hsame | hsame | ⟨hown, op, hop, rfl⟩⟩ := h p os hos
  · exact ⟨os', hos', howner, .inl hsame⟩
  · exact ⟨os', hos', howner, .inr hsame⟩
  · have hle := howned op hop os hos
    omega

theorem Frozen.ownedUpTo (h : Frozen heap heap') {key : ℕ} (howned : as.OwnedUpTo heap key)
    (hbound : ∀ op ∈ as.objects, ∃ os, heap[op.2]? = some os) : as.OwnedUpTo heap' key := by
  intro op hop os' hos'
  obtain ⟨os, hos⟩ := hbound op hop
  obtain ⟨os'', hos'', howner, -⟩ := h op.2 os hos
  obtain rfl := Option.some.inj (hos'.symm.trans hos'')
  exact howner ▸ howned op hop os hos

theorem Holds.frozen (h : as.Holds heap σ m) (hf : Frozen heap heap') : as.Holds heap' σ m := by
  intro op hop
  obtain ⟨os, hos, hobj, hsize, hvalid, hr⟩ := h op hop
  obtain ⟨os', hos', -, rfl | hsame⟩ := hf op.2 os hos
  · exact ⟨os', hos', hobj, hsize, hvalid, hr⟩
  · exact ⟨os', hos', hsame.object.trans hobj, hsame.size.trans hsize, hsame.valid, hsame.represents σ _ hr⟩

theorem Holds.inj (h : as.Holds heap σ m) {op op' : ObjectPair} (hop : op ∈ as.objects) (hop' : op' ∈ as.objects)
    (heq : op.2 = op'.2) : op = op' := by
  obtain ⟨os, hos, hobj, -⟩ := h op hop
  obtain ⟨os', hos', hobj', -⟩ := h op' hop'
  rw [heq] at hos
  obtain rfl := Option.some.inj (hos.symm.trans hos')
  exact Prod.ext (hobj.symm.trans hobj') heq

theorem Holds.set (h : as.Holds heap σ m) {os' : ObjectState} {bytes : ℕ → BitVec 8} (hop : (mo, p) ∈ as.objects)
    (hobj : os'.object = mo) (hsize : os'.size = mo.size) (hvalid : os'.Valid) (hr : os'.Represents σ bytes) :
    as.Holds (heap.set p os') σ (Function.update m mo bytes) := by
  intro op hmem
  by_cases heq : op = (mo, p)
  · subst heq
    obtain ⟨os, hos, -⟩ := h _ hmem
    refine ⟨os', ?_, hobj, hsize, hvalid, ?_⟩
    · rw [List.getElem?_set_self (List.getElem?_eq_some_iff.mp hos).1]
    · rw [Function.update_self]
      exact hr
  · obtain ⟨os, hos, hobj', hrest⟩ := h op hmem
    have hp : op.2 ≠ p := fun hp => heq (h.inj hmem hop hp)
    have hmo : op.1 ≠ mo := fun hmo => heq (OrderedMap.key_inj _ hmem hop (by simp only [hmo]))
    refine ⟨os, by rw [List.getElem?_set_ne (Ne.symm hp)]; exact hos, hobj', ?_⟩
    rwa [Function.update_of_ne hmo]

theorem Holds.replace (h : as.Holds heap σ m) {os' : ObjectState} {bytes : ℕ → BitVec 8}
    (hobj : os'.object = mo) (hsize : os'.size = mo.size) (hvalid : os'.Valid) (hr : os'.Represents σ bytes) :
    { as with objects := as.objects.replace (mo, heap.length) : AddressSpace }.Holds (heap ++ [os']) σ
      (Function.update m mo bytes) := by
  intro op hmem
  rcases OrderedMap.mem_replace.mp hmem with ⟨hmem, hkey⟩ | rfl
  · obtain ⟨os, hos, hobj', hrest⟩ := h op hmem
    have hmo : op.1 ≠ mo := fun hmo => hkey (by simp only [hmo])
    refine ⟨os, by rw [List.getElem?_append_left (List.getElem?_eq_some_iff.mp hos).1]; exact hos, hobj', ?_⟩
    rwa [Function.update_of_ne hmo]
  · refine ⟨os', by simp, hobj, hsize, hvalid, ?_⟩
    rw [Function.update_self]
    exact hr

theorem binds_replace (hop : (mo, p) ∈ as.objects) (q : ℕ) (mo' : MemoryObject) :
    { as with objects := as.objects.replace (mo, q) : AddressSpace }.Binds mo' ↔ as.Binds mo' := by
  constructor
  · rintro ⟨os, hos⟩
    rcases OrderedMap.mem_replace.mp hos with ⟨hmem, -⟩ | heq
    · exact ⟨os, hmem⟩
    · obtain ⟨rfl, -⟩ := Prod.mk.inj heq
      exact ⟨p, hop⟩
  · rintro ⟨os, hos⟩
    by_cases hmo : mo' = mo
    · subst hmo
      exact ⟨q, OrderedMap.mem_replace.mpr (.inr rfl)⟩
    · refine ⟨os, OrderedMap.mem_replace.mpr (.inl ⟨hos, fun hkey => hmo ?_⟩)⟩
      exact congrArg Prod.fst (OrderedMap.key_inj _ hos hop hkey)

end AddressSpace

theorem getMinBytesForWidth_eq {w : ℕ} (h : IsAccessWidth w) : getMinBytesForWidth w = numBytes w := by
  unfold getMinBytesForWidth numBytes
  rcases h with rfl | ⟨hpos, hmod⟩
  · rfl
  · rw [if_neg (by omega)]
    omega

theorem numBytes_pos {w : ℕ} (h : IsAccessWidth w) : 0 < numBytes w := by
  unfold numBytes
  rcases h with rfl | ⟨hpos, hmod⟩
  · decide
  · rw [if_neg (by omega)]
    omega

/-- The address and the operand of an access in a state. -/
structure MemoryAccess.Ok (ctx : Context) (s : ExecutionState) (address : Expr) (access : MemoryAccess) : Prop where
  pointer : MemoryObject.IsPointer ctx address
  folded : address.Folded
  width : IsAccessWidth access.type
  operand : match access with
    | .read dest _ => ∃ frame, s.stack.getLast? = some frame ∧ dest < frame.kf.numRegisters
    | .write value => value.WellTyped

namespace Executor

open AddressSpace MemoryObject

variable {opts : ExecutorOptions} {ex ex' : Executor} {i : ℕ} {s t : ExecutionState} {op : ObjectPair} {address : Expr}
  {access : MemoryAccess} {m : Bytes → MemoryObject → ℕ → BitVec 8}

def stored (ctx : Context) (m : MemoryObject → ℕ → BitVec 8) (mo : MemoryObject) (place : ℕ) (width value : ℕ) :
    ℕ → BitVec 8 :=
  (FlatObject.store ctx ⟨mo.size, m mo⟩ place width value).bytes

/-- In a state that goes on the access was to one object. A read has its bytes in the
register, and changes no byte. A write changes bytes of this object only. -/
def Performed (ctx : Context) (s : ExecutionState) (m : Bytes → MemoryObject → ℕ → BitVec 8) (address : Expr)
    (access : MemoryAccess) (heap : Heap) (t : ExecutionState) : Prop :=
  ∃ op ∈ s.addressSpace.objects,
    (∀ σ ∈ Solutions t.constraints, op.1.Encloses (address.eval σ).toNat (numBytes access.type)) ∧
    t.pc = s.pc ∧ (∀ mo, t.addressSpace.Binds mo ↔ s.addressSpace.Binds mo) ∧
    match access with
    | .read dest type => ∃ e, (s.bindLocal dest e).map ExecutionState.stack = some t.stack ∧
        ∀ σ ∈ Solutions t.constraints, t.addressSpace.Holds heap σ (m σ) ∧
          e.eval σ = FlatObject.load ctx ⟨op.1.size, m σ op.1⟩ ((address.eval σ).toNat - op.1.address) type
    | .write value => t.stack = s.stack ∧ ∀ σ ∈ Solutions t.constraints, t.addressSpace.Holds heap σ
        (Function.update (m σ) op.1
          (stored ctx (m σ) op.1 ((address.eval σ).toNat - op.1.address) value.getWidth (value.eval σ).toNat))

theorem Performed.frozen {ctx : Context} {heap heap' : Heap} (h : Performed ctx s m address access heap t)
    (hf : Frozen heap heap') : Performed ctx s m address access heap' t := by
  obtain ⟨op, hop, hin, hpc, hbinds, hdone⟩ := h
  refine ⟨op, hop, hin, hpc, hbinds, ?_⟩
  cases access with
  | read dest type =>
    obtain ⟨e, hstack, hval⟩ := hdone
    exact ⟨e, hstack, fun σ hσ => ⟨(hval σ hσ).1.frozen hf, (hval σ hσ).2⟩⟩
  | write value => exact ⟨hdone.1, fun σ hσ => (hdone.2 σ hσ).frozen hf⟩

structure Ready (ex : Executor) (i : ℕ) (s t : ExecutionState) (m : Bytes → MemoryObject → ℕ → BitVec 8) : Prop where
  live : Live ex i t
  tidy : Tidy ex
  active : i ∉ ex.removedStates
  resembles : s.Resembles t
  feasible : Feasible t.constraints
  holds : ∀ σ ∈ Solutions t.constraints, t.addressSpace.Holds ex.heap σ (m σ)

structure Accesses (ctx : Context) (s : ExecutionState) (m : Bytes → MemoryObject → ℕ → BitVec 8) (address : Expr)
    (access : MemoryAccess) (ex ex' : Executor) (i : ℕ) (t : ExecutionState) (x : Successor) : Prop where
  replaces : Replaces ex ex' i [x]
  keeps : t.addressSpace.KeepsOthers ex.heap ex'.heap
  solutions : x.solutions = Solutions t.constraints
  active : ∀ j t', x = .active j t' → j = i ∧ Performed ctx s m address access ex'.heap t'
  ended : ∀ t' r, x = .ended t' r → r = .onError "memory error: object read only" .readOnly

theorem offset_ok (ha : access.Ok opts.ctx s address) (hfits : op.1.Fits opts.ctx) {σ : Bytes}
    (hin : op.1.Encloses (address.eval σ).toNat (numBytes access.type)) :
    ((op.1.getOffsetExpr opts.ctx address).eval σ).toNat = (address.eval σ).toNat - op.1.address ∧
      ((op.1.getOffsetExpr opts.ctx address).eval σ).toNat + numBytes access.type ≤ op.1.size := by
  have heval := eval_offset ha.pointer hfits σ
  rw [if_pos hin.1] at heval
  refine ⟨heval, ?_⟩
  have := hin.1
  have := hin.2
  omega

theorem offset_typed (ha : access.Ok opts.ctx s address) (mo : MemoryObject) :
    (mo.getOffsetExpr opts.ctx address).WellTyped ∧ (mo.getOffsetExpr opts.ctx address).Folded :=
  ⟨(getOffsetExpr_ok mo ha.pointer).1, folded_closed.BinaryKind_create .sub ha.folded trivial⟩

theorem bindLocal_eq {dest : ℕ} {frame : StackFrame} (hframe : s.stack.getLast? = some frame)
    (hdest : dest < frame.kf.numRegisters) (e : Expr) : s.bindLocal dest e = some { s with
      stack := s.stack.dropLast ++ [{ frame with locals := Function.update frame.locals dest (some e) }] } := by
  simp [ExecutionState.bindLocal, hframe, hdest]

theorem frozen_set {heap : Heap} {p : ℕ} {os os' : ObjectState} (hos : heap[p]? = some os)
    (hsame : ObjectState.SameBytes os os') : Frozen heap (heap.set p os') := by
  intro q os₁ hos1
  by_cases hq : q = p
  · subst hq
    obtain rfl := Option.some.inj (hos.symm.trans hos1)
    exact ⟨os', List.getElem?_set_self (List.getElem?_eq_some_iff.mp hos).1, hsame.owner, .inr hsame⟩
  · exact ⟨os₁, by rw [List.getElem?_set_ne (Ne.symm hq)]; exact hos1, rfl, .inl rfl⟩

theorem read_object {dest type : ℕ} (ha : (MemoryAccess.read dest type).Ok opts.ctx s address)
    (h : Ready ex i s t m) (hop : op ∈ t.addressSpace.objects) (hfits : op.1.Fits opts.ctx)
    (hin : ∀ σ ∈ Solutions t.constraints, op.1.Encloses (address.eval σ).toNat (numBytes type)) :
    ∃ ex' x, ex.accessObject opts i op address (.read dest type) = some ex' ∧
      Accesses opts.ctx s m address (.read dest type) ex ex' i t x := by
  obtain ⟨σ0, hσ0⟩ := h.feasible.satisfiable
  obtain ⟨os, hos, -, hsize, hvalid, -⟩ := h.holds σ0 hσ0 op hop
  obtain ⟨ht, hf⟩ := offset_typed ha op.1
  have hbounds := fun σ hσ => offset_ok ha hfits (hin σ hσ)
  simp only [MemoryAccess.type] at hbounds
  have hwidth : IsAccessWidth type := ha.width
  obtain ⟨e, os', cache, hread, hsame, -, -, heval⟩ := ObjectState.read_ok hvalid opts.ctx ex.arrayCache hwidth ht hf
    ⟨σ0, hsize.symm ▸ (hbounds σ0 hσ0).2⟩
  obtain ⟨frame, hframe, hdest⟩ := ha.operand
  have hframe' : t.stack.getLast? = some frame := by rw [h.resembles.stack, hframe]
  let t' := { t with
    stack := t.stack.dropLast ++ [{ frame with locals := Function.update frame.locals dest (some e) }] }
  have hbind : t.bindLocal dest e = some t' := bindLocal_eq hframe' hdest e
  have hfrozen := frozen_set hos hsame
  refine ⟨{ ex with heap := ex.heap.set op.2 os', arrayCache := cache, store := ex.store.set i t' },
    .active i t', ?_, ?_, hfrozen.keepsOthers _, rfl, ?_, by rintro _ _ ⟨⟩⟩
  · simp only [accessObject, hos, hread, h.live.get, hbind, some_bind]
  · exact replaces_of_sets h.tidy ⟨h.live.get, h.active⟩ (Store.get_set_self h.live.get)
      (fun j hj => Store.get_set_ne hj) rfl rfl rfl
  · rintro j t'' ⟨⟩
    refine ⟨rfl, op, h.resembles.objects ▸ hop, hin, h.resembles.pc, ?_, e, ?_, fun σ hσ => ⟨?_, ?_⟩⟩
    · intro mo
      unfold Binds
      rw [show t'.addressSpace.objects = s.addressSpace.objects from h.resembles.objects]
    · rw [bindLocal_eq hframe hdest e, ← h.resembles.stack]
      rfl
    · exact (h.holds σ hσ).frozen hfrozen
    · obtain ⟨os₁, hos1, -, -, -, hr⟩ := h.holds σ hσ op hop
      obtain rfl := Option.some.inj (hos.symm.trans hos1)
      rw [heval σ _ hr (hsize.symm ▸ (hbounds σ hσ).2), (hbounds σ hσ).1, hsize]

theorem write_bytes {value : Expr} (ha : (MemoryAccess.write value).Ok opts.ctx s address) (h : Ready ex i s t m)
    (hop : op ∈ t.addressSpace.objects) (hfits : op.1.Fits opts.ctx)
    (hin : ∀ σ ∈ Solutions t.constraints, op.1.Encloses (address.eval σ).toNat (numBytes value.getWidth))
    {os : ObjectState} (hos : ex.heap[op.2]? = some os) (key : ℕ) :
    ∃ os', { os with copyOnWriteOwner := key : ObjectState }.write opts.ctx (op.1.getOffsetExpr opts.ctx address) value =
        some os' ∧ os'.object = op.1 ∧ os'.size = op.1.size ∧ os'.Valid ∧ os'.copyOnWriteOwner = key ∧
      ∀ σ ∈ Solutions t.constraints, os'.Represents σ
        (stored opts.ctx (m σ) op.1 ((address.eval σ).toNat - op.1.address) value.getWidth (value.eval σ).toNat) := by
  obtain ⟨σ0, hσ0⟩ := h.feasible.satisfiable
  obtain ⟨os0, hos0, hobj, hsize, hvalid, -⟩ := h.holds σ0 hσ0 op hop
  obtain rfl := Option.some.inj (hos.symm.trans hos0)
  obtain ⟨ht, hf⟩ := offset_typed ha op.1
  have hwidth : IsAccessWidth value.getWidth := ha.width
  have hvalid' : { os with copyOnWriteOwner := key : ObjectState }.Valid :=
    ⟨⟨hvalid.known, hvalid.unflushed⟩, hvalid.size_lt, hvalid.known_typed, hvalid.root, hvalid.writes, hvalid.inRange⟩
  obtain ⟨os', hrun, hst⟩ := ObjectState.write_ok hvalid' opts.ctx ht hf ha.operand hwidth
  refine ⟨os', hrun, hst.object.trans hobj, hst.size.trans hsize, hst.valid, hst.owner, fun σ hσ => ?_⟩
  obtain ⟨os₁, hos1, -, -, -, hr⟩ := h.holds σ hσ op hop
  obtain rfl := Option.some.inj (hos.symm.trans hos1)
  obtain ⟨hplace, hbound⟩ := offset_ok ha hfits (hin σ hσ)
  have hres := hst.represents σ (m σ op.1) ⟨hr.concrete, hr.known, hr.flushed⟩ (hbound.trans_eq hsize.symm)
  dsimp only at hres
  rwa [hplace, hsize] at hres

theorem replaces_store (h : Ready ex i s t m) (heap : Heap) (t' : ExecutionState) :
    Replaces ex { ex with heap, store := ex.store.set i t' } i [.active i t'] :=
  replaces_of_sets h.tidy ⟨h.live.get, h.active⟩ (Store.get_set_self h.live.get) (fun _ hj => Store.get_set_ne hj)
    rfl rfl rfl

theorem write_in_place {value : Expr} (h : Live ex i t) {os os' : ObjectState} (hos : ex.heap[op.2]? = some os)
    (hro : os.readOnly = false) (hown : os.copyOnWriteOwner = t.addressSpace.cowKey)
    (hrun : os.write opts.ctx (op.1.getOffsetExpr opts.ctx address) value = some os') :
    ex.accessObject opts i op address (.write value) =
      some { ex with heap := ex.heap.set op.2 os', store := ex.store.set i t } := by
  have hget : t.addressSpace.getWriteable ex.heap op.1 op.2 = some (op.2, ex.heap, t.addressSpace) := by
    simp [getWriteable, hos, hro, hown]
  simp [accessObject, hos, hro, h.get, hget, hrun]

def withCopy (t : ExecutionState) (mo : MemoryObject) (p : ℕ) : ExecutionState :=
  { t with addressSpace := { t.addressSpace with objects := t.addressSpace.objects.replace (mo, p) } }

theorem write_copy {value : Expr} (ha : (MemoryAccess.write value).Ok opts.ctx s address) (h : Ready ex i s t m)
    (hop : op ∈ t.addressSpace.objects) (hfits : op.1.Fits opts.ctx)
    (hin : ∀ σ ∈ Solutions t.constraints, op.1.Encloses (address.eval σ).toNat (numBytes value.getWidth))
    {os : ObjectState} (hos : ex.heap[op.2]? = some os) (hro : os.readOnly = false)
    (hown : os.copyOnWriteOwner ≠ t.addressSpace.cowKey) :
    ∃ os', ex.accessObject opts i op address (.write value) =
        some { ex with heap := ex.heap ++ [os'], store := ex.store.set i (withCopy t op.1 ex.heap.length) } ∧
      ∀ σ ∈ Solutions t.constraints, (withCopy t op.1 ex.heap.length).addressSpace.Holds (ex.heap ++ [os']) σ
        (Function.update (m σ) op.1
          (stored opts.ctx (m σ) op.1 ((address.eval σ).toNat - op.1.address) value.getWidth (value.eval σ).toNat)) := by
  obtain ⟨os', hrun, hobj, hsize, hvalid, -, hr⟩ := write_bytes ha h hop hfits hin hos t.addressSpace.cowKey
  refine ⟨os', ?_, fun σ hσ => (h.holds σ hσ).replace hobj hsize hvalid (hr σ hσ)⟩
  have hget : t.addressSpace.getWriteable ex.heap op.1 op.2 =
      some (ex.heap.length, ex.heap ++ [{ os with copyOnWriteOwner := t.addressSpace.cowKey }],
        { t.addressSpace with objects := t.addressSpace.objects.replace (op.1, ex.heap.length) }) := by
    simp [getWriteable, hos, hro, Ne.symm hown, ObjectState.copy]
  simp only [hro] at hrun hget
  simp [accessObject, hos, hro, h.live.get, hget, hrun, withCopy]

theorem frozen_append (heap : Heap) (os : ObjectState) : Frozen heap (heap ++ [os]) := fun _ os₁ hos1 =>
  ⟨os₁, by rw [List.getElem?_append_left (List.getElem?_eq_some_iff.mp hos1).1]; exact hos1, rfl, .inl rfl⟩

theorem write_object {value : Expr} (ha : (MemoryAccess.write value).Ok opts.ctx s address)
    (h : Ready ex i s t m) (hop : op ∈ t.addressSpace.objects) (hfits : op.1.Fits opts.ctx)
    (hin : ∀ σ ∈ Solutions t.constraints, op.1.Encloses (address.eval σ).toNat (numBytes value.getWidth)) :
    ∃ ex' x, ex.accessObject opts i op address (.write value) = some ex' ∧
      Accesses opts.ctx s m address (.write value) ex ex' i t x := by
  obtain ⟨σ0, hσ0⟩ := h.feasible.satisfiable
  obtain ⟨os, hos, -⟩ := h.holds σ0 hσ0 op hop
  have hbinds : ∀ mo, t.addressSpace.Binds mo ↔ s.addressSpace.Binds mo := fun mo => by
    unfold Binds
    rw [h.resembles.objects]
  have hop' : op ∈ s.addressSpace.objects := h.resembles.objects ▸ hop
  cases hro : os.readOnly with
  | true =>
    obtain ⟨ex', hend, hrep, hheap⟩ := terminateStateWith_ok h.live h.tidy h.active
      (.onError "memory error: object read only" .readOnly)
    refine ⟨ex', _, ?_, hrep, hheap ▸ (Frozen.refl _).keepsOthers _, rfl, by rintro _ _ ⟨⟩, by rintro _ _ ⟨⟩; rfl⟩
    simp only [accessObject, hos, hro, if_true, some_bind]
    exact hend
  | false =>
    by_cases hown : os.copyOnWriteOwner = t.addressSpace.cowKey
    · obtain ⟨os', hrun, hobj, hsize, hvalid, howner, hr⟩ := write_bytes ha h hop hfits hin hos os.copyOnWriteOwner
      refine ⟨_, .active i t, write_in_place h.live hos hro hown hrun, replaces_store h _ _, fun q os₁ hos1 => ?_, rfl,
        ?_, by rintro _ _ ⟨⟩⟩
      · by_cases hq : q = op.2
        · subst hq
          obtain rfl := Option.some.inj (hos.symm.trans hos1)
          exact ⟨os', List.getElem?_set_self (List.getElem?_eq_some_iff.mp hos).1, howner,
            .inr (.inr ⟨hown, op, hop, rfl⟩)⟩
        · exact ⟨os₁, by rw [List.getElem?_set_ne (Ne.symm hq)]; exact hos1, rfl, .inl rfl⟩
      · rintro j t' ⟨⟩
        exact ⟨rfl, op, hop', hin, h.resembles.pc, hbinds, h.resembles.stack,
          fun σ hσ => (h.holds σ hσ).set hop hobj hsize hvalid (hr σ hσ)⟩
    · obtain ⟨os', hrun, hholds⟩ := write_copy ha h hop hfits hin hos hro hown
      refine ⟨_, .active i (withCopy t op.1 ex.heap.length), hrun, replaces_store h _ _,
        (frozen_append _ _).keepsOthers _, rfl, ?_, by rintro _ _ ⟨⟩⟩
      rintro j t' ⟨⟩
      exact ⟨rfl, op, hop', hin, h.resembles.pc, fun mo => (binds_replace hop _ mo).trans (hbinds mo),
        h.resembles.stack, hholds⟩

theorem accessObject_ok (ha : access.Ok opts.ctx s address) (h : Ready ex i s t m) (hop : op ∈ s.addressSpace.objects)
    (hfits : op.1.Fits opts.ctx)
    (hin : ∀ σ ∈ Solutions t.constraints, op.1.Encloses (address.eval σ).toNat (numBytes access.type)) :
    ∃ ex' x, ex.accessObject opts i op address access = some ex' ∧
      Accesses opts.ctx s m address access ex ex' i t x := by
  rw [← h.resembles.objects] at hop
  cases access with
  | read dest type => exact read_object ha h hop hfits hin
  | write value => exact write_object ha h hop hfits hin

theorem holds_boundsCheck (ha : access.Ok opts.ctx s address) (hfits : op.1.Fits opts.ctx) (σ : Bytes) :
    (op.1.getBoundsCheckPointerBytes opts.ctx address (getMinBytesForWidth access.type)).holds σ ↔
      op.1.Encloses (address.eval σ).toNat (numBytes access.type) := by
  rw [getMinBytesForWidth_eq ha.width]
  exact holds_getBoundsCheckPointerBytes ha.pointer hfits (numBytes_pos ha.width)

def outOfBound : Termination := .onError "memory error: out of bound pointer" .ptr

structure Resolves (ctx : Context) (s : ExecutionState) (m : Bytes → MemoryObject → ℕ → BitVec 8) (address : Expr)
    (access : MemoryAccess) (ex ex' : Executor) (i : ℕ) (t : ExecutionState) (succs : List Successor) : Prop where
  replaces : Replaces ex ex' i succs
  keeps : t.addressSpace.KeepsOthers ex.heap ex'.heap
  partitions : Partitions (succs.map Successor.solutions) (Solutions t.constraints)
  active : ∀ j t', .active j t' ∈ succs → Performed ctx s m address access ex'.heap t'
  outOfBound : (∃ t', .ended t' outOfBound ∈ succs) ↔ ∃ σ ∈ Solutions t.constraints,
    ∀ op ∈ s.addressSpace.objects, ¬ op.1.Encloses (address.eval σ).toNat (numBytes access.type)

theorem Accesses.not_outOfBound {x : Successor} (h : Accesses opts.ctx s m address access ex ex' i t x)
    (t' : ExecutionState) : x ≠ .ended t' outOfBound := by
  intro hx
  have := h.ended t' _ hx
  simp [outOfBound] at this

theorem Accesses.resolves {x : Successor} (h : Accesses opts.ctx s m address access ex ex' i t x)
    (hsat : (Solutions t.constraints).Nonempty) (hop : op ∈ s.addressSpace.objects)
    (hin : ∀ σ ∈ Solutions t.constraints, op.1.Encloses (address.eval σ).toNat (numBytes access.type)) :
    Resolves opts.ctx s m address access ex ex' i t [x] where
  replaces := h.replaces
  keeps := h.keeps
  partitions := by
    rw [List.map_singleton, h.solutions]
    exact .single hsat
  active j t' hx := (h.active j t' (List.mem_singleton.mp hx).symm).2
  outOfBound := by
    refine ⟨fun ⟨t', hx⟩ => absurd (List.mem_singleton.mp hx).symm (h.not_outOfBound t'), ?_⟩
    rintro ⟨σ, hσ, hnone⟩
    exact absurd (hin σ hσ) (hnone op hop)

theorem holds_objects {as as' : AddressSpace} {heap : Heap} {σ : Bytes} {m : MemoryObject → ℕ → BitVec 8}
    (h : as.Holds heap σ m) (hobjects : as'.objects = as.objects) : as'.Holds heap σ m := by
  unfold Holds
  rw [hobjects]
  exact h

theorem Splits.ready {c : Expr} {cs cs' : List Expr} {ns : ℕ} (hsplit : Splits ex ex' i ns t c cs cs')
    (h : Ready ex i s t m) :
    Ready ex' i s { t.branch.1 with ptreeNode := t.ptreeNode ++ [true], constraints := cs } m ∧
      Ready ex' ns s { t.branch.2 with ptreeNode := t.ptreeNode ++ [false], constraints := cs' } m := by
  have hrep := hsplit.replaces h.tidy h.active hsplit.trueState hsplit.falseState
  have hheap : ex'.heap = ex.heap := by rw [hsplit.same]
  have hholds : ∀ σ ∈ Solutions t.constraints, t.branch.1.addressSpace.Holds ex'.heap σ (m σ) := fun σ hσ => by
    rw [hheap]
    exact holds_objects (h.holds σ hσ) rfl
  have hsol := hsplit.solutions
  refine ⟨⟨hsplit.trueState, hrep.tidy, ?_, h.resembles.trans ⟨rfl, rfl, rfl, rfl, rfl⟩, hsplit.feasible.1,
    fun σ hσ => hholds σ ?_⟩, ⟨hsplit.falseState, hrep.tidy, ?_, h.resembles.trans ⟨rfl, rfl, rfl, rfl, rfl⟩,
    hsplit.feasible.2, fun σ hσ => hholds σ ?_⟩⟩
  · exact ((hrep.active _ _).mpr (.inr List.mem_cons_self)).2
  · exact (hsol.1 ▸ hσ : σ ∈ {σ ∈ Solutions t.constraints | c.holds σ}).1
  · exact ((hrep.active _ _).mpr (.inr (List.mem_cons_of_mem _ List.mem_cons_self))).2
  · exact (hsol.2 ▸ hσ : σ ∈ {σ ∈ Solutions t.constraints | ¬ c.holds σ}).1

theorem Ready.after {ns : ℕ} {succs : List Successor} (h : Ready ex ns s t m) (hrep : Replaces ex ex' i succs)
    (hne : ns ≠ i) (hfrozen : Frozen ex.heap ex'.heap) : Ready ex' ns s t m where
  live := hrep.live ns hne t h.live
  tidy := hrep.tidy
  active := ((hrep.active ns t).mpr (.inl ⟨hne, h.live.get, h.active⟩)).2
  resembles := h.resembles
  feasible := h.feasible
  holds σ hσ := (h.holds σ hσ).frozen hfrozen

theorem Ready.bound (h : Ready ex i s t m) : ∀ op ∈ t.addressSpace.objects, ∃ os, ex.heap[op.2]? = some os :=
  fun op hop => by
    obtain ⟨σ, hσ⟩ := h.feasible.satisfiable
    obtain ⟨os, hos, -⟩ := h.holds σ hσ op hop
    exact ⟨os, hos⟩

/-- The successors by an access to one object, and by the rest of the access. -/
theorem Resolves.fork {c : Expr} {cs cs' : List Expr} {ns : ℕ} {ex₁ ex₂ : Executor} {t1 t2 : ExecutionState}
    {x : Successor} {succs : List Successor} (hsplit : Splits ex ex₁ i ns t c cs cs') (h : Ready ex i s t m)
    (hc : ∀ σ, c.holds σ ↔ op.1.Encloses (address.eval σ).toNat (numBytes access.type))
    (hop : op ∈ s.addressSpace.objects) (ht1 : t1.constraints = cs) (ht2 : t2.constraints = cs')
    (hacc : Accesses opts.ctx s m address access ex₁ ex₂ i t1 x)
    (hres : Resolves opts.ctx s m address access ex₂ ex' ns t2 succs) (hfrozen : Frozen ex₁.heap ex₂.heap)
    (hfrozen' : Frozen ex₂.heap ex'.heap) : Resolves opts.ctx s m address access ex ex' i t (x :: succs) where
  replaces := by
    have hrep := hsplit.replaces h.tidy h.active hsplit.trueState hsplit.falseState
    exact hrep.fork hsplit.fresh (hsplit.ne h.live) (fun j u hx => (hacc.active j u hx).1) hacc.replaces hres.replaces
  keeps := by
    have hheap : ex₁.heap = ex.heap := by rw [hsplit.same]
    exact (hheap ▸ hfrozen.trans hfrozen').keepsOthers _
  partitions := by
    have hpart := hres.partitions
    rw [ht2, hsplit.solutions.2] at hpart
    rw [List.map_cons, hacc.solutions, ht1, hsplit.solutions.1]
    exact hpart.split (hsplit.solutions.1 ▸ hsplit.feasible.1.satisfiable)
  active j t' hx := by
    rcases List.mem_cons.mp hx with rfl | hx
    · exact (hacc.active j t' rfl).2.frozen hfrozen'
    · exact hres.active j t' hx
  outOfBound := by
    have hiff := hres.outOfBound
    rw [ht2, hsplit.solutions.2] at hiff
    constructor
    · rintro ⟨t', hx⟩
      rcases List.mem_cons.mp hx with hx | hx
      · exact absurd hx.symm (hacc.not_outOfBound t')
      · obtain ⟨σ, hσ, hnone⟩ := hiff.mp ⟨t', hx⟩
        exact ⟨σ, hσ.1, hnone⟩
    · rintro ⟨σ, hσ, hnone⟩
      obtain ⟨t', hx⟩ := hiff.mpr ⟨σ, ⟨hσ, fun hholds => hnone op hop ((hc σ).mp hholds)⟩, hnone⟩
      exact ⟨t', List.mem_cons_of_mem _ hx⟩

theorem accessObjects_ok (hts : opts.solver.solver.Reliable) (ha : access.Ok opts.ctx s address)
    (hfits : ∀ op ∈ s.addressSpace.objects, op.1.Fits opts.ctx) (rl : List ObjectPair) :
    ∀ {ex : Executor} {i : ℕ} {t : ExecutionState}, Ready ex i s t m → (∀ op ∈ rl, op ∈ s.addressSpace.objects) →
      t.addressSpace.OwnedUpTo ex.heap t.addressSpace.cowKey → t.addressSpace.cowKey + rl.length < 2 ^ 32 →
      (∀ σ ∈ Solutions t.constraints, ∀ op ∈ s.addressSpace.objects,
        op.1.Encloses (address.eval σ).toNat (numBytes access.type) → op ∈ rl) →
      ∃ ex' succs, accessObjects opts false access address rl i ex = some ex' ∧
        Resolves opts.ctx s m address access ex ex' i t succs := by
  induction rl with
  | nil =>
    intro ex i t h _ _ _ hrest
    obtain ⟨ex', hrun, hrep, hheap⟩ := terminateStateWith_ok h.live h.tidy h.active outOfBound
    refine ⟨ex', [.ended t outOfBound], hrun, hrep, hheap ▸ (Frozen.refl _).keepsOthers _,
      .single h.feasible.satisfiable, by simp, ⟨fun _ => ?_, fun _ => ⟨t, by simp⟩⟩⟩
    obtain ⟨σ, hσ⟩ := h.feasible.satisfiable
    exact ⟨σ, hσ, fun op hop hin => by simpa using hrest σ hσ op hop hin⟩
  | cons op rl ih =>
    intro ex i t h hrl howned hkey hrest
    obtain ⟨hop, hrl⟩ := List.forall_mem_cons.mp hrl
    rw [List.length_cons] at hkey
    let c := op.1.getBoundsCheckPointerBytes opts.ctx address (getMinBytesForWidth access.type)
    have hc : IsConstraint c := getBoundsCheckPointerBytes_isConstraint op.1 ha.pointer _
    have hholds := holds_boundsCheck ha (hfits op hop)
    rcases fork_ok hts h.live h.feasible hc with ⟨hall, hfork⟩ | ⟨hnone, hfork⟩ | ⟨ns, ex₁, cs, cs', hfork, hsplit⟩
    · have hin := fun σ hσ => (hholds σ).mp (hall σ hσ)
      obtain ⟨ex', x, hrun, hacc⟩ := accessObject_ok ha h hop (hfits op hop) hin
      refine ⟨ex', [x], ?_, hacc.resolves h.feasible.satisfiable hop hin⟩
      rw [accessObjects]
      simp only [hfork, hrun, some_bind, c]
    · have hrest' : ∀ σ ∈ Solutions t.constraints, ∀ op' ∈ s.addressSpace.objects,
          op'.1.Encloses (address.eval σ).toNat (numBytes access.type) → op' ∈ rl := fun σ hσ op' hop' hin => by
        rcases List.mem_cons.mp (hrest σ hσ op' hop' hin) with rfl | hmem
        · exact absurd ((hholds σ).mpr hin) (hnone σ hσ)
        · exact hmem
      obtain ⟨ex', succs, hrun, hres⟩ := ih h hrl howned (by omega) hrest'
      refine ⟨ex', succs, ?_, hres⟩
      rw [accessObjects]
      simp only [hfork, hrun, some_bind, c]
    · obtain ⟨hready, hready'⟩ := hsplit.ready h
      have hheap : ex₁.heap = ex.heap := by rw [hsplit.same]
      have hmod : (t.addressSpace.cowKey + 1) % 2 ^ 32 = t.addressSpace.cowKey + 1 := Nat.mod_eq_of_lt (by omega)
      have hnew : t.addressSpace.cowKey < t.branch.1.addressSpace.cowKey := by
        change _ < (t.addressSpace.cowKey + 1) % 2 ^ 32
        omega
      have howned1 : t.branch.1.addressSpace.OwnedUpTo ex₁.heap t.addressSpace.cowKey := hheap ▸ howned
      obtain ⟨ex₂, x, hrun, hacc⟩ := accessObject_ok ha hready hop (hfits op hop) fun σ hσ =>
        (hholds σ).mp (hsplit.solutions.1 ▸ hσ : σ ∈ {σ ∈ Solutions t.constraints | c.holds σ}).2
      have hfrozen : Frozen ex₁.heap ex₂.heap := hacc.keeps.frozen howned1 hnew
      have hready2 := hready'.after hacc.replaces (hsplit.ne h.live) hfrozen
      have howned2 : t.branch.2.addressSpace.OwnedUpTo ex₂.heap t.addressSpace.cowKey :=
        hfrozen.ownedUpTo howned1 hready'.bound
      obtain ⟨ex', succs, hrun', hres⟩ := ih hready2 hrl (fun op' hop' os hos => (howned2 op' hop' os hos).trans hnew.le)
        (by change (t.addressSpace.cowKey + 1) % 2 ^ 32 + rl.length < 2 ^ 32; omega) fun σ hσ op' hop' hin => by
          have hσ' := (hsplit.solutions.2 ▸ hσ : σ ∈ {σ ∈ Solutions t.constraints | ¬ c.holds σ})
          rcases List.mem_cons.mp (hrest σ hσ'.1 op' hop' hin) with rfl | hmem
          · exact absurd ((hholds σ).mpr hin) hσ'.2
          · exact hmem
      refine ⟨ex', x :: succs, ?_, .fork hsplit h hholds hop rfl rfl hacc hres hfrozen (hres.keeps.frozen howned2 hnew)⟩
      rw [accessObjects]
      simp only [hfork, hrun, hrun', some_bind, c]

section

variable (hts : opts.solver.solver.Reliable) (ha : access.Ok opts.ctx s address) (hl : Layout opts.ctx s.addressSpace)
  (h : Ready ex i s s m)

include hts ha hl h

theorem accessSlow_eq : ∃ rl : List ObjectPair, rl.Nodup ∧
    (∀ op, op ∈ rl ↔ op ∈ s.addressSpace.objects ∧ MayPoint s.constraints address op) ∧
    ex.accessSlow opts (fun _ => false) i access address = accessObjects opts false access address rl i ex := by
  obtain ⟨rl, hresolve, hnodup, hmem⟩ := resolve_ok hl (h.feasible.exact hts) ha.pointer
  refine ⟨rl, hnodup, hmem, ?_⟩
  simp only [accessSlow, h.live.get, hresolve, some_bind]

/-- The access is to an object that it is always in, or slow. -/
theorem accessMemory_cases :
    (∃ op ∈ s.addressSpace.objects,
      (∀ σ ∈ Solutions s.constraints, op.1.Encloses (address.eval σ).toNat (numBytes access.type)) ∧
      ex.accessMemory opts (fun _ => false) i access address = ex.accessObject opts i op address access) ∨
    ex.accessMemory opts (fun _ => false) i access address = ex.accessSlow opts (fun _ => false) i access address := by
  obtain ⟨r, hone, hsome, -⟩ := resolveOne_ok hl (h.feasible.exact hts) ha.pointer
  cases r with
  | none => exact .inr (by simp only [accessMemory, h.live.get, hone, some_bind])
  | some op =>
    obtain ⟨hop, -⟩ := hsome op rfl
    obtain ⟨b, hb, hiff⟩ := TimingSolver.mustBeTrue_ok (h.feasible.exact hts)
      (getBoundsCheckPointerBytes_isConstraint op.1 ha.pointer (getMinBytesForWidth access.type))
    cases b with
    | false => exact .inr (by simp only [accessMemory, h.live.get, hone, hb, some_bind])
    | true =>
      refine .inl ⟨op, hop, fun σ hσ => ?_, by simp only [accessMemory, h.live.get, hone, hb, some_bind]⟩
      exact (holds_boundsCheck ha (hl.fits op hop) σ).mp (hiff.mp rfl σ hσ)

variable (howned : s.addressSpace.OwnedUpTo ex.heap s.addressSpace.cowKey)
  (hkey : s.addressSpace.cowKey + s.addressSpace.objects.entries.length < 2 ^ 32)

include howned hkey

theorem accessSlow_ok : ∃ ex' succs, ex.accessSlow opts (fun _ => false) i access address = some ex' ∧
    Resolves opts.ctx s m address access ex ex' i s succs := by
  obtain ⟨rl, hnodup, hmem, hslow⟩ := accessSlow_eq hts ha hl h
  have hsub : ∀ op ∈ rl, op ∈ s.addressSpace.objects := fun op hop => ((hmem op).mp hop).1
  have hlen : rl.length ≤ s.addressSpace.objects.entries.length := (hnodup.subperm hsub).length_le
  have hfound : ∀ σ ∈ Solutions s.constraints, ∀ op ∈ s.addressSpace.objects,
      op.1.Encloses (address.eval σ).toNat (numBytes access.type) → op ∈ rl := fun σ hσ op hop hin => by
    refine (hmem op).mpr ⟨hop, σ, hσ, hin.1, ?_⟩
    have hpos := numBytes_pos ha.width
    have hle := hin.2
    unfold extent
    omega
  rw [hslow]
  exact accessObjects_ok hts ha hl.fits rl h hsub howned (by omega) hfound

theorem accessMemory_ok : ∃ ex' succs, ex.accessMemory opts (fun _ => false) i access address = some ex' ∧
    Resolves opts.ctx s m address access ex ex' i s succs := by
  obtain ⟨op, hop, hin, heq⟩ | heq := accessMemory_cases hts ha hl h
  · obtain ⟨ex', x, hrun, hacc⟩ := accessObject_ok ha h hop (hl.fits op hop) hin
    exact ⟨ex', [x], heq.trans hrun, hacc.resolves h.feasible.satisfiable hop hin⟩
  · rw [heq]
    exact accessSlow_ok hts ha hl h howned hkey

end

theorem Performed.congr_address {ctx : Context} {heap : Heap} {address' : Expr}
    (h : Performed ctx s m address' access heap t)
    (heval : ∀ σ ∈ Solutions t.constraints, address'.eval σ = address.eval σ) :
    Performed ctx s m address access heap t := by
  obtain ⟨op, hop, hin, hpc, hbinds, hdone⟩ := h
  refine ⟨op, hop, fun σ hσ => heval σ hσ ▸ hin σ hσ, hpc, hbinds, ?_⟩
  cases access with
  | read dest type =>
    obtain ⟨e, hstack, hval⟩ := hdone
    exact ⟨e, hstack, fun σ hσ => heval σ hσ ▸ hval σ hσ⟩
  | write value => exact ⟨hdone.1, fun σ hσ => heval σ hσ ▸ hdone.2 σ hσ⟩

theorem Performed.congr_value {ctx : Context} {heap : Heap} {value value' : Expr}
    (h : Performed ctx s m address (.write value') heap t) (hw : value'.getWidth = value.getWidth)
    (heval : ∀ σ ∈ Solutions t.constraints, value'.eval σ = value.eval σ) :
    Performed ctx s m address (.write value) heap t := by
  obtain ⟨op, hop, hin, hpc, hbinds, hstack, hdone⟩ := h
  refine ⟨op, hop, fun σ hσ => ?_, hpc, hbinds, hstack, fun σ hσ => ?_⟩
  · have := hin σ hσ
    rwa [MemoryAccess.type, hw] at this
  · have := hdone σ hσ
    rwa [hw, heval σ hσ] at this

theorem simplifyExpr_ok (opts : ConstraintOptions) (hs : Feasible s.constraints) {e : Expr} (he : e.WellTyped) :
    ∃ r, s.simplifyExpr opts e = some r ∧ Simplifies (· ∈ Models s.constraints) e r ∧ (e.Folded → r.Folded) := by
  obtain ⟨r, hrun, hr⟩ := ConstraintManager.simplifyExpr_ok opts hs.typed he (Nat.lt_succ_self _)
  refine ⟨r, ?_, hr, fun hf => ConstraintManager.simplifyExpr_folded opts hf hrun⟩
  rw [ExecutionState.simplifyExpr, hrun]
  rfl

theorem Resolves.congr {ctx : Context} {address' : Expr} {access' : MemoryAccess} {succs : List Successor}
    (h : Resolves ctx s m address' access' ex ex' i s succs) (htype : access'.type = access.type)
    (haddress : ∀ σ ∈ Solutions s.constraints, address'.eval σ = address.eval σ)
    (hperformed : ∀ t, Solutions t.constraints ⊆ Solutions s.constraints →
      Performed ctx s m address access' ex'.heap t → Performed ctx s m address access ex'.heap t) :
    Resolves ctx s m address access ex ex' i s succs where
  replaces := h.replaces
  keeps := h.keeps
  partitions := h.partitions
  active j t ht := by
    have hsub : Solutions t.constraints ⊆ Solutions s.constraints := fun σ hσ =>
      (h.partitions.cover σ).mpr ⟨_, List.mem_map_of_mem ht, hσ⟩
    exact hperformed t hsub ((h.active j t ht).congr_address fun σ hσ => haddress σ (hsub hσ))
  outOfBound := by
    rw [h.outOfBound, htype]
    exact exists_congr fun σ => and_congr_right fun hσ => by rw [haddress σ hσ]

theorem executeMemoryOperation_ok (hts : opts.solver.solver.Reliable) (ha : access.Ok opts.ctx s address)
    (hl : Layout opts.ctx s.addressSpace) (h : Ready ex i s s m)
    (howned : s.addressSpace.OwnedUpTo ex.heap s.addressSpace.cowKey)
    (hkey : s.addressSpace.cowKey + s.addressSpace.objects.entries.length < 2 ^ 32) :
    ∃ ex' succs, ex.executeMemoryOperation opts (fun _ => false) i access address = some ex' ∧
      Resolves opts.ctx s m address access ex ex' i s succs := by
  unfold executeMemoryOperation
  simp only [h.live.get, some_bind]
  split_ifs
  · obtain ⟨address', hrun, hsimp, hfolded⟩ := simplifyExpr_ok opts.solver.opts h.feasible ha.pointer.1
    have hpointer : IsPointer opts.ctx address' := ⟨hsimp.typed, hsimp.width.trans ha.pointer.2⟩
    have haddress : ∀ σ ∈ Solutions s.constraints, address'.eval σ = address.eval σ := fun σ hσ => hsimp.eval σ hσ.2
    rw [hrun, some_bind]
    cases access with
    | read dest type =>
      have ha' : (MemoryAccess.read dest type).Ok opts.ctx s address' :=
        ⟨hpointer, hfolded ha.folded, ha.width, ha.operand⟩
      obtain ⟨ex', succs, hrun', hres⟩ := accessMemory_ok hts ha' hl h howned hkey
      exact ⟨ex', succs, hrun', hres.congr rfl haddress fun _ _ hp => hp⟩
    | write value =>
      obtain ⟨value', hval, hsimp', -⟩ := simplifyExpr_ok opts.solver.opts h.feasible ha.operand
      have ha' : (MemoryAccess.write value').Ok opts.ctx s address' :=
        ⟨hpointer, hfolded ha.folded, by simpa only [MemoryAccess.type, hsimp'.width] using ha.width, hsimp'.typed⟩
      obtain ⟨ex', succs, hrun', hres⟩ := accessMemory_ok hts ha' hl h howned hkey
      refine ⟨ex', succs, ?_, hres.congr hsimp'.width haddress fun t hsub hp =>
        hp.congr_value hsimp'.width fun σ hσ => hsimp'.eval σ (hsub hσ).2⟩
      simp only [hval]
      exact hrun'
  · exact accessMemory_ok hts ha hl h howned hkey

def cell (high : Bool) : MemoryObject :=
  ⟨high.toNat, high.toNat * 2 ^ 32 + 16, 1, 0, by cases high <;> decide, Array.one_lt_size⟩

def cells : MemoryMap := (OrderedMap.empty.replace (cell false, 0)).replace (cell true, 1)

def cellProgram (key : ℕ) : ExecutionState := ⟨0, 0, [], ⟨key, cells⟩, [], 0, false, [], []⟩

def cellHeap : Heap := [false, true].map fun high =>
  ⟨1, cell high, fun _ => 0, none, none, none, ⟨none, .null⟩, 1, false⟩

def cellExecutor (key : ℕ) : Executor := ⟨cellHeap, .empty, ⟨[some (cellProgram key)]⟩, [0], [], [], .leaf 0, []⟩

def cellAddress : Expr :=
  .concat (.cast .zext (.read (.symbolic 0 "x" 1 Array.one_lt_size) .null (constant (APInt.ofNat 32 0))) 32)
    (constant (APInt.ofNat 32 16))

theorem mem_cells {op : ObjectPair} : op ∈ cells ↔ ∃ high : Bool, op = (cell high, high.toNat) := by
  simp only [cells, OrderedMap.mem_replace]
  constructor
  · rintro (⟨⟨hop, -⟩ | rfl, -⟩ | rfl)
    · cases hop
    · exact ⟨false, rfl⟩
    · exact ⟨true, rfl⟩
  · rintro ⟨_ | _, rfl⟩
    · exact .inl ⟨.inr rfl, by decide⟩
    · exact .inr rfl

theorem cells_layout (key : ℕ) : Layout ⟨true, 64⟩ ⟨key, cells⟩ where
  fits op hop := by
    obtain ⟨high, rfl⟩ := mem_cells.mp hop
    cases high <;> exact ⟨by decide, by decide⟩
  disjoint op hop op' hop' hne address := by
    obtain ⟨high, rfl⟩ := mem_cells.mp hop
    obtain ⟨high', rfl⟩ := mem_cells.mp hop'
    cases high <;> cases high' <;> simp_all [Contains, extent, cell] <;> omega

theorem cells_hold (key : ℕ) (σ : Bytes) : (⟨key, cells⟩ : AddressSpace).Holds cellHeap σ fun _ _ => 0 := by
  intro op hop
  obtain ⟨high, rfl⟩ := mem_cells.mp hop
  obtain ⟨hvalid, hr⟩ := ObjectState.valid_of_concrete
    ⟨1, cell high, fun _ => 0, none, none, none, ⟨none, .null⟩, 1, false⟩ rfl rfl rfl (cell high).size_lt (by simp)
    (fun _ hw => by cases hw) fun _ _ hw => by cases hw
  exact ⟨_, by cases high <;> rfl, rfl, rfl, hvalid, hr σ⟩

theorem cells_owned {key : ℕ} (hkey : 1 ≤ key) : (⟨key, cells⟩ : AddressSpace).OwnedUpTo cellHeap key := by
  intro op hop os hos
  obtain ⟨high, rfl⟩ := mem_cells.mp hop
  cases high <;> cases hos <;> exact hkey

def upperHalf (b : BitVec 8) : Bytes := fun array i => if array.size ≤ i then 0 else b

theorem upperHalf_solution (b : BitVec 8) (key : ℕ) : upperHalf b ∈ Solutions (cellProgram key).constraints :=
  ⟨fun _ _ hi => if_pos hi, mem_models_nil _⟩

theorem eval_cellAddress (b : BitVec 8) : (cellAddress.eval (upperHalf b)).toNat = b.toNat * 2 ^ 32 + 16 := by
  revert b
  decide +kernel

theorem cell_encloses (b : BitVec 8) (high : Bool) :
    (cell high).Encloses (cellAddress.eval (upperHalf b)).toNat 1 ↔ b.toNat = high.toNat := by
  rw [eval_cellAddress]
  simp only [Encloses, cell]
  omega

theorem cells_ready (key : ℕ) : Ready (cellExecutor key) 0 (cellProgram key) (cellProgram key) fun _ _ _ => 0 where
  live := ⟨rfl, rfl⟩
  tidy := by simp [Tidy, cellExecutor]
  active := by simp [cellExecutor]
  resembles := .refl _
  feasible := ⟨by simp [cellProgram], _, upperHalf_solution 0 key⟩
  holds σ _ := cells_hold key σ

theorem cell_write (key : ℕ) :
    (MemoryAccess.write (constant (APInt.ofNat 8 5))).Ok ⟨true, 64⟩ (cellProgram key) cellAddress :=
  ⟨⟨by decide, rfl⟩, ⟨⟨⟨trivial, trivial, nofun⟩, rfl⟩, trivial, .inl rfl⟩, .inr ⟨by decide, by decide⟩, trivial⟩

theorem fork_splits (hts : opts.solver.solver.Reliable) (ha : access.Ok opts.ctx s address) (h : Ready ex i s t m)
    (hfits : op.1.Fits opts.ctx)
    (hin : ∃ σ ∈ Solutions t.constraints, op.1.Encloses (address.eval σ).toNat (numBytes access.type))
    (hout : ∃ σ ∈ Solutions t.constraints, ¬ op.1.Encloses (address.eval σ).toNat (numBytes access.type)) :
    ∃ ns ex' cs cs', ex.fork opts.solver i (op.1.getBoundsCheckPointerBytes opts.ctx address
        (getMinBytesForWidth access.type)) = some ((some i, some ns), ex') ∧
      Splits ex ex' i ns t (op.1.getBoundsCheckPointerBytes opts.ctx address (getMinBytesForWidth access.type)) cs cs' ∧
      (∀ σ, σ ∈ Solutions cs ↔ σ ∈ Solutions t.constraints ∧
        op.1.Encloses (address.eval σ).toNat (numBytes access.type)) ∧
      ∀ σ, σ ∈ Solutions cs' ↔ σ ∈ Solutions t.constraints ∧
        ¬ op.1.Encloses (address.eval σ).toNat (numBytes access.type) := by
  have hholds := holds_boundsCheck ha hfits
  obtain ⟨σ, hσ, hσin⟩ := hin
  obtain ⟨τ, hτ, hτout⟩ := hout
  rcases fork_ok hts h.live h.feasible (getBoundsCheckPointerBytes_isConstraint op.1 ha.pointer
    (getMinBytesForWidth access.type)) with ⟨hall, -⟩ | ⟨hnone, -⟩ | ⟨ns, ex', cs, cs', hfork, hsplit⟩
  · exact absurd ((hholds τ).mp (hall τ hτ)) hτout
  · exact absurd ((hholds σ).mpr hσin) (hnone σ hσ)
  · refine ⟨ns, ex', cs, cs', hfork, hsplit, fun υ => ?_, fun υ => ?_⟩
    · rw [hsplit.solutions.1, Set.mem_ofPred_eq, hholds]
    · rw [hsplit.solutions.2, Set.mem_ofPred_eq, hholds]

theorem accessObjects_shared {value : Expr} (hts : opts.solver.solver.Reliable)
    (ha : (MemoryAccess.write value).Ok opts.ctx s address) (h : Ready ex i s t m)
    (hop : op ∈ t.addressSpace.objects) (hfits : op.1.Fits opts.ctx) {os : ObjectState}
    (hos : ex.heap[op.2]? = some os) (hro : os.readOnly = false)
    (hown : os.copyOnWriteOwner = (t.addressSpace.cowKey + 1) % 2 ^ 32)
    (hin : ∃ σ ∈ Solutions t.constraints, op.1.Encloses (address.eval σ).toNat (numBytes value.getWidth))
    (hout : ∃ σ ∈ Solutions t.constraints, ¬ op.1.Encloses (address.eval σ).toNat (numBytes value.getWidth)) :
    ∃ ex' os', accessObjects opts false (.write value) address [op] i ex = some ex' ∧
      (∀ j ≠ i, ∀ u, Active ex j u → Active ex' j u) ∧ ex'.heap = ex.heap.set op.2 os' ∧
      os.write opts.ctx (op.1.getOffsetExpr opts.ctx address) value = some os' := by
  obtain ⟨ht, hf⟩ := offset_typed ha op.1
  obtain ⟨ns, ex₁, cs, cs', hfork, hsplit, -, -⟩ := fork_splits hts ha h hfits hin hout
  obtain ⟨hready, hready'⟩ := hsplit.ready h
  have hrep := hsplit.replaces h.tidy h.active hsplit.trueState hsplit.falseState
  have hheap : ex₁.heap = ex.heap := by rw [hsplit.same]
  obtain ⟨σ, hσ, -⟩ := hin
  obtain ⟨os0, hos0, -, -, hvalid, -⟩ := h.holds σ hσ op hop
  obtain rfl := Option.some.inj (hos.symm.trans hos0)
  obtain ⟨os', hwrite, -⟩ := ObjectState.write_ok hvalid opts.ctx ht hf ha.operand ha.width
  have hrun := write_in_place hready.live (hheap ▸ hos) hro hown hwrite
  have hrep2 := replaces_store hready (ex₁.heap.set op.2 os')
    { t.branch.1 with ptreeNode := t.ptreeNode ++ [true], constraints := cs }
  have hne : ns ≠ i := hsplit.ne h.live
  obtain ⟨ex', hend, hrep3, hheap3⟩ := terminateStateWith_ok (hrep2.live ns hne _ hready'.live) hrep2.tidy
    hready'.active outOfBound
  refine ⟨ex', os', ?_, fun j hj u hu => ?_, by rw [hheap3, ← hheap], hwrite⟩
  · simp only [accessObjects, hfork, hrun, some_bind]
    exact hend
  · have hjn : j ≠ ns := by
      rintro rfl
      cases hsplit.fresh.symm.trans hu.1
    exact (hrep3.active j u).mpr (.inl ⟨hjn, (hrep2.active j u).mpr (.inl ⟨hj, (hrep.active j u).mpr (.inl ⟨hj, hu⟩)⟩)⟩)

/-- From the last epoch on, the states of a chain of forks own objects that they share.
The write of the second one is in the memory of the first. -/
theorem accessObjects_wraps {value : Expr} {op1 op2 : ObjectPair} {os₁ os2 : ObjectState} {σ1 σ2 σ3 : Bytes}
    (hts : opts.solver.solver.Reliable) (ha : (MemoryAccess.write value).Ok opts.ctx s address)
    (hfits : ∀ op ∈ s.addressSpace.objects, op.1.Fits opts.ctx) (h : Ready ex i s s m)
    (hkey : s.addressSpace.cowKey = 2 ^ 32 - 1) (hop1 : op1 ∈ s.addressSpace.objects)
    (hop2 : op2 ∈ s.addressSpace.objects) (hne : op1 ≠ op2)
    (hos1 : ex.heap[op1.2]? = some os₁) (hro1 : os₁.readOnly = false) (hown1 : os₁.copyOnWriteOwner = 1)
    (hos2 : ex.heap[op2.2]? = some os2) (hro2 : os2.readOnly = false) (hown2 : os2.copyOnWriteOwner = 1)
    (hσ1 : σ1 ∈ Solutions s.constraints) (hin1 : op1.1.Encloses (address.eval σ1).toNat (numBytes value.getWidth))
    (hσ2 : σ2 ∈ Solutions s.constraints) (hin2 : op2.1.Encloses (address.eval σ2).toNat (numBytes value.getWidth))
    (hout2 : ¬ op1.1.Encloses (address.eval σ2).toNat (numBytes value.getWidth))
    (hσ3 : σ3 ∈ Solutions s.constraints) (hout3 : ¬ op1.1.Encloses (address.eval σ3).toNat (numBytes value.getWidth))
    (hout3' : ¬ op2.1.Encloses (address.eval σ3).toNat (numBytes value.getWidth))
    (htrunc : ((op2.1.getOffsetExpr opts.ctx address).eval σ1).toNat % 2 ^ 32 + numBytes value.getWidth ≤ op2.1.size) :
    ∃ ex' t, accessObjects opts false (.write value) address [op1, op2] i ex = some ex' ∧ Active ex' i t ∧
      σ1 ∈ Solutions t.constraints ∧ t.addressSpace.Holds ex'.heap σ1 (Function.update (Function.update (m σ1) op1.1
        (stored opts.ctx (m σ1) op1.1 ((address.eval σ1).toNat - op1.1.address) value.getWidth
          (value.eval σ1).toNat)) op2.1
        (stored opts.ctx (m σ1) op2.1 (((op2.1.getOffsetExpr opts.ctx address).eval σ1).toNat % 2 ^ 32)
          value.getWidth (value.eval σ1).toNat)) := by
  obtain ⟨ns, ex₁, cs, cs', hfork, hsplit, hcs, hcs'⟩ := fork_splits hts ha h (hfits op1 hop1) ⟨σ1, hσ1, hin1⟩
    ⟨σ2, hσ2, hout2⟩
  obtain ⟨hready, hready'⟩ := hsplit.ready h
  have hheap1 : ex₁.heap = ex.heap := by rw [hsplit.same]
  -- both states of the fork are in epoch 0, the next fork is the start of epoch 1
  have hzero : (s.addressSpace.cowKey + 1) % 2 ^ 32 = 0 := by rw [hkey]; rfl
  have hcopy : os₁.copyOnWriteOwner ≠ (s.addressSpace.cowKey + 1) % 2 ^ 32 := by
    rw [hown1, hzero]
    decide
  have hnext : os2.copyOnWriteOwner = ((s.addressSpace.cowKey + 1) % 2 ^ 32 + 1) % 2 ^ 32 := by
    rw [hown2, hzero]
    rfl
  rw [← hheap1] at hos1 hos2
  obtain ⟨os1', hrun1, hholds1⟩ := write_copy ha hready hop1 (hfits op1 hop1) (fun σ hσ => ((hcs σ).mp hσ).2)
    hos1 hro1 hcopy
  let t1 := withCopy { s.branch.1 with ptreeNode := s.ptreeNode ++ [true], constraints := cs } op1.1 ex₁.heap.length
  have hready2 := hready'.after (replaces_store hready (ex₁.heap ++ [os1']) t1) (hsplit.ne h.live)
    (frozen_append _ os1')
  have hos2' : (ex₁.heap ++ [os1'])[op2.2]? = some os2 := by
    rw [List.getElem?_append_left (List.getElem?_eq_some_iff.mp hos2).1]
    exact hos2
  obtain ⟨ex', os2', hrun2, hactive, hheap2, hwrite⟩ := accessObjects_shared hts ha hready2 hop2 (hfits op2 hop2)
    hos2' hro2 hnext ⟨σ2, (hcs' σ2).mpr ⟨hσ2, hout2⟩, hin2⟩ ⟨σ3, (hcs' σ3).mpr ⟨hσ3, hout3⟩, hout3'⟩
  have hσ1' : σ1 ∈ Solutions t1.constraints := (hcs σ1).mpr ⟨hσ1, hin1⟩
  refine ⟨ex', t1, ?_, hactive i (hsplit.ne h.live).symm _ ⟨Store.get_set_self hready.live.get, hready.active⟩, hσ1', ?_⟩
  · rw [accessObjects]
    simp only [hfork, hrun1, some_bind]
    exact hrun2
  · -- the offset in the second object is truncated, and so in it under the solution for the first
    have hop2' : op2 ∈ t1.addressSpace.objects := OrderedMap.mem_replace.mpr (.inl
      ⟨hop2, fun hkey2 => hne (OrderedMap.key_inj _ hop1 hop2 hkey2.symm)⟩)
    obtain ⟨ht, hf⟩ := offset_typed ha op2.1
    obtain ⟨-, -, hmod⟩ := ObjectState.truncated_ok ht
    obtain ⟨os0, hos0, hobj, hsize, hvalid, hr⟩ := h.holds σ1 hσ1 op2 hop2
    rw [← hheap1] at hos0
    obtain rfl := Option.some.inj (hos2.symm.trans hos0)
    obtain ⟨os', hwrite', hst⟩ := ObjectState.write_truncated_ok hvalid opts.ctx ht hf ha.operand ha.width
    obtain rfl := Option.some.inj (hwrite.symm.trans hwrite')
    have hbytes := hst.represents σ1 _ hr
    simp only [hmod, hsize] at hbytes
    rw [hheap2]
    exact (hholds1 σ1 hσ1').set hop2' (hst.object.trans hobj) (hst.size.trans hsize) hst.valid (hbytes htrunc)

theorem accessMemory_slow (hts : opts.solver.solver.Reliable) (ha : access.Ok opts.ctx s address)
    (hl : Layout opts.ctx s.addressSpace) (h : Ready ex i s s m)
    (hout : ∀ op ∈ s.addressSpace.objects, ∃ σ ∈ Solutions s.constraints,
      ¬ op.1.Encloses (address.eval σ).toNat (numBytes access.type)) :
    ∃ rl : List ObjectPair, rl.Nodup ∧ (∀ op, op ∈ rl ↔ op ∈ s.addressSpace.objects ∧ MayPoint s.constraints address op) ∧
      ex.accessMemory opts (fun _ => false) i access address = accessObjects opts false access address rl i ex := by
  obtain ⟨op, hop, hin, -⟩ | heq := accessMemory_cases hts ha hl h
  · obtain ⟨σ, hσ, hσout⟩ := hout op hop
    exact absurd (hin σ hσ) hσout
  · rw [heq]
    exact accessSlow_eq hts ha hl h

theorem Performed.keeps {ctx : Context} {heap : Heap} {value : Expr} {mo : MemoryObject} {σ : Bytes}
    {m' : MemoryObject → ℕ → BitVec 8} (h : Performed ctx s m address (.write value) heap t)
    (hσ : σ ∈ Solutions t.constraints) (hm' : t.addressSpace.Holds heap σ m') (hmo : s.addressSpace.Binds mo)
    (hout : ¬ mo.Encloses (address.eval σ).toNat (numBytes value.getWidth)) {j : ℕ} (hj : j < mo.size) :
    m' mo j = m σ mo j := by
  obtain ⟨op, -, hin, -, hbinds, -, hholds⟩ := h
  obtain ⟨p, hp⟩ := (hbinds mo).mpr hmo
  obtain ⟨os, hos, -, hsize, hvalid, hr⟩ := hm' _ hp
  obtain ⟨os', hos', -, -, -, hr'⟩ := hholds σ hσ _ hp
  obtain rfl := Option.some.inj (hos.symm.trans hos')
  have hne : mo ≠ op.1 := fun heq => hout (heq ▸ hin σ hσ)
  rw [Function.update_of_ne hne] at hr'
  exact hr.unique hvalid hr' (hsize ▸ hj)

theorem cells_resolved {rl : List ObjectPair} {key : ℕ} (hnodup : rl.Nodup)
    (hmem : ∀ op, op ∈ rl ↔ op ∈ cells ∧ MayPoint (cellProgram key).constraints cellAddress op) :
    ∃ high : Bool, rl = [(cell high, high.toNat), (cell !high, (!high).toNat)] := by
  have hmay : ∀ op ∈ cells, MayPoint (cellProgram key).constraints cellAddress op := fun op hop => by
    obtain ⟨high, rfl⟩ := mem_cells.mp hop
    refine ⟨upperHalf (.ofNat 8 high.toNat), upperHalf_solution _ key, ?_⟩
    rw [eval_cellAddress]
    cases high <;> exact ⟨by decide, by decide⟩
  have hiff : ∀ op, op ∈ rl ↔ ∃ high : Bool, op = (cell high, high.toNat) := fun op => by
    rw [hmem, ← mem_cells]
    exact ⟨And.left, fun hop => ⟨hop, hmay op hop⟩⟩
  have hperm : rl.Perm [(cell false, 0), (cell true, 1)] := by
    refine (List.perm_ext_iff_of_nodup hnodup (by decide)).mpr fun op => ?_
    rw [hiff, Bool.exists_bool, List.mem_pair]
    rfl
  obtain ⟨a, b, rfl⟩ := List.length_eq_two.mp hperm.length_eq
  obtain ⟨high, rfl⟩ := (hiff a).mp List.mem_cons_self
  obtain ⟨high', rfl⟩ := (hiff b).mp (List.mem_cons_of_mem _ List.mem_cons_self)
  obtain rfl : high' = !high := by
    rw [Bool.eq_not]
    rintro rfl
    simp at hnodup
  exact ⟨high, rfl⟩

end Executor

end Klee
