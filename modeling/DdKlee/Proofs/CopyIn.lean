import DdKlee.Proofs.FlatMemory
import DdKlee.Spec.AddressSpace

/-! Memory copied back from an external call. The buffer goes to the concrete
store and the masks stay, so a byte that is also in the update list keeps its
old value there. -/

namespace Klee.AddressSpace

open Expr ObjectState

variable {heap : Heap} {as : AddressSpace} {mo : MemoryObject} {p : ℕ} {os : ObjectState} {src : ℕ → BitVec 8}
  {σ : Bytes} {bytes : ℕ → BitVec 8}

/-- A byte has a value on both ways to read it: at its own offset, and at an
offset that may be symbolic. -/
def ReadsAs (σ : Bytes) (os : ObjectState) (i : ℕ) (v : BitVec 8) : Prop :=
  (∀ cache, ∃ e os' cache', os.read8 cache i = some (e, os', cache') ∧ e.eval σ = ⟨8, v⟩) ∧
    ∀ ctx cache offset, offset.Created → (offset.eval σ).toNat = i →
      ∃ e os' cache', os.read ctx cache offset 8 = some (some e, os', cache') ∧ e.eval σ = ⟨8, v⟩

/-- Concrete bytes are those of the buffer, and symbolic ones are as they were. -/
def CopiedIn (σ : Bytes) (os os' : ObjectState) (src : ℕ → BitVec 8) : Prop :=
  ∀ i < os.size, (os.isByteConcrete i = true → ReadsAs σ os' i (src i)) ∧
    (os.isByteConcrete i = false → ∀ v, ReadsAs σ os i v → ReadsAs σ os' i v)

theorem getWriteable_ok (hos : heap[p]? = some os) (hbound : (mo, p) ∈ as.objects) (hro : os.readOnly = false) :
    ∃ wos heap' as' key, as.getWriteable heap mo p = some (wos, heap', as') ∧ as'.findObject mo = some wos ∧
      heap'[wos]? = some { os with copyOnWriteOwner := key } := by
  by_cases hown : as.cowKey = os.copyOnWriteOwner
  · refine ⟨p, heap, as, os.copyOnWriteOwner, ?_, ?_, hos⟩
    · simp [getWriteable, hos, hro, hown]
    · rw [findObject, OrderedMap.lookup_eq_some hbound]
      rfl
  · refine ⟨heap.length, _, _, as.cowKey, by simp [getWriteable, hos, hro, hown, ObjectState.copy]; exact ⟨rfl, rfl⟩, ?_, ?_⟩
    · have hmem : (mo, heap.length) ∈ as.objects.replace (mo, heap.length) := OrderedMap.mem_replace.mpr (.inr rfl)
      rw [findObject, OrderedMap.lookup_eq_some hmem]
      rfl
    · simp [← hro]

/-- The object after the copy: only the concrete store and the owner change. -/
theorem copyInConcrete_ok (hos : heap[p]? = some os) (hbound : (mo, p) ∈ as.objects) (hro : os.readOnly = false)
    (src : ℕ → BitVec 8) :
    ∃ heap' as' wos key, as.copyInConcrete heap mo p src = some (true, heap', as') ∧
      as'.findObject mo = some wos ∧
      heap'[wos]? = some (copyStore { os with copyOnWriteOwner := key } mo.size src) := by
  by_cases hsame : ∀ i < mo.size, src i = os.concreteStore i
  · refine ⟨heap, as, p, os.copyOnWriteOwner, ?_, ?_, ?_⟩
    · simp only [copyInConcrete, hos, some_bind]
      exact if_pos hsame
    · rw [findObject, OrderedMap.lookup_eq_some hbound]
      rfl
    · have hstore : (fun i => if i < mo.size then src i else os.concreteStore i) = os.concreteStore := by
        funext i
        split_ifs with hi
        · exact hsame i hi
        · rfl
      rw [hos, copyStore, hstore]
  · obtain ⟨wos, heap', as', key, hrun, hfind, hget⟩ := getWriteable_ok hos hbound hro
    refine ⟨heap'.set wos (copyStore { os with copyOnWriteOwner := key } mo.size src), as', wos, key, ?_, hfind, ?_⟩
    · simp [copyInConcrete, hos, hsame, hro, hrun, hget]
    · rw [List.getElem?_set_self (List.getElem?_eq_some_iff.mp hget).1]

section Copied

variable {key : ℕ}

theorem copyStore_valid (h : os.Valid) (key : ℕ) (mo : MemoryObject) (src : ℕ → BitVec 8) :
    (copyStore { os with copyOnWriteOwner := key } mo.size src).Valid :=
  ⟨⟨h.known, h.unflushed⟩, h.size_lt, h.known_typed, h.root, h.writes, h.inRange⟩

theorem copyStore_represents (hr : os.Represents σ bytes) (hsize : os.size = mo.size)
    (hsame : ∀ i < os.size, os.isByteConcrete i = true → os.isByteFlushed i = true → src i = os.concreteStore i)
    (hcache : os.CacheInv) :
    (copyStore { os with copyOnWriteOwner := key } mo.size src).Represents σ
      fun i => if os.isByteConcrete i then src i else bytes i := by
  refine ⟨fun i hi hc => ?_, fun i hi e he => ?_, fun i hi hf root hroot => ?_⟩
  · change (if i < mo.size then src i else os.concreteStore i) = if os.isByteConcrete i then src i else bytes i
    have hi' : i < mo.size := hsize ▸ hi
    have hc' : os.isByteConcrete i = true := hc
    rw [if_pos hi', if_pos hc']
  · have hc : os.isByteConcrete i = false := hcache.known i hi (Option.isSome_iff_exists.mpr ⟨e, he⟩)
    simp only [hc, Bool.false_eq_true, if_false]
    exact hr.known i hi e he
  · have hbyte : (if os.isByteConcrete i then src i else bytes i) = bytes i := by
      split_ifs with hc
      · exact (hsame i hi hc hf).trans (hr.concrete i hi hc)
      · rfl
    rw [hbyte]
    exact hr.flushed i hi hf root hroot

end Copied

theorem readsAs_of_represents (h : os.Valid) (hr : os.Represents σ bytes) {i : ℕ} (hi : i < os.size) :
    ReadsAs σ os i (bytes i) := by
  refine ⟨fun cache => ?_, fun ctx cache offset hoff hval => ?_⟩
  · obtain ⟨e, os', cache', hrun, -, -, -, heval⟩ := read8_ok h cache hi
    exact ⟨e, os', cache', hrun, heval σ bytes hr⟩
  · obtain ⟨e, os', cache', hrun, -, -, -, heval⟩ :=
      read_ok h ctx cache (by decide : IsAccessWidth 8) hoff.wellTyped hoff.folded ⟨σ, by rw [hval]; exact hi⟩
    refine ⟨e, os', cache', hrun, (heval σ bytes hr (by rw [hval]; exact hi)).trans ?_⟩
    rw [load_eq, hval]
    simp [numBytes, word, byteIndex_one, APInt.ofNat]

theorem ReadsAs.unique {i : ℕ} {v w : BitVec 8} (h : ReadsAs σ os i v) (h' : ReadsAs σ os i w) : v = w := by
  obtain ⟨e, os', cache', hrun, heval⟩ := h.1 {}
  obtain ⟨e', os'', cache'', hrun', heval'⟩ := h'.1 {}
  obtain ⟨rfl, -⟩ := Prod.mk.inj (Option.some.inj (hrun.symm.trans hrun'))
  simpa using heval.symm.trans heval'

theorem exists_offset (σ : Bytes) {i : ℕ} (hi : i < 2 ^ 32) :
    ∃ offset : Expr, offset.Created ∧ IsOffset offset ∧ (offset.eval σ).toNat = i := by
  let byte := (Operation.read ⟨.symbolic 0 "x" 1 (by decide), .null⟩ (constant (APInt.ofNat 32 0))).create
  let word := (Operation.cast .zext byte 32).create
  have hword : word.Created := .create _ (by decide) fun e he => by
    obtain rfl := List.mem_singleton.mp he
    exact .create _ (by decide) fun e he => List.mem_singleton.mp he ▸ .constant _
  have hwidth : word.getWidth = 32 := by decide
  obtain ⟨x, hx⟩ := Expr.exists_bits σ hword.wellTyped hwidth
  let c := APInt.ofNat 32 (i + 2 ^ 32 - x.toNat)
  have hmatching : (Operation.binary .add word (constant c)).Matching := ⟨hword.wellTyped, trivial, hwidth⟩
  have hcreated : (AddExpr.create word (constant c)).Created := .create (.binary .add word (constant c)) hmatching
    fun e he => by
      rcases List.mem_cons.mp he with rfl | he
      · exact hword
      · exact List.mem_singleton.mp he ▸ .constant _
  have hs := AddExpr_create_simplifies (P := fun _ => True) (l := word) (r := constant c) hmatching
  refine ⟨_, hcreated, ⟨hs.typed, hs.width.trans hwidth, hcreated.folded,
    AddExpr_create_not_constant (by decide : (32 : ℕ) ≠ 1) hword.folded (by decide)⟩, ?_⟩
  have heval : (AddExpr.create word (constant c)).eval σ = (APInt.mk 32 x).add c := by
    rw [← hx]
    exact hs.eval σ trivial
  have hlt := x.isLt
  rw [heval]
  change ((APInt.mk 32 x).add ⟨32, BitVec.ofNat 32 (i + 2 ^ 32 - x.toNat)⟩).toNat = i
  rw [APInt.add_mk, APInt.toNat, BitVec.toNat_add, BitVec.toNat_ofNat]
  dsimp only
  omega

theorem read_byte {offset : Expr} (hoff : IsOffset offset) (ctx : Context) (cache : ArrayCache) :
    os.read ctx cache offset 8 =
      (os.read8Symbolic cache (offsetAt offset 0)).map fun (e, os, cache) => (some e, os, cache) := by
  have hidx : byteIndex ctx (8 / 8) 0 = 0 := byteIndex_one ctx
  have hsymbolic := hoff.symbolic
  unfold ObjectState.read
  rw [ZExtExpr_create_self hoff.width]
  split
  · cases hsymbolic
  · simp only [readWith, readBytes, hidx, some_bind, Option.map_none, Option.getD_none]
    cases os.read8Symbolic cache (offsetAt offset 0) <;> rfl

end Klee.AddressSpace
