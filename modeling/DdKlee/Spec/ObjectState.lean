import DdKlee.Spec.Create

/-! `ObjectState`: the bytes of a memory object. A byte is in the concrete store,
in the cache of known symbolic values, or in the update list; two masks, which
are allocated when first needed, say where. Reads flush bytes to the update list,
so they change the object. A failed assertion is `none`, and so is an access
beyond the end of a vector. -/

namespace Klee

open Expr

structure Context where
  isLittleEndian : Bool
  getPointerWidth : ℕ
deriving DecidableEq

/-- The class `MemoryObject`; `id` stands for its address in the host, `address`
is the one in the program under test. -/
structure MemoryObject where
  id : ℕ
  address : ℕ
  size : ℕ
  allocSite : ℕ
  address_lt : address < 2 ^ 64
  size_lt : size < 2 ^ 32

namespace MemoryObject

instance : DecidableEq MemoryObject := fun a b =>
  decidable_of_iff (a.id = b.id ∧ a.address = b.address ∧ a.size = b.size ∧ a.allocSite = b.allocSite) (by
    cases a; cases b; simp)

theorem sixteen_lt_address : 16 < 2 ^ 64 := by decide

end MemoryObject

structure BitArray where
  bits : ℕ → BitVec 32

namespace BitArray

def ofValue (value : Bool) : BitArray := ⟨fun _ => if value then 0xFFFFFFFF else 0⟩

def get (b : BitArray) (idx : ℕ) : Bool := (b.bits (idx / 32) >>> (idx &&& 0x1F)) &&& 1 = 1

def set (b : BitArray) (idx : ℕ) : BitArray :=
  ⟨Function.update b.bits (idx / 32) (b.bits (idx / 32) ||| (1 : BitVec 32) <<< (idx &&& 0x1F))⟩

def unset (b : BitArray) (idx : ℕ) : BitArray :=
  ⟨Function.update b.bits (idx / 32) (b.bits (idx / 32) &&& ~~~((1 : BitVec 32) <<< (idx &&& 0x1F)))⟩

end BitArray

/-- The class `ArrayCache` with the counters of `ObjectState` for the names of
the arrays it makes. A new array is at the address `next`. All arrays are made
with the default widths. -/
structure ArrayCache where
  next : ℕ := 0
  cachedSymbolicArrays : List Array := []
  tmpArrays : ℕ := 0
  constArrays : ℕ := 0
  isBytes : ∀ a ∈ cachedSymbolicArrays, a.domain = 32 ∧ a.range = 8 := by simp

namespace ArrayCache

def empty : ArrayCache := {}

/-- `CreateArray` without constant values. Arrays of one name and size are one. -/
def createSymbolic (cache : ArrayCache) (name : String) (size : ℕ) (h : size < 2 ^ 32) : Array × ArrayCache :=
  match cache.cachedSymbolicArrays.find? fun a => a.size = size ∧ a.name = name with
  | some array => (array, cache)
  | none =>
      let array := Array.symbolic cache.next name size h
      (array, { cache with
        next := cache.next + 1
        cachedSymbolicArrays := array :: cache.cachedSymbolicArrays
        isBytes := List.forall_mem_cons.mpr ⟨⟨rfl, rfl⟩, cache.isBytes⟩ })

/-- `CreateArray` with constant values, which are as many as the size and of the
width of the range. -/
def createConstant (cache : ArrayCache) (name : String) (size : ℕ) (values : List APInt) :
    Option (Array × ArrayCache) :=
  if h : size < 2 ^ 32 ∧ (values = [] ∨ values.length = size) ∧ ∀ v ∈ values, v.width = 8 then
    some (⟨cache.next, name, size, 32, 8, values, h.1, h.2.1, h.2.2⟩, { cache with next := cache.next + 1 })
  else none

end ArrayCache

/-- An `UpdateList` whose array may not be made yet. -/
structure LazyUpdateList where
  root : Option Array
  head : UpdateNode

namespace LazyUpdateList

def extend (ul : LazyUpdateList) (index value : Expr) : Option LazyUpdateList :=
  if ul.root.all fun root => root.domain = index.getWidth ∧ root.range = value.getWidth then
    some { ul with head := .node ul.head index value }
  else none

end LazyUpdateList

structure ObjectState where
  copyOnWriteOwner : ℕ
  object : MemoryObject
  concreteStore : ℕ → BitVec 8
  concreteMask : Option BitArray
  flushMask : Option BitArray
  knownSymbolics : Option (ℕ → Option Expr)
  updates : LazyUpdateList
  size : ℕ
  readOnly : Bool

namespace ObjectState

section Masks

variable (os : ObjectState) (offset : ℕ)

def isByteConcrete : Bool := (os.concreteMask.map (·.get offset)).getD true

def isByteFlushed : Bool := (os.flushMask.map fun mask => !mask.get offset).getD false

/-- `knownSymbolics[offset]`, which may be null. -/
def knownSymbolic : Option Expr := os.knownSymbolics.bind fun known => known offset

def isByteKnownSymbolic : Bool := (os.knownSymbolic offset).isSome

def markByteConcrete : ObjectState := { os with concreteMask := os.concreteMask.map (·.set offset) }

def markByteSymbolic : ObjectState :=
  { os with concreteMask := some ((os.concreteMask.getD (.ofValue true)).unset offset) }

def markByteUnflushed : ObjectState := { os with flushMask := os.flushMask.map (·.set offset) }

def markByteFlushed : ObjectState :=
  { os with flushMask := some ((os.flushMask.map (·.unset offset)).getD (.ofValue false)) }

def setKnownSymbolic (value : Option Expr) : ObjectState :=
  { os with
    knownSymbolics :=
      match os.knownSymbolics, value with
      | some known, value => some (Function.update known offset value)
      | none, some value => some (Function.update (fun _ => none) offset (some value))
      | none, none => none }

end Masks

def makeConcrete (os : ObjectState) : ObjectState :=
  { os with concreteMask := none, flushMask := none, knownSymbolics := none }

def makeSymbolicByte (os : ObjectState) (i : ℕ) : ObjectState :=
  ((os.markByteSymbolic i).setKnownSymbolic i none).markByteFlushed i

/-- The assertion, that there are no updates, holds where this is called. -/
def makeSymbolic (os : ObjectState) : ObjectState := (List.range os.size).foldl makeSymbolicByte os

def initializeToZero (os : ObjectState) : ObjectState := { os.makeConcrete with concreteStore := fun _ => 0 }

/-- The bytes are "randomly selected by 256 sided die". -/
def initializeToRandom (os : ObjectState) : ObjectState :=
  { os.makeConcrete with concreteStore := fun _ => 0xAB }

/-- The object state of a memory object with concrete contents. -/
def ofObject (useConstantArrays : Bool) (cache : ArrayCache) (mo : MemoryObject) :
    ObjectState × ArrayCache :=
  let (root, cache) :=
    if useConstantArrays then (none, cache)
    else
      let (array, cache) :=
        cache.createSymbolic s!"tmp_arr{cache.tmpArrays + 1}" mo.size mo.size_lt
      (some array, { cache with tmpArrays := cache.tmpArrays + 1 })
  ({ copyOnWriteOwner := 0
     object := mo
     concreteStore := fun _ => 0
     concreteMask := none
     flushMask := none
     knownSymbolics := none
     updates := ⟨root, .null⟩
     size := mo.size
     readOnly := false }, cache)

/-- The object state of a memory object with symbolic contents. -/
def ofArray (mo : MemoryObject) (array : Array) : ObjectState :=
  makeSymbolic
    { copyOnWriteOwner := 0
      object := mo
      concreteStore := fun _ => 0
      concreteMask := none
      flushMask := none
      knownSymbolics := none
      updates := ⟨some array, .null⟩
      size := mo.size
      readOnly := false }

/-- The copy constructor; there is no need to copy a read only object. -/
def copy (os : ObjectState) : Option ObjectState :=
  if os.readOnly then none else some { os with copyOnWriteOwner := 0, readOnly := false }

/-- The writes of an update list, with the oldest first. -/
def writes : UpdateNode → List (Expr × Expr)
  | .null => []
  | .node next index value => writes next ++ [(index, value)]

/-- Pull off as many concrete writes as we can, into the constant array. An index
beyond its end is `none`. -/
def pullWrites : List APInt → List (Expr × Expr) → Option (List APInt × List (Expr × Expr))
  | contents, (constant index, constant value) :: rest =>
      if index.toNat < contents.length then pullWrites (contents.set index.toNat value) rest else none
  | contents, rest => some (contents, rest)

/-- Apply the remaining (non-constant) writes. -/
def applyWrites (head : UpdateNode) (rest : List (Expr × Expr)) : UpdateNode :=
  rest.foldl (fun head (index, value) => .node head index value) head

/-- Constant arrays are created lazily. -/
def getUpdates (os : ObjectState) (cache : ArrayCache) : Option (UpdateList × ObjectState × ArrayCache) :=
  match os.updates.root with
  | some root => some (⟨root, os.updates.head⟩, os, cache)
  | none => do
      let contents := List.replicate os.size (APInt.ofNat 8 0)
      let (contents, rest) ← pullWrites contents (writes os.updates.head)
      let (array, cache) ←
        cache.createConstant s!"const_arr{cache.constArrays + 1}" os.size contents
      let head := applyWrites .null rest
      some (⟨array, head⟩, { os with updates := ⟨some array, head⟩ },
        { cache with constArrays := cache.constArrays + 1 })

/-- What is flushed of a byte: its concrete or its known symbolic value. -/
def cachedValue (os : ObjectState) (offset : ℕ) : Option Expr :=
  if os.isByteConcrete offset then some (ConstantExpr.alloc (os.concreteStore offset).toNat 8)
  else os.knownSymbolic offset

/-- The body of the loops of `flushRangeForRead` and `flushRangeForWrite` for a
byte that is not flushed. -/
def flushByte (os : ObjectState) (offset : ℕ) : Option ObjectState := do
  let value ← os.cachedValue offset
  let updates ← os.updates.extend (ConstantExpr.alloc offset 32) value
  some { os with updates := updates, flushMask := os.flushMask.map (·.unset offset) }

def flushByteForRead (os : ObjectState) (offset : ℕ) : Option ObjectState :=
  if os.isByteFlushed offset then some os else os.flushByte offset

/-- Flushed bytes that are written over still need to be marked out. -/
def markOut (os : ObjectState) (offset : ℕ) : ObjectState :=
  if os.isByteConcrete offset then os.markByteSymbolic offset
  else if os.isByteKnownSymbolic offset then os.setKnownSymbolic offset none
  else os

def flushByteForWrite (os : ObjectState) (offset : ℕ) : Option ObjectState :=
  (os.flushByteForRead offset).map (·.markOut offset)

def allocFlushMask (os : ObjectState) : ObjectState :=
  { os with flushMask := some (os.flushMask.getD (.ofValue true)) }

/-- `flushRangeForRead` over the range of `fastRangeCheckOffset`, which is the
whole object. -/
def flushRangeForRead (os : ObjectState) : Option ObjectState :=
  (List.range os.size).foldlM flushByteForRead os.allocFlushMask

def flushRangeForWrite (os : ObjectState) : Option ObjectState :=
  (List.range os.size).foldlM flushByteForWrite os.allocFlushMask

/-- `read8` at a concrete offset. -/
def read8 (os : ObjectState) (cache : ArrayCache) (offset : ℕ) :
    Option (Expr × ObjectState × ArrayCache) :=
  match os.cachedValue offset with
  | some value => some (value, os, cache)
  | none =>
      if os.isByteFlushed offset then do
        let (updates, os, cache) ← os.getUpdates cache
        some (ReadExpr.create updates (ConstantExpr.alloc offset 32), os, cache)
      else none

/-- `read8` at a symbolic offset. -/
def read8Symbolic (os : ObjectState) (cache : ArrayCache) (offset : Expr) :
    Option (Expr × ObjectState × ArrayCache) :=
  if offset.isConstant then none
  else do
    let os ← os.flushRangeForRead
    let (updates, os, cache) ← os.getUpdates cache
    some (ReadExpr.create updates (ZExtExpr.create offset 32), os, cache)

/-- `write8` of a concrete byte. -/
def write8Concrete (os : ObjectState) (offset : ℕ) (value : BitVec 8) : ObjectState :=
  let os := { os with concreteStore := Function.update os.concreteStore offset value }
  ((os.setKnownSymbolic offset none).markByteConcrete offset).markByteUnflushed offset

/-- `write8` at a concrete offset. -/
def write8 (os : ObjectState) (offset : ℕ) (value : Expr) : Option ObjectState :=
  match value with
  | constant c => if c.width ≤ 8 then some (os.write8Concrete offset (.ofNat 8 c.toNat)) else none
  | value => some (((os.setKnownSymbolic offset (some value)).markByteSymbolic offset).markByteUnflushed offset)

/-- `write8` at a symbolic offset. -/
def write8Symbolic (os : ObjectState) (offset value : Expr) : Option ObjectState :=
  if offset.isConstant then none
  else do
    let os ← os.flushRangeForWrite
    let updates ← os.updates.extend (ZExtExpr.create offset 32) value
    some { os with updates := updates }

/-- The place of byte `i` of `numBytes`, the least significant being byte 0. -/
def byteIndex (ctx : Context) (numBytes i : ℕ) : ℕ :=
  if ctx.isLittleEndian then i else numBytes - i - 1

/-- The first `n` rounds of the loop of `read`, over the reader of the byte at
an index. -/
def readBytes (readByte : ObjectState → ArrayCache → ℕ → Option (Expr × ObjectState × ArrayCache))
    (ctx : Context) (numBytes : ℕ) (os : ObjectState) (cache : ArrayCache) :
    ℕ → Option (Option Expr × ObjectState × ArrayCache)
  | 0 => some (none, os, cache)
  | i + 1 => do
      let (res, os, cache) ← readBytes readByte ctx numBytes os cache i
      let (byte, os, cache) ← readByte os cache (byteIndex ctx numBytes i)
      some (some ((res.map fun res => ConcatExpr.create byte res).getD byte), os, cache)

/-- The body of the two `read` functions. Bool is treated specially, it is the
only non-byte sized access allowed. -/
def readWith (readByte : ObjectState → ArrayCache → ℕ → Option (Expr × ObjectState × ArrayCache))
    (ctx : Context) (os : ObjectState) (cache : ArrayCache) (width : ℕ) :
    Option (Option Expr × ObjectState × ArrayCache) :=
  if width = 1 then do
    let (byte, os, cache) ← readByte os cache 0
    some (some (ExtractExpr.create byte 0 1), os, cache)
  else if width = width / 8 * 8 then readBytes readByte ctx (width / 8) os cache (width / 8)
  else none

/-- `read` at a concrete offset. No expression is returned for the width 0. -/
def readAt (ctx : Context) (os : ObjectState) (cache : ArrayCache) (offset width : ℕ) :
    Option (Option Expr × ObjectState × ArrayCache) :=
  readWith (fun os cache idx => os.read8 cache (offset + idx)) ctx os cache width

def offsetAt (offset : Expr) (idx : ℕ) : Expr := AddExpr.create offset (ConstantExpr.alloc idx 32)

/-- `read` at any offset, which is truncated to 32 bits. -/
def read (ctx : Context) (os : ObjectState) (cache : ArrayCache) (offset : Expr) (width : ℕ) :
    Option (Option Expr × ObjectState × ArrayCache) :=
  match ZExtExpr.create offset 32 with
  | constant c => os.readAt ctx cache c.toNat width
  | offset =>
      if width = 1 then readWith (fun os cache _ => os.read8Symbolic cache offset) ctx os cache width
      else readWith (fun os cache idx => os.read8Symbolic cache (offsetAt offset idx)) ctx os cache width

/-- The first `n` rounds of the loops of the `write` functions. -/
def writeBytes (writeByte : ObjectState → ℕ → ℕ → Option ObjectState) (ctx : Context) (numBytes : ℕ)
    (os : ObjectState) : ℕ → Option ObjectState
  | 0 => some os
  | i + 1 => do
      let os ← writeBytes writeByte ctx numBytes os i
      writeByte os (byteIndex ctx numBytes i) i

/-- `write16`, `write32` and `write64` for 2, 4 and 8 bytes. -/
def writeWord (ctx : Context) (numBytes : ℕ) (os : ObjectState) (offset value : ℕ) : Option ObjectState :=
  writeBytes (fun os idx i => some (os.write8Concrete (offset + idx) (.ofNat 8 (value >>> (8 * i)))))
    ctx numBytes os numBytes

def write16 (ctx : Context) : ObjectState → ℕ → ℕ → Option ObjectState := writeWord ctx 2
def write32 (ctx : Context) : ObjectState → ℕ → ℕ → Option ObjectState := writeWord ctx 4
def write64 (ctx : Context) : ObjectState → ℕ → ℕ → Option ObjectState := writeWord ctx 8

/-- The general case of the two `write` functions. -/
def writeWith (writeByte : ObjectState → ℕ → Expr → Option ObjectState) (ctx : Context) (os : ObjectState)
    (value : Expr) : Option ObjectState :=
  let w := value.getWidth
  if w = 1 then writeByte os 0 (ZExtExpr.create value 8)
  else if w = w / 8 * 8 then
    writeBytes (fun os idx i => writeByte os idx (ExtractExpr.create value (8 * i) 8)) ctx (w / 8) os (w / 8)
  else none

def isPowerOfTwo (x : ℕ) : Bool := x &&& (x - 1) = 0

/-- `write` at a concrete offset. Constants of the sizes of machine words are
written without expressions. -/
def writeAt (ctx : Context) (os : ObjectState) (offset : ℕ) (value : Expr) : Option ObjectState :=
  let general := writeWith (fun os idx byte => os.write8 (offset + idx) byte) ctx os value
  match value with
  | constant c =>
      if c.width ≤ 64 ∧ isPowerOfTwo c.width then
        match c.width with
        | 1 | 8 => some (os.write8Concrete offset (.ofNat 8 c.toNat))
        | 16 => os.write16 ctx offset c.toNat
        | 32 => os.write32 ctx offset c.toNat
        | 64 => os.write64 ctx offset c.toNat
        | _ => none -- Invalid write size!
      else general
  | _ => general

/-- `write` at any offset, which is truncated to 32 bits. -/
def write (ctx : Context) (os : ObjectState) (offset value : Expr) : Option ObjectState :=
  match ZExtExpr.create offset 32 with
  | constant c => os.writeAt ctx c.toNat value
  | offset =>
      if value.getWidth = 1 then writeWith (fun os _ byte => os.write8Symbolic offset byte) ctx os value
      else writeWith (fun os idx byte => os.write8Symbolic (offsetAt offset idx) byte) ctx os value

end ObjectState

end Klee
