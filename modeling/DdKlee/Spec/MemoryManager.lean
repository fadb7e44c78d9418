import DdKlee.Spec.ObjectState

/-! `MemoryManager` with deterministic allocation. Pointers are 64-bit words, and the sums of
the source wrap around. -/

namespace Klee

structure MemoryOptions where
  deterministicAllocationSize : BitVec 32
  nullOnZeroMalloc : Bool
  redzoneSize : BitVec 32
  deterministicStartAddress : BitVec 64

/-- The class `MemoryManager`, with the counter for the ids of objects. -/
structure MemoryManager where
  deterministicSpace : BitVec 64
  nextFreeSlot : BitVec 64
  spaceSize : BitVec 64
  counter : ℕ := 0
deriving DecidableEq

structure AllocRequest where
  size : BitVec 64
  allocSite : ℕ
  alignment : BitVec 64

def isPowerOf2_64 (value : BitVec 64) : Bool := value ≠ 0 ∧ value &&& (value - 1) = 0

/-- `llvm::alignTo`, without skew. -/
def alignTo (value align : BitVec 64) : BitVec 64 := (value + align - 1) / align * align

namespace MemoryManager

/-- The size in bytes, which is a product of type `unsigned`. -/
def spaceBytes (opts : MemoryOptions) : BitVec 64 := (opts.deterministicAllocationSize * 1024 * 1024).setWidth 64

/-- The constructor, for the address that `mmap` returns. -/
def new (opts : MemoryOptions) (newSpace : BitVec 64) : Option MemoryManager :=
  let expectedAddress := opts.deterministicStartAddress
  if newSpace = -1 then none -- couldn't mmap() memory
  else if expectedAddress ≠ newSpace ∧ expectedAddress ≠ 0 then none
  else some ⟨newSpace, newSpace, spaceBytes opts, 0⟩

/-- The object at an address. Its size is of type `unsigned`. -/
def newObject (m : MemoryManager) (address : BitVec 64) (r : AllocRequest) : MemoryObject where
  id := m.counter
  address := address.toNat
  size := (r.size.setWidth 32).toNat
  allocSite := r.allocSite
  address_lt := address.isLt
  size_lt := (r.size.setWidth 32).isLt

/-- The new slot and the address, which is zero if there is no space left. -/
def place (opts : MemoryOptions) (m : MemoryManager) (r : AllocRequest) : BitVec 64 × BitVec 64 :=
  let address := alignTo (m.nextFreeSlot + r.alignment - 1) r.alignment
  -- a request for no bytes is one for a byte, so that it is between its own red zones
  let allocSize := if r.size < 1 then 1 else r.size
  if address + allocSize < m.deterministicSpace + m.spaceSize then
    (address + allocSize + opts.redzoneSize.setWidth 64, address)
  else (m.nextFreeSlot, 0)

def allocate (opts : MemoryOptions) (m : MemoryManager) (r : AllocRequest) : Option MemoryObject × MemoryManager :=
  if opts.nullOnZeroMalloc ∧ r.size = 0 then (none, m)
  else if isPowerOf2_64 r.alignment then
    let (nextFreeSlot, address) := m.place opts r
    let m := { m with nextFreeSlot }
    if address = 0 then (none, m) else (some (m.newObject address r), { m with counter := m.counter + 1 })
  else (none, m)

end MemoryManager

structure AllocStep where
  before : MemoryManager
  request : AllocRequest
  result : Option MemoryObject
  after : MemoryManager

/-- The calls for a sequence of requests. -/
def MemoryManager.trace (opts : MemoryOptions) (m : MemoryManager) : List AllocRequest → List AllocStep
  | [] => []
  | r :: rs => ⟨m, r, (m.allocate opts r).1, (m.allocate opts r).2⟩ :: trace opts (m.allocate opts r).2 rs

end Klee
