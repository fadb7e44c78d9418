import DdKlee.Lib.OrderedMap
import DdKlee.Spec.ObjectState

/-! `AddressSpace`: a map from memory objects to object states that is shared
between the copies of a space until one of them writes. -/

namespace Klee

/-- The object states that are allocated. A pointer is an index; nothing is freed
that an address space refers to, so the states stay. -/
abbrev Heap := List ObjectState

/-- The `MemoryMap`, ordered by address, to pointers. -/
abbrev MemoryMap := OrderedMap (MemoryObject × ℕ) fun op => op.1.address

structure AddressSpace where
  cowKey : ℕ := 1
  objects : MemoryMap := {}

namespace AddressSpace

variable (heap : Heap) (as : AddressSpace) (mo : MemoryObject) (os : ℕ)

/-- The copy constructor: the source with its new epoch, and the copy. -/
def copy : AddressSpace × AddressSpace :=
  let as := { as with cowKey := (as.cowKey + 1) % 2 ^ 32 }
  (as, as)

def bindObject : Option (Heap × AddressSpace) := do
  let state ← heap[os]?
  if state.copyOnWriteOwner = 0 then
    some (heap.set os { state with copyOnWriteOwner := as.cowKey },
      { as with objects := as.objects.replace (mo, os) })
  else none -- object already has owner

def unbindObject : AddressSpace := { as with objects := as.objects.remove mo.address }

def findObject : Option ℕ := (as.objects.lookup mo.address).map Prod.snd

/-- The pointer to the object state, or to a copy that replaces it. -/
def getWriteable : Option (ℕ × Heap × AddressSpace) := do
  let state ← heap[os]?
  if state.readOnly then none
  else if as.cowKey = state.copyOnWriteOwner then some (os, heap, as)
  else do
    let newObjectState ← state.copy
    let wos := heap.length
    some (wos, heap ++ [{ newObjectState with copyOnWriteOwner := as.cowKey }],
      { as with objects := as.objects.replace (mo, wos) })

/-- The bytes of the buffer in the place of the concrete store. -/
def copyStore (state : ObjectState) (size : ℕ) (src : ℕ → BitVec 8) : ObjectState :=
  { state with concreteStore := fun i => if i < size then src i else state.concreteStore i }

/-- `copyInConcrete` from a buffer: the result is false if a read only object was
modified. -/
def copyInConcrete (src : ℕ → BitVec 8) : Option (Bool × Heap × AddressSpace) := do
  let state ← heap[os]?
  if ∀ i < mo.size, src i = state.concreteStore i then some (true, heap, as)
  else if state.readOnly then some (false, heap, as)
  else do
    let (wos, heap, as) ← as.getWriteable heap mo os
    let state ← heap[wos]?
    some (true, heap.set wos (copyStore state mo.size src), as)

end AddressSpace

/-- A write through a pointer to an object state. The owner is private to the
address spaces. -/
structure ObjectWrite where
  run : ObjectState → Option ObjectState
  owner : ∀ {os os'}, run os = some os' → os'.copyOnWriteOwner = os.copyOnWriteOwner

/-- Address spaces with their object states. -/
structure AddressSpaces where
  heap : Heap := []
  spaces : List AddressSpace := [{}]

/-- The operations on the space with some number. -/
inductive SpaceOp
  | copy (space : ℕ)
  | bindObject (space : ℕ) (mo : MemoryObject) (os : ObjectState)
  | unbindObject (space : ℕ) (mo : MemoryObject)
  | write (space : ℕ) (mo : MemoryObject) (write : ObjectWrite)

namespace SpaceOp

def space : SpaceOp → ℕ
  | copy space => space
  | bindObject space _ _ => space
  | unbindObject space _ => space
  | write space _ _ => space

def isCopy : SpaceOp → Bool
  | copy _ => true
  | _ => false

end SpaceOp

namespace AddressSpaces

variable (s : AddressSpaces)

/-- The object states a space reads, in the order of their addresses. -/
def contents (space : ℕ) : Option (List (MemoryObject × Option ObjectState)) :=
  s.spaces[space]?.map fun as => as.objects.entries.map fun (mo, os) => (mo, s.heap[os]?)

/-- An object state that is bound is a new one, and one that is written to is bound. -/
def step : SpaceOp → Option AddressSpaces
  | .copy space => do
      let as ← s.spaces[space]?
      let (as, copy) := as.copy
      some { s with spaces := s.spaces.set space as ++ [copy] }
  | .bindObject space mo os => do
      let as ← s.spaces[space]?
      let (heap, as) ← as.bindObject (s.heap ++ [os]) mo s.heap.length
      some ⟨heap, s.spaces.set space as⟩
  | .unbindObject space mo => do
      let as ← s.spaces[space]?
      some { s with spaces := s.spaces.set space (as.unbindObject mo) }
  | .write space mo write => do
      let as ← s.spaces[space]?
      let os ← as.findObject mo
      let (wos, heap, as) ← as.getWriteable s.heap mo os
      let state ← heap[wos]?
      let state ← write.run state
      some ⟨heap.set wos state, s.spaces.set space as⟩

def run (ops : List SpaceOp) : Option AddressSpaces := ops.foldlM step s

end AddressSpaces

end Klee
