import DdKlee.Spec.ExecutionState

/-! `ExecutionState::merge`: one state in the place of two, with values and a path
condition that depend on which of them an assignment came from. -/

namespace Klee

open Expr

/-- `compare` finds no difference. -/
def MemoryObject.same (a b : MemoryObject) : Bool :=
  -- short-cut with id
  a.id = b.id || (a.address = b.address && a.size = b.size && a.allocSite = b.allocSite)

/-- A `std::set` of the elements of a list. -/
def sortedSet {α : Type} [DecidableEq α] (le : α → α → Bool) (l : List α) : List α := l.dedup.mergeSort le

/-- Sets of expressions are ordered by their hashes, and sets of objects by the place
where they were allocated. -/
structure MergeOptions where
  ctx : Context
  opts : ConstraintOptions
  exprLe : Expr → Expr → Bool
  objectLe : MemoryObject → MemoryObject → Bool

/-- The memory of a state that is being merged. -/
structure MergeMemory where
  heap : Heap
  arrayCache : ArrayCache
  addressSpace : AddressSpace

namespace ExecutionState

def sameSymbolics : List (MemoryObject × Array) → List (MemoryObject × Array) → Bool
  | [], [] => true
  | a :: as, b :: bs => a.1.same b.1 && a.2 = b.2 && sameSymbolics as bs
  | _, _ => false

def sameFrames : List StackFrame → List StackFrame → Bool
  | [], [] => true
  | a :: as, b :: bs => a.caller = b.caller && a.kf = b.kf && sameFrames as bs
  | _, _ => false

/-- The objects with different object states, if both maps have the same objects. -/
def mutatedObjects : List (MemoryObject × ℕ) → List (MemoryObject × ℕ) → Option (List MemoryObject)
  | [], [] => some []
  | a :: as, b :: bs =>
      if a.1 ≠ b.1 then none
      else do
        let mutated ← mutatedObjects as bs
        if a.2 ≠ b.2 then some (a.1 :: mutated) else some mutated
  | _, _ => none

/-- The intersection of two sets of constraints. -/
def commonConstraints (le : Expr → Expr → Bool) (aConstraints bConstraints : List Expr) : List Expr :=
  (sortedSet le aConstraints).filter (· ∈ bConstraints)

def suffix (le : Expr → Expr → Bool) (constraints common : List Expr) : List Expr :=
  (sortedSet le constraints).filter (· ∉ common)

def conjunction (suffix : List Expr) : Expr := suffix.foldl AndExpr.create (ConstantExpr.alloc 1 1)

/-- A register that is null in one of the states is not used again. -/
def mergeFrame (inA : Expr) (af bf : StackFrame) : StackFrame :=
  { af with
    locals := fun i =>
      match af.locals i, bf.locals i with
      | some av, some bv => if i < af.kf.numRegisters then some (SelectExpr.create inA av bv) else some av
      | av, _ => av }

def mergeByte (ctx : Context) (inA : Expr) (wos otherOS : ℕ) (memory : Heap × ArrayCache) (i : ℕ) :
    Option (Heap × ArrayCache) := do
  let (heap, cache) := memory
  let os ← heap[wos]?
  let (av, os, cache) ← os.read8 cache i
  let heap := heap.set wos os
  let other ← heap[otherOS]?
  let (bv, other, cache) ← other.read8 cache i
  let heap := heap.set otherOS other
  let os ← heap[wos]?
  let os ← os.writeAt ctx i (SelectExpr.create inA av bv)
  some (heap.set wos os, cache)

def mergeObject (ctx : Context) (inA : Expr) (b : AddressSpace) (memory : MergeMemory) (mo : MemoryObject) :
    Option MergeMemory := do
  let os ← memory.addressSpace.findObject mo
  let otherOS ← b.findObject mo
  -- objects that are mutated are writable, which `getWriteable` asserts
  let (wos, heap, addressSpace) ← memory.addressSpace.getWriteable memory.heap mo os
  let (heap, arrayCache) ← (List.range mo.size).foldlM (mergeByte ctx inA wos otherOS) (heap, memory.arrayCache)
  some ⟨heap, arrayCache, addressSpace⟩

/-- The part of `merge` that changes the state, once it is known that the states can be
merged. -/
def mergeStates (opts : MergeOptions) (heap : Heap) (arrayCache : ArrayCache) (a b : ExecutionState)
    (mutated : List MemoryObject) : Option (Bool × Heap × ArrayCache × ExecutionState) := do
  let common := commonConstraints opts.exprLe a.constraints b.constraints
  let inA := conjunction (suffix opts.exprLe a.constraints common)
  let inB := conjunction (suffix opts.exprLe b.constraints common)
  let stack := List.zipWith (mergeFrame inA) a.stack b.stack
  let memory ← (sortedSet opts.objectLe mutated).foldlM (mergeObject opts.ctx inA b.addressSpace)
    ⟨heap, arrayCache, a.addressSpace⟩
  let state := { a with stack, addressSpace := memory.addressSpace, constraints := [] }
  let state ← common.foldlM (fun state => state.addConstraint opts.opts) state
  let state ← state.addConstraint opts.opts (OrExpr.create inA inB)
  some (true, memory.heap, memory.arrayCache, state)

/-- The state `a` after it was merged with `b`, or as it was. -/
def merge (opts : MergeOptions) (heap : Heap) (arrayCache : ArrayCache) (a b : ExecutionState) :
    Option (Bool × Heap × ArrayCache × ExecutionState) :=
  if a.pc ≠ b.pc then some (false, heap, arrayCache, a)
  else if !sameSymbolics a.symbolics b.symbolics then some (false, heap, arrayCache, a)
  else if !sameFrames a.stack b.stack then some (false, heap, arrayCache, a)
  else
    match mutatedObjects a.addressSpace.objects.entries b.addressSpace.objects.entries with
    | none => some (false, heap, arrayCache, a)
    | some mutated => mergeStates opts heap arrayCache a b mutated

end ExecutionState

end Klee
