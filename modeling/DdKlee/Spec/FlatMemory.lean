import DdKlee.Lib.Machine
import DdKlee.Spec.ObjectState

/-! What an `ObjectState` is for: an array of bytes. The machine of this module has
such arrays and no caches, and evaluates the expressions of the operations under
an assignment. -/

namespace Klee

/-- A memory object as the program under test sees it. -/
structure FlatObject where
  size : ℕ
  bytes : ℕ → BitVec 8

def numBytes (width : ℕ) : ℕ := if width = 1 then 1 else width / 8

/-- An access is of a Bool or of whole bytes. -/
def IsAccessWidth (width : ℕ) : Prop := width = 1 ∨ 0 < width ∧ width % 8 = 0

instance (width : ℕ) : Decidable (IsAccessWidth width) :=
  inferInstanceAs (Decidable (width = 1 ∨ 0 < width ∧ width % 8 = 0))

namespace FlatObject

variable (ctx : Context) (o : FlatObject) (offset width : ℕ)

def InBounds : Prop := offset + numBytes width ≤ o.size

instance : Decidable (o.InBounds offset width) := inferInstanceAs (Decidable (_ ≤ _))

/-- The bytes of a range, the first being the least significant on a little
endian target and the last on a big endian one. -/
def load : APInt :=
  let bytes := (List.range (numBytes width)).map fun i => (o.bytes (offset + i)).toNat
  APInt.ofNat width (Nat.ofDigits 256 (if ctx.isLittleEndian then bytes else bytes.reverse))

def store (value : ℕ) : FlatObject :=
  let place i := if ctx.isLittleEndian then i else numBytes width - 1 - i
  { o with
    bytes := fun i =>
      if offset ≤ i ∧ i < offset + numBytes width then .ofNat 8 (value / 256 ^ place (i - offset))
      else o.bytes i }

end FlatObject

inductive MemoryOp
  | concrete (mo : MemoryObject)
  | symbolic (mo : MemoryObject) (array : Array)
  | copy (obj : ℕ)
  | initializeToZero (obj : ℕ)
  | initializeToRandom (obj : ℕ)
  | readAt (obj offset width : ℕ)
  | read (obj : ℕ) (offset : Expr) (width : ℕ)
  | writeAt (obj offset : ℕ) (value : Expr)
  | write (obj : ℕ) (offset value : Expr)

namespace FlatMemory

variable (ctx : Context) (objs : List FlatObject)

def load (obj offset width : ℕ) : Option (Option APInt × List FlatObject) := do
  let o ← objs[obj]?
  if IsAccessWidth width ∧ o.InBounds offset width then some (some (o.load ctx offset width), objs) else none

def store (obj offset width value : ℕ) : Option (Option APInt × List FlatObject) := do
  let o ← objs[obj]?
  if IsAccessWidth width ∧ o.InBounds offset width then
    some (none, objs.set obj (o.store ctx offset width value))
  else none

/-- An operation, which is stuck on an access that is out of bounds. -/
def step (σ : Bytes) : MemoryOp → Option (Option APInt × List FlatObject)
  | .concrete mo => some (none, objs ++ [⟨mo.size, fun _ => 0⟩])
  | .symbolic mo array =>
      if array.domain = 32 ∧ array.range = 8 then
        some (none, objs ++ [⟨mo.size, fun i => .ofNat 8 (array.initial σ i).toNat⟩])
      else none
  | .copy obj => do
      let o ← objs[obj]?
      some (none, objs ++ [o])
  | .initializeToZero obj => do
      let o ← objs[obj]?
      some (none, objs.set obj { o with bytes := fun _ => 0 })
  | .initializeToRandom obj => do
      let o ← objs[obj]?
      some (none, objs.set obj { o with bytes := fun _ => 0xAB })
  | .readAt obj offset width => load ctx objs obj offset width
  | .read obj offset width => load ctx objs obj (offset.eval σ).toNat width
  | .writeAt obj offset value => store ctx objs obj offset value.getWidth (value.eval σ).toNat
  | .write obj offset value =>
      store ctx objs obj (offset.eval σ).toNat value.getWidth (value.eval σ).toNat

end FlatMemory

namespace ObjectState

/-- The objects of a run and the arrays made so far. -/
structure Objects where
  objs : List ObjectState
  cache : ArrayCache

namespace Objects

variable (s : Objects)

/-- The read of an object, which flushes. -/
def read (obj : ℕ) (f : ObjectState → ArrayCache → Option (Option Expr × ObjectState × ArrayCache)) :
    Option (Option Expr × Objects) := do
  let os ← s.objs[obj]?
  let (res, os, cache) ← f os s.cache
  some (res, ⟨s.objs.set obj os, cache⟩)

def modify (obj : ℕ) (f : ObjectState → Option ObjectState) : Option (Option Expr × Objects) := do
  let os ← s.objs[obj]?
  let os ← f os
  some (none, { s with objs := s.objs.set obj os })

def step (ctx : Context) (useConstantArrays : Bool) : MemoryOp → Option (Option Expr × Objects)
  | .concrete mo =>
      let (os, cache) := ofObject useConstantArrays s.cache mo
      some (none, ⟨s.objs ++ [os], cache⟩)
  | .symbolic mo array => some (none, { s with objs := s.objs ++ [ofArray mo array] })
  | .copy obj => do
      let os ← s.objs[obj]?
      let os ← os.copy
      some (none, { s with objs := s.objs ++ [os] })
  | .initializeToZero obj => s.modify obj fun os => some os.initializeToZero
  | .initializeToRandom obj => s.modify obj fun os => some os.initializeToRandom
  | .readAt obj offset width => s.read obj fun os cache => os.readAt ctx cache offset width
  | .read obj offset width => s.read obj fun os cache => ObjectState.read ctx os cache offset width
  | .writeAt obj offset value => s.modify obj fun os => os.writeAt ctx offset value
  | .write obj offset value => s.modify obj fun os => os.write ctx offset value

end Objects

end ObjectState

end Klee
