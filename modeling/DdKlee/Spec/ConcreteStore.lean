import DdKlee.Spec.ObjectState
import DdKlee.Spec.TimingSolver

/-! `ObjectState::flushToConcreteStore`, which gives the symbolic bytes of an
object values before an external call. -/

namespace Klee

/-- `toMemory` of a constant, on a little endian host. An invalid width is `none`. -/
def ConstantExpr.toMemory (c : APInt) (memory : ℕ → BitVec 8) (address : ℕ) : Option (ℕ → BitVec 8) :=
  if c.width ∈ [1, 8, 16, 32, 64, 80] then
    some fun i =>
      if address ≤ i ∧ i < address + (c.width + 7) / 8 then .ofNat 8 (c.toNat >>> (8 * (i - address))) else memory i
  else none

namespace ObjectState

/-- The body of the loop. If the solver fails there is a warning, and the byte
stays as it is. -/
def flushByteToConcreteStore (solver : TimingSolver) (constraints : List Expr) (s : ObjectState × ArrayCache) (i : ℕ) :
    Option (ObjectState × ArrayCache) :=
  if s.1.isByteKnownSymbolic i then do
    let (byte, os, cache) ← s.1.read8 s.2 i
    match solver.getValue constraints byte with
    | none => some (os, cache)
    | some ce => do
        let concreteStore ← ConstantExpr.toMemory ce os.concreteStore i
        some ({ os with concreteStore := concreteStore }, cache)
  else some s

def flushToConcreteStore (solver : TimingSolver) (constraints : List Expr) (os : ObjectState) (cache : ArrayCache) :
    Option (ObjectState × ArrayCache) :=
  (List.range os.size).foldlM (flushByteToConcreteStore solver constraints) (os, cache)

end ObjectState

end Klee
