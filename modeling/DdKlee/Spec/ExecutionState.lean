import DdKlee.Spec.AddressSpace
import DdKlee.Spec.Constraints
import DdKlee.Spec.PTree

/-! `ExecutionState`: a path under exploration, with its stack, its memory and its
path condition. Instructions are numbers. -/

namespace Klee

open Expr

structure KFunction where
  id : ℕ
  numRegisters : ℕ
deriving DecidableEq, Repr

/-- The cells of a frame are those below the number of registers; a cell without a
value is null. -/
structure StackFrame where
  caller : Option ℕ
  kf : KFunction
  locals : ℕ → Option Expr

/-- The last frame of the stack is the current one. -/
structure ExecutionState where
  pc : ℕ
  prevPC : ℕ
  stack : List StackFrame
  addressSpace : AddressSpace
  constraints : List Expr
  depth : ℕ
  coveredNew : Bool
  ptreeNode : PTree.Path
  symbolics : List (MemoryObject × Array)

namespace ExecutionState

variable (state : ExecutionState)

/-- The state after its fork, and the copy, whose copy constructor gave the address
space of the source a new epoch. -/
def branch : ExecutionState × ExecutionState :=
  let (source, copy) := state.addressSpace.copy
  let state := { state with depth := (state.depth + 1) % 2 ^ 32, addressSpace := source }
  (state, { state with addressSpace := copy, coveredNew := false })

/-- The path condition with one more constraint. The fuel is enough for every one that
can be added. -/
def addConstraint (opts : ConstraintOptions) (e : Expr) : Option ExecutionState := do
  let fuel := (state.constraints.map Expr.weight).sum + e.weight + 1
  let constraints ← (ConstraintManager.addConstraint opts fuel state.constraints e).toOption
  some { state with constraints }

/-- A value for a register of the current frame. -/
def bindLocal (dest : ℕ) (value : Expr) : Option ExecutionState := do
  let frame ← state.stack.getLast?
  if dest < frame.kf.numRegisters then
    let frame := { frame with locals := Function.update frame.locals dest (some value) }
    some { state with stack := state.stack.dropLast ++ [frame] }
  else none

end ExecutionState

end Klee
