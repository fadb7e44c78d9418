import DdKlee.Spec.MainLoop

/-! The exploration of paths: what is done to states, and the update of the set of states that
follows each instruction. -/

namespace Klee

/-- A change of a state leaves it at its node. -/
inductive ExploreOp
  | fork (current : ℕ) (condition : Expr)
  | change (state : ℕ) (new : ExecutionState)
  | terminate (state : ℕ) (termination : Termination)
  | update

namespace Executor

/-- `updateStates`, the searcher aside. -/
def updateStates (ex : Executor) : Option Executor := do
  let ex := { ex with states := ex.states ∪ ex.addedStates, addedStates := [] }
  let ex ← ex.removedStates.foldlM removeState ex
  some { ex with removedStates := [] }

def explore (ts : TimingSolver) (ex : Executor) : ExploreOp → Option Executor
  | .fork current condition => do
      let (_, ex) ← ex.fork ts current condition
      some ex
  | .change i new => do
      let old ← ex.store.get i
      some { ex with store := ex.store.set i { new with ptreeNode := old.ptreeNode } }
  | .terminate i termination => ex.terminateStateWith i termination
  | .update => ex.updateStates

end Executor

end Klee
