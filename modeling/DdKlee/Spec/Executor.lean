import DdKlee.Lib.Store
import DdKlee.Spec.ExecutionState
import DdKlee.Spec.TimingSolver

/-! The states of the interpreter, and how it forks, constrains and terminates them.
There are no seeds, no replayed paths and no limits on forks or depth, and implied
values are not concretised. A failed assertion and a fatal error are `none`. -/

namespace Klee

open Expr

inductive TerminateReason
  | ptr
  | readOnly
deriving DecidableEq, Repr

/-- How a path ended, with the message for the user. -/
inductive Termination
  | early (message : String)
  | onError (message : String) (reason : TerminateReason)
deriving DecidableEq, Repr

/-- The states are those of the store, by their numbers. A state that was forked or
terminated is added to or removed from `states` when the instruction is done. The
paths that ended are kept with the states they ended in. -/
structure Executor where
  heap : Heap
  arrayCache : ArrayCache
  store : Store ExecutionState
  states : List ℕ
  addedStates : List ℕ
  removedStates : List ℕ
  processTree : PTree
  terminated : List (ExecutionState × Termination)

namespace Executor

variable (ex : Executor)

def terminateState (i : ℕ) : Option Executor := do
  let state ← ex.store.get i
  if i ∈ ex.addedStates then do
    -- never reached searcher, just delete immediately
    let processTree ← ex.processTree.remove state.ptreeNode
    some { ex with addedStates := ex.addedStates.erase i, processTree, store := ex.store.free i }
  else
    some { ex with
      store := ex.store.set i { state with pc := state.prevPC }
      removedStates := ex.removedStates ++ [i] }

/-- `terminateStateEarly` and `terminateStateOnError`. -/
def terminateStateWith (i : ℕ) (termination : Termination) : Option Executor := do
  let state ← ex.store.get i
  let ex ← ex.terminateState i
  some { ex with terminated := ex.terminated ++ [(state, termination)] }

/-- A copy of a state: it is added, and the two share the node that the state had. -/
def addBranch (es : ℕ) : Option (ℕ × Executor) := do
  let state ← ex.store.get es
  let node := state.ptreeNode
  let (state, copy) := state.branch
  let (ns, store) :=
    (ex.store.set es { state with ptreeNode := node ++ [true] }).alloc { copy with ptreeNode := node ++ [false] }
  let processTree ← ex.processTree.attach ns es node
  some (ns, { ex with store, addedStates := ex.addedStates ++ [ns], processTree })

def addConstraint (opts : ConstraintOptions) (i : ℕ) : Expr → Option Executor
  | constant c => if ConstantExpr.isTrue c then some ex else none -- attempt to add invalid constraint
  | condition => do
      let state ← ex.store.get i
      let state ← state.addConstraint opts condition
      some { ex with store := ex.store.set i state }

/-- The states for the two sides of a condition. -/
def fork (ts : TimingSolver) (current : ℕ) (condition : Expr) :
    Option ((Option ℕ × Option ℕ) × Executor) := do
  let state ← ex.store.get current
  match ts.evaluate state.constraints condition with
  | none =>
      let ex := { ex with store := ex.store.set current { state with pc := state.prevPC } }
      let ex ← ex.terminateStateWith current (.early "Query timed out (fork).")
      some ((none, none), ex)
  | some .true => some ((some current, none), ex)
  | some .false => some ((none, some current), ex)
  | some .unknown => do
      let (falseState, ex) ← ex.addBranch current
      let ex ← ex.addConstraint ts.opts current condition
      let ex ← ex.addConstraint ts.opts falseState (createIsZero condition)
      some ((some current, some falseState), ex)

/-- `n` rounds of the loop of `branch`. Each forks one of the states so far, picked by
the number drawn for the round. -/
def branchStates (getInt32 : ℕ → ℕ) (i : ℕ) : ℕ → Option (List ℕ × Executor)
  | 0 => some ([i], ex)
  | n + 1 => do
      let (result, ex) ← branchStates getInt32 i n
      let es ← result[getInt32 (n + 1) % (n + 1)]?
      let (ns, ex) ← ex.addBranch es
      some (result ++ [ns], ex)

/-- One state for each of the conditions. -/
def branch (opts : ConstraintOptions) (getInt32 : ℕ → ℕ) (i : ℕ) (conditions : List Expr) :
    Option (List ℕ × Executor) :=
  if conditions = [] then none
  else do
    let (result, ex) ← ex.branchStates getInt32 i (conditions.length - 1)
    let ex ← (result.zip conditions).foldlM (fun ex p => ex.addConstraint opts p.1 p.2) ex
    some (result, ex)

end Executor

end Klee
