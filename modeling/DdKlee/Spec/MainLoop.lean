import DdKlee.Spec.Executor
import DdKlee.Spec.Searcher

/-! The main loop of `run`: an instruction of the selected state, the check of the memory
usage, and the update of the states. There are no seeds and nothing is replayed. -/

namespace Klee

/-- What an instruction does to the states it has at hand: the one it was given, and those
it forked and did not terminate. They are known by their place in this list. -/
inductive InstructionOp
  | fork (k : ℕ)
  | change (k : ℕ) (state : ExecutionState)
  | terminate (k : ℕ) (termination : Termination)

/-- The figures for `checkMemoryUsage`: instructions run, and megabytes in use. -/
structure MemoryUsage where
  instructions : ℕ
  mbs : ℕ

namespace Executor

variable (ex : Executor)

/-- A change of a state leaves it at its node. -/
def applyOp (current : List ℕ) : InstructionOp → Option (List ℕ × Executor)
  | .fork k =>
      match current[k]? with
      | none => some (current, ex)
      | some es => do
          let (ns, ex) ← ex.addBranch es
          some (current ++ [ns], ex)
  | .change k state =>
      match current[k]? with
      | none => some (current, ex)
      | some es => do
          let old ← ex.store.get es
          some (current, { ex with store := ex.store.set es { state with ptreeNode := old.ptreeNode } })
  | .terminate k termination =>
      match current[k]? with
      | none => some (current, ex)
      | some es => do
          let ex ← ex.terminateStateWith es termination
          some (current.eraseIdx k, ex)

def executeInstruction (es : ℕ) (ops : List InstructionOp) : Option Executor := do
  let (_, ex) ← ops.foldlM (fun (current, ex) op => ex.applyOp current op) ([es], ex)
  some ex

/-- The loop that kills states. The states that are left are those of `arr`, and `calls`
counts the random numbers that were drawn. -/
def killStates (rand : ℕ → ℕ) : ℕ → List ℕ → ℕ → Executor → Option Executor
  | 0, _, _, ex => some ex
  | _ + 1, [], _, ex => some ex
  | toKill + 1, arr, calls, ex => do
      let es ← arr[rand calls % arr.length]?
      let state ← ex.store.get es
      -- make two pulls to try and not hit a state that covered new code
      let idx := if state.coveredNew then rand (calls + 1) % arr.length else rand calls % arr.length
      let calls := if state.coveredNew then calls + 2 else calls + 1
      let es ← arr[idx]?
      let last ← arr.getLast?
      let ex ← ex.terminateStateWith es (.early "Memory limit exceeded.")
      killStates rand toKill (arr.set idx last).dropLast calls ex

/-- `states` is a set, and so `arr` has its elements in some order. -/
def checkMemoryUsage (maxMemory : ℕ) (usage : MemoryUsage) (rand : ℕ → ℕ) : Option Executor :=
  if maxMemory = 0 then some ex
  else if usage.instructions &&& 0xFFFF = 0 ∧ maxMemory < usage.mbs ∧ (maxMemory + 100) % 2 ^ 32 < usage.mbs then
    -- just guess at how many to kill
    let numStates := ex.states.length
    let toKill := max 1 (numStates - numStates * maxMemory % 2 ^ 32 / usage.mbs)
    killStates rand toKill ex.states 0 ex
  else some ex

/-- The body of the loop of `updateStates`. -/
def removeState (es : ℕ) : Option Executor :=
  if es ∈ ex.states then do
    let state ← ex.store.get es
    let processTree ← ex.processTree.remove state.ptreeNode
    some { ex with states := ex.states.erase es, processTree, store := ex.store.free es }
  else none

end Executor

/-- The searcher belongs to the executor, and is of some class. -/
structure MainLoop (S : Type) where
  executor : Executor
  searcher : S

structure Iteration where
  select : SearchEnv
  instruction : List InstructionOp
  usage : MemoryUsage
  rand : ℕ → ℕ
  update : SearchEnv

/-- The environment in which the executor calls its searcher. -/
def Executor.env (ex : Executor) (env : SearchEnv) : SearchEnv :=
  { env with states := ex.states, processTree := ex.processTree }

namespace MainLoop

variable {S : Type} (c : Searcher S) (maxMemory : ℕ) (m : MainLoop S)

def updateStates (env : SearchEnv) (current : Option ℕ) : Option (MainLoop S) := do
  let ex := m.executor
  let searcher ← c.update (ex.env env) m.searcher current ex.addedStates ex.removedStates
  let ex := { ex with states := ex.states ∪ ex.addedStates, addedStates := [] }
  let ex ← ex.removedStates.foldlM Executor.removeState ex
  some ⟨{ ex with removedStates := [] }, searcher⟩

/-- The selected state and its instruction. -/
def execute (it : Iteration) : Option (ℕ × MainLoop S) := do
  let (current, searcher) ← c.selectState (m.executor.env it.select) m.searcher
  let ex ← m.executor.executeInstruction current it.instruction
  some (current, ⟨ex, searcher⟩)

def iterate (it : Iteration) : Option (MainLoop S) := do
  let (current, m) ← m.execute c it
  let ex ← m.executor.checkMemoryUsage maxMemory it.usage it.rand
  updateStates c ⟨ex, m.searcher⟩ it.update (some current)

def run : MainLoop S → List Iteration → Option (MainLoop S)
  | m, [] => some m
  | m, it :: its => if m.executor.states = [] then some m else (iterate c maxMemory m it).bind (run · its)

end MainLoop

end Klee
