import DdKlee.Spec.Executor
import DdKlee.Spec.TreeStream

/-! The paths that the interpreter records: for each state a stream with the outcomes of
its forks. -/

namespace Klee

open Expr

/-- What is done to states. The flag of a fork tells that it is internal, and the bit that
forking is inhibited: then it is drawn which side is taken. Other changes of a state, its end
and its deletion record nothing. -/
inductive PathOp
  | fork (current : ℕ) (condition : Expr) (isInternal : Bool) (inhibited : Option Bool)
  | branch (state : ℕ) (conditions : List Expr) (getInt32 : ℕ → ℕ)
  | change (state : ℕ) (new : ExecutionState)
  | terminate (state : ℕ) (termination : Termination)
  | delete (state : ℕ)

/-- The pair of states that a fork returns, or those of a branch. -/
inductive PathResult
  | pair (trueState falseState : Option ℕ)
  | states (result : List ℕ)
  | none

namespace Executor

variable (ex : Executor) (ts : TimingSolver)

/-- `fork`, where forking may be inhibited. -/
def forkUnless (current : ℕ) (condition : Expr) : Option Bool → Option ((Option ℕ × Option ℕ) × Executor)
  | .none => ex.fork ts current condition
  | some taken => do
      let state ← ex.store.get current
      match ts.evaluate state.constraints condition with
      | some .unknown =>
          if taken then do
            let ex ← ex.addConstraint ts.opts current condition
            some ((some current, .none), ex)
          else do
            let ex ← ex.addConstraint ts.opts current (createIsZero condition)
            some ((.none, some current), ex)
      | _ => ex.fork ts current condition

def pathStep : PathOp → Option (PathResult × Executor)
  | .fork current condition _ inhibited => do
      let ((trueState, falseState), ex) ← ex.forkUnless ts current condition inhibited
      some (.pair trueState falseState, ex)
  | .branch state conditions getInt32 => do
      let (result, ex) ← ex.branch ts.opts getInt32 state conditions
      some (.states result, ex)
  | .change i new => do
      let old ← ex.store.get i
      some (.none, { ex with store := ex.store.set i { new with ptreeNode := old.ptreeNode } })
  | .terminate i termination => do
      let ex ← ex.terminateStateWith i termination
      some (.none, ex)
  | .delete i => some (.none, { ex with store := ex.store.free i })

end Executor

/-- The stream `pathOS` of each state. -/
structure PathExecutor where
  executor : Executor
  pathWriter : TreeStreamWriter
  pathOS : ℕ → ℕ

namespace PathExecutor

variable (p : PathExecutor)

/-- The first state gets a stream that is a copy of none. -/
def start (ex : Executor) (state : ℕ) : PathExecutor :=
  let (id, w) := ({} : TreeStreamWriter).openStream 0
  ⟨ex, w, Function.update (fun _ => 0) state id⟩

def outcome (taken : Bool) : List (BitVec 8) := [if taken then 0x31 else 0x30]

def writePath (i : ℕ) (taken : Bool) : Option PathExecutor := do
  let w ← p.pathWriter.write (p.pathOS i) (outcome taken)
  some { p with pathWriter := w }

/-- What `fork` and `branch` do with the streams. A state that `branch` makes is a copy, with
the stream of the state it was made from, which is that of the first. -/
def record : PathOp → PathResult → Option PathExecutor
  | .fork _ _ isInternal _, .pair (some trueState) .none =>
      if isInternal then some p else p.writePath trueState true
  | .fork _ _ isInternal _, .pair .none (some falseState) =>
      if isInternal then some p else p.writePath falseState false
  | .fork _ _ isInternal _, .pair (some trueState) (some falseState) =>
      let (id, w) := p.pathWriter.openStream (p.pathOS trueState)
      let p := { p with pathWriter := w, pathOS := Function.update p.pathOS falseState id }
      if isInternal then some p
      else do
        let p ← p.writePath trueState true
        p.writePath falseState false
  | .branch state _ _, .states result =>
      some { p with pathOS := fun i => if i ∈ result then p.pathOS state else p.pathOS i }
  | _, _ => some p

def step (ts : TimingSolver) (op : PathOp) : Option (PathResult × PathExecutor) := do
  let (result, ex) ← p.executor.pathStep ts op
  let p ← { p with executor := ex }.record op result
  some (result, p)

end PathExecutor

/-- The outcomes of the forks, internal ones aside, on the way to each state. -/
abbrev Paths := ℕ → List (BitVec 8)

def Paths.after (paths : Paths) : PathOp → PathResult → Paths
  | .fork _ _ isInternal _, .pair (some trueState) .none =>
      if isInternal then paths
      else Function.update paths trueState (paths trueState ++ PathExecutor.outcome true)
  | .fork _ _ isInternal _, .pair .none (some falseState) =>
      if isInternal then paths
      else Function.update paths falseState (paths falseState ++ PathExecutor.outcome false)
  | .fork _ _ isInternal _, .pair (some trueState) (some falseState) =>
      if isInternal then Function.update paths falseState (paths trueState)
      else Function.update
        (Function.update paths falseState (paths trueState ++ PathExecutor.outcome false))
        trueState (paths trueState ++ PathExecutor.outcome true)
  | .branch state _ _, .states result => fun i => if i ∈ result then paths state else paths i
  | _, _ => paths

/-- A run, with the paths as they are after it. -/
def PathExecutor.run (ts : TimingSolver) : PathExecutor → Paths → List PathOp → Option (PathExecutor × Paths)
  | p, paths, [] => some (p, paths)
  | p, paths, op :: ops => do
      let (r, p) ← p.step ts op
      run ts p (paths.after op r) ops

end Klee
