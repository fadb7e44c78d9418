import DdKlee.Spec.Executor
import DdKlee.Spec.Resolve

/-! `executeMemoryOperation`: the loads and stores of the program under test. Arrays are
not optimised, their size is not limited, and read values are not made symbolic. -/

namespace Klee

open Expr

/-- A read into a register of a value of some type, or a write. -/
inductive MemoryAccess
  | read (dest type : ℕ)
  | write (value : Expr)

def MemoryAccess.type : MemoryAccess → ℕ
  | read _ type => type
  | write value => value.getWidth

def getMinBytesForWidth (w : ℕ) : ℕ := (w + 7) / 8

structure ExecutorOptions where
  ctx : Context
  solver : TimingSolver
  simplifySymIndices : Bool := false

/-- The fuel is enough for every expression. -/
def ExecutionState.simplifyExpr (state : ExecutionState) (opts : ConstraintOptions) (e : Expr) : Option Expr :=
  (ConstraintManager.simplifyExpr opts (e.weight + 1) state.constraints e).toOption

namespace Executor

variable (ex : Executor) (opts : ExecutorOptions)

def toConstant (i : ℕ) (e : Expr) : Option (APInt × Executor) := do
  let state ← ex.store.get i
  match ← state.simplifyExpr opts.solver.opts e with
  | constant c => some (c, ex)
  | e => do
      let value ← opts.solver.getValue state.constraints e
      let ex ← ex.addConstraint opts.solver.opts i (EqExpr.create e (constant value))
      some (value, ex)

/-- The access to an object that contains it. The object state is one that was bound
before the state was forked. -/
def accessObject (i : ℕ) (op : ObjectPair) (address : Expr) : MemoryAccess → Option Executor
  | .write value => do
      let os ← ex.heap[op.2]?
      if os.readOnly then
        ex.terminateStateWith i (.onError "memory error: object read only" .readOnly)
      else do
        let state ← ex.store.get i
        let (wos, heap, addressSpace) ← state.addressSpace.getWriteable ex.heap op.1 op.2
        let os ← heap[wos]?
        let os ← os.write opts.ctx (op.1.getOffsetExpr opts.ctx address) value
        some { ex with heap := heap.set wos os, store := ex.store.set i { state with addressSpace } }
  | .read dest type => do
      let os ← ex.heap[op.2]?
      let (result, os, arrayCache) ← os.read opts.ctx ex.arrayCache (op.1.getOffsetExpr opts.ctx address) type
      let state ← ex.store.get i
      let state ← state.bindLocal dest (← result)
      some { ex with heap := ex.heap.set op.2 os, arrayCache, store := ex.store.set i state }

/-- The loop over the objects that were found, each with a fork of the state that is
left unbound, and the end of that state. -/
def accessObjects (incomplete : Bool) (access : MemoryAccess) (address : Expr) :
    List ObjectPair → ℕ → Executor → Option Executor
  | [], unbound, ex =>
      ex.terminateStateWith unbound
        (if incomplete then .early "Query timed out (resolve)."
        else .onError "memory error: out of bound pointer" .ptr)
  | op :: rl, unbound, ex => do
      let inBounds := op.1.getBoundsCheckPointerBytes opts.ctx address (getMinBytesForWidth access.type)
      let ((bound, unbound), ex) ← ex.fork opts.solver unbound inBounds
      -- bound can be 0 on failure or overlapped
      let ex ← match bound with
        | some bound => ex.accessObject opts bound op address access
        | none => some ex
      match unbound with
      | some unbound => accessObjects incomplete access address rl unbound ex
      | none => some ex

/-- No object, multiple objects, or one with the access out of bounds. -/
def accessSlow (timedOut : MemoryObject → Bool) (i : ℕ) (access : MemoryAccess) (address : Expr) :
    Option Executor := do
  let state ← ex.store.get i
  let (incomplete, rl) :=
    state.addressSpace.resolve opts.ctx opts.solver state.constraints timedOut 0 address
  accessObjects opts incomplete access address rl i ex

/-- The access once its operands are simplified. -/
def accessMemory (timedOut : MemoryObject → Bool) (i : ℕ) (access : MemoryAccess) (address : Expr) :
    Option Executor := do
  let state ← ex.store.get i
  -- fast path: single in-bounds resolution
  let (op, address, ex) ←
    match state.addressSpace.resolveOne opts.ctx opts.solver state.constraints address with
    | some op => some (op, address, ex)
    | none => do
        let (c, ex) ← ex.toConstant opts i address
        some (state.addressSpace.resolveOneConstant c, constant c, ex)
  match op with
  | none => ex.accessSlow opts timedOut i access address
  | some op => do
      let state ← ex.store.get i
      let check := op.1.getBoundsCheckPointerBytes opts.ctx address (getMinBytesForWidth access.type)
      match opts.solver.mustBeTrue state.constraints check with
      | none =>
          let ex := { ex with store := ex.store.set i { state with pc := state.prevPC } }
          ex.terminateStateWith i (.early "Query timed out (bounds check).")
      | some true => ex.accessObject opts i op address access
      | some false => ex.accessSlow opts timedOut i access address

def executeMemoryOperation (timedOut : MemoryObject → Bool) (i : ℕ) (access : MemoryAccess) (address : Expr) :
    Option Executor := do
  let state ← ex.store.get i
  if opts.simplifySymIndices then do
    let address ← state.simplifyExpr opts.solver.opts address
    match access with
    | .write value =>
        ex.accessMemory opts timedOut i (.write (← state.simplifyExpr opts.solver.opts value)) address
    | .read dest type => ex.accessMemory opts timedOut i (.read dest type) address
  else ex.accessMemory opts timedOut i access address

end Executor

end Klee
