import DdKlee.Lib.LinkedTree
import DdKlee.Lib.Prog

/-! `PTree` as it is in memory, and the walk of `RandomPathSearcher` over it. States are
numbers. A program fails when it follows a null pointer or one to a node that was deleted, and
when an assertion fails. -/

namespace Klee.ProcessTree

/-- The data of a `PTreeNode` is its state. -/
abbrev PTreeNode := LinkedNode (Option ℕ)

/-- The nodes, and the field `ptreeNode` of the states. -/
structure Memory extends LinkedTree (Option ℕ) where
  ptreeNode : ℕ → Option ℕ := fun _ => none

def get (i : ℕ) : Prog Memory PTreeNode := fun mem => (mem.nodes.get i).map (·, mem)

def modify (i : ℕ) (f : PTreeNode → PTreeNode) : Prog Memory Unit := fun mem =>
  if (mem.nodes.get i).isSome then some ((), { mem with nodes := mem.nodes.modify i f }) else none

/-- `delete`, by the destructor of the pointer that owns the node. -/
def delete (i : ℕ) : Prog Memory Unit := fun mem =>
  if (mem.nodes.get i).isSome then some ((), { mem with nodes := mem.nodes.free i }) else none

def deref : Option ℕ → Prog Memory ℕ
  | none => failure
  | some i => pure i

def assert (c : Bool) : Prog Memory Unit := if c then pure () else failure

/-- As many nodes as there ever were, which bounds every loop. -/
def bound : Prog Memory ℕ := fun mem => some (mem.nodes.cells.length, mem)

def isLeaf (n : PTreeNode) : Bool := n.left.isNone && n.right.isNone

/-- `make_unique`, with the constructor of a node. -/
def newNode (parent : Option ℕ) (state : ℕ) : Prog Memory ℕ := fun mem =>
  let (i, nodes) := mem.nodes.alloc ⟨parent, none, none, some state⟩
  some (i, { mem with nodes, ptreeNode := Function.update mem.ptreeNode state (some i) })

def new (initialState : ℕ) : Prog Memory Unit := do
  let i ← newNode none initialState
  fun mem => some ((), { mem with root := some i })

def setChild (i : ℕ) (d : Side) (p : Option ℕ) : Prog Memory Unit := modify i fun n => n.setChild p d

def attachChild (node state : ℕ) (d : Side) : Prog Memory Unit := do
  let i ← newNode (some node) state
  setChild node d (some i)

def attach (node : Option ℕ) (leftState rightState : ℕ) : Prog Memory Unit := do
  let node ← deref node
  let n ← get node
  assert (isLeaf n)
  modify node fun n => { n with data := none }
  attachChild node leftState .left
  attachChild node rightState .right

/-- The pointer to a node in its parent becomes null. -/
def resetChild (n p : ℕ) (d : Side) : Prog Memory Unit := do
  setChild p d none
  delete n

def cutChild (n p : ℕ) : Prog Memory Unit := do
  let parent ← get p
  if some n = parent.left then
    resetChild n p .left
  else do
    assert (some n = parent.right)
    resetChild n p .right

def removeFrom : ℕ → ℕ → Prog Memory Unit
  | 0, _ => failure
  | fuel + 1, n => do
      let node ← get n
      match node.parent with
      | none => pure ()
      | some p => do
          cutChild n p
          let parent ← get p
          if isLeaf parent then removeFrom fuel p else pure ()

def remove (n : Option ℕ) : Prog Memory Unit := do
  let n ← deref n
  let node ← get n
  assert (isLeaf node)
  removeFrom (← bound) n

/-- The local variables, and how many words were taken from the generator. -/
structure Flips where
  flips : BitVec 32 := 0
  bits : ℕ := 0
  used : ℕ := 0

variable (getInt32 : ℕ → BitVec 32)

def Flips.refill (r : Flips) : Flips :=
  if r.bits = 0 then { flips := getInt32 r.used, bits := 32, used := r.used + 1 } else r

/-- The next bit, which leads to the left. -/
def Flips.next (r : Flips) : Bool × Flips :=
  let r := r.refill getInt32
  (r.flips.getLsbD (r.bits - 1), { r with bits := r.bits - 1 })

variable (mem : Memory)

def selectFrom : ℕ → Flips → Option ℕ → Option ℕ
  | 0, _, _ => none
  | _, _, none => none -- a null pointer
  | fuel + 1, r, some i => do
      let n ← mem.nodes.get i
      match n.data, n.left, n.right with
      | some state, _, _ => some state
      | none, none, right => selectFrom fuel r right
      | none, left, none => selectFrom fuel r left
      | none, left, right =>
          let (flip, r) := r.next getInt32
          selectFrom fuel r (if flip then left else right)

def selectState : Option ℕ := selectFrom getInt32 mem mem.nodes.cells.length {} mem.root

/-- A state forks, with the side of the new state, or ends. -/
inductive Op
  | attach (state fresh : ℕ) (side : Side)
  | remove (state : ℕ)
deriving DecidableEq, Repr

namespace Op

/-- A state that forks or ends is live, a new one is not, and the last one stays. -/
def Allowed (live : Finset ℕ) : Op → Prop
  | attach state fresh _ => state ∈ live ∧ fresh ∉ live
  | remove state => state ∈ live ∧ live ≠ {state}

instance (live : Finset ℕ) : (op : Op) → Decidable (op.Allowed live)
  | attach _ _ _ => inferInstanceAs (Decidable (_ ∧ _))
  | remove _ => inferInstanceAs (Decidable (_ ∧ _))

/-- The live states after a call. -/
def live (live : Finset ℕ) : Op → Finset ℕ
  | attach _ fresh _ => insert fresh live
  | remove state => live.erase state

end Op

def ptreeNodeOf (state : ℕ) : Prog Memory (Option ℕ) := fun mem => some (mem.ptreeNode state, mem)

def step : Op → Prog Memory Unit
  | .attach state fresh .left => do attach (← ptreeNodeOf state) fresh state
  | .attach state fresh .right => do attach (← ptreeNodeOf state) state fresh
  | .remove state => do remove (← ptreeNodeOf state)

def steps : List Op → Prog Memory Unit
  | [] => pure ()
  | op :: ops => do
      step op
      steps ops

def AllAllowed : Finset ℕ → List Op → Prop
  | _, [] => True
  | live, op :: ops => op.Allowed live ∧ AllAllowed (op.live live) ops

def run (initialState : ℕ) (ops : List Op) : Prog Memory Unit := do
  new initialState
  steps ops

end Klee.ProcessTree
