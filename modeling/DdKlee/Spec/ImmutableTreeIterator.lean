import DdKlee.Lib.TreePosition
import DdKlee.Spec.ImmutableTree

/-! The iterators of `ImmutableTree`. An iterator has a reference to the root of its tree, and
the nodes on the path to its element on a stack with room for the height of the tree; the stack
is empty at the end. A program fails when it pushes a node without room for it, or takes one
from an empty stack. -/

namespace Klee

/-- The class `FixedStack`, with the element at its back first. -/
structure FixedStack (T : Type) where
  max : ℕ
  elts : List T := []
deriving DecidableEq

namespace FixedStack

variable {T : Type} (stack : FixedStack T)

def pushBack (elt : T) : Option (FixedStack T) :=
  if stack.elts.length < stack.max then some { stack with elts := elt :: stack.elts } else none

def back : Option T := stack.elts.head?

end FixedStack

namespace ImmutableTree

variable {V : Type}

def Node.getChild : Side → Ref → Prog (Memory V) Ref
  | .left => getLeft
  | .right => getRight

structure Iterator where
  root : Ref
  stack : FixedStack Ref

namespace Iterator

/-- The loops that push a node and the nodes on one side below it. -/
def pushSpine (side : Side) : ℕ → Ref → FixedStack Ref → Prog (Memory V) (FixedStack Ref)
  | _, none, stack => pure stack
  | 0, some _, _ => failure
  | fuel + 1, some i, stack => do
      let stack ← (stack.pushBack (some i) : Option (FixedStack Ref))
      let n ← Node.getChild side (some i)
      pushSpine side fuel n stack

def new (root : Ref) (atBeginning : Bool) : Prog (Memory V) Iterator := do
  let root ← Node.incref root
  let max ← Node.getHeight root
  let stack : FixedStack Ref := { max }
  let stack ← if atBeginning then pushSpine .left max root stack else pure stack
  pure { root, stack }

def destroy (it : Iterator) : Prog (Memory V) Unit := Node.decref it.root

/-- `operator==`. -/
def eq (a b : Iterator) : Bool := a.stack.elts = b.stack.elts

/-- `operator*`. -/
def deref (it : Iterator) : Prog (Memory V) V := do
  let n ← (it.stack.back : Option Ref)
  Node.getValue n

/-- The loop that goes up from the node `prev`, which is popped already, until it comes from
the other side. -/
def popUp (side : Side) (prev : Ref) : List Ref → Prog (Memory V) (List Ref)
  | [] => pure []
  | n :: rest => do
      if prev = (← Node.getChild side.other n) then pure (n :: rest) else popUp side n rest

/-- The body of `operator++` for the right side, and of `operator--` for the left one. -/
def advance (side : Side) (it : Iterator) : Prog (Memory V) Iterator :=
  match it.stack.elts with
  | [] => failure
  | n :: rest => do
      let child ← Node.getChild side n
      if child = none then do
        let elts ← popUp side n rest
        pure { it with stack := { it.stack with elts } }
      else do
        let stack ← (it.stack.pushBack child : Option (FixedStack Ref))
        let n ← Node.getChild side.other child
        let stack ← pushSpine side.other (← Node.getHeight n) n stack
        pure { it with stack }

/-- `operator++`. -/
def increment (it : Iterator) : Prog (Memory V) Iterator := it.advance .right

/-- `operator--`, which backs up from the end. -/
def decrement (it : Iterator) : Prog (Memory V) Iterator :=
  if it.stack.elts = [] then do
    let stack ← pushSpine .right (← Node.getHeight it.root) it.root it.stack
    pure { it with stack }
  else it.advance .left

end Iterator

def begin (node : Ref) : Prog (Memory V) Iterator := Iterator.new node true

/-- `end`. -/
def atEnd (node : Ref) : Prog (Memory V) Iterator := Iterator.new node false

section

variable {K : Type} (lt : K → K → Prop) [DecidableRel lt] (keyOfValue : V → K) (node : Ref) (k : K)

/-- The loop of `lower_bound`. It says whether it returned with an element with the key. -/
def lowerBoundFrom : ℕ → Ref → FixedStack Ref → Prog (Memory V) (Bool × FixedStack Ref)
  | _, none, stack => pure (false, stack)
  | 0, some _, _ => failure
  | fuel + 1, some i, stack => do
      let stack ← (stack.pushBack (some i) : Option (FixedStack Ref))
      let n ← Node.get i
      if lt k (keyOfValue n.value) then lowerBoundFrom fuel n.left stack
      else if lt (keyOfValue n.value) k then lowerBoundFrom fuel n.right stack
      else pure (true, stack)

/-- The end of `lower_bound`: the iterator is at the beginning or at the last element that is
less. -/
def lowerBoundRepair (it : Iterator) : Prog (Memory V) Iterator :=
  match it.stack.back with
  | none => pure it
  | some last => do
      if lt (keyOfValue (← Node.getValue last)) k then it.increment else pure it

def lowerBound : Prog (Memory V) Iterator := do
  let it ← Iterator.new node false
  let (found, stack) ← lowerBoundFrom lt keyOfValue k (← Node.getHeight node) node it.stack
  if found then pure { it with stack } else lowerBoundRepair lt keyOfValue k { it with stack }

/-- Whether the iterator is at the end, or past the key. -/
def isPast (fin it : Iterator) : Prog (Memory V) Bool :=
  if it.eq fin then pure true
  else do
    let value ← it.deref
    pure (decide (lt k (keyOfValue value)))

/-- The iterator that is not returned is destroyed. -/
def find : Prog (Memory V) Iterator := do
  let fin ← Iterator.new node false
  let it ← lowerBound lt keyOfValue node k
  if ← isPast lt keyOfValue k fin it then do
    it.destroy
    pure fin
  else do
    fin.destroy
    pure it

def upperBound : Prog (Memory V) Iterator := do
  let fin ← Iterator.new node false
  let it ← lowerBound lt keyOfValue node k
  let past ← isPast lt keyOfValue k fin it
  -- no need to loop, no duplicates
  let it ← if past then pure it else it.increment
  fin.destroy
  pure it

end

end ImmutableTree

end Klee
