import DdKlee.Lib.EntryMap
import DdKlee.Lib.Prog
import DdKlee.Lib.Store

/-! `ImmutableTree`: a map from keys to values that is a balanced tree of nodes with
reference counts, so that maps share what they have in common. A program fails when it reads
a node that was deleted, or the value of the terminator, or when it deletes the terminator.
Arguments of a call are evaluated from left to right. -/

namespace Klee

namespace ImmutableTree

/-- A `Node *`; `none` is the terminator. -/
abbrev Ref := Option ℕ

structure Node (V : Type) where
  left : Ref
  right : Ref
  value : V
  height : ℕ
  references : ℕ

/-- The nodes, and the references of the terminator, which is both of its children. -/
structure Memory (V : Type) where
  nodes : Store (Node V) := {}
  terminator : ℕ := 3

variable {V : Type}

namespace Node

def get (i : ℕ) : Prog (Memory V) (Node V) := fun mem => (mem.nodes.get i).map (·, mem)

def set (i : ℕ) (n : Node V) : Prog (Memory V) Unit := fun mem => some ((), { mem with nodes := mem.nodes.set i n })

def getHeight : Ref → Prog (Memory V) ℕ
  | none => pure 0
  | some i => do
      let n ← get i
      pure n.height

def getLeft : Ref → Prog (Memory V) Ref
  | none => pure none
  | some i => do
      let n ← get i
      pure n.left

def getRight : Ref → Prog (Memory V) Ref
  | none => pure none
  | some i => do
      let n ← get i
      pure n.right

def getValue : Ref → Prog (Memory V) V
  | none => failure
  | some i => do
      let n ← get i
      pure n.value

def new (left right : Ref) (value : V) : Prog (Memory V) Ref := do
  let leftHeight ← getHeight left
  let rightHeight ← getHeight right
  let n := { left, right, value, height := max leftHeight rightHeight + 1, references := 1 }
  fun mem =>
    let (i, nodes) := mem.nodes.alloc n
    some (some i, { mem with nodes })

def incref : Ref → Prog (Memory V) Ref
  | none => fun mem => some (none, { mem with terminator := mem.terminator + 1 })
  | some i => do
      let n ← get i
      set i { n with references := n.references + 1 }
      pure (some i)

/-- `decref`, with the destructor. The storage of a node that is deleted is given back
before its children are told, which they do not notice. -/
def decrefFrom : ℕ → Ref → Prog (Memory V) Unit
  | _, none => fun mem =>
      if mem.terminator ≤ 1 then none else some ((), { mem with terminator := mem.terminator - 1 })
  | fuel, some i => do
      let n ← get i
      if n.references = 1 then
        match fuel with
        | 0 => failure
        | fuel + 1 => do
            fun mem => some ((), { mem with nodes := mem.nodes.free i })
            decrefFrom fuel n.left
            decrefFrom fuel n.right
      else set i { n with references := n.references - 1 }

/-- The height of a node bounds how far a recursion from it goes, here and below. -/
def decref (r : Ref) : Prog (Memory V) Unit := do
  let height ← getHeight r
  decrefFrom height r

def balance (left : Ref) (value : V) (right : Ref) : Prog (Memory V) Ref := do
  let leftHeight ← getHeight left
  let rightHeight ← getHeight right
  if rightHeight + 2 < leftHeight then do
    let ll ← getLeft left
    let lr ← getRight left
    if (← getHeight lr) ≤ (← getHeight ll) then do
      let nlr ← new (← incref lr) right value
      let res ← new (← incref ll) nlr (← getValue left)
      decref left
      pure res
    else do
      let lrl ← getLeft lr
      let lrr ← getRight lr
      let nll ← new (← incref ll) (← incref lrl) (← getValue left)
      let nlr ← new (← incref lrr) right value
      let res ← new nll nlr (← getValue lr)
      decref left
      pure res
  else if leftHeight + 2 < rightHeight then do
    let rl ← getLeft right
    let rr ← getRight right
    if (← getHeight rl) ≤ (← getHeight rr) then do
      let nrl ← new left (← incref rl) value
      let res ← new nrl (← incref rr) (← getValue right)
      decref right
      pure res
    else do
      let rll ← getLeft rl
      let rlr ← getRight rl
      let nrl ← new left (← incref rll) value
      let nrr ← new (← incref rlr) (← incref rr) (← getValue right)
      let res ← new nrl nrr (← getValue rl)
      decref right
      pure res
  else new left right value

def sizeFrom : ℕ → Ref → Prog (Memory V) ℕ
  | _, none => pure 0
  | 0, some _ => failure
  | fuel + 1, some i => do
      let n ← get i
      let left ← sizeFrom fuel n.left
      let right ← sizeFrom fuel n.right
      pure (left + 1 + right)

/-- `popMin` with `valueOut`. -/
def popMinFrom : ℕ → Ref → Prog (Memory V) (V × Ref)
  | fuel + 1, some i => do
      let n ← get i
      if n.left = none then do
        let right ← incref n.right
        pure (n.value, right)
      else do
        let (valueOut, left) ← popMinFrom fuel n.left
        let res ← balance left n.value (← incref n.right)
        pure (valueOut, res)
  | _, _ => failure

def popMaxFrom : ℕ → Ref → Prog (Memory V) (V × Ref)
  | fuel + 1, some i => do
      let n ← get i
      if n.right = none then do
        let left ← incref n.left
        pure (n.value, left)
      else do
        let left ← incref n.left
        let (valueOut, right) ← popMaxFrom fuel n.right
        let res ← balance left n.value right
        pure (valueOut, res)
  | _, _ => failure

variable {K : Type} (lt : K → K → Prop) [DecidableRel lt] (keyOfValue : V → K)

def insertFrom (v : V) : ℕ → Ref → Prog (Memory V) Ref
  | _, none => do new (← incref none) (← incref none) v
  | 0, some _ => failure
  | fuel + 1, some i => do
      let n ← get i
      if lt (keyOfValue v) (keyOfValue n.value) then do
        balance (← insertFrom v fuel n.left) n.value (← incref n.right)
      else if lt (keyOfValue n.value) (keyOfValue v) then do
        balance (← incref n.left) n.value (← insertFrom v fuel n.right)
      else incref (some i)

def replaceFrom (v : V) : ℕ → Ref → Prog (Memory V) Ref
  | _, none => do new (← incref none) (← incref none) v
  | 0, some _ => failure
  | fuel + 1, some i => do
      let n ← get i
      if lt (keyOfValue v) (keyOfValue n.value) then do
        balance (← replaceFrom v fuel n.left) n.value (← incref n.right)
      else if lt (keyOfValue n.value) (keyOfValue v) then do
        balance (← incref n.left) n.value (← replaceFrom v fuel n.right)
      else new (← incref n.left) (← incref n.right) v

def removeFrom (k : K) : ℕ → Ref → Prog (Memory V) Ref
  | _, none => incref none
  | 0, some _ => failure
  | fuel + 1, some i => do
      let n ← get i
      if lt k (keyOfValue n.value) then do
        balance (← removeFrom k fuel n.left) n.value (← incref n.right)
      else if lt (keyOfValue n.value) k then do
        balance (← incref n.left) n.value (← removeFrom k fuel n.right)
      else if n.left = none then incref n.right
      else if n.right = none then incref n.left
      else do
        let (min, nr) ← popMinFrom fuel n.right
        balance (← incref n.left) min nr

def lookupFrom (k : K) : ℕ → Ref → Prog (Memory V) (Option V)
  | _, none => pure none
  | 0, some _ => failure
  | fuel + 1, some i => do
      let n ← get i
      if lt k (keyOfValue n.value) then lookupFrom k fuel n.left
      else if lt (keyOfValue n.value) k then lookupFrom k fuel n.right
      else pure (some n.value)

def countFrom (k : K) : ℕ → Ref → Prog (Memory V) ℕ
  | _, none => pure 0
  | 0, some _ => failure
  | fuel + 1, some i => do
      let n ← get i
      if lt k (keyOfValue n.value) then countFrom k fuel n.left
      else if lt (keyOfValue n.value) k then countFrom k fuel n.right
      else pure 1

/-- The loop of `lookup_previous`, with the value of `result`. -/
def lookupPreviousFrom (k : K) : ℕ → Ref → Option V → Prog (Memory V) (Option V)
  | _, none, result => pure result
  | 0, some _, _ => failure
  | fuel + 1, some i, result => do
      let n ← get i
      if lt k (keyOfValue n.value) then lookupPreviousFrom k fuel n.left result
      else if lt (keyOfValue n.value) k then lookupPreviousFrom k fuel n.right (some n.value)
      else pure (some n.value)

def minFrom : ℕ → Ref → Prog (Memory V) V
  | fuel + 1, some i => do
      let n ← get i
      if n.left = none then pure n.value else minFrom fuel n.left
  | _, _ => failure

def maxFrom : ℕ → Ref → Prog (Memory V) V
  | fuel + 1, some i => do
      let n ← get i
      if n.right = none then pure n.value else maxFrom fuel n.right
  | _, _ => failure

end Node

variable {K : Type} (lt : K → K → Prop) [DecidableRel lt] (keyOfValue : V → K) (node : Ref) (k : K) (v : V)

def size : Prog (Memory V) ℕ := do Node.sizeFrom (← Node.getHeight node) node

def count : Prog (Memory V) ℕ := do Node.countFrom lt keyOfValue k (← Node.getHeight node) node

def lookup : Prog (Memory V) (Option V) := do Node.lookupFrom lt keyOfValue k (← Node.getHeight node) node

def lookupPrevious : Prog (Memory V) (Option V) := do
  Node.lookupPreviousFrom lt keyOfValue k (← Node.getHeight node) node none

/-- The assertion is that the tree is not empty. -/
def min : Prog (Memory V) V := do Node.minFrom (← Node.getHeight node) node

def max : Prog (Memory V) V := do Node.maxFrom (← Node.getHeight node) node

def insert : Prog (Memory V) Ref := do Node.insertFrom lt keyOfValue v (← Node.getHeight node) node

def replace : Prog (Memory V) Ref := do Node.replaceFrom lt keyOfValue v (← Node.getHeight node) node

def remove : Prog (Memory V) Ref := do Node.removeFrom lt keyOfValue k (← Node.getHeight node) node

def popMin : Prog (Memory V) (V × Ref) := do Node.popMinFrom (← Node.getHeight node) node

def popMax : Prog (Memory V) (V × Ref) := do Node.popMaxFrom (← Node.getHeight node) node

end ImmutableTree

/-- What is done with trees, which are known by their numbers. The results are new trees. -/
inductive TreeOp (K V : Type)
  | create
  | copy (tree : ℕ)
  | assign (tree source : ℕ)
  | destroy (tree : ℕ)
  | insert (tree : ℕ) (value : V)
  | replace (tree : ℕ) (value : V)
  | remove (tree : ℕ) (key : K)
  | popMin (tree : ℕ)
  | popMax (tree : ℕ)

/-- The trees of a program, each with the pointer to its root. -/
structure Trees (V : Type) where
  memory : ImmutableTree.Memory V := {}
  trees : Store ImmutableTree.Ref := {}

namespace Trees

open ImmutableTree

variable {K V : Type} (lt : K → K → Prop) [DecidableRel lt] (keyOfValue : V → K) (s : Trees V)

/-- A new tree, made of the root that the program returns. -/
def construct (x : Prog (Memory V) Ref) : Option (Option V × Trees V) := do
  let (node, memory) ← x s.memory
  some (none, { memory, trees := (s.trees.alloc node).2 })

/-- A new tree, and the value taken out. -/
def constructPopped (x : Prog (Memory V) (V × Ref)) : Option (Option V × Trees V) := do
  let ((valueOut, node), memory) ← x s.memory
  some (some valueOut, { memory, trees := (s.trees.alloc node).2 })

def step : TreeOp K V → Option (Option V × Trees V)
  | .create => s.construct (Node.incref none)
  | .copy i => do
      let node ← s.trees.get i
      s.construct (Node.incref node)
  | .assign i j => do
      let node ← s.trees.get i
      let source ← s.trees.get j
      let (n, memory) ← Node.incref source s.memory
      let (_, memory) ← Node.decref node memory
      some (none, { memory, trees := s.trees.set i n })
  | .destroy i => do
      let node ← s.trees.get i
      let (_, memory) ← Node.decref node s.memory
      some (none, { memory, trees := s.trees.free i })
  | .insert i value => do
      let node ← s.trees.get i
      s.construct (ImmutableTree.insert lt keyOfValue node value)
  | .replace i value => do
      let node ← s.trees.get i
      s.construct (ImmutableTree.replace lt keyOfValue node value)
  | .remove i key => do
      let node ← s.trees.get i
      s.construct (ImmutableTree.remove lt keyOfValue node key)
  | .popMin i => do
      let node ← s.trees.get i
      s.constructPopped (ImmutableTree.popMin node)
  | .popMax i => do
      let node ← s.trees.get i
      s.constructPopped (ImmutableTree.popMax node)

end Trees

abbrev TreeMaps {K V : Type} (lt : K → K → Prop) (key : V → K) := Store (EntryMap lt key)

open Classical in
/-- What is done with the maps that trees stand for. A map is never changed by what is made
from it. -/
noncomputable def TreeMaps.step {K V : Type} {lt : K → K → Prop} {key : V → K} (maps : TreeMaps lt key) :
    TreeOp K V → Option (Option V × TreeMaps lt key)
  | .create => some (none, (maps.alloc .empty).2)
  | .copy i => do
      let m ← maps.get i
      some (none, (maps.alloc m).2)
  | .assign i j => do
      let _ ← maps.get i
      let m ← maps.get j
      some (none, maps.set i m)
  | .destroy i => do
      let _ ← maps.get i
      some (none, maps.free i)
  | .insert i value => do
      let m ← maps.get i
      some (none, (maps.alloc (m.insert value)).2)
  | .replace i value => do
      let m ← maps.get i
      some (none, (maps.alloc (m.replace value)).2)
  | .remove i k => do
      let m ← maps.get i
      some (none, (maps.alloc (m.remove k)).2)
  | .popMin i => do
      let m ← maps.get i
      if m.entries.Nonempty then some (m.min?, (maps.alloc m.popMin).2) else none
  | .popMax i => do
      let m ← maps.get i
      if m.entries.Nonempty then some (m.max?, (maps.alloc m.popMax).2) else none

end Klee
