import Mathlib

/-! `MapOfSets`: a map from sets to values, kept as a tree in which the elements
of a set, in their order, lead from the root to its value. -/

namespace Klee

mutual

/-- The class `Node`. The value is present where a set ends. -/
inductive MapOfSets.Node (K V : Type)
  | mk (value : Option V) (children : MapOfSets.Children K V)

/-- The `std::map` of children, in the order of the keys. -/
inductive MapOfSets.Children (K V : Type)
  | nil
  | cons (key : K) (child : MapOfSets.Node K V) (rest : MapOfSets.Children K V)

end

namespace MapOfSets

variable {K V : Type} [LinearOrder K]

def Node.empty : Node K V := .mk none .nil

def Children.find? (k : K) : Children K V → Option (Node K V)
  | .nil => none
  | .cons key child rest => if key = k then some child else rest.find? k

def Children.set (k : K) (n : Node K V) : Children K V → Children K V
  | .nil => .cons k n .nil
  | .cons key child rest =>
      if k < key then .cons k n (.cons key child rest)
      else if key = k then .cons k n rest
      else .cons key child (rest.set k n)

def Node.insert (value : V) : List K → Node K V → Node K V
  | [], .mk _ children => .mk (some value) children
  | element :: set, .mk v children =>
      .mk v (children.set element (((children.find? element).getD .empty).insert value set))

def Node.lookup : List K → Node K V → Option V
  | [], .mk value _ => value
  | element :: set, .mk _ children => (children.find? element).bind (Node.lookup set)

mutual

def Node.findSubset (p : V → Bool) : Node K V → List K → Option V
  | .mk value children, set =>
      if value.any p then value
      else if set = [] then none
      else children.findSubset p set

/-- The loop over the children and the set, which are both in order. -/
def Children.findSubset (p : V → Bool) : Children K V → List K → Option V
  | .nil, _ => none
  | .cons key child rest, set =>
      match set.dropWhile (· < key) with
      | [] => none
      | it :: set =>
          if it = key then
            match child.findSubset p set with
            | some res => some res
            | none => if set = [] then none else rest.findSubset p set
          else rest.findSubset p (it :: set)

end

mutual

def Node.findSuperset (p : V → Bool) : Node K V → List K → Option V
  | .mk value children, [] => if value.any p then value else children.findSuperset p []
  | .mk _ children, element :: set =>
      match children.findSuperset p (element :: set) with
      | some res => some res
      | none => children.findSupersetAt p element set

/-- The loop over all children. -/
def Children.findSuperset (p : V → Bool) : Children K V → List K → Option V
  | .nil, _ => none
  | .cons _ child rest, set =>
      match child.findSuperset p set with
      | some res => some res
      | none => rest.findSuperset p set

/-- The child of an element, found with `lower_bound`. -/
def Children.findSupersetAt (p : V → Bool) : Children K V → K → List K → Option V
  | .nil, _, _ => none
  | .cons key child rest, element, set =>
      if key < element then rest.findSupersetAt p element set
      else if key = element then child.findSuperset p set
      else none

end

def Node.value : Node K V → Option V
  | .mk value _ => value

def Node.children : Node K V → Children K V
  | .mk _ children => children

/-- The set that ends at a node, if any. -/
def Node.own (n : Node K V) (accum : Finset K) : List (Finset K × V) := n.value.toList.map fun value => (accum, value)

/-- The loop of `findSubsets` at a node. -/
def Children.findSubsets : List K → Children K V → Finset K → List (Finset K × V)
  | [], _, _ => []
  | elt :: set, children, accum =>
      (match children.find? elt with
        | none => []
        | some n => n.own (insert elt accum) ++ Children.findSubsets set n.children (insert elt accum)) ++
      Children.findSubsets set children accum

def Node.findSubsets (n : Node K V) (accum : Finset K) (set : List K) : List (Finset K × V) :=
  n.own accum ++ Children.findSubsets set n.children accum

mutual

def Node.findSupersets (accum : Finset K) : Node K V → List K → List (Finset K × V)
  | .mk value children, [] => (value.toList.map fun value => (accum, value)) ++ children.findSupersets accum []
  | .mk _ children, elt :: set => children.findSupersets accum (elt :: set)

/-- The loop over the children, which ends after the first element of the set. -/
def Children.findSupersets (accum : Finset K) : Children K V → List K → List (Finset K × V)
  | .nil, _ => []
  | .cons key child rest, [] =>
      child.findSupersets (insert key accum) [] ++ rest.findSupersets accum []
  | .cons key child rest, elt :: set =>
      if elt = key then child.findSupersets (insert key accum) set ++ rest.findSupersets accum (elt :: set)
      else if key < elt then child.findSupersets (insert key accum) (elt :: set) ++ rest.findSupersets accum (elt :: set)
      else []

end

/-- An iterator of a `std::map` that is not at its end: what it is at, and what follows. -/
structure Cursor (K V : Type) where
  key : K
  child : Node K V
  rest : Children K V

/-- The class `iterator`. The back of the stack comes first. -/
structure Iterator (K V : Type) where
  onEntry : Bool := false
  stack : List (Cursor K V) := []

/-- The first loop of `step`, which goes down to the next set. -/
def Node.enter : Node K V → List (Cursor K V) → Bool × List (Cursor K V)
  | .mk _ .nil, stack => (false, stack)
  | .mk _ (.cons key child rest), stack =>
      if child.value.isSome then (true, ⟨key, child, rest⟩ :: stack) else child.enter (⟨key, child, rest⟩ :: stack)

/-- The loop that goes down from the next child. Its assertion fails where nothing ends. -/
def Node.descend : Node K V → List (Cursor K V) → Option (List (Cursor K V))
  | .mk (some _) _, stack => some stack
  | .mk none .nil, _ => none
  | .mk none (.cons key child rest), stack => child.descend (⟨key, child, rest⟩ :: stack)

/-- The second loop of `step`, which goes up to a node with a next child. -/
def Iterator.leave : List (Cursor K V) → Option (Iterator K V)
  | [] => some {}
  | ⟨_, _, .nil⟩ :: stack => Iterator.leave stack
  | ⟨_, _, .cons key child rest⟩ :: stack => do
      let stack ← child.descend (⟨key, child, rest⟩ :: stack)
      return { onEntry := true, stack }

/-- The node that an iterator is at. -/
def Iterator.node (root : Node K V) (it : Iterator K V) : Node K V :=
  match it.stack with
  | [] => root
  | cursor :: _ => cursor.child

def Iterator.step (root : Node K V) (it : Iterator K V) : Option (Iterator K V) :=
  if it.onEntry then
    match (it.node root).enter it.stack with
    | (true, stack) => some { onEntry := true, stack }
    | (false, stack) => Iterator.leave stack
  else Iterator.leave it.stack

/-- `operator*`, on an entry. -/
def Iterator.deref (root : Node K V) (it : Iterator K V) : Option (Finset K × V) :=
  if it.onEntry || !it.stack.isEmpty then
    (it.node root).value.map fun value => ((it.stack.map Cursor.key).toFinset, value)
  else none

def Iterator.atEnd (it : Iterator K V) : Bool := !it.onEntry && it.stack.isEmpty

end MapOfSets

/-- The class `MapOfSets`, by its root. -/
structure MapOfSets (K V : Type) where
  root : MapOfSets.Node K V := .mk none .nil

namespace MapOfSets

variable {K V : Type} [LinearOrder K] (m : MapOfSets K V)

def insert (set : Finset K) (value : V) : MapOfSets K V := ⟨m.root.insert value set.sort⟩

def lookup (set : Finset K) : Option V := m.root.lookup set.sort

def findSubset (set : Finset K) (p : V → Bool) : Option V := m.root.findSubset p set.sort

def findSuperset (set : Finset K) (p : V → Bool) : Option V := m.root.findSuperset p set.sort

def subsets (set : Finset K) : List (Finset K × V) := m.root.findSubsets ∅ set.sort

def supersets (set : Finset K) : List (Finset K × V) := m.root.findSupersets ∅ set.sort

def begin : Option (Iterator K V) :=
  if m.root.value.isSome then some { onEntry := true } else Iterator.step m.root { onEntry := true }

/-- A loop from an iterator to `end()`, in at most so many rounds. -/
def collect : ℕ → Iterator K V → Option (List (Finset K × V))
  | 0, it => if it.atEnd then some [] else none
  | rounds + 1, it =>
      if it.atEnd then some []
      else do
        let entry ← it.deref m.root
        let it ← it.step m.root
        let entries ← collect rounds it
        return entry :: entries

end MapOfSets

end Klee
