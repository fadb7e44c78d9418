import Mathlib

/-! The process tree, which records how states were forked. States are numbers. A
node is known by its path from the root: nodes stay where they were made. -/

namespace Klee

inductive PTree
  | null
  | node (state : Option ℕ) (left right : PTree)
deriving DecidableEq, Repr

namespace PTree

/-- The paths to nodes; `false` leads to the left. -/
abbrev Path := List Bool

def leaf (state : ℕ) : PTree := node (some state) null null

def child (left right : PTree) : Bool → PTree
  | false => left
  | true => right

/-- A node with a child in the place of one it had. -/
def setChild (state : Option ℕ) (left right : PTree) : Bool → PTree → PTree
  | false, t => node state t right
  | true, t => node state left t

/-- The node at the path gets two children. The assertion is that it has none. -/
def attach (leftState rightState : ℕ) : PTree → Path → Option PTree
  | node _ null null, [] => some (node none (leaf leftState) (leaf rightState))
  | node state left right, b :: path =>
      (attach leftState rightState (child left right b) path).map (setChild state left right b)
  | _, _ => none

/-- A node without children is cut off. -/
def cut : PTree → PTree
  | node _ null null => null
  | t => t

/-- What is left of a subtree when a node without children is removed, and then every
node that has lost its last child. -/
def prune : PTree → Path → Option PTree
  | node _ null null, [] => some null
  | node state left right, b :: path =>
      (prune (child left right b) path).map fun t => cut (setChild state left right b t)
  | _, _ => none

/-- The root itself is never removed. -/
def remove : PTree → Path → Option PTree
  | node state null null, [] => some (node state null null)
  | node state left right, b :: path =>
      (prune (child left right b) path).map (setChild state left right b)
  | _, _ => none

def leafAt : PTree → Path → Option (Option ℕ)
  | node state null null, [] => some state
  | node _ left right, b :: path => leafAt (child left right b) path
  | _, _ => none

end PTree

end Klee
