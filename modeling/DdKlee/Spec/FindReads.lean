import DdKlee.Spec.Visitor

/-! `findReads`: the reads of an expression, found with an explicit stack. The
memo of update lists is by address in the source; here it is by value, which
makes no difference, since the expressions in them are memoised as well. And
`SymbolicObjectFinder`, a visitor that changes no expression. -/

namespace Klee

open Expr

namespace findReads

/-- The sets `visited` and `updates`, the stack with its top first, and the
results. -/
structure State where
  stack : List Expr
  visited : List Expr
  updates : List UpdateNode
  results : List (UpdateList × Expr)

def push (s : State) (e : Expr) : State :=
  if e.isConstant = false ∧ e ∉ s.visited then
    { s with stack := e :: s.stack, visited := e :: s.visited }
  else s

/-- What is done with the expression popped from the stack. -/
def process (visitUpdates : Bool) (s : State) : Expr → State
  | .read root head index =>
      let s := push { s with results := s.results ++ [(⟨root, head⟩, index)] } index
      if visitUpdates = true ∧ head ∉ s.updates then
        head.exprs.foldl push { s with updates := head :: s.updates }
      else s
  | e => e.kids.foldl push s

def loop (visitUpdates : Bool) : ℕ → State → State
  | 0, s => s
  | n + 1, s =>
      match s.stack with
      | [] => s
      | top :: stack => loop visitUpdates n (process visitUpdates { s with stack := stack } top)

end findReads

/-- An expression of `n` nodes takes at most `n` rounds. -/
def findReads (e : Expr) (visitUpdates : Bool) : List (UpdateList × Expr) :=
  if e.isConstant then []
  else (findReads.loop visitUpdates e.size ⟨[e], [e], [], []⟩).results

namespace SymbolicObjectFinder

/-- The memo table and `objects`. The set `results` has the same arrays. -/
structure State where
  visited : List Expr := []
  objects : List Array := []

def memo (useVisitorHash : Bool) (e : Expr) (visitActual : State → State) (s : State) : State :=
  if useVisitorHash then
    if e ∈ s.visited then s
    else
      let s := visitActual s
      { s with visited := e :: s.visited }
  else visitActual s

def addRoot (root : Array) (s : State) : State :=
  if root.isSymbolicArray ∧ root ∉ s.objects then { s with objects := s.objects ++ [root] } else s

mutual

def visit (hash : Bool) : Expr → State → State
  | .constant _ => id
  | .notOptimized src => memo hash (.notOptimized src) (visit hash src)
  | .read root head index =>
      memo hash (.read root head index) fun s => visit hash index (addRoot root (visitUpdates hash head s))
  | .select c t f => memo hash (.select c t f) fun s => visit hash f (visit hash t (visit hash c s))
  | .concat l r => memo hash (.concat l r) fun s => visit hash r (visit hash l s)
  | .extract e off w => memo hash (.extract e off w) (visit hash e)
  | .not e => memo hash (.not e) (visit hash e)
  | .cast k src w => memo hash (.cast k src w) (visit hash src)
  | .binary k l r => memo hash (.binary k l r) fun s => visit hash r (visit hash l s)

def visitUpdates (hash : Bool) : UpdateNode → State → State
  | .null => id
  | .node next index value => fun s => visitUpdates hash next (visit hash value (visit hash index s))

end

/-- The objects that `findSymbolicObjects` finds in one expression. -/
def objectsOf (useVisitorHash : Bool) (e : Expr) : List Array := (visit useVisitorHash e {}).objects

end SymbolicObjectFinder

end Klee
