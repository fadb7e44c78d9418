import DdKlee.Spec.FindReads
import DdKlee.Spec.Solver

/-! `IndependentSolver`: the constraints that share array elements with the
query, directly or through other constraints, and the factors of a query that
share none. -/

namespace Klee

open Expr

/-- The class `IndependentElementSet`: elements read at a constant index, arrays
read at some other index, and the expressions that read them. -/
structure IndependentElementSet where
  elements : AList (fun _ : Array => Finset ℕ) := ∅
  wholeObjects : List Array := []
  exprs : List Expr := []

namespace IndependentElementSet

/-- One read of the expression; the index is at most 32 bits wide. -/
def addRead (s : IndependentElementSet) (re : UpdateList × Expr) : IndependentElementSet :=
  let array := re.1.root
  -- reads of a constant array don't alias
  if array.isConstantArray = true ∧ re.1.head = .null then s
  else if array ∈ s.wholeObjects then s
  else
    match re.2 with
    | constant c =>
        let dis := (s.elements.lookup array).getD ∅
        { s with elements := s.elements.insert array (insert (c.toNat % 2 ^ 32) dis) }
    | _ => { s with elements := s.elements.erase array, wholeObjects := array :: s.wholeObjects }

def ofExpr (e : Expr) : IndependentElementSet :=
  (findReads e true).foldl addRead { exprs := [e] }

def intersects (s b : IndependentElementSet) : Bool :=
  s.wholeObjects.any (fun array => array ∈ b.wholeObjects ∨ array ∈ b.elements) ||
    s.elements.entries.any fun ⟨array, dis⟩ =>
      array ∈ b.wholeObjects ∨ ∃ dis' ∈ b.elements.lookup array, ¬ Disjoint dis dis'

/-- One array of the first loop of `add`. The flag says whether a set changed. -/
def addWhole (acc : IndependentElementSet × Bool) (array : Array) : IndependentElementSet × Bool :=
  let (s, modified) := acc
  if array ∈ s.elements then
    ({ s with elements := s.elements.erase array, wholeObjects := s.wholeObjects.insert array }, true)
  else if array ∈ s.wholeObjects then (s, modified)
  else ({ s with wholeObjects := array :: s.wholeObjects }, true)

/-- One array of the second loop. -/
def addElements (acc : IndependentElementSet × Bool) (p : Sigma fun _ : Array => Finset ℕ) :
    IndependentElementSet × Bool :=
  let (s, modified) := acc
  if p.1 ∈ s.wholeObjects then (s, modified)
  else
    match s.elements.lookup p.1 with
    | none => ({ s with elements := s.elements.insert p.1 p.2 }, true)
    | some dis =>
        ({ s with elements := s.elements.insert p.1 (dis ∪ p.2) }, modified || !decide (p.2 ⊆ dis))

/-- The set with the other one added, and whether it changed. -/
def add (s b : IndependentElementSet) : IndependentElementSet × Bool :=
  b.elements.entries.foldl addElements
    (b.wholeObjects.foldl addWhole ({ s with exprs := s.exprs ++ b.exprs }, false))

def arrays (s : IndependentElementSet) : List Array := (s.elements.keys ++ s.wholeObjects).dedup

end IndependentElementSet

namespace getIndependentConstraints

/-- What one round over the worklist leaves. -/
structure Round where
  eltsClosure : IndependentElementSet
  done : Bool := true
  result : List Expr := []
  newWorklist : List (Expr × IndependentElementSet) := []

def round : IndependentElementSet → List (Expr × IndependentElementSet) → Round
  | eltsClosure, [] => { eltsClosure := eltsClosure }
  | eltsClosure, (e, s) :: worklist =>
      if s.intersects eltsClosure then
        let (eltsClosure, modified) := eltsClosure.add s
        let r := round eltsClosure worklist
        { r with done := !modified && r.done, result := e :: r.result }
      else
        let r := round eltsClosure worklist
        { r with newWorklist := (e, s) :: r.newWorklist }

def loop : ℕ → IndependentElementSet → List (Expr × IndependentElementSet) →
    IndependentElementSet × List Expr
  | 0, eltsClosure, _ => (eltsClosure, [])
  | n + 1, eltsClosure, worklist =>
      let r := round eltsClosure worklist
      if r.done then (r.eltsClosure, r.result)
      else
        let (eltsClosure, result) := loop n r.eltsClosure r.newWorklist
        (eltsClosure, r.result ++ result)

end getIndependentConstraints

/-- The closure and the required constraints. A round that changes the closure
takes a constraint off the worklist. -/
def getIndependentConstraints (query : Query) : IndependentElementSet × List Expr :=
  getIndependentConstraints.loop (query.constraints.length + 1) (.ofExpr query.expr)
    (query.constraints.map fun c => (c, .ofExpr c))

namespace getAllIndependentConstraintsSets

/-- What the loop over the factors behind `current` leaves. -/
structure Absorbed where
  current : IndependentElementSet
  keep : List IndependentElementSet := []
  doneLoop : Bool := true

/-- The inner loop: `current` takes in the factors that intersect it. -/
def absorb : IndependentElementSet → List IndependentElementSet → Absorbed
  | current, [] => { current := current }
  | current, compare :: factors =>
      if current.intersects compare then
        let (current, modified) := current.add compare
        let r := absorb current factors
        { r with doneLoop := !modified && r.doneLoop }
      else
        let r := absorb current factors
        { r with keep := compare :: r.keep }

def round : ℕ → List IndependentElementSet → List IndependentElementSet × Bool
  | 0, factors => (factors, true)
  | _ + 1, [] => ([], true)
  | n + 1, current :: factors =>
      let r := absorb current factors
      let (done, doneLoop) := round n r.keep
      (r.current :: done, r.doneLoop && doneLoop)

def loop : ℕ → List IndependentElementSet → List IndependentElementSet
  | 0, factors => factors
  | n + 1, factors =>
      let (done, doneLoop) := round factors.length factors
      if doneLoop then done else loop n done

end getAllIndependentConstraintsSets

/-- The negated expression, which is left out if the expression is a constant. -/
def Query.negated (query : Query) : List Expr :=
  if query.expr.isConstant then [] else [query.expr.createIsZero]

/-- `none` is the failed assertion that a constant expression is false. -/
def getAllIndependentConstraintsSets (query : Query) : Option (List IndependentElementSet) :=
  if query.expr.isConstant = true ∧ query.expr.isFalse = false then none
  else
    let exprs := query.negated ++ query.constraints
    some (getAllIndependentConstraintsSets.loop (exprs.length + 1) (exprs.map .ofExpr))

namespace IndependentSolver

variable (solver : SolverImpl)

def sliced (query : Query) : Query := ⟨(getIndependentConstraints query).2, query.expr⟩

def computeValidity (query : Query) : Option Validity := solver.computeValidity (sliced query)

def computeTruth (query : Query) : Option Bool := solver.computeTruth (sliced query)

def computeValue (query : Query) : Option APInt := solver.computeValue (sliced query)

/-- The answers so far, by array. -/
abbrev RetMap := AList fun _ : Array => List (BitVec 8)

/-- Where an array has partial answers already, the factor's elements are
placed in them. -/
def place (factor : IndependentElementSet) (array : Array) (new : List (BitVec 8)) :
    Option (List (BitVec 8)) → List (BitVec 8)
  | none => new
  | some old =>
      let ds := (factor.elements.lookup array).getD ∅
      old.mapIdx fun i b => if i ∈ ds then new.getD i 0 else b

def placeAll (factor : IndependentElementSet) (retMap : RetMap)
    (answers : List (Array × List (BitVec 8))) : RetMap :=
  answers.foldl (fun m p => m.insert p.1 (place factor p.1 p.2 (m.lookup p.1))) retMap

def factorQuery (factor : IndependentElementSet) : Query := ⟨factor.exprs, ConstantExpr.alloc 0 1⟩

/-- The loop over the factors. Those without arrays are skipped. -/
def solveFactors : List IndependentElementSet → RetMap → Option (Option RetMap)
  | [], retMap => some (some retMap)
  | factor :: factors, retMap =>
      if factor.arrays = [] then solveFactors factors retMap
      else
        match solver.computeInitialValues (factorQuery factor) factor.arrays with
        | none => none
        | some none => some none
        | some (some tempValues) =>
            solveFactors factors (placeAll factor retMap (factor.arrays.zip tempValues))

/-- An array that no factor mentions gets zeros. The assertion at the end, that
the values are a solution, is proved instead (`Proofs.Factors`). -/
def computeInitialValues (query : Query) (objects : List Array) :
    Option (Option (List (List (BitVec 8)))) := do
  let factors ← getAllIndependentConstraintsSets query
  let retMap ← solveFactors solver factors ∅
  return retMap.map fun m => objects.map fun arr => (m.lookup arr).getD (List.replicate arr.size 0)

end IndependentSolver

end Klee
