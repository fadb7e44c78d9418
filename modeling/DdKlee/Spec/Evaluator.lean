import DdKlee.Spec.Visitor

/-! `ExprEvaluator`: the visitor that replaces array reads by the initial values
a subclass knows, and folds. -/

namespace Klee

open Expr

namespace ExprEvaluator

/-- The initial value of an array element as a subclass gives it. -/
abbrev InitialValue := Array → ℕ → Expr

/-- `evalRead`, from the most recent update on. -/
def evalRead (getInitialValue : InitialValue) (visit : Visit) (root : Array) (index : ℕ) :
    Visited → UpdateNode → Option (Expr × Visited)
  | visited, .null =>
      match root.constantValues[index]? with
      | some v => some (constant v, visited)
      | none => some (getInitialValue root index, visited)
  | visited, .node next i v => do
      let (ui, visited) ← visit visited i
      match ui with
      | constant c =>
          if c.toNat = index then visit visited v
          else evalRead getInitialValue visit root index visited next
      -- update index is unknown, so may or may not be index: rewrite to read at this version
      | _ => some (ReadExpr.create ⟨root, .node next i v⟩ (ConstantExpr.alloc index root.domain), visited)

/-- `visitRead`; the index is passed on as an `unsigned`. -/
def visitRead (getInitialValue : InitialValue) (visit : Visit) (visited : Visited) (root : Array)
    (head : UpdateNode) (index : Expr) : Option (Action × Visited) := do
  let (v, visited) ← visit visited index
  match v with
  | constant c =>
      let (r, visited) ← evalRead getInitialValue visit root (c.toNat % 2 ^ 32) visited head
      return (.changeTo r, visited)
  | _ => return (.doChildren, visited)

/-- Evaluate all constant expressions, in case they weren't folded in
construction, except reads. -/
def visitExpr : Expr → Action
  | .read _ _ _ => .doChildren
  | e => if e.kids ≠ [] ∧ e.kids.all isConstant then .changeTo (e.rebuild e.kids) else .doChildren

/-- A divisor that evaluates to zero is left as it is. -/
def protectedDivOperation (visit : Visit) (visited : Visited) (k : BinaryKind) (left right : Expr) :
    Option (Action × Visited) := do
  let (left', visited) ← visit visited left
  let (right', visited) ← visit visited right
  let right' :=
    match right' with
    | constant c => if ConstantExpr.isZero c then right else right'
    | _ => right'
  if left' ≠ left ∨ right' ≠ right then
    return (.changeTo (rebuild (binary k left right) [left', right']), visited)
  else return (.skipChildren, visited)

def visitKind (getInitialValue : InitialValue) (visit : Visit) (visited : Visited) :
    Expr → Option (Action × Visited)
  | .read root head index => visitRead getInitialValue visit visited root head index
  | binary .udiv l r => protectedDivOperation visit visited .udiv l r
  | binary .sdiv l r => protectedDivOperation visit visited .sdiv l r
  | binary .urem l r => protectedDivOperation visit visited .urem l r
  | binary .srem l r => protectedDivOperation visit visited .srem l r
  | _ => some (.doChildren, visited)

/-- When evaluating an assignment, `NotOptimizedExpr` nodes are folded. -/
def visitExprPost : Expr → Action
  | notOptimized src => .changeTo src
  | _ => .skipChildren

end ExprEvaluator

def ExprEvaluator (getInitialValue : ExprEvaluator.InitialValue) : ExprVisitor where
  visitExpr := ExprEvaluator.visitExpr
  visitKind := ExprEvaluator.visitKind getInitialValue
  visitExprPost := ExprEvaluator.visitExprPost

/-- The class `Assignment`: the bytes given for some arrays. -/
structure Assignment where
  allowFreeValues : Bool := false
  bindings : List (Array × List (BitVec 8))
deriving DecidableEq

namespace Assignment

/-- `Assignment::evaluate` of an array element. Where no byte is given it is
zero, or left as it is when values are free. -/
def evaluateByte (a : Assignment) (array : Array) (index : ℕ) : Expr :=
  match (a.bindings.lookup array).bind (·[index]?) with
  | some b => ConstantExpr.alloc b.toNat array.range
  | none =>
      if a.allowFreeValues then
        ReadExpr.create ⟨array, .null⟩ (ConstantExpr.alloc index array.domain)
      else ConstantExpr.alloc 0 array.range

/-- The visitor `AssignmentEvaluator`. -/
def evaluator (a : Assignment) : ExprVisitor := ExprEvaluator a.evaluateByte

/-- `Assignment::evaluate`. The visit takes no more fuel than given here. -/
def evaluate (useVisitorHash : Bool) (a : Assignment) (e : Expr) : Option Expr :=
  (a.evaluator.visit useVisitorHash (e.weight + 1) [] e).map Prod.fst

/-- `Assignment::satisfies`, with one evaluator for all expressions. -/
def satisfies (useVisitorHash : Bool) (a : Assignment) : Visited → List Expr → Option Bool
  | _, [] => some true
  | visited, e :: es => do
      let (v, visited) ← a.evaluator.visit useVisitorHash (e.weight + 1) visited e
      if v.isTrue then satisfies useVisitorHash a visited es else some false

end Assignment

end Klee
