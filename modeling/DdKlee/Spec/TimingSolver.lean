import DdKlee.Spec.Constraints
import DdKlee.Spec.Solver

/-! The questions that the interpreter asks about a state. The classes `Solver` and
`TimingSolver` answer them for constants, and pass simplified expressions on to the
implementation. A failed call is `none`, and so is a failed assertion. -/

namespace Klee

open Expr

namespace Solver

variable (impl : SolverImpl) (query : Query)

def evaluate : Option Validity :=
  if query.expr.getWidth = 1 then
    match query.expr with
    | constant c => some (if ConstantExpr.isTrue c then .true else .false)
    | _ => impl.computeValidity query
  else none

def mustBeTrue : Option Bool :=
  if query.expr.getWidth = 1 then
    match query.expr with
    | constant c => some (ConstantExpr.isTrue c)
    | _ => impl.computeTruth query
  else none

def getValue : Option APInt :=
  match query.expr with
  | constant c => some c
  | _ => impl.computeValue query

end Solver

/-- The class `TimingSolver` over the constraints of a state. -/
structure TimingSolver where
  solver : SolverImpl
  simplifyExprs : Bool := true
  opts : ConstraintOptions := {}

namespace TimingSolver

variable (ts : TimingSolver) (constraints : List Expr)

/-- `simplifyExpr` if it is on. The fuel is enough for every expression. -/
def simplify (expr : Expr) : Option Expr :=
  if ts.simplifyExprs then
    (ConstraintManager.simplifyExpr ts.opts (expr.weight + 1) constraints expr).toOption
  else some expr

def evaluate : Expr → Option Validity
  | constant c => some (if ConstantExpr.isTrue c then .true else .false)
  | expr => do
      let expr ← ts.simplify constraints expr
      Solver.evaluate ts.solver ⟨constraints, expr⟩

def mustBeTrue : Expr → Option Bool
  | constant c => some (ConstantExpr.isTrue c)
  | expr => do
      let expr ← ts.simplify constraints expr
      Solver.mustBeTrue ts.solver ⟨constraints, expr⟩

def mustBeFalse (expr : Expr) : Option Bool := ts.mustBeTrue constraints (createIsZero expr)

def mayBeTrue (expr : Expr) : Option Bool := (ts.mustBeFalse constraints expr).map (!·)

def mayBeFalse (expr : Expr) : Option Bool := (ts.mustBeTrue constraints expr).map (!·)

def getValue : Expr → Option APInt
  | constant c => some c
  | expr => do
      let expr ← ts.simplify constraints expr
      Solver.getValue ts.solver ⟨constraints, expr⟩

end TimingSolver

end Klee
