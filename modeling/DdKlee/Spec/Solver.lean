import DdKlee.Spec.Create

/-! Queries and the answers of solvers. -/

namespace Klee

structure Query where
  constraints : List Expr
  expr : Expr
deriving DecidableEq

namespace Query

def withExpr (q : Query) (e : Expr) : Query := { q with expr := e }

def withFalse (q : Query) : Query := q.withExpr (ConstantExpr.alloc 0 1)

def negateExpr (q : Query) : Query := q.withExpr (Expr.createIsZero q.expr)

end Query

/-- The expressions of a `std::set`, in the order of its iterators. -/
abbrev inOrder [LinearOrder Expr] (set : Finset Expr) : List Expr := set.sort

inductive Validity
  | true
  | false
  | unknown
deriving DecidableEq, Repr

inductive PartialValidity
  | mustBeTrue
  | mustBeFalse
  | mayBeTrue
  | mayBeFalse
  | trueOrFalse
  | none
deriving DecidableEq, Repr

/-- The class `SolverImpl`: `none` is a failed call. The values of
`computeInitialValues` are `none` in the inner option when there is no
solution. -/
structure SolverImpl where
  computeValidity : Query → Option Validity
  computeTruth : Query → Option Bool
  computeValue : Query → Option APInt
  computeInitialValues : Query → List Array → Option (Option (List (List (BitVec 8))))

end Klee
