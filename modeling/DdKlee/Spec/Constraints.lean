import DdKlee.Spec.Visitor

/-! `ConstraintManager`: the path condition of a state as a list of Bool
expressions, and its rewriting when a constraint is added. A run ends with an
error when the assertion of `addConstraintInternal` fails, or when the fuel of
the model is used up. -/

namespace Klee

open Expr

/-- The options of the constraint manager and of its visitors. -/
structure ConstraintOptions where
  rewriteEqualities : Bool := true
  useVisitorHash : Bool := true

inductive ConstraintError
  | fuel
  /-- attempt to add invalid (false) constraint -/
  | invalidConstraint
deriving DecidableEq, Repr

def ExprReplaceVisitor (src dst : Expr) : ExprVisitor where
  visitExpr e := if e = src then .changeTo dst else .doChildren
  visitExprPost e := if e = src then .changeTo dst else .doChildren

/-- The first binding of a key is the one `std::map::insert` keeps. -/
def ExprReplaceVisitor2 (replacements : List (Expr × Expr)) : ExprVisitor where
  recursive := true
  visitExprPost e :=
    match replacements.lookup e with
    | some dst => .changeTo dst
    | none => .doChildren

namespace ConstraintManager

/-- The loop of `rewriteConstraints` over the constraints swapped out, with
`add` for `addConstraintInternal` on the constraints in place so far. The result
says whether a constraint changed. -/
def rewriteConstraints (visit : Visit)
    (add : List Expr → Expr → Except ConstraintError (List Expr)) :
    Visited → List Expr → List Expr → Except ConstraintError (Bool × List Expr)
  | _, constraints, [] => .ok (false, constraints)
  | visited, constraints, ce :: old =>
      match visit visited ce with
      | none => .error .fuel
      | some (e, visited) =>
          if e ≠ ce then do
            -- enable further reductions
            let constraints ← add constraints e
            let (_, constraints) ← rewriteConstraints visit add visited constraints old
            return (true, constraints)
          else rewriteConstraints visit add visited (constraints ++ [ce]) old

/-- Rewrite any known equalities and split Ands into different conjuncts. -/
def addConstraintInternal (opts : ConstraintOptions) :
    ℕ → List Expr → Expr → Except ConstraintError (List Expr)
  | 0, _, _ => .error .fuel
  | fuel + 1, constraints, e =>
      match e with
      | constant c => if ConstantExpr.isTrue c then .ok constraints else .error .invalidConstraint
      | binary .and left right => do
          let constraints ← addConstraintInternal opts fuel constraints left
          addConstraintInternal opts fuel constraints right
      | binary .eq (constant c) right =>
          if opts.rewriteEqualities then do
            let visitor := ExprReplaceVisitor right (constant c)
            let (_, constraints) ← rewriteConstraints (visitor.visit opts.useVisitorHash fuel)
              (addConstraintInternal opts fuel) [] [] constraints
            return constraints ++ [binary .eq (constant c) right]
          else .ok (constraints ++ [binary .eq (constant c) right])
      | e => .ok (constraints ++ [e])

/-- What a constraint lets `simplifyExpr` replace. -/
def equality : Expr → Expr × Expr
  | binary .eq (constant c) right => (right, constant c)
  | e => (e, ConstantExpr.alloc 1 1)

def simplifyExpr (opts : ConstraintOptions) (fuel : ℕ) (constraints : List Expr) (e : Expr) :
    Except ConstraintError Expr :=
  if e.isConstant then .ok e
  else
    match (ExprReplaceVisitor2 (constraints.map equality)).visit opts.useVisitorHash fuel [] e with
    | some (res, _) => .ok res
    | none => .error .fuel

def addConstraint (opts : ConstraintOptions) (fuel : ℕ) (constraints : List Expr) (e : Expr) :
    Except ConstraintError (List Expr) := do
  let e ← simplifyExpr opts fuel constraints e
  addConstraintInternal opts fuel constraints e

/-- A sequence of calls of `addConstraint`. -/
def addConstraints (opts : ConstraintOptions) (fuel : ℕ) (constraints : List Expr) (es : List Expr) :
    Except ConstraintError (List Expr) :=
  es.foldlM (addConstraint opts fuel) constraints

end ConstraintManager

/-- The assignments that satisfy every constraint. -/
def Models (constraints : List Expr) : Set Bytes := {σ | ∀ c ∈ constraints, c.holds σ}

instance (constraints : List Expr) (σ : Bytes) : Decidable (σ ∈ Models constraints) :=
  inferInstanceAs (Decidable (∀ c ∈ constraints, c.holds σ))

end Klee
