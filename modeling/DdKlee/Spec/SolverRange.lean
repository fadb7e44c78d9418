import DdKlee.Lib.BinarySearch
import DdKlee.Spec.TimingSolver
import DdKlee.Spec.ValueRange

/-! `Solver::getRange`: the least and the greatest value of an expression. A
`uint64_t` is a number below `2 ^ 64`. A failed assertion is `none`, and so are an
invalid constant and a loop that does not end. -/

namespace Klee

open Expr

/-- `ConstantExpr::create`, with its assertion. -/
def ConstantExpr.create (v w : ℕ) : Option Expr :=
  if w ≤ 64 then
    -- the assertion of `truncateToNBits`, and that nothing is cut off
    if 0 < w ∧ v = v % 2 ^ w then some (ConstantExpr.alloc v w) else none
  else some (ConstantExpr.alloc v w)

namespace Solver

variable (impl : SolverImpl) (query : Query)

def mustBeFalse : Option Bool := mustBeTrue impl query.negateExpr

def mayBeTrue : Option Bool := (mustBeFalse impl query).map (!·)

/-- Whether the bits from `mid` up are all zero. -/
def askBits (e : Expr) (mid : ℕ) : Option Bool := do
  let shifted := LShrExpr.create e (← ConstantExpr.create mid e.getWidth)
  mustBeTrue impl (query.withExpr (EqExpr.create shifted (← ConstantExpr.create 0 e.getWidth)))

def askZero (e : Expr) : Option Bool := do
  mayBeTrue impl (query.withExpr (EqExpr.create e (← ConstantExpr.create 0 e.getWidth)))

/-- Whether a value is at most `mid`. -/
def askMin (e : Expr) (mid : ℕ) : Option Bool := do
  mayBeTrue impl (query.withExpr (UleExpr.create e (← ConstantExpr.create mid e.getWidth)))

/-- Whether every value is at most `mid`. -/
def askMax (e : Expr) (mid : ℕ) : Option Bool := do
  mustBeTrue impl (query.withExpr (UleExpr.create e (← ConstantExpr.create mid e.getWidth)))

/-- A search over `uint64_t`, which 64 rounds are enough for. -/
def search (ask : ℕ → Option Bool) (lo hi : ℕ) : Option ℕ := BinarySearch.search 64 ask 64 lo hi

def getMin (e : Expr) (bits : ℕ) : Option ℕ := do
  -- check common case
  if ← askZero impl query e then some 0 else search (askMin impl query e) 0 (← bits64.maxValueOfNBits bits)

def getBounds (e : Expr) : Option (ℕ × ℕ) :=
  if e.getWidth = 1 then do
    match ← evaluate impl query with
    | .true => some (1, 1)
    | .false => some (0, 0)
    | .unknown => some (0, 1)
  else
    match e with
    | constant c => if c.width ≤ 64 then some (c.toNat, c.toNat) else none
    | e => do
        -- binary search for # of useful bits
        let bits ← search (askBits impl query e) 0 e.getWidth
        let min ← getMin impl query e bits
        let max ← search (askMax impl query e) min (← bits64.maxValueOfNBits bits)
        some (min, max)

def getRange : Option (Expr × Expr) := do
  let (min, max) ← getBounds impl query query.expr
  some (← ConstantExpr.create min query.expr.getWidth, ← ConstantExpr.create max query.expr.getWidth)

end Solver

end Klee
