import DdKlee.Lib.Calls
import DdKlee.Spec.Evaluator
import DdKlee.Spec.MapOfSets
import DdKlee.Spec.Validity

/-! `CexCachingSolver`, with `-debug-cex-cache-check-binding` off. What
`-cex-cache-exp` changes is `computeTruthExp`; the rest is the same with it on
and off. The orders of `ref<Expr>` and of the memo table go by hashes and
addresses; here they are any linear orders. -/

namespace Klee

open Expr

mutual

/-- The symbolic arrays that a `SymbolicObjectFinder` meets, in order. -/
def Expr.symbolicObjects : Expr → List Array
  | .constant _ => []
  | .notOptimized src => src.symbolicObjects
  | .read root head i =>
      head.symbolicObjects ++ (if root.isSymbolicArray then [root] else []) ++ i.symbolicObjects
  | .select c t f => c.symbolicObjects ++ t.symbolicObjects ++ f.symbolicObjects
  | .concat l r => l.symbolicObjects ++ r.symbolicObjects
  | .extract e _ _ => e.symbolicObjects
  | .not e => e.symbolicObjects
  | .cast _ src _ => src.symbolicObjects
  | .binary _ l r => l.symbolicObjects ++ r.symbolicObjects

def UpdateNode.symbolicObjects : UpdateNode → List Array
  | .null => []
  | .node next i v => i.symbolicObjects ++ v.symbolicObjects ++ next.symbolicObjects

end

def findSymbolicObjects (es : List Expr) : List Array := (es.flatMap Expr.symbolicObjects).eraseDups

namespace CexCachingSolver

structure Options where
  cexCacheTryAll : Bool := false
  cexCacheSuperSet : Bool := false
  useVisitorHash : Bool := true

/-- The members of the class. `none` in the cache is the null assignment of a key
that has no solution. -/
structure State where
  cache : MapOfSets Expr (Option Assignment) := {}
  assignmentsTable : Finset Assignment := ∅

variable [LinearOrder Expr] [LinearOrder Assignment] (opts : Options) (solver : SolverImpl)

def satisfies (a : Assignment) (key : Finset Expr) : Bool :=
  a.satisfies opts.useVisitorHash [] (inOrder key) == some true

def nullOrSatisfyingAssignment (key : Finset Expr) : Option Assignment → Bool
  | none => true
  | some a => satisfies opts a key

/-- The superset with an assignment, if supersets are looked for, or the subset
with what `p` asks for. -/
def searchSets (s : State) (key : Finset Expr) (p : Option Assignment → Bool) : Option (Option Assignment) :=
  match if opts.cexCacheSuperSet then s.cache.findSuperset key Option.isSome else none with
  | some result => some result
  | none => s.cache.findSubset key p

def searchForAssignment (s : State) (key : Finset Expr) : Option (Option Assignment) :=
  match s.cache.lookup key with
  | some result => some result
  | none =>
      if opts.cexCacheTryAll then
        match searchSets opts s key Option.isNone with
        | some result => some result
        -- iterate through the current assignments to see if one of them satisfies the query
        | none => (s.assignmentsTable.sort.find? (satisfies opts · key)).map some
      else searchSets opts s key (nullOrSatisfyingAssignment opts key)

/-- The key of a query: its constraints and the negated expression, if that is
no constant. -/
def keyOf (query : Query) : Finset Expr :=
  let neg := query.expr.createIsZero
  if neg.isConstant then query.constraints.toFinset else insert neg query.constraints.toFinset

def lookupAssignment (s : State) (query : Query) : Option (Option Assignment) :=
  if query.expr.createIsZero.isFalse then some none else searchForAssignment opts s (keyOf query)

def getAssignment (s : State) (query : Query) : Option (Option Assignment) × State :=
  match lookupAssignment opts s query with
  | some result => (some result, s)
  | none =>
      let key := keyOf query
      let objects := findSymbolicObjects (inOrder key)
      match solver.computeInitialValues query objects with
      | none => (none, s)
      | some none => (some none, { s with cache := s.cache.insert key none })
      | some (some values) =>
          let binding : Assignment := { bindings := objects.zip values }
          (some (some binding),
            { cache := s.cache.insert key (some binding),
              assignmentsTable := insert binding s.assignmentsTable })

/-- A null assignment and a value that is no constant fail an assertion. -/
def evaluate (query : Query) : Option Assignment → Option APInt
  | none => none
  | some a =>
      match a.evaluate opts.useVisitorHash query.expr with
      | some (constant c) => some c
      | _ => none

def computeValidity (s : State) (query : Query) : Option Validity × State :=
  match getAssignment opts solver s query.withFalse with
  | (none, s) => (none, s)
  | (some a, s) =>
      match evaluate opts query a with
      | none => (none, s)
      | some q =>
          if ConstantExpr.isTrue q then
            match getAssignment opts solver s query with
            | (none, s) => (none, s)
            | (some a, s) => (some (if a.isNone then .true else .unknown), s)
          else
            match getAssignment opts solver s query.negateExpr with
            | (none, s) => (none, s)
            | (some a, s) => (some (if a.isNone then .false else .unknown), s)

def computeTruth (s : State) (query : Query) : Option Bool × State :=
  match getAssignment opts solver s query with
  | (none, s) => (none, s)
  | (some a, s) => (some a.isNone, s)

/-- `computeTruth` with `-cex-cache-exp` on: where the cache knows that the
constraints and the expression have no solution together, the call is given up. -/
def computeTruthExp (s : State) (query : Query) : Option Bool × State :=
  match lookupAssignment opts s query.negateExpr with
  | some none => (none, s)
  | _ => computeTruth opts solver s query

def computeValue (s : State) (query : Query) : Option APInt × State :=
  match getAssignment opts solver s query.withFalse with
  | (none, s) => (none, s)
  | (some a, s) => (evaluate opts query a, s)

/-- The bytes bound to an array, zeros if there are none. -/
def valuesOf (a : Assignment) (objects : List Array) : List (List (BitVec 8)) :=
  objects.map fun os => (a.bindings.lookup os).getD (List.replicate os.size 0)

def computeInitialValues (s : State) (query : Query) (objects : List Array) :
    Option (Option (List (List (BitVec 8)))) × State :=
  match getAssignment opts solver s query with
  | (none, s) => (none, s)
  | (some a, s) => (some (a.map (valuesOf · objects)), s)

/-- A call, answered with the solver below as it is at the time. -/
def call (s : State) : Call → Option Answer × State
  | .truth q => let (r, s) := computeTruth opts solver s q; (r.map .truth, s)
  | .validity q => let (r, s) := computeValidity opts solver s q; (r.map .validity, s)
  | .value q => let (r, s) := computeValue opts solver s q; (r.map .value, s)
  | .initialValues q objects =>
      let (r, s) := computeInitialValues opts solver s q objects
      (r.map .initialValues, s)

/-- The answers to a sequence of calls, and the state they leave. -/
def run (s : State) (calls : List (SolverImpl × Call)) : List (Option Answer) × State :=
  Calls.run (fun s (solver, c) => call opts solver s c) s calls

/-- A call with `-cex-cache-exp` on. -/
def callExp (s : State) : Call → Option Answer × State
  | .truth q => let (r, s) := computeTruthExp opts solver s q; (r.map .truth, s)
  | c => call opts solver s c

def runExp (s : State) (calls : List (SolverImpl × Call)) : List (Option Answer) × State :=
  Calls.run (fun s (solver, c) => callExp opts solver s c) s calls

end CexCachingSolver

end Klee
