import DdKlee.Lib.Calls
import DdKlee.Spec.Validity

/-! `CachingSolver`: the validity of a query is kept under the smaller of its
expression and the negation. The order of `Expr::compare`, which goes by hashes,
is any linear order here. -/

namespace Klee

/-- `IncompleteSolver::negatePartialValidity`. The default asserts and falls
through. -/
def PartialValidity.negate : PartialValidity → PartialValidity
  | .none => .mustBeFalse
  | .mustBeTrue => .mustBeFalse
  | .mustBeFalse => .mustBeTrue
  | .mayBeTrue => .mayBeFalse
  | .mayBeFalse => .mayBeTrue
  | .trueOrFalse => .trueOrFalse

/-- What a partial validity says about a query. -/
def Query.HasPartialValidity (q : Query) : PartialValidity → Prop
  | .mustBeTrue => q.Valid
  | .mustBeFalse => q.Refuted
  | .mayBeTrue => ¬ q.Refuted
  | .mayBeFalse => ¬ q.Valid
  | .trueOrFalse => ¬ q.Valid ∧ ¬ q.Refuted
  | .none => True

namespace CachingSolver

/-- The cache. A `CacheEntry` is a query, of which constraints and expression are
compared. -/
abbrev Cache := AList fun _ : Query => PartialValidity

variable [LinearOrder Expr] (solver : SolverImpl)

/-- The canonical query, and whether it is the negated one. -/
def canonicalizeQuery (query : Query) : Query × Bool :=
  if query.expr < query.expr.createIsZero then (query, false) else (query.negateExpr, true)

def cacheLookup (cache : Cache) (query : Query) : Option PartialValidity :=
  let (ce, negationUsed) := canonicalizeQuery query
  (cache.lookup ce).map fun result => if negationUsed then result.negate else result

/-- An entry that is there is not overwritten. -/
def cacheInsert (cache : Cache) (query : Query) (result : PartialValidity) : Cache :=
  let (ce, negationUsed) := canonicalizeQuery query
  if ce ∈ cache then cache else cache.insert ce (if negationUsed then result.negate else result)

def computeValidityMiss (cache : Cache) (query : Query) : Option Validity × Cache :=
  match solver.computeValidity query with
  | none => (none, cache)
  | some .true => (some .true, cacheInsert cache query .mustBeTrue)
  | some .false => (some .false, cacheInsert cache query .mustBeFalse)
  | some .unknown => (some .unknown, cacheInsert cache query .trueOrFalse)

def computeValidity (cache : Cache) (query : Query) : Option Validity × Cache :=
  match cacheLookup cache query with
  | some .mustBeTrue => (some .true, cache)
  | some .mustBeFalse => (some .false, cache)
  | some .trueOrFalse => (some .unknown, cache)
  | some .mayBeTrue =>
      match solver.computeTruth query with
      | none => (none, cache)
      | some true => (some .true, cacheInsert cache query .mustBeTrue)
      | some false => (some .unknown, cacheInsert cache query .trueOrFalse)
  | some .mayBeFalse =>
      match solver.computeTruth query.negateExpr with
      | none => (none, cache)
      | some true => (some .false, cacheInsert cache query .mustBeFalse)
      | some false => (some .unknown, cacheInsert cache query .trueOrFalse)
  | some .none => computeValidityMiss solver cache query
  | none => computeValidityMiss solver cache query

/-- What is cached for a query that is not valid. If a true assignment is known
to exist, there are both. -/
def notValid (cacheHit : Bool) : PartialValidity := if cacheHit then .trueOrFalse else .mayBeFalse

def computeTruthMiss (cache : Cache) (query : Query) (cacheHit : Bool) : Option Bool × Cache :=
  match solver.computeTruth query with
  | none => (none, cache)
  | some true => (some true, cacheInsert cache query .mustBeTrue)
  | some false => (some false, cacheInsert cache query (notValid cacheHit))

def computeTruth (cache : Cache) (query : Query) : Option Bool × Cache :=
  match cacheLookup cache query with
  -- a cached result of MayBeTrue forces us to check whether a False assignment exists
  | some .mayBeTrue => computeTruthMiss solver cache query true
  | some cachedResult => (some (cachedResult = .mustBeTrue), cache)
  | none => computeTruthMiss solver cache query false

/-- A call, answered with the solver below as it is at the time. Values are not
cached. -/
def call (cache : Cache) : Call → Option Answer × Cache
  | .truth q => let (r, cache) := computeTruth solver cache q; (r.map .truth, cache)
  | .validity q => let (r, cache) := computeValidity solver cache q; (r.map .validity, cache)
  | .value q => ((solver.computeValue q).map .value, cache)
  | .initialValues q objects => ((solver.computeInitialValues q objects).map .initialValues, cache)

/-- The answers to a sequence of calls, and the cache they leave. -/
def run (cache : Cache) (calls : List (SolverImpl × Call)) : List (Option Answer) × Cache :=
  Calls.run (fun cache (solver, c) => call solver cache c) cache calls

end CachingSolver

end Klee
