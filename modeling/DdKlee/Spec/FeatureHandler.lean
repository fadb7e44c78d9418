import DdKlee.Lib.OrderedMap
import DdKlee.Spec.Searcher

/-! `FeatureHandler` and the searcher that uses it. Values of features are of any type with a
linear order, weights are rational numbers, and a state is its address. The files with raw
feature values, which are off by default, are left out. -/

namespace Klee

inductive Feature
  | instructionsStepped
  | instructionsSinceCovNew
  | callPathInstructions
  | minDistToUncoveredInst
  | addressSpace
  | symbolics
  | numOfConstExpr
  | numOfSymExpr
  | queryCost
  | depth
  | constraints
  | callPathLoopDepth
  | callerLoopDepth
deriving DecidableEq, Repr

namespace Feature

def criterion : ℚ := 1 / 10

variable {V : Type} [LinearOrder V]

/-- `insert` of a set of pairs, which are ordered by their values first. -/
def insertPair (pair : V ×ₗ ℕ) (stSet : List (V ×ₗ ℕ)) : List (V ×ₗ ℕ) :=
  if pair ∈ stSet then stSet else stSet.orderedInsert (· ≤ ·) pair

/-- `operator()`, for the value of each state. -/
def valuesOf (value : ℕ → V) (states : List ℕ) : List (V ×ₗ ℕ) :=
  states.foldl (fun stSet st => insertPair (toLex (value st, st)) stSet) []

end Feature

namespace FeatureHandler

/-- The features in the order of the constructor. -/
def features : List Feature :=
  [.instructionsStepped, .instructionsSinceCovNew, .callPathInstructions, .minDistToUncoveredInst,
    .addressSpace, .symbolics, .numOfConstExpr, .numOfSymExpr,
    .queryCost, .depth, .constraints, .callPathLoopDepth, .callerLoopDepth]

/-- The constructor asserts that there are two weights for each feature. -/
def new (weights : List ℚ) : Option (List ℚ) := if features.length * 2 = weights.length then some weights else none

abbrev FvMap := OrderedMap (ℕ × List ℤ) Prod.fst

/-- The vector of a state, which is empty if there is none yet. -/
def vector (fvMap : FvMap) (es : ℕ) : List ℤ := ((fvMap.lookup es).map Prod.snd).getD []

/-- `push_back` of two entries. -/
def pushBack (fvMap : FvMap) (es : ℕ) (entries : List ℤ) : FvMap := fvMap.replace (es, vector fvMap es ++ entries)

/-- The entries for the place of a state in the order of a feature. -/
def entries (bot top i : ℕ) : List ℤ := if i < bot then [1, 0] else if i < top then [0, 0] else [0, 1]

variable {V : Type} [LinearOrder V]

def groupSize (states : List ℕ) : ℕ := ⌊(states.length : ℚ) * Feature.criterion⌋.toNat

/-- The body of the loop over the features. -/
def extractFeature (value : ℕ → V) (states : List ℕ) (fvMap : FvMap) : FvMap :=
  let bot := groupSize states
  let top := states.length - bot
  (Feature.valuesOf value states).zipIdx.foldl
    (fun fvMap el => pushBack fvMap (ofLex el.1).2 (entries bot top el.2)) fvMap

def extractFeatures (value : Feature → ℕ → V) (states : List ℕ) : FvMap :=
  features.foldl (fun fvMap f => extractFeature (value f) states fvMap) {}

/-- `std::inner_product`. -/
def score (weights : List ℚ) (v : List ℤ) : ℚ :=
  (List.zipWith (fun (x : ℤ) (w : ℚ) => x * w) v weights).foldl (· + ·) 0

/-- The body of the loop of `getTop`, with the best state so far and its score. -/
def better (weights : List ℚ) (top : Option ℕ × ℚ) (fvector : ℕ × List ℤ) : Option ℕ × ℚ :=
  if top.2 < score weights fvector.2 then (some fvector.1, score weights fvector.2) else top

def getTop (weights : List ℚ) (fvMap : FvMap) : Option ℕ :=
  (fvMap.entries.foldl (better weights) (none, -100000000)).1

end FeatureHandler

structure ParameterizedSearcher where
  weights : List ℚ
  states : List ℕ
  updateFeatureMap : Bool := false

namespace ParameterizedSearcher

variable {V : Type} [LinearOrder V] (s : ParameterizedSearcher)

/-- A null pointer is `none`, and so is a remainder by zero. -/
def selectState (value : Feature → ℕ → V) (getInt32 : ℕ) : Option ℕ :=
  if s.updateFeatureMap then FeatureHandler.getTop s.weights (FeatureHandler.extractFeatures value s.states)
  else if s.states.length = 0 then none else s.states[getInt32 % s.states.length]?

def update (addedStates removedStates : List ℕ) : Option ParameterizedSearcher := do
  let states ← removedStates.foldlM Searcher.eraseState (s.states ++ addedStates)
  some { s with states, updateFeatureMap := 1 ≤ (states.length : ℚ) * Feature.criterion }

/-- The searcher of an executor. The states have some values of the features at each call. -/
def searcher (value : SearchEnv → Feature → ℕ → V) : Searcher ParameterizedSearcher where
  selectState env s := (s.selectState (value env) (env.getInt32 0)).map fun es => (es, s)
  update _ s _ addedStates removedStates := s.update addedStates removedStates
  empty _ s := s.states.isEmpty

end ParameterizedSearcher

end Klee
