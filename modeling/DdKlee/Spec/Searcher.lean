import DdKlee.Spec.PTree

/-! The searchers, which choose the state to run next. A searcher is the state of an
object and the methods of its class. A failed assertion, and a use of an element that is
not there, is `none`. -/

namespace Klee

/-- The weights of `WeightedRandomSearcher`. -/
inductive WeightType
  | depth
  | rp
  | queryCost
  | instCount
  | cpInstCount
  | minDistToUncovered
  | coveringNew
deriving DecidableEq, Repr

/-- What a call finds: the readings of the clock, the random numbers, the weights of the
states, and of the executor the states and the process tree. -/
structure SearchEnv where
  wallTime : ℕ → ℕ
  instructions : ℕ
  getInt32 : ℕ → ℕ
  getDoubleL : ℚ
  getDoubleL_nonneg : 0 ≤ getDoubleL
  getDoubleL_lt : getDoubleL < 1
  getWeight : WeightType → ℕ → ℚ
  states : List ℕ
  processTree : PTree

structure Searcher (S : Type) where
  selectState : SearchEnv → S → Option (ℕ × S)
  update : SearchEnv → S → Option ℕ → List ℕ → List ℕ → Option S
  empty : SearchEnv → S → Bool

namespace Searcher

def removeState {S : Type} (c : Searcher S) (env : SearchEnv) (s : S) (es : ℕ) : Option S :=
  c.update env s none [] [es]

def eraseState (states : List ℕ) (es : ℕ) : Option (List ℕ) :=
  if es ∈ states then some (states.erase es) else none -- invalid state removed

end Searcher

namespace DFSSearcher

def removeState (states : List ℕ) (es : ℕ) : Option (List ℕ) :=
  if states.getLast? = some es then some states.dropLast else Searcher.eraseState states es

end DFSSearcher

def DFSSearcher : Searcher (List ℕ) where
  selectState _ states := states.getLast?.map fun es => (es, states)
  update _ states _ addedStates removedStates := removedStates.foldlM DFSSearcher.removeState (states ++ addedStates)
  empty _ states := states.isEmpty

end Klee
