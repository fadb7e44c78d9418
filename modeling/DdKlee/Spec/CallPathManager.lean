import Mathlib

/-! `CallPathManager`. A node is known by its number: the first is `root` and the others are
those of `paths`, in the order in which they were made. A null pointer is `none`, and so is a
program that follows one. -/

namespace Klee

/-- The class `StatisticRecord`: the values by the number of the statistic. -/
abbrev StatisticRecord := ℕ → BitVec 64

def StatisticRecord.incrementValue (r : StatisticRecord) (s : ℕ) (addend : BitVec 64) : StatisticRecord :=
  Function.update r s (r s + addend)

/-- The call site and the function of a node. -/
abbrev CallKey (C F : Type) := Option C × Option F

structure CallSiteInfo where
  count : BitVec 32 := 0
  statistics : StatisticRecord := 0

abbrev CallSiteSummaryTable (C F : Type) := CallKey C F → Option CallSiteInfo

structure CallPathNode (C F : Type) where
  parent : Option ℕ
  callSite : Option C
  function : Option F
  children : CallKey C F → Option ℕ := fun _ => none
  statistics : StatisticRecord := 0
  summaryStatistics : StatisticRecord := 0
  count : BitVec 32 := 0

def CallPathNode.key {C F : Type} (n : CallPathNode C F) : CallKey C F := (n.callSite, n.function)

structure CallPathManager (C F : Type) where
  nodes : List (CallPathNode C F) := [{ parent := none, callSite := none, function := none }]

namespace CallPathManager

variable {C F : Type} [DecidableEq C] [DecidableEq F] (m : CallPathManager C F)

/-- The loop of `computeCallPath` that looks for a node with the key. -/
def findAbove (key : CallKey C F) : ℕ → ℕ → Option (Option ℕ)
  | 0, _ => none
  | fuel + 1, p => do
      let n ← m.nodes[p]?
      if key = n.key then some (some p)
      else match n.parent with
        | none => some none
        | some q => findAbove key fuel q

def computeCallPath (parent : ℕ) (cs : Option C) (f : Option F) : Option (ℕ × CallPathManager C F) := do
  match ← m.findAbove (cs, f) m.nodes.length parent with
  | some p => some (p, m)
  | none => some (m.nodes.length, ⟨m.nodes ++ [{ parent := some parent, callSite := cs, function := f }]⟩)

def insertChild (parent : ℕ) (key : CallKey C F) (cp : ℕ) : CallPathManager C F :=
  ⟨m.nodes.modify parent fun n => { n with children := Function.update n.children key (some cp) }⟩

def getCallPath (parent : Option ℕ) (cs : Option C) (f : Option F) : Option (ℕ × CallPathManager C F) := do
  let parent := parent.getD 0
  let n ← m.nodes[parent]?
  match n.children (cs, f) with
  | some cp => some (cp, m)
  | none => do
      let (cp, m) ← m.computeCallPath parent cs f
      some (cp, m.insertChild parent (cs, f) cp)

/-- The first loop of `getSummaryStatistics`. -/
def resetSummaries : List (CallPathNode C F) → List (CallPathNode C F)
  | [] => []
  | root :: paths => root :: paths.map fun n => { n with summaryStatistics := n.statistics }

/-- The body of the second loop. -/
def summaryStep (s : List (CallPathNode C F) × CallSiteSummaryTable C F) (i : ℕ) :
    Option (List (CallPathNode C F) × CallSiteSummaryTable C F) := do
  let cp ← s.1[i]?
  let parent ← cp.parent
  let nodes := s.1.modify parent fun p => { p with summaryStatistics := p.summaryStatistics + cp.summaryStatistics }
  let csi := (s.2 cp.key).getD {}
  some (nodes, Function.update s.2 cp.key
    (some ⟨csi.count + cp.count, csi.statistics + cp.summaryStatistics⟩))

def getSummaryStatistics : Option (CallSiteSummaryTable C F × CallPathManager C F) := do
  let (nodes, results) ← ((List.range' 1 (m.nodes.length - 1)).reverse).foldlM summaryStep
    (resetSummaries m.nodes, fun _ => none)
  some (results, ⟨nodes⟩)

inductive Op (C F : Type)
  | getCallPath (parent : Option ℕ) (cs : Option C) (f : Option F)
  | incrementCount (node : ℕ)
  | incrementValue (node : ℕ) (s : ℕ) (addend : BitVec 64)
  | getSummaryStatistics

def step (m : CallPathManager C F) : Op C F → Option (Option ℕ × CallPathManager C F)
  | .getCallPath parent cs f => (m.getCallPath parent cs f).map fun r => (some r.1, r.2)
  | .incrementCount node =>
      if node < m.nodes.length then some (none, ⟨m.nodes.modify node fun n => { n with count := n.count + 1 }⟩) else none
  | .incrementValue node s addend =>
      if node < m.nodes.length then
        some (none, ⟨m.nodes.modify node fun n => { n with statistics := n.statistics.incrementValue s addend }⟩)
      else none
  | .getSummaryStatistics => m.getSummaryStatistics.map fun r => (none, r.2)

end CallPathManager

end Klee
