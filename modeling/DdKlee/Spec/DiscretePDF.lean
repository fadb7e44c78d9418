import DdKlee.Lib.LinkedTree
import DdKlee.Lib.Prog

/-! `DiscretePDF`: items with weights, of which one is chosen in proportion to its weight.
The items are in a search tree of marked nodes, which have the sums of the weights below
them. Weights are exact. A program fails when it follows a null pointer, and when an
assertion fails. -/

namespace Klee.DiscretePDF

/-- The fields of a `Node` besides its pointers. A mark is red. -/
structure NodeData (T : Type) where
  mark : Bool
  key : T
  weight : ℚ
  sumWeights : ℚ

abbrev Node (T : Type) := LinkedNode (NodeData T)

abbrev Memory (T : Type) := LinkedTree (NodeData T)

variable {T : Type}

def get (i : ℕ) : Prog (Memory T) (Node T) := fun mem => (mem.nodes.get i).map (·, mem)

def modify (i : ℕ) (f : Node T → Node T) : Prog (Memory T) Unit := fun mem =>
  if (mem.nodes.get i).isSome then some ((), { mem with nodes := mem.nodes.modify i f }) else none

def getRoot : Prog (Memory T) (Option ℕ) := fun mem => some (mem.root, mem)

def setRoot (p : Option ℕ) : Prog (Memory T) Unit := fun mem => some ((), { mem with root := p })

/-- As many nodes as there ever were, which bounds every loop. -/
def bound : Prog (Memory T) ℕ := fun mem => some (mem.nodes.cells.length, mem)

def deref : Option ℕ → Prog (Memory T) ℕ
  | none => failure
  | some i => pure i

def setParent (i : ℕ) (p : Option ℕ) : Prog (Memory T) Unit := modify i fun n => { n with parent := p }

def setChild (i : ℕ) (d : Side) (p : Option ℕ) : Prog (Memory T) Unit := modify i fun n => n.setChild p d

def setData (i : ℕ) (g : NodeData T → NodeData T) : Prog (Memory T) Unit := modify i fun n => { n with data := g n.data }

def markRed (i : ℕ) : Prog (Memory T) Unit := setData i fun a => { a with mark := true }

def markBlack (i : ℕ) : Prog (Memory T) Unit := setData i fun a => { a with mark := false }

def isBlack (i : ℕ) : Prog (Memory T) Bool := do
  let n ← get i
  pure !n.data.mark

def childIsBlack : Option ℕ → Prog (Memory T) Bool
  | none => pure true
  | some i => isBlack i

def leftIsBlack (i : ℕ) : Prog (Memory T) Bool := do
  let n ← get i
  childIsBlack n.left

def rightIsBlack (i : ℕ) : Prog (Memory T) Bool := do
  let n ← get i
  childIsBlack n.right

def getParent (i : ℕ) : Prog (Memory T) ℕ := do
  let n ← get i
  deref n.parent

def sibling (i : ℕ) : Prog (Memory T) (Option ℕ) := do
  let p ← get (← getParent i)
  pure (if some i = p.left then p.right else p.left)

def getSum : Option ℕ → Prog (Memory T) ℚ
  | none => pure 0
  | some i => do
      let n ← get i
      pure n.data.sumWeights

def setSum (i : ℕ) : Prog (Memory T) Unit := do
  let n ← get i
  let left ← getSum n.left
  let right ← getSum n.right
  setData i fun a => { a with sumWeights := a.weight + left + right }

def propogateSumsUpFrom : ℕ → Option ℕ → Prog (Memory T) Unit
  | _, none => pure ()
  | 0, some _ => failure
  | fuel + 1, some i => do
      setSum i
      let n ← get i
      propogateSumsUpFrom fuel n.parent

def propogateSumsUp (p : Option ℕ) : Prog (Memory T) Unit := do propogateSumsUpFrom (← bound) p

def setChildParent (p : ℕ) : Option ℕ → Prog (Memory T) Unit
  | none => pure ()
  | some i => setParent i (some p)

def replaceChild (p i : ℕ) : Option ℕ → Prog (Memory T) Unit
  | none => setRoot (some i)
  | some pp => do
      let d := if some p = (← get pp).left then Side.left else .right
      setChild pp d (some i)

/-- The two branches of the source are the two sides. -/
def rotate (i : ℕ) : Prog (Memory T) Unit := do
  let p ← getParent i
  let pp := (← get p).parent
  setParent i pp
  setParent p (some i)
  let d := if some i = (← get p).left then Side.left else .right
  let child := (← get i).child d.other
  setChild p d child
  setChild i d.other (some p)
  setChildParent p child
  setSum i
  setSum p
  replaceChild p i pp

def markChildBlack : Option ℕ → Prog (Memory T) Unit
  | none => pure ()
  | some i => markBlack i

/-- A red node with a red parent goes up, first over the parent if it is on the inner side. -/
def splitRed (i p : ℕ) : Prog (Memory T) Unit := do
  let pp ← getParent p
  markRed pp
  let pNode ← get p
  let ppNode ← get pp
  if (some i = pNode.left ∧ some p = ppNode.left) ∨ (some i = pNode.right ∧ some p = ppNode.right) then do
    rotate p
    markBlack p
  else do
    rotate i
    rotate i
    markBlack i

def split (i : ℕ) : Prog (Memory T) Unit := do
  let n ← get i
  markChildBlack n.left
  markChildBlack n.right
  match n.parent with
  | none => pure ()
  | some p => do
      markRed i
      if (← isBlack p) then pure () else splitRed i p

/-- The child on a side of a sibling goes up over it. -/
def turn (sibling : ℕ) (d : Side) : Prog (Memory T) ℕ := do
  let n ← get sibling
  rotate (← deref (n.child d))
  markRed sibling
  let p ← getParent sibling
  markBlack p
  pure p

/-- The child of the sibling on the far side is red then. -/
def turnSibling (i sibling : ℕ) : Prog (Memory T) ℕ := do
  let p ← get (← getParent i)
  let leftBlack ← leftIsBlack sibling
  let rightBlack ← rightIsBlack sibling
  if some i = p.left ∧ rightBlack then turn sibling .left
  else if some i = p.right ∧ leftBlack then turn sibling .right
  else pure sibling

def inheritMark (p i : ℕ) : Prog (Memory T) Unit := do
  if (← isBlack p) then pure () else markRed i

/-- The sibling goes up over the parent. -/
def raiseSibling (i sibling : ℕ) : Prog (Memory T) Unit := do
  rotate sibling
  inheritMark (← getParent i) sibling
  let n ← get sibling
  markBlack (← deref n.left)
  markBlack (← deref n.right)

/-- The end of `lengthen`, where the sibling has a red child. -/
def lengthenRed (i sibling : ℕ) : Prog (Memory T) Unit := do
  let sibling ← turnSibling i sibling
  raiseSibling i sibling

/-- A red sibling goes up, and another one takes its place. -/
def blackSibling (i p : ℕ) : Prog (Memory T) (Option ℕ) := do
  match ← sibling i with
  | none => pure none
  | some s =>
      if (← isBlack s) then pure (some s)
      else do
        markRed p
        markBlack s
        rotate s
        sibling i

/-- What `lengthen` does next to a black sibling, with the recursive call as `up`. -/
def lengthenBlack (up : ℕ → Prog (Memory T) Unit) (i : ℕ) : Option ℕ → Prog (Memory T) Unit
  | none => do up (← getParent i)
  | some s => do
      if (← leftIsBlack s) && (← rightIsBlack s) then do
        if (← isBlack (← getParent i)) then do
          markRed s
          up (← getParent i)
        else do
          markRed s
          markBlack (← getParent i)
      else lengthenRed i s

def lengthenFrom : ℕ → ℕ → Prog (Memory T) Unit
  | 0, _ => failure
  | fuel + 1, i => do
      let n ← get i
      if n.data.mark then markBlack i
      else match n.parent with
        | none => pure ()
        | some p => do
            let sib ← blackSibling i p
            lengthenBlack (lengthenFrom fuel) i sib

def lengthen (i : ℕ) : Prog (Memory T) Unit := do lengthenFrom ((← bound) + 1) i

variable [LinearOrder T]

/-- A place for a pointer to a node, a `Node **`. -/
inductive Slot
  | root
  | child (i : ℕ) (d : Side)

def Slot.read : Slot → Prog (Memory T) (Option ℕ)
  | .root => getRoot
  | .child i d => do
      let n ← get i
      pure (n.child d)

def Slot.write (p : Option ℕ) : Slot → Prog (Memory T) Unit
  | .root => setRoot p
  | .child i d => setChild i d p

def side (item key : T) : Side := if item < key then .left else .right

def lookupFrom (item : T) : ℕ → Slot → Prog (Memory T) Slot
  | fuel, np => do
      match ← np.read with
      | none => pure np
      | some i =>
          match fuel with
          | 0 => failure
          | fuel + 1 => do
              let n ← get i
              if n.data.key = item then pure np else lookupFrom item fuel (.child i (side item n.data.key))

def lookup (item : T) : Prog (Memory T) Slot := do lookupFrom item (← bound) .root

def splitFull (i : ℕ) : Prog (Memory T) Unit := do
  if !(← leftIsBlack i) && !(← rightIsBlack i) then split i else pure ()

/-- The loop of `insert`, which ends with the parent of the new node. -/
def insertFrom (item : T) : ℕ → Option ℕ → Option ℕ → Prog (Memory T) (Option ℕ)
  | _, p, none => pure p
  | 0, _, some _ => failure
  | fuel + 1, _, some i => do
      splitFull i
      let n ← get i
      if n.data.key = item then failure else insertFrom item fuel (some i) (n.child (side item n.data.key))

def new (item : T) (weight : ℚ) (parent : Option ℕ) : Prog (Memory T) ℕ := fun mem =>
  let (i, nodes) := mem.nodes.alloc ⟨parent, none, none, ⟨false, item, weight, 0⟩⟩
  some (i, { mem with nodes })

/-- The pointer to a new node. -/
def linkNew (item : T) (i : ℕ) : Option ℕ → Prog (Memory T) Unit
  | none => setRoot (some i)
  | some p => do
      let pNode ← get p
      setChild p (side item pNode.data.key) (some i)
      split i

def insert (item : T) (weight : ℚ) : Prog (Memory T) Unit := do
  let n ← bound
  let p ← insertFrom item ((n + 1) * (n + 1)) none (← getRoot)
  let i ← new item weight p
  linkNew item i p
  propogateSumsUp (some i)

/-- The loop that goes to the last node in the tree at a place. -/
def leftMaxFrom : ℕ → Slot → Prog (Memory T) Slot
  | 0, _ => failure
  | fuel + 1, leftMaxp => do
      let i ← deref (← leftMaxp.read)
      let n ← get i
      if n.right = none then pure leftMaxp else leftMaxFrom fuel (.child i .right)

/-- The child of a node that was taken out gets its parent. -/
def relinkChild (n : Node T) : Option ℕ → Prog (Memory T) Unit
  | none => pure ()
  | some child => do
      setParent child n.parent
      if n.data.mark then pure () else lengthen child

/-- A node with at most one child is taken out of its place. -/
def unlink (np : Slot) (i : ℕ) : Prog (Memory T) Unit := do
  let n ← get i
  let child := if n.left = none then n.right else n.left
  np.write child
  relinkChild n child
  let n ← get i
  propogateSumsUp n.parent
  fun mem => some ((), { mem with nodes := mem.nodes.free i })

def remove (item : T) : Prog (Memory T) Unit := do
  let np ← lookup item
  let i ← deref (← np.read)
  let n ← get i
  if n.left = none then unlink np i
  else do
    let leftMaxp ← leftMaxFrom (← bound) (.child i .left)
    let leftMax ← deref (← leftMaxp.read)
    let m ← get leftMax
    setData i fun a => { a with key := m.data.key, weight := m.data.weight }
    unlink leftMaxp leftMax

def update (item : T) (weight : ℚ) : Prog (Memory T) Unit := do
  let np ← lookup item
  let i ← deref (← np.read)
  setData i fun a => { a with weight }
  propogateSumsUp (some i)

def chooseFrom : ℕ → ℚ → ℕ → Prog (Memory T) T
  | 0, _, _ => failure
  | fuel + 1, w, i => do
      let n ← get i
      let left ← getSum n.left
      if n.left ≠ none ∧ w < left then do chooseFrom fuel w (← deref n.left)
      else
        let w := w - left
        if w < n.data.weight ∨ n.right = none then pure n.data.key
        else do chooseFrom fuel (w - n.data.weight) (← deref n.right)

def choose (p : ℚ) : Prog (Memory T) T := do
  if p < 0 ∨ 1 ≤ p then failure
  else do
    let root ← deref (← getRoot)
    let n ← get root
    chooseFrom (← bound) (n.data.sumWeights * p) root

def inTree (item : T) : Prog (Memory T) Bool := do
  let np ← lookup item
  let n ← np.read
  pure n.isSome

def getWeight (item : T) : Prog (Memory T) ℚ := do
  let np ← lookup item
  let i ← deref (← np.read)
  let n ← get i
  pure n.data.weight

inductive Op (T : Type)
  | insert (item : T) (weight : ℚ)
  | remove (item : T)
  | update (item : T) (weight : ℚ)

def exec (mem : Memory T) : Op T → Option (Unit × Memory T)
  | .insert item weight => insert item weight mem
  | .remove item => remove item mem
  | .update item weight => update item weight mem

/-- What the calls do to the items and their weights, in no order. An item is in only once. -/
def change (s : List (T × ℚ)) : Op T → Option (Unit × List (T × ℚ))
  | .insert item weight => if item ∈ s.map Prod.fst then none else some ((), (item, weight) :: s)
  | .remove item => if item ∈ s.map Prod.fst then some ((), s.filter fun e => e.1 ≠ item) else none
  | .update item weight =>
      if item ∈ s.map Prod.fst then some ((), s.map fun e => if e.1 = item then (item, weight) else e) else none

def total (s : List (T × ℚ)) : ℚ := (s.map Prod.snd).sum

/-- The weights of the items before `k`. -/
def below (s : List (T × ℚ)) (k : T) : ℚ := total (s.filter fun e => e.1 < k)

end Klee.DiscretePDF
