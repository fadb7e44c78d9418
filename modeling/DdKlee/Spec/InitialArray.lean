import DdKlee.Spec.Expr

/-! `getInitialArray` of `STPBuilder` and of `Z3Builder`, with the part of
`ArrayExprHash` that keeps the arrays. The solvers tell array variables apart by
their names. -/

namespace Klee

/-- A term of array sort: a variable, or one with elements written over. -/
inductive ArrayTerm
  | var (name : String) (indexWidth valueWidth : ℕ)
  | write (array : ArrayTerm) (index value : APInt)
deriving DecidableEq

/-- The name of the variable under the writes. -/
def ArrayTerm.name : ArrayTerm → String
  | .var name _ _ => name
  | .write array _ _ => array.name

/-- `_array_hash`. -/
abbrev ArrayExprHash := List (Array × ArrayTerm)

namespace ArrayExprHash

def lookupArrayExpr (hash : ArrayExprHash) (array : Array) : Option ArrayTerm := hash.lookup array

def hashArrayExpr (hash : ArrayExprHash) (array : Array) (exp : ArrayTerm) : ArrayExprHash :=
  (array, exp) :: hash.filter (·.1 ≠ array)

end ArrayExprHash

/-- The characters of a name that are kept in front of `uniqueId`; the difference
is one of `unsigned`. -/
def nameSpace (name uniqueId : String) : ℕ :=
  let room := (32#32 - BitVec.ofNat 32 uniqueId.length).toNat
  if name.length > room then room else name.length

def uniqueName (name : String) (size : ℕ) : String :=
  let uniqueId := Nat.repr size
  String.ofList (name.toList.take (nameSpace name uniqueId)) ++ uniqueId

def buildArray (name : String) (indexWidth valueWidth : ℕ) : ArrayTerm := .var name indexWidth valueWidth

namespace STPBuilder

/-- The concrete values of a constant array are written over its variable. -/
def flushConstants (root : Array) (arrayExpr : ArrayTerm) : ArrayTerm :=
  root.constantValues.zipIdx.foldl (fun prev (value, i) => .write prev (APInt.ofNat root.domain i) value) arrayExpr

def getInitialArray (arrHash : ArrayExprHash) (root : Array) : ArrayTerm × ArrayExprHash :=
  match arrHash.lookupArrayExpr root with
  | some arrayExpr => (arrayExpr, arrHash)
  | none =>
      let arrayExpr := buildArray (uniqueName root.name arrHash.length) root.domain root.range
      let arrayExpr := if root.isConstantArray then flushConstants root arrayExpr else arrayExpr
      (arrayExpr, arrHash.hashArrayExpr root arrayExpr)

end STPBuilder

/-- An equation between an element of an array and a value. -/
structure ArrayAssertion where
  array : ArrayTerm
  index : APInt
  value : APInt

structure Z3Builder where
  arrHash : ArrayExprHash := []
  constantArrayAssertions : List (Array × List ArrayAssertion) := []

namespace Z3Builder

/-- The concrete values of a constant array are asserted, once. -/
def assertConstants (b : Z3Builder) (root : Array) (arrayExpr : ArrayTerm) : Z3Builder :=
  if root.isConstantArray ∧ b.constantArrayAssertions.lookup root = none then
    let arrayAssertions := root.constantValues.zipIdx.map fun (value, i) =>
      { array := arrayExpr, index := APInt.ofNat root.domain i, value : ArrayAssertion }
    { b with constantArrayAssertions := (root, arrayAssertions) :: b.constantArrayAssertions }
  else b

def getInitialArray (b : Z3Builder) (root : Array) : ArrayTerm × Z3Builder :=
  match b.arrHash.lookupArrayExpr root with
  | some arrayExpr => (arrayExpr, b)
  | none =>
      let arrayExpr := buildArray (uniqueName root.name b.arrHash.length) root.domain root.range
      let b := b.assertConstants root arrayExpr
      (arrayExpr, { b with arrHash := b.arrHash.hashArrayExpr root arrayExpr })

end Z3Builder

/-- The arrays of a sequence, passed to one builder. -/
def initialArrays {S : Type} (getInitialArray : S → Array → ArrayTerm × S) : S → List Array → List ArrayTerm
  | _, [] => []
  | s, root :: roots => (getInitialArray s root).1 :: initialArrays getInitialArray (getInitialArray s root).2 roots

end Klee
