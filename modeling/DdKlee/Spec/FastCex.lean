import DdKlee.Spec.Evaluator
import DdKlee.Spec.RangeEvaluator
import DdKlee.Spec.Solver

/-! `FastCexSolver`: for every array element a range of values to try and a
range of values the constraints allow, both narrowed by the constraints in
order. `none` is a failed assertion, an access outside of a vector, undefined
arithmetic or fuel that ran out. -/

namespace Klee

open Expr

/-- The contents of one object, which start as all bytes. -/
structure CexObjectData where
  possibleContents : ℕ → ValueRange := fun _ => ⟨0, 255⟩
  exactContents : ℕ → ValueRange := fun _ => ⟨0, 255⟩

namespace CexObjectData

variable (cod : CexObjectData) (index : ℕ)

def setPossibleValues (values : ValueRange) : CexObjectData :=
  { cod with possibleContents := Function.update cod.possibleContents index values }

/-- The value is passed as an `unsigned char`. -/
def setPossibleValue (value : ℕ) : CexObjectData :=
  cod.setPossibleValues index (.ofValue (value % 2 ^ 8))

def setExactValues (values : ValueRange) : CexObjectData :=
  { cod with exactContents := Function.update cod.exactContents index values }

/-- Some possible value. No possible range is empty. -/
def getPossibleValue : ℕ :=
  let cvd := cod.possibleContents index
  (cvd.m_min + (cvd.m_max - cvd.m_min) / 2) % 2 ^ 8

end CexObjectData

structure CexData where
  objects : Array → Option CexObjectData := fun _ => none

namespace CexData

def setObject (cd : CexData) (array : Array) (cod : CexObjectData) : CexData :=
  { objects := Function.update cd.objects array (some cod) }

/-- The data of the array, and the map with an entry for it. -/
def getObjectData (cd : CexData) (array : Array) : CexObjectData × CexData :=
  match cd.objects array with
  | some cod => (cod, cd)
  | none => ({}, cd.setObject array {})

/-- The result of propagating into one operand. -/
abbrev Propogate := ValueRange → CexData → Option CexData

def propogatePossibleRead (root : Array) (index : Expr) : Propogate := fun range cd =>
  let (cod, cd) := cd.getObjectData root
  match index with
  | constant ce =>
      if ce.width ≤ 64 then
        let index := ce.toNat
        if index < root.size then
          -- a fixed range is set even if it conflicts with the previous one
          if range.isFixed then some (cd.setObject root (cod.setPossibleValue index range.m_min))
          else
            let tmp := (cod.possibleContents index).set_intersection range
            if tmp.isEmpty then some cd else some (cd.setObject root (cod.setPossibleValues index tmp))
        else some cd
      else none
  | _ => some cd

/-- And for `value` false, Or for `value` true: one operand is enough. The check
whether the left one worked looks for true in both. -/
def propogateEither (left right : Expr) (propogateLeft propogateRight : Propogate) (value : ℕ)
    (cd : CexData) : Option CexData := do
  if (← CexRangeEvaluator.evaluate left).mustBe value || (← CexRangeEvaluator.evaluate right).mustBe value
  then return cd
  else
    let cd ← propogateLeft (.ofValue value) cd
    if (← CexRangeEvaluator.evaluate left).mustBe 1 then return cd
    else propogateRight (.ofValue value) cd

def propogateUnless (known : ValueRange) (propogate : Propogate) (value : ℕ) (cd : CexData) :
    Option CexData :=
  if known.mustBe value then some cd else propogate (.ofValue value) cd

/-- And for `value` true, Or for `value` false: both operands are needed. -/
def propogateBoth (left right : Expr) (propogateLeft propogateRight : Propogate) (value : ℕ)
    (cd : CexData) : Option CexData := do
  let l ← CexRangeEvaluator.evaluate left
  let r ← CexRangeEvaluator.evaluate right
  let cd ← propogateUnless l propogateLeft value cd
  propogateUnless r propogateRight value cd

/-- The cases of Ult and Ule, with the ranges to force the right and the left
operand into, for a fixed value of the other one. -/
def propogateCompare (left right : Expr) (propogateLeft propogateRight : Propogate)
    (rightRange leftRange : ℕ → ℕ → ValueRange) (cd : CexData) : Option CexData := do
  let l ← CexRangeEvaluator.evaluate left
  let r ← CexRangeEvaluator.evaluate right
  let maxValue ← bits64.maxValueOfNBits right.getWidth
  if l.isFixed then propogateRight (rightRange l.m_min maxValue) cd
  else if r.isFixed then propogateLeft (leftRange r.m_min maxValue) cd
  else return cd

/-- The `int` expression `1 << n` converted to `uint64_t`. -/
def intShiftOne (n : ℕ) : Option ℕ :=
  if n < 31 then some (2 ^ n) else if n = 31 then some (2 ^ 64 - 2 ^ 31) else none

/-- The input range of a sign extension: the output range without the impossible
values, truncated. -/
def inputRange (inBits outBits : ℕ) (range : ValueRange) : Option ValueRange := do
  if inBits = 0 then none
  else
    let low ← intShiftOne (inBits - 1)
    let high := (← bits64.maxValueOfNBits outBits) - (← bits64.maxValueOfNBits (inBits - 1)) - 1
    (range.set_difference ⟨low, high⟩).binaryAnd (.ofValue (← bits64.maxValueOfNBits inBits))

def propogatePossibleValues : Expr → Propogate
  | .read root _ index => propogatePossibleRead root index
  | select c t f => fun range cd => do
      let cond ← CexRangeEvaluator.evaluate c
      if cond.isFixed then
        if cond.m_min ≠ 0 then propogatePossibleValues t range cd
        else propogatePossibleValues f range cd
      else
        -- imprecise: just force both into the range
        let cd ← propogatePossibleValues t range cd
        propogatePossibleValues f range cd
  | concat l r => fun range cd => do
      let LSBWidth := r.getWidth
      let MSBWidth := r.getWidth
      let cd ← propogatePossibleValues l (← range.extract LSBWidth (LSBWidth + MSBWidth)) cd
      propogatePossibleValues r (← range.extract 0 LSBWidth) cd
  | .cast .zext src _ => fun range cd => do
      propogatePossibleValues src (range.set_intersection (← ValueRange.ofWidth src.getWidth)) cd
  | .cast .sext src w => fun range cd => do
      propogatePossibleValues src (← inputRange src.getWidth w range) cd
  | binary .add l r => fun range cd =>
      match l with
      | constant ce =>
          if ce.width ≤ 64 ∧ range.isEmpty = false then
            -- C_0 + X in [MIN, MAX) ==> X in [MIN - C_0, MAX - C_0)
            let nrange : ValueRange := ⟨((APInt.ofNat ce.width range.m_min).sub ce).toNat,
              ((APInt.ofNat ce.width range.m_max).sub ce).toNat⟩
            if nrange.isEmpty then some cd else propogatePossibleValues r nrange cd
          else some cd
      | _ => some cd
  | binary .and l r => fun range cd =>
      if l.getWidth = 1 ∧ range.isFixed = true then
        if range.m_min = 0 then
          propogateEither l r (propogatePossibleValues l) (propogatePossibleValues r) 0 cd
        else propogateBoth l r (propogatePossibleValues l) (propogatePossibleValues r) 1 cd
      else some cd
  | binary .or l r => fun range cd =>
      if l.getWidth = 1 ∧ range.isFixed = true then
        if range.m_min ≠ 0 then
          propogateEither l r (propogatePossibleValues l) (propogatePossibleValues r) 1 cd
        else propogateBoth l r (propogatePossibleValues l) (propogatePossibleValues r) 0 cd
      else some cd
  | binary .eq l r => fun range cd =>
      match l with
      | constant ce =>
          if range.isFixed = true ∧ ce.width ≤ 64 then
            let value := ce.toNat
            if range.m_min ≠ 0 then propogatePossibleValues r (.ofValue value) cd
            else if value = 0 then do
              propogatePossibleValues r ⟨1, ← bits64.maxValueOfNBits ce.width⟩ cd
            else propogatePossibleValues r ⟨0, value - 1⟩ cd
          else some cd
      | _ => some cd
  | .not e => fun range cd =>
      if e.getWidth = 1 ∧ range.isFixed = true then
        propogatePossibleValues e (.ofValue (if range.m_min = 0 then 1 else 0)) cd
      else some cd
  | binary .ult l r => fun range cd =>
      if range.isFixed then
        if range.m_min ≠ 0 then
          propogateCompare l r (propogatePossibleValues l) (propogatePossibleValues r)
            (fun v maxValue => ⟨(v + 1) % 2 ^ 64, maxValue⟩) (fun v _ => ⟨0, (v + 2 ^ 64 - 1) % 2 ^ 64⟩) cd
        else
          propogateCompare l r (propogatePossibleValues l) (propogatePossibleValues r)
            (fun v _ => ⟨0, v⟩) (fun v maxValue => ⟨v, maxValue⟩) cd
      else some cd
  | binary .ule l r => fun range cd =>
      if range.isFixed then
        if range.m_min ≠ 0 then
          propogateCompare l r (propogatePossibleValues l) (propogatePossibleValues r)
            (fun v maxValue => ⟨v, maxValue⟩) (fun v _ => ⟨0, v⟩) cd
        else
          propogateCompare l r (propogatePossibleValues l) (propogatePossibleValues r)
            (fun v _ => ⟨0, (v + 2 ^ 64 - 1) % 2 ^ 64⟩) (fun v maxValue => ⟨(v + 1) % 2 ^ 64, maxValue⟩) cd
      else some cd
  | binary .ne _ _ | binary .ugt _ _ | binary .uge _ _ | binary .sgt _ _ | binary .sge _ _ =>
      fun _ _ => none
  | _ => fun _ cd => some cd

/-- `cvd` with `low` as its minimum if that is more, which is asserted to be in
the range then. -/
def raiseMin (low : ℕ) (cvd : ValueRange) : Option ValueRange :=
  if cvd.isEmpty then none
  else if low > cvd.m_min then if low ≤ cvd.m_max then some ⟨low, cvd.m_max⟩ else none
  else some cvd

def lowerMax (high : ℕ) (cvd : ValueRange) : Option ValueRange :=
  if cvd.isEmpty then none
  else if high < cvd.m_max then if high ≥ cvd.m_min then some ⟨cvd.m_min, high⟩ else none
  else some cvd

/-- The exact range of an element, narrowed to what its read lies in. -/
def narrow (range cvd : ValueRange) : Option ValueRange := do
  lowerMax (← range.max) (← raiseMin (← range.min) cvd)

/-- A read that no update can be hit by: the initial element, if its index is
known. -/
def propogateExactInitial (root : Array) (index range : ValueRange) (cd : CexData) : Option CexData :=
  if index.isFixed then
    if root.isConstantArray then do
      let _ ← root.constantValues[index.m_min]?
      return cd
    else if index.m_min < root.size then do
      let (cod, cd) := cd.getObjectData root
      let cvd ← narrow range (cod.exactContents index.m_min)
      return cd.setObject root (cod.setExactValues index.m_min cvd)
    else none
  else some cd

mutual

def propogateExactValues : Expr → Propogate
  | .read root head index => fun range cd => do
      let (_, cd) := cd.getObjectData root
      propogateExactRead root index (← CexRangeEvaluator.evaluate index) head range cd
  | binary .eq l r => fun range cd =>
      match l with
      | constant ce =>
          if range.isFixed = true ∧ ce.width ≤ 64 then
            let value := ce.toNat
            -- a false equality of Booleans fixes the other value
            if range.m_min ≠ 0 then propogateExactValues r (.ofValue value) cd
            else if r.getWidth = 1 then
              propogateExactValues r (.ofValue (if value = 0 then 1 else 0)) cd
            else some cd
          else some cd
      | _ => some cd
  | .not e => fun range cd =>
      if e.getWidth = 1 ∧ range.isFixed = true then
        propogateExactValues e (.ofValue (if range.m_min = 0 then 1 else 0)) cd
      else some cd
  | binary .ne _ _ | binary .ugt _ _ | binary .uge _ _ | binary .sgt _ _ | binary .sge _ _ =>
      fun _ _ => none
  | _ => fun _ cd => some cd

/-- The loop over the updates of a read. -/
def propogateExactRead (root : Array) (readIndex : Expr) (index : ValueRange) : UpdateNode → Propogate
  | .null => propogateExactInitial root index
  | .node next i v => fun range cd => do
      let ui ← CexRangeEvaluator.evaluate i
      -- if these indices can't alias, continue propagation
      if !ui.mayEqual index then propogateExactRead root readIndex index next range cd
      else if ui.mustEqual index || readIndex = i then propogateExactValues v range cd
      else return cd

end

/-- The read of an element that is left as it is. -/
def initialRead (array : Array) (index : ℕ) : Expr :=
  ReadExpr.create ⟨array, .null⟩ (ConstantExpr.alloc index array.domain)

def possibleInitialValue (cd : CexData) (array : Array) (index : ℕ) : Expr :=
  if index ≥ array.size then initialRead array index
  else
    match cd.objects array with
    | none => ConstantExpr.alloc 127 array.range
    | some cod => ConstantExpr.alloc (cod.getPossibleValue index) array.range

def exactInitialValue (cd : CexData) (array : Array) (index : ℕ) : Expr :=
  if index ≥ array.size then initialRead array index
  else
    match cd.objects array with
    | none => initialRead array index
    | some cod =>
        let cvd := cod.exactContents index
        if !cvd.isFixed then initialRead array index else ConstantExpr.alloc cvd.m_min array.range

variable (useVisitorHash : Bool) (fuel : ℕ)

def evaluatePossible (cd : CexData) (e : Expr) : Option Expr :=
  ((ExprEvaluator cd.possibleInitialValue).visit useVisitorHash fuel [] e).map Prod.fst

def evaluateExact (cd : CexData) (e : Expr) : Option Expr :=
  ((ExprEvaluator cd.exactInitialValue).visit useVisitorHash fuel [] e).map Prod.fst

end CexData

namespace FastCexSolver

variable (useVisitorHash : Bool) (fuel : ℕ)

/-- An expression is known to have a Boolean value. -/
def propogateValue (e : Expr) (value : ℕ) (cd : CexData) : Option CexData := do
  let cd ← CexData.propogatePossibleValues e (.ofValue value) cd
  CexData.propogateExactValues e (.ofValue value) cd

/-- The propagation of `propogateValues`. -/
def propogateQuery (query : Query) (checkExpr : Bool) : Option CexData := do
  let cd ← query.constraints.foldlM (fun cd c => propogateValue c 1 cd) {}
  if checkExpr then propogateValue query.expr 0 cd else return cd

/-- Whether the possible values still satisfy everything after `c`. -/
def stillSatisfying (cd : CexData) (hasSatisfyingAssignment : Bool) (c : Expr) : Option Bool :=
  if hasSatisfyingAssignment then (cd.evaluatePossible useVisitorHash fuel c).map isTrue else some false

/-- The last loop of `propogateValues`. The result is whether the query was
proven valid or invalid, or `none` in the inner option. -/
def checkConstraints (cd : CexData) : List Expr → Bool → Option (Option Bool)
  | [], hasSatisfyingAssignment => some (if hasSatisfyingAssignment then some false else none)
  | c :: cs, hasSatisfyingAssignment => do
      let possible ← stillSatisfying useVisitorHash fuel cd hasSatisfyingAssignment c
      let exact ← cd.evaluateExact useVisitorHash fuel c
      if exact.isFalse then return some true else checkConstraints cd cs possible

/-- Propagates the value ranges and returns them with the verdict, if there is
one. -/
def propogateValues (query : Query) (checkExpr : Bool) : Option (CexData × Option Bool) := do
  let cd ← propogateQuery query checkExpr
  if checkExpr then
    let possible ← cd.evaluatePossible useVisitorHash fuel query.expr
    let exact ← cd.evaluateExact useVisitorHash fuel query.expr
    if exact.isTrue then return (cd, some true)
    else return (cd, ← checkConstraints useVisitorHash fuel cd query.constraints possible.isFalse)
  else return (cd, ← checkConstraints useVisitorHash fuel cd query.constraints true)

def computeTruth (query : Query) : Option PartialValidity := do
  match ← propogateValues useVisitorHash fuel query true with
  | (_, none) => return .none
  | (_, some isValid) => return if isValid then .mustBeTrue else .mayBeFalse

/-- The inner option is the return value. -/
def computeValue (query : Query) : Option (Option APInt) := do
  match ← propogateValues useVisitorHash fuel query false with
  | (cd, some false) =>
      match ← cd.evaluatePossible useVisitorHash fuel query.expr with
      | constant c => return some c
      | _ => return none
  | _ => return none

/-- The bytes of an array, or `none` in the inner option when one of them does
not evaluate to a constant. -/
def initialValuesOf (cd : CexData) (array : Array) : List ℕ → Option (Option (List (BitVec 8)))
  | [] => some (some [])
  | i :: is => do
      match ← cd.evaluatePossible useVisitorHash fuel (CexData.initialRead array i) with
      | constant c => return (← initialValuesOf cd array is).map (BitVec.ofNat 8 c.toNat :: ·)
      | _ => return none

def initialValues (cd : CexData) : List Array → Option (Option (List (List (BitVec 8))))
  | [] => some (some [])
  | array :: objects => do
      match ← initialValuesOf useVisitorHash fuel cd array (List.range array.size) with
      | some data => return (← initialValues cd objects).map (data :: ·)
      | none => return none

/-- The inner option is the return value, with `hasSolution` and the values. -/
def computeInitialValues (query : Query) (objects : List Array) :
    Option (Option (Bool × List (List (BitVec 8)))) := do
  match ← propogateValues useVisitorHash fuel query true with
  | (_, none) => return none
  | (_, some true) => return some (false, [])
  | (cd, some false) => return (← initialValues useVisitorHash fuel cd objects).map ((true, ·))

end FastCexSolver

end Klee
