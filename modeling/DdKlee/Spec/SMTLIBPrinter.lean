import DdKlee.Lib.SmtLib
import DdKlee.Spec.Solver

/-! `ExprSMTLIBPrinter`: the script that is printed for a query, as terms, with
`-smtlib-abbreviation-mode` `none` or `let`. The order of `ref<Expr>`, which
numbers the bindings, is any linear order. -/

namespace Klee

open Expr
open SmtLib (Term Level Assert Script)

namespace ExprSMTLIBPrinter

inductive ConstantDisplayMode
  | binary
  | hex
  | decimal
deriving DecidableEq, Repr

inductive AbbreviationMode
  | abbrNone
  | abbrLet
deriving DecidableEq, Repr

structure Options where
  cdm : ConstantDisplayMode := .decimal
  abbrMode : AbbreviationMode := .abbrLet
  humanReadable : Bool := false

inductive SMTLIB_SORT
  | bitvector
  | bool
deriving DecidableEq, Repr

def getSort : Expr → SMTLIB_SORT
  | notOptimized src => getSort src
  | binary k l _ =>
      if k.isCmp then .bool
      else
        match k with
        | .and | .or | .xor => if l.getWidth = 1 then .bool else .bitvector
        | _ => .bitvector
  | constant c => if c.width = 1 then .bool else .bitvector
  | .not e => if e.getWidth = 1 then .bool else .bitvector
  | _ => .bitvector

/-- The members that `scan` fills. What is abbreviated is a set: its first
numbering is replaced by the one of `scanBindingExprDeps`. -/
structure Scan where
  seenExprs : List Expr := []
  usedArrays : List Array := []
  haveConstantArray : Bool := false
  bindings : List Expr := []

mutual

def scan : Expr → Scan → Scan
  | constant _, s => s
  | notOptimized src, s => visit (notOptimized src) s (scan src)
  | .read root head i, s =>
      visit (.read root head i) s fun s =>
        if root ∈ s.usedArrays then scan i s
        else
          let s := { s with
            usedArrays := s.usedArrays ++ [root]
            haveConstantArray := s.haveConstantArray || root.isConstantArray }
          -- the update list is scanned when its array is recorded
          scan i (scanUpdates head s)
  | select c t f, s => visit (select c t f) s fun s => scan f (scan t (scan c s))
  | concat l r, s => visit (concat l r) s fun s => scan r (scan l s)
  | extract e off w, s => visit (extract e off w) s (scan e)
  | .not e, s => visit (.not e) s (scan e)
  | .cast k src w, s => visit (.cast k src w) s (scan src)
  | binary k l r, s => visit (binary k l r) s fun s => scan r (scan l s)
where
  /-- An expression that was seen before is abbreviated. -/
  visit (e : Expr) (s : Scan) (enter : Scan → Scan) : Scan :=
    if e ∈ s.seenExprs then
      if e ∈ s.bindings then s else { s with bindings := s.bindings ++ [e] }
    else enter { s with seenExprs := e :: s.seenExprs }

def scanUpdates : UpdateNode → Scan → Scan
  | .null, s => s
  | .node next i v, s => scanUpdates next (scan v (scan i s))

end

def scanExprs (q : Query) : Scan := scan q.expr (q.constraints.foldl (fun s c => scan c s) {})

/-- The bindings that an expression uses through its kids, not looking into
them. -/
def usesSubExprs (bindings : List Expr) : Expr → List Expr
  | constant _ => []
  | notOptimized src | extract src _ _ | .not src | .cast _ src _ | .read _ _ src => kid src (usesSubExprs bindings src)
  | select c t f =>
      kid c (usesSubExprs bindings c) ++ kid t (usesSubExprs bindings t) ++ kid f (usesSubExprs bindings f)
  | concat l r | binary _ l r => kid l (usesSubExprs bindings l) ++ kid r (usesSubExprs bindings r)
where
  kid (e : Expr) (below : List Expr) : List Expr := if e ∈ bindings then [e] else below

/-- The dependencies that are left, and the bindings that lost their last one. -/
structure Deps where
  uses : List (Expr × List Expr)
  nonDepBindings : List Expr := []

/-- The loop over the bindings that depend on `e`. -/
def Deps.erase (e : Expr) : List (Expr × List Expr) → List Expr → Deps
  | [], next => ⟨[], next⟩
  | (x, uses) :: rest, next =>
      if e ∈ uses then
        let uses := uses.filter (· ≠ e)
        let d := erase e rest (if uses.isEmpty then next ++ [x] else next)
        { d with uses := (x, uses) :: d.uses }
      else
        let d := erase e rest next
        { d with uses := (x, uses) :: d.uses }

/-- The bindings of a level are numbered, and freed in the others. -/
def unrollLevel : List Expr → Deps → Deps
  | [], d => d
  | e :: level, d => unrollLevel level (Deps.erase e d.uses d.nonDepBindings)

/-- The loop that unrolls the dependency tree. A round frees a binding at least,
so that the number of bindings is fuel enough. -/
def unroll : ℕ → ℕ → List Expr → List (Expr × List Expr) → List (List (Expr × ℕ))
  | 0, _, _, _ => []
  | fuel + 1, counter, level, uses =>
      if level.isEmpty then []
      else
        let d := unrollLevel level ⟨uses, []⟩
        level.zip (List.range' counter level.length) :: unroll fuel (counter + level.length) d.nonDepBindings d.uses

variable [LinearOrder Expr]

/-- `scanBindingExprDeps`. -/
def orderedBindings (bindings : List Expr) : List (List (Expr × ℕ)) :=
  let uses := (inOrder bindings.toFinset).map fun e => (e, usesSubExprs bindings e)
  unroll bindings.length 1 ((uses.filter (·.2.isEmpty)).map Prod.fst) uses

/-- `APInt::toString` of an unsigned number. -/
def toString (radix n : ℕ) : List ℕ := if n = 0 then [0] else (Nat.digits radix n).reverse

/-- `count` zeros in front, where `count` is an `unsigned`. -/
def zeroPad (width : ℕ) (value : List ℕ) : List ℕ :=
  List.replicate ((width + 2 ^ 32 - value.length) % 2 ^ 32) 0 ++ value

def printConstant (cdm : ConstantDisplayMode) (c : APInt) : Term :=
  if ConstantExpr.isTrue c then .true
  else if ConstantExpr.isFalse c then .false
  else
    match cdm with
    | .binary => .bin (zeroPad c.width (toString 2 c.toNat))
    | .hex => .hex (zeroPad (c.width / 4) (toString 16 c.toNat))
    | .decimal => .dec (toString 10 c.toNat) c.width

def printCastToSort (e : Expr) (t : Term) : SMTLIB_SORT → Term
  -- the expression is a bool, or a bit-vector
  | .bitvector => .ite t (.dec [1] 1) (.dec [0] 1)
  | .bool => .cmp .ugt t (.dec [0] e.getWidth)

variable (cdm : ConstantDisplayMode) (bindings : List (Expr × ℕ))

/-- The variable of a bound expression. -/
def abbreviate (e : Expr) (full : Term) : Term :=
  match bindings.lookup e with
  | some n => .var n
  | none => full

/-- `printExpression` over the term that `printFullExpression` gives. -/
def printExpression (e : Expr) (full : Term) (expectedSort : SMTLIB_SORT) : Term :=
  let t := abbreviate bindings e full
  if getSort e ≠ expectedSort then printCastToSort e t expectedSort else t

/-- A constant made on the way. -/
def printNumber (n width : ℕ) : Term :=
  let e := ConstantExpr.alloc n width
  printExpression bindings e (printConstant cdm (APInt.ofNat width n)) .bitvector

/-- `getSMTLIBKeyword` for the binary kinds. The logical ones have a keyword for
either sort. -/
inductive Keyword
  | equal
  | distinct
  | ashr
  | logical (op : SmtLib.BoolOp) (bvOp : SmtLib.BvOp)
  | arith (op : SmtLib.BvOp)
  | compare (p : SmtLib.BvPred)

def getSMTLIBKeyword : BinaryKind → Keyword
  | .add => .arith .add
  | .sub => .arith .sub
  | .mul => .arith .mul
  | .udiv => .arith .udiv
  | .sdiv => .arith .sdiv
  | .urem => .arith .urem
  | .srem => .arith .srem
  | .and => .logical .and .and
  | .or => .logical .or .or
  | .xor => .logical .xor .xor
  | .shl => .arith .shl
  | .lshr => .arith .lshr
  | .ashr => .ashr
  | .eq => .equal
  | .ne => .distinct
  | .ult => .compare .ult
  | .ule => .compare .ule
  | .ugt => .compare .ugt
  | .uge => .compare .uge
  | .slt => .compare .slt
  | .sle => .compare .sle
  | .sgt => .compare .sgt
  | .sge => .compare .sge

/-- The cases of `printFullExpression` for binary kinds, over what prints the
operands at a sort. -/
def printBinary (k : BinaryKind) (l : Expr) (left right : SMTLIB_SORT → Term) : Term :=
  match getSMTLIBKeyword k with
  | .equal => .eq (left (getSort l)) (right (getSort l))
  | .distinct => .distinct (left (getSort l)) (right (getSort l))
  | .ashr =>
      -- bvashr fills with the sign where the shift is by the width or more
      .ite (.cmp .uge (right .bitvector) (printNumber cdm bindings l.getWidth l.getWidth))
        (printNumber cdm bindings 0 l.getWidth) (.bv .ashr (left .bitvector) (right .bitvector))
  | .logical op bvOp =>
      if l.getWidth = 1 then .bool op (left .bool) (right .bool)
      else .bv bvOp (left .bitvector) (right .bitvector)
  | .arith op => .bv op (left .bitvector) (right .bitvector)
  | .compare p => .cmp p (left .bitvector) (right .bitvector)

mutual

def printFullExpression : Expr → Term
  | constant c => printConstant cdm c
  | notOptimized src => printExpression bindings src (printFullExpression src) (getSort src)
  | .read root head i =>
      .select (printUpdatesAndArray root head) (printExpression bindings i (printFullExpression i) .bitvector)
  | select c t f =>
      .ite (printExpression bindings c (printFullExpression c) .bool)
        (printExpression bindings t (printFullExpression t) .bitvector)
        (printExpression bindings f (printFullExpression f) .bitvector)
  | concat l r =>
      .concat (printExpression bindings l (printFullExpression l) .bitvector)
        (printExpression bindings r (printFullExpression r) .bitvector)
  | extract e off w =>
      .extract (off + w - 1) off (printExpression bindings e (printFullExpression e) .bitvector)
  | .not e =>
      if e.getWidth = 1 then .not (printExpression bindings e (printFullExpression e) .bool)
      else .bvnot (printExpression bindings e (printFullExpression e) .bitvector)
  | .cast .zext src w =>
      .zeroExtend (w - src.getWidth) (printExpression bindings src (printFullExpression src) .bitvector)
  | .cast .sext src w =>
      .signExtend (w - src.getWidth) (printExpression bindings src (printFullExpression src) .bitvector)
  | binary k l r =>
      printBinary cdm bindings k l (printExpression bindings l (printFullExpression l))
        (printExpression bindings r (printFullExpression r))

def printUpdatesAndArray (root : Array) : UpdateNode → Term
  | .null => .symbol root.name
  | .node next i v =>
      .store (printUpdatesAndArray root next) (printExpression bindings i (printFullExpression i) .bitvector)
        (printExpression bindings v (printFullExpression v) .bitvector)

end

def print (e : Expr) (s : SMTLIB_SORT) : Term := printExpression bindings e (printFullExpression cdm bindings e) s

/-- The nested `let`s: the bindings of a level may use those of the levels
before. -/
def printLevels : List (Expr × ℕ) → List (List (Expr × ℕ)) → List Level
  | _, [] => []
  | bindings, level :: levels =>
      level.map (fun (e, n) => (n, print cdm bindings e (getSort e))) :: printLevels (bindings ++ level) levels

def printAssert (levels : List (List (Expr × ℕ))) (e : Expr) : Assert :=
  ⟨printLevels cdm [] levels, print cdm levels.flatten e .bool⟩

/-- `printArrayDeclarations`. -/
def sortedArrays (s : Scan) : List Array := s.usedArrays.mergeSort fun a b => a.name ≤ b.name

def printConstantArray (array : Array) : List Assert :=
  array.constantValues.zipIdx.map fun (ce, byteIndex) =>
    ⟨[], .eq (.select (.symbol array.name) (.dec (toString 10 byteIndex) array.domain)) (printConstant cdm ce)⟩

variable (opts : Options) (q : Query)

def queryAssert : Expr := q.constraints.foldl (fun e c => AndExpr.create e c) q.expr.createIsZero

/-- The expressions that are asserted: one for the whole query, since the
bindings are scoped within one assertion, or one for each constraint. -/
def asserted : List Expr :=
  if opts.humanReadable && opts.abbrMode == .abbrNone then q.constraints ++ [q.expr.createIsZero]
  else [queryAssert q]

/-- The levels that the `let`s of an assertion are printed from. -/
def boundLevels : List (List (Expr × ℕ)) :=
  match opts.abbrMode with
  | .abbrLet => orderedBindings (scanExprs q).bindings
  | .abbrNone => []

/-- `generateOutput` without the options, the logic and the action. -/
def generateOutput : Script :=
  let s := scanExprs q
  { decls := (sortedArrays s).map fun a => (a.name, a.domain, a.range)
    asserts :=
      (if s.haveConstantArray then (sortedArrays s).flatMap (printConstantArray opts.cdm) else []) ++
        (asserted opts q).map (printAssert opts.cdm (boundLevels opts q)) }

end ExprSMTLIBPrinter

end Klee
