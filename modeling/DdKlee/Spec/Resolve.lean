import DdKlee.Spec.AddressSpace
import DdKlee.Spec.TimingSolver

/-! Pointer resolution: the objects of an address space that a pointer may point
to. The search starts at the address that the pointer has in one model, goes down
to lower objects, and then up to higher ones. -/

namespace Klee

open Expr

namespace MemoryObject

variable (ctx : Context) (mo : MemoryObject)

/-- The address has the width of pointers, which `ConstantExpr::create` asserts. -/
def getBaseExpr : Expr := ConstantExpr.alloc mo.address ctx.getPointerWidth

def getSizeExpr : Expr := ConstantExpr.alloc mo.size ctx.getPointerWidth

def getOffsetExpr (pointer : Expr) : Expr := SubExpr.create pointer (mo.getBaseExpr ctx)

def getBoundsCheckOffset (offset : Expr) : Expr :=
  if mo.size = 0 then EqExpr.create offset (ConstantExpr.alloc 0 ctx.getPointerWidth)
  else UltExpr.create offset (mo.getSizeExpr ctx)

def getBoundsCheckPointer (pointer : Expr) : Expr := mo.getBoundsCheckOffset ctx (mo.getOffsetExpr ctx pointer)

/-- `getBoundsCheckOffset` for an access of some bytes. -/
def getBoundsCheckOffsetBytes (offset : Expr) (bytes : ℕ) : Expr :=
  if bytes ≤ mo.size then
    UltExpr.create offset (ConstantExpr.alloc ((mo.size - bytes + 1) % 2 ^ 32) ctx.getPointerWidth)
  else ConstantExpr.alloc 0 1

def getBoundsCheckPointerBytes (pointer : Expr) (bytes : ℕ) : Expr :=
  mo.getBoundsCheckOffsetBytes ctx (mo.getOffsetExpr ctx pointer) bytes

end MemoryObject

abbrev ObjectPair := MemoryObject × ℕ

namespace AddressSpace

variable (ctx : Context) (as : AddressSpace)

/-- `resolveOne` at a constant address. -/
def resolveOneConstant (addr : APInt) : Option ObjectPair := do
  let address := addr.toNat
  let res ← as.objects.lookupPrevious address
  if res.1.size = 0 ∧ address = res.1.address ∨ address - res.1.address < res.1.size then some res else none

section

variable (ts : TimingSolver) (constraints : List Expr)

/-- The loops of `resolveOne`, which end with an object, or with none when the
bound is reached. -/
def resolveOneDown (address : Expr) : List ObjectPair → Option (Option ObjectPair)
  | [] => some none
  | op :: ops => do
      if ← ts.mayBeTrue constraints (op.1.getBoundsCheckPointer ctx address) then some (some op)
      else if ← ts.mustBeTrue constraints (UgeExpr.create address (op.1.getBaseExpr ctx)) then some none
      else resolveOneDown address ops

def resolveOneUp (address : Expr) : List ObjectPair → Option (Option ObjectPair)
  | [] => some none
  | op :: ops => do
      if ← ts.mustBeTrue constraints (UltExpr.create address (op.1.getBaseExpr ctx)) then some none
      else if ← ts.mayBeTrue constraints (op.1.getBoundsCheckPointer ctx address) then some (some op)
      else resolveOneUp address ops

/-- `resolveOne`: no object if `success` is false. -/
def resolveOne : Expr → Option (Option ObjectPair)
  | constant c => some (as.resolveOneConstant c)
  | address => do
      -- try cheap search, will succeed for any inbounds pointer
      let cex ← ts.getValue constraints address
      let start := cex.toNat
      let cheap := (as.objects.lookupPrevious start).filter fun op => start - op.1.address < op.1.size
      match cheap with
      | some op => some (some op)
      | none => do
          -- didn't work, now we have to search
          match ← resolveOneDown ctx ts constraints address (as.objects.upTo start).reverse with
          | some op => some (some op)
          | none => resolveOneUp ctx ts constraints address (as.objects.above start)

/-- The result of `checkPointerInObject`. -/
inductive Resolution
  | complete
  | incomplete
  | unfinished
deriving DecidableEq

def checkPointerInObject (p : Expr) (op : ObjectPair) (rl : List ObjectPair) (maxResolutions : ℕ) :
    Resolution × List ObjectPair :=
  let inBounds := op.1.getBoundsCheckPointer ctx p
  match ts.mayBeTrue constraints inBounds with
  | none => (.incomplete, rl)
  | some false => (.unfinished, rl)
  | some true =>
      let rl := rl ++ [op]
      if rl.length = 1 then
        match ts.mustBeTrue constraints inBounds with
        | none => (.incomplete, rl)
        | some true => (.complete, rl)
        | some false => (.unfinished, rl)
      else if rl.length = maxResolutions then (.incomplete, rl)
      else (.unfinished, rl)

/-- The loops of `resolve`. The first component is the result if the function
returns there. The clock says whether the time is over at the turn of an object. -/
def resolveDown (timedOut : MemoryObject → Bool) (p : Expr) (maxResolutions : ℕ) :
    List ObjectPair → List ObjectPair → Option Bool × List ObjectPair
  | [], rl => (none, rl)
  | op :: ops, rl =>
      if timedOut op.1 then (some true, rl)
      else
        match checkPointerInObject ctx ts constraints p op rl maxResolutions with
        | (.complete, rl) => (some false, rl)
        | (.incomplete, rl) => (some true, rl)
        | (.unfinished, rl) =>
            match ts.mustBeTrue constraints (UgeExpr.create p (op.1.getBaseExpr ctx)) with
            | none => (some true, rl)
            | some true => (none, rl)
            | some false => resolveDown timedOut p maxResolutions ops rl

def resolveUp (timedOut : MemoryObject → Bool) (p : Expr) (maxResolutions : ℕ) :
    List ObjectPair → List ObjectPair → Option Bool × List ObjectPair
  | [], rl => (none, rl)
  | op :: ops, rl =>
      if timedOut op.1 then (some true, rl)
      else
        match ts.mustBeTrue constraints (UltExpr.create p (op.1.getBaseExpr ctx)) with
        | none => (some true, rl)
        | some true => (none, rl)
        | some false =>
            match checkPointerInObject ctx ts constraints p op rl maxResolutions with
            | (.complete, rl) => (some false, rl)
            | (.incomplete, rl) => (some true, rl)
            | (.unfinished, rl) => resolveUp timedOut p maxResolutions ops rl

/-- `resolve` into an empty list: whether the resolution is incomplete, and the
objects. -/
def resolve (timedOut : MemoryObject → Bool) (maxResolutions : ℕ) : Expr → Bool × List ObjectPair
  | constant c => (false, (as.resolveOneConstant c).toList)
  | p =>
      match ts.getValue constraints p with
      | none => (true, [])
      | some cex =>
          let start := cex.toNat
          match resolveDown ctx ts constraints timedOut p maxResolutions (as.objects.upTo start).reverse [] with
          | (some incomplete, rl) => (incomplete, rl)
          | (none, rl) =>
              match resolveUp ctx ts constraints timedOut p maxResolutions (as.objects.above start) rl with
              | (some incomplete, rl) => (incomplete, rl)
              | (none, rl) => (false, rl)

end

end AddressSpace

end Klee
