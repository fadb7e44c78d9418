import DdKlee.Lib.APInt

/-! `ConstantDivision.cpp` and the functions of `Bits.h` it uses. A `uint64_t`,
`uint32_t` or `int32_t` is a word of that width. `none` is a failed assertion or
a loop that does not end. -/

namespace Klee

namespace bits32

def withoutRightmostBit (x : BitVec 32) : BitVec 32 := x &&& (x - 1)

def indexOfSingleBit (x : BitVec 32) : Option ℕ :=
  if withoutRightmostBit x ≠ 0 then none
  else
    let res :=
      (if x &&& 0xFFFF0000 ≠ 0 then 16 else 0) + (if x &&& 0xFF00FF00 ≠ 0 then 8 else 0) +
        (if x &&& 0xF0F0F0F0 ≠ 0 then 4 else 0) + (if x &&& 0xCCCCCCCC ≠ 0 then 2 else 0) +
        (if x &&& 0xAAAAAAAA ≠ 0 then 1 else 0)
    if res < 32 ∧ 1#32 <<< res = x then some res else none

end bits32

namespace bits64

def truncateToNBits (x : BitVec 64) (n : ℕ) : Option (BitVec 64) :=
  if 0 < n ∧ n ≤ 64 then some (x &&& (BitVec.allOnes 64 >>> (64 - n))) else none

def isolateRightmostBit (x : BitVec 64) : BitVec 64 := x &&& -x

def indexOfSingleBit (x : BitVec 64) : Option ℕ :=
  if x &&& (x - 1) ≠ 0 then none
  else do
    let res ← bits32.indexOfSingleBit ((x ||| x >>> 32).setWidth 32)
    let res := if x &&& (0xFFFFFFFF <<< 32) ≠ 0 then res + 32 else res
    if res < 64 ∧ 1#64 <<< res = x then some res else none

def indexOfRightmostBit (x : BitVec 64) : Option ℕ := indexOfSingleBit (isolateRightmostBit x)

end bits64

/-- The variables of the loop of `ComputeMultConstants64`. -/
structure MultConstants where
  x : BitVec 64
  add : BitVec 64 := 0
  sub : BitVec 64 := 0
deriving DecidableEq, Repr

namespace MultConstants

/-- The bit below the run, if it was going to be added, is subtracted instead of
the low bit of the run. -/
def subtractLow (s : MultConstants) (low : ℕ) (lowbit : BitVec 64) : MultConstants :=
  if low ≠ 0 ∧ s.add &&& lowbit >>> 1 ≠ 0 then
    { s with add := s.add ^^^ lowbit >>> 1, sub := s.sub ^^^ lowbit >>> 1 }
  else { s with sub := s.sub ||| lowbit }

def addHigh (s : MultConstants) (high : ℕ) : MultConstants :=
  if high ≠ 64 then { s with add := s.add ||| 1#64 <<< high } else s

/-- The body of the loop: the rightmost run of ones, of the bits from `low` up to
`high`. -/
def step (s : MultConstants) : Option MultConstants := do
  let low ← bits64.indexOfRightmostBit s.x
  let lowbit := 1#64 <<< low
  let p := s.x + lowbit
  let q := bits64.isolateRightmostBit p
  let high ← if q ≠ 0 then bits64.indexOfSingleBit q else some 64
  let s' :=
    -- just one bit
    if high = low + 1 then { s with add := s.add ||| lowbit }
    else (s.subtractLow low lowbit).addHigh high
  some { s' with x := p ^^^ q }

def loop : ℕ → MultConstants → Option MultConstants
  | 0, s => if s.x = 0 then some s else none
  | fuel + 1, s => if s.x = 0 then some s else s.step.bind (loop fuel)

end MultConstants

/-- A round takes a bit at least from `x`, so that 64 rounds are enough. -/
def computeMultConstants64 (multiplicand : BitVec 64) : Option (BitVec 64 × BitVec 64) := do
  let s ← MultConstants.loop 64 { x := multiplicand }
  if multiplicand = s.add - s.sub then some (s.add, s.sub) else none

def ones (x : BitVec 32) : BitVec 32 :=
  let x := x - (x >>> 1 &&& 0x55555555)
  let x := (x >>> 2 &&& 0x33333333) + (x &&& 0x33333333)
  let x := (x >>> 4 + x) &&& 0x0f0f0f0f
  let x := x + x >>> 8
  let x := x + x >>> 16
  x &&& 0x0000003f

/-- The ones from the highest one of `x` down. -/
def smear (x : BitVec 32) : BitVec 32 :=
  let x := x ||| x >>> 1
  let x := x ||| x >>> 2
  let x := x ||| x >>> 4
  let x := x ||| x >>> 8
  x ||| x >>> 16

def ldz (x : BitVec 32) : BitVec 32 := 32 - ones (smear x)

def log2Ceil (x : BitVec 32) : BitVec 32 := 32 - ldz (x - 1)

/-- A shift by 32, which the language leaves undefined, shifts a zero here. -/
def expBase2 (n : BitVec 32) : BitVec 32 := (~~~n &&& (n - 32)) >>> 31 <<< n

structure UDivConstants where
  mprime : BitVec 32
  sh1 : BitVec 32
  sh2 : BitVec 32
deriving DecidableEq, Repr

def computeUDivConstants32 (d : BitVec 32) : UDivConstants :=
  let l := log2Ceil d
  let mid := expBase2 l - d
  { mprime := ((1#64 <<< 32) * mid.setWidth 64 / d.setWidth 64 + 1).setWidth 32
    sh1 := BitVec.ofInt 32 (min l.toInt 1)
    sh2 := BitVec.ofInt 32 (max (l.toInt - 1) 0) }

/-- The quotient that the constants are for, in words. -/
def UDivConstants.quotient (c : UDivConstants) (n : BitVec 32) : BitVec 32 :=
  let t1 := ((c.mprime.setWidth 64 * n.setWidth 64) >>> 32).setWidth 32
  ((n - t1) >>> c.sh1.toNat + t1) >>> c.sh2.toNat

structure SDivConstants where
  mprime : BitVec 32
  dsign : BitVec 32
  shpost : BitVec 32
deriving DecidableEq, Repr

/-- `ABS` of an `int64_t`. -/
def absInt64 (x : BitVec 64) : BitVec 64 := if 0 < x.toInt then x else -x

def xsign (x : BitVec 32) : BitVec 32 := x.sshiftRight 31

def computeSDivConstants32 (d : BitVec 32) : SDivConstants :=
  let absD := absInt64 (d.signExtend 64)
  let ceil := log2Ceil (absD.setWidth 32)
  let l := if absD = 1#64 <<< 31 then 31 else if 1 < ceil then ceil else 1
  let mid := expBase2 (l - 1)
  let m := (1#64 <<< 32) * mid.setWidth 64 / absD + 1
  { mprime := (m - (1#64 <<< 32)).setWidth 32
    dsign := xsign d
    shpost := l - 1 }

def SDivConstants.quotient (c : SDivConstants) (n : BitVec 32) : BitVec 32 :=
  let mulsh := ((n.signExtend 64 * c.mprime.signExtend 64) >>> 32).setWidth 32
  let q0 := ((n + mulsh).signExtend 64 >>> c.shpost.toNat).setWidth 32 - xsign n
  (q0 ^^^ c.dsign) - c.dsign

end Klee
