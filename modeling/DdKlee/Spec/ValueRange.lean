import DdKlee.Spec.ConstantExpr

/-! The intervals of `FastCexSolver.cpp`. A `uint64_t` is a number that every
operation keeps below `2 ^ 64`; the bit `m` of a source loop is `2 ^ k`. `none`
is a failed assertion, a shift the language leaves undefined or a loop that does
not end. -/

namespace Klee

namespace bits64

def maxValueOfNBits (n : ℕ) : Option ℕ :=
  if n ≤ 64 then
    if n = 0 then some 0 else some ((2 ^ 64 - 1) >>> (64 - n))
  else none

def withoutRightmostBit (x : ℕ) : ℕ := x &&& (x - 1)

def isPowerOfTwo (x : ℕ) : Bool := x != 0 && (x &&& (x - 1)) == 0

end bits64

/-- Sign-extension of `l` from `inWidth` to 64 bits, as a signed number. -/
def ints.sext (l inWidth : ℕ) : ℤ := (BitVec.ofNat inWidth l).toInt

/-- `(x | m) & -m`. -/
def roundUp (x k : ℕ) : ℕ := (x ||| 2 ^ k) >>> k <<< k

/-- `(x - m) | (m - 1)` for a set bit `m`, which is `(x & ~m) | (m - 1)`. -/
def roundDown (x k : ℕ) : ℕ := (x - 2 ^ k) ||| (2 ^ k - 1)

def minOR.loop (b d : ℕ) : ℕ → ℕ → ℕ → ℕ
  | 0, a, c => a ||| c
  | k + 1, a, c =>
      if !a.testBit k && c.testBit k then
        if roundUp a k ≤ b then roundUp a k ||| c else loop b d k a c
      else if a.testBit k && !c.testBit k then
        if roundUp c k ≤ d then a ||| roundUp c k else loop b d k a c
      else loop b d k a c

def maxOR.loop (a c : ℕ) : ℕ → ℕ → ℕ → ℕ
  | 0, b, d => b ||| d
  | k + 1, b, d =>
      if b.testBit k && d.testBit k then
        if roundDown b k ≥ a then roundDown b k ||| d
        else if roundDown d k ≥ c then b ||| roundDown d k
        else loop a c k b d
      else loop a c k b d

def minAND.loop (b d : ℕ) : ℕ → ℕ → ℕ → ℕ
  | 0, a, c => a &&& c
  | k + 1, a, c =>
      if !a.testBit k && !c.testBit k then
        if roundUp a k ≤ b then roundUp a k &&& c
        else if roundUp c k ≤ d then a &&& roundUp c k
        else loop b d k a c
      else loop b d k a c

def maxAND.loop (a c : ℕ) : ℕ → ℕ → ℕ → ℕ
  | 0, b, d => b &&& d
  | k + 1, b, d =>
      if b.testBit k && !d.testBit k then
        if roundDown b k ≥ a then roundDown b k &&& d else loop a c k b d
      else if !b.testBit k && d.testBit k then
        if roundDown d k ≥ c then b &&& roundDown d k else loop a c k b d
      else loop a c k b d

def minOR (a b c d : ℕ) : ℕ := minOR.loop b d 64 a c
def maxOR (a b c d : ℕ) : ℕ := maxOR.loop a c 64 b d
def minAND (a b c d : ℕ) : ℕ := minAND.loop b d 64 a c
def maxAND (a b c d : ℕ) : ℕ := maxAND.loop a c 64 b d

/-- The class `ValueRange`; the default is empty. -/
structure ValueRange where
  m_min : ℕ := 1
  m_max : ℕ := 0
deriving DecidableEq, Repr

namespace ValueRange

/-- `ValueRange(uint64_t value)`. -/
def ofValue (value : ℕ) : ValueRange := ⟨value, value⟩

/-- `ValueRange(const ref<ConstantExpr> &ce)`. -/
def ofConstant (ce : APInt) : ValueRange := ofValue (ce.getLimitedValue (2 ^ 64 - 1))

variable (r b : ValueRange)

def isEmpty : Bool := r.m_min > r.m_max

def isFixed : Bool := r.m_min == r.m_max

def min : Option ℕ := if r.isEmpty then none else some r.m_min

def max : Option ℕ := if r.isEmpty then none else some r.m_max

def isFullRange (bits : ℕ) : Option Bool := do
  return r.m_min == 0 && r.m_max == (← bits64.maxValueOfNBits bits)

def set_intersection : ValueRange := ⟨Max.max r.m_min b.m_min, Min.min r.m_max b.m_max⟩

def set_union : ValueRange := ⟨Min.min r.m_min b.m_min, Max.max r.m_max b.m_max⟩

def intersects : Bool := !(r.set_intersection b).isEmpty

def set_difference : ValueRange :=
  if b.isEmpty ∨ b.m_min > r.m_max ∨ b.m_max < r.m_min then r
  else if b.m_min ≤ r.m_min ∧ b.m_max ≥ r.m_max then ⟨1, 0⟩
  else if b.m_min ≤ r.m_min then ⟨b.m_max + 1, r.m_max⟩
  else if b.m_max ≥ r.m_max then ⟨r.m_min, b.m_min - 1⟩
  -- two ranges, take bottom
  else ⟨r.m_min, b.m_min - 1⟩

def binaryAnd : Option ValueRange :=
  if r.isEmpty || b.isEmpty then none
  else if r.isFixed && b.isFixed then some (ofValue (r.m_min &&& b.m_min))
  else some ⟨minAND r.m_min r.m_max b.m_min b.m_max, maxAND r.m_min r.m_max b.m_min b.m_max⟩

def binaryOr : Option ValueRange :=
  if r.isEmpty || b.isEmpty then none
  else if r.isFixed && b.isFixed then some (ofValue (r.m_min ||| b.m_min))
  else some ⟨minOR r.m_min r.m_max b.m_min b.m_max, maxOR r.m_min r.m_max b.m_min b.m_max⟩

/-- The loop of `binaryXor`, which takes away the rightmost bit until one is
left. It does not end for zero; otherwise 64 rounds are enough. -/
def highestBit : ℕ → ℕ → Option ℕ
  | 0, _ => none
  | rounds + 1, t =>
      if bits64.isPowerOfTwo t then some t else highestBit rounds (bits64.withoutRightmostBit t)

def binaryXor : Option ValueRange :=
  if r.isFixed && b.isFixed then some (ofValue (r.m_min ^^^ b.m_min))
  else do
    let t ← highestBit 64 (r.m_max ||| b.m_max)
    return ⟨0, (t <<< 1 + 2 ^ 64 - 1) % 2 ^ 64⟩

def binaryShiftLeft (bits : ℕ) : Option ValueRange :=
  if bits < 64 then some ⟨r.m_min <<< bits % 2 ^ 64, r.m_max <<< bits % 2 ^ 64⟩ else none

def binaryShiftRight (bits : ℕ) : Option ValueRange :=
  if bits < 64 then some ⟨r.m_min >>> bits, r.m_max >>> bits⟩ else none

def concat (bits : ℕ) : Option ValueRange := do
  (← r.binaryShiftLeft bits).binaryOr b

def extract (lowBit maxBit : ℕ) : Option ValueRange := do
  (← r.binaryShiftRight lowBit).binaryAnd (ofValue (← bits64.maxValueOfNBits (maxBit - lowBit)))

/-- `ValueRange(0, bits64::maxValueOfNBits(width))`, which is also what `add`,
`sub`, `mul`, `udiv`, `sdiv`, `urem` and `srem` return. -/
def ofWidth (width : ℕ) : Option ValueRange := do
  return ⟨0, ← bits64.maxValueOfNBits width⟩

/-- `mustEqual` of a value. -/
def mustBe (value : ℕ) : Bool := r.m_min == r.m_max && r.m_min == value

def mustEqual : Bool := r.isFixed && b.isFixed && r.m_min == b.m_min

def mayEqual : Bool := r.intersects b

/-- The assertion of `minSigned` and `maxSigned`; their shifts are undefined
outside 1 to 63 bits. -/
def signedDefined (bits : ℕ) : Bool :=
  0 < bits && bits < 64 && r.m_min >>> bits == 0 && r.m_max >>> bits == 0

def minSigned (bits : ℕ) : Option ℤ :=
  if r.signedDefined bits then
    let smallest := 2 ^ (bits - 1)
    if r.m_max ≥ smallest then some (ints.sext smallest bits) else some r.m_min
  else none

def maxSigned (bits : ℕ) : Option ℤ :=
  if r.signedDefined bits then
    let smallest := 2 ^ (bits - 1)
    if r.m_min < smallest ∧ r.m_max ≥ smallest then some (smallest - 1 : ℤ)
    else some (ints.sext r.m_max bits)
  else none

end ValueRange

end Klee
