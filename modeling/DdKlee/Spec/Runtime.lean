import Mathlib

/-! Two functions of the runtime that programs under test are linked with. Addresses are
integers: no region of memory wraps around. A plain `char` is signed. -/

namespace Klee.Runtime

abbrev Memory := ℤ → BitVec 8

/-- `strcmp`, for fewer than `n` rounds of its loop. -/
def strcmp (mem : Memory) : ℕ → ℤ → ℤ → Option ℤ
  | 0, _, _ => none
  | n + 1, a, b =>
      if mem a ≠ 0 ∧ mem a = mem b then strcmp mem n (a + 1) (b + 1)
      else some ((mem a).toInt - (mem b).toInt)

/-- `while (count--) *a++ = *b++;`. -/
def copyUp : ℕ → ℤ → ℤ → Memory → Memory
  | 0, _, _, mem => mem
  | count + 1, a, b, mem => copyUp count (a + 1) (b + 1) (Function.update mem a (mem b))

/-- `while (count--) *a-- = *b--;`. -/
def copyDown : ℕ → ℤ → ℤ → Memory → Memory
  | 0, _, _, mem => mem
  | count + 1, a, b, mem => copyDown count (a - 1) (b - 1) (Function.update mem a (mem b))

def memmove (mem : Memory) (dst src : ℤ) (count : ℕ) : ℤ × Memory :=
  if src = dst then (dst, mem)
  else if src > dst then (dst, copyUp count dst src mem)
  else (dst, copyDown count (dst + (count - 1)) (src + (count - 1)) mem)

end Klee.Runtime
