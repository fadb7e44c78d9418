import Mathlib

/-! The layout of variadic arguments in `Executor::executeCall`, with the widths of the arguments
and the offsets as 32-bit words. -/

namespace Klee.Varargs

abbrev Width := BitVec 32

def getMinBytesForWidth (w : Width) : ℕ := (w.toNat + 7) % 2 ^ 32 / 8

/-- `llvm::alignTo`, where nothing reaches 64 bits. -/
def alignTo (value align : ℕ) : ℕ := (value + align - 1) / align * align

/-- `Context::getPointerWidth`. -/
inductive WordSize
  | int32
  | int64
deriving DecidableEq

/-- The loop before the allocation: `size` and `requires16ByteAlignment`. -/
def sizeLoop (word : WordSize) : ℕ × Bool → List Width → ℕ × Bool
  | s, [] => s
  | (size, requires16ByteAlignment), argWidth :: rest =>
      match word with
      | .int32 => sizeLoop word ((size + getMinBytesForWidth argWidth) % 2 ^ 32, requires16ByteAlignment) rest
      | .int64 =>
          let (size, requires16ByteAlignment) :=
            if argWidth.toNat > 64 then (alignTo size 16 % 2 ^ 32, true) else (size, requires16ByteAlignment)
          sizeLoop word ((size + alignTo argWidth.toNat 64 / 8) % 2 ^ 32, requires16ByteAlignment) rest

/-- The writing loop: the last `offset`, and the offset and width of each write. -/
def writeLoop (word : WordSize) : ℕ → List Width → ℕ × List (ℕ × Width)
  | offset, [] => (offset, [])
  | offset, argWidth :: rest =>
      match word with
      | .int32 =>
          let (last, writes) := writeLoop word ((offset + getMinBytesForWidth argWidth) % 2 ^ 32) rest
          (last, (offset, argWidth) :: writes)
      | .int64 =>
          let offset := if argWidth.toNat > 64 then alignTo offset 16 % 2 ^ 32 else offset
          let (last, writes) := writeLoop word ((offset + alignTo argWidth.toNat 64 / 8) % 2 ^ 32) rest
          (last, (offset, argWidth) :: writes)

/-- The size and the alignment that `memory->allocate` is asked for. -/
def allocation (word : WordSize) (widths : List Width) : ℕ × ℕ :=
  let (size, requires16ByteAlignment) := sizeLoop word (0, false) widths
  (size, if requires16ByteAlignment then 16 else 8)

end Klee.Varargs
