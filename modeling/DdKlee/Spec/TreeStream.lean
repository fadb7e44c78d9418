import DdKlee.Lib.Reader

/-! `TreeStreamWriter`: many streams in one file, each of which starts as a copy of
another. A stream is known by its number. A failed assertion is `none`. -/

namespace Klee

structure TreeStreamWriter where
  buffer : List (BitVec 8) := []
  lastID : ℕ := 0
  output : List (BitVec 8) := []
  ids : ℕ := 1

namespace TreeStreamWriter

def bufferSize : ℕ := 4 * 4096

def forkBit : ℕ := 2 ^ 31

def word (n : ℕ) : List (BitVec 8) :=
  [BitVec.ofNat 8 n, BitVec.ofNat 8 (n / 2 ^ 8), BitVec.ofNat 8 (n / 2 ^ 16), BitVec.ofNat 8 (n / 2 ^ 24)]

variable (w : TreeStreamWriter)

def flushBuffer : TreeStreamWriter :=
  if w.buffer = [] then w
  else { w with output := w.output ++ (word w.lastID ++ (word w.buffer.length ++ w.buffer)), buffer := [] }

def flush : TreeStreamWriter := w.flushBuffer

/-- `open` with the stream to copy, which is 0 for none. -/
def openStream (os : ℕ) : ℕ × TreeStreamWriter :=
  let w := w.flushBuffer
  let id := w.ids
  (id, { w with ids := (w.ids + 1) % 2 ^ 32, output := w.output ++ (word os ++ word (id ||| forkBit)) })

def write (os : ℕ) (s : List (BitVec 8)) : Option TreeStreamWriter :=
  let full := os ≠ w.lastID ∨ bufferSize < (s.length + w.buffer.length) % 2 ^ 32
  let w := if w.buffer ≠ [] ∧ full then w.flushBuffer else w
  if w.buffer ≠ [] then
    if w.buffer.length + s.length ≤ bufferSize then some { w with buffer := w.buffer ++ s }
    else none -- writes behind the buffer
  else if s.length < bufferSize then some { w with lastID := os, buffer := s }
  else some { w with output := w.output ++ (word os ++ (word s.length ++ s)) }

def ofWord (bytes : List (BitVec 8)) : ℕ := bytes.foldr (fun b n => b.toNat + 2 ^ 8 * n) 0

def readWord : Reader (BitVec 8) ℕ := do
  let bytes ← Reader.take 4
  pure (ofWord bytes.toList)

/-- The number and the tag of the next record. -/
def readHeader : Reader (BitVec 8) (ℕ × ℕ) := do
  let id ← readWord
  let tag ← readWord
  pure (id, tag)

/-- The loop that goes from a stream to those it comes from. The vector `roots` is kept
with its last element first. -/
def chain (parents : List (ℕ × ℕ)) : ℕ → ℕ → List ℕ → Option (List ℕ)
  | fuel, id, roots =>
      if id = 0 then some roots
      else match fuel with
        | 0 => none
        | fuel + 1 => do
            let parent ← parents.lookup id
            chain parents fuel parent (id :: roots)

/-- The first loop of `readStream`. -/
def findRoots (streamID : ℕ) : ℕ → List (ℕ × ℕ) → List (BitVec 8) → Option (List ℕ)
  | 0, _, _ => none
  | fuel + 1, parents, file => do
      let ((id, tag), file) ← readHeader file
      if tag.testBit 31 then
        let child := tag ^^^ forkBit
        if child = streamID then chain parents (parents.length + 1) id [child]
        else findRoots streamID fuel (parents ++ [(child, id)]) file
      else do
        let (_, file) ← Reader.take tag file
        findRoots streamID fuel parents file

def replay : ℕ → List (BitVec 8) → List ℕ → List (BitVec 8) → Option (List (BitVec 8))
  | 0, _, _, _ => none
  | fuel + 1, file, roots, out =>
      match readHeader file with
      | none => some out
      | some ((id, tag), file) =>
          if tag.testBit 31 then
            let child := tag ^^^ forkBit
            if roots.head? = some id ∧ roots.tail.head? = some child then replay fuel file roots.tail out
            else replay fuel file roots out
          else do
            let (data, file) ← Reader.take tag file
            replay fuel file roots (if roots.head? = some id then out ++ data.toList else out)

/-- The bytes of a stream. Each record takes some bytes of the file. -/
def readStream (streamID : ℕ) : Option (List (BitVec 8) × TreeStreamWriter) :=
  if 0 < streamID ∧ streamID < w.ids then do
    let w := w.flush
    let roots ← findRoots streamID (w.output.length + 1) [] w.output
    let out ← replay (w.output.length + 1) w.output roots []
    some (out, w)
  else none

end TreeStreamWriter

inductive StreamOp
  | openStream (os : ℕ)
  | write (os : ℕ) (s : List (BitVec 8))
  | flush

def TreeStreamWriter.step (w : TreeStreamWriter) : StreamOp → Option TreeStreamWriter
  | .openStream os => some (w.openStream os).2
  | .write os s => w.write os s
  | .flush => some w.flush

/-- The streams as they should be: a new one is a copy of its parent, and what is written
to one of them is in no other. Stream 0 is empty. -/
structure Streams where
  count : ℕ := 0
  content : ℕ → List (BitVec 8) := fun _ => []

namespace Streams

variable (s : Streams)

def openStream (os : ℕ) : Streams := ⟨s.count + 1, Function.update s.content (s.count + 1) (s.content os)⟩

def write (os : ℕ) (bytes : List (BitVec 8)) : Streams :=
  { s with content := Function.update s.content os (s.content os ++ bytes) }

def step : StreamOp → Streams
  | .openStream os => s.openStream os
  | .write os bytes => s.write os bytes
  | .flush => s

/-- A stream is opened from none or from one that is open, and there are fewer than 2³¹ of
them. Bytes go to an open stream, and are fewer than 2³¹. -/
def Legal : StreamOp → Prop
  | .openStream os => os ≤ s.count ∧ s.count + 1 < 2 ^ 31
  | .write os bytes => 0 < os ∧ os ≤ s.count ∧ bytes.length < 2 ^ 31
  | .flush => True

def LegalRun : Streams → List StreamOp → Prop
  | _, [] => True
  | s, op :: ops => s.Legal op ∧ LegalRun (s.step op) ops

end Streams

end Klee
