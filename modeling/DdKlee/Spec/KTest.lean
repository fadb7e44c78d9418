import DdKlee.Lib.Reader

/-! Files with test cases. Opening a file and allocating memory succeed, and a file is
the sequence of its bytes. -/

namespace Klee

namespace KTest

abbrev Byte := BitVec 8

/-- What a `char *` points to, without the NUL byte at the end. -/
structure CString where
  chars : List Byte
  no_nul : 0 ∉ chars
  length_lt : chars.length < 2 ^ 32
deriving DecidableEq

end KTest

open KTest

structure KTestObject where
  name : CString
  bytes : List Byte
  numBytes_lt : bytes.length < 2 ^ 32
deriving DecidableEq

structure KTest where
  version : BitVec 32
  args : List CString
  numArgs_lt : args.length < 2 ^ 32
  symArgvs : BitVec 32
  symArgvLen : BitVec 32
  objects : List KTestObject
  numObjects_lt : objects.length < 2 ^ 32
deriving DecidableEq

namespace KTest

/-- `"KTEST"` and, for compatibility reasons, `"BOUT\n"`. -/
def magic : List Byte := [0x4b, 0x54, 0x45, 0x53, 0x54]
def boutMagic : List Byte := [0x42, 0x4f, 0x55, 0x54, 0x0a]

def getCurrentVersion : BitVec 32 := 3

/-- `fwrite(data, size, 1, f) == 1`. Of an item without bytes none is written. -/
def fwrite (f : List Byte) (data : List Byte) : Option (List Byte) :=
  if data.length = 0 then none else some (f ++ data)

def writeUint32 (f : List Byte) (value : BitVec 32) : Option (List Byte) :=
  some (f ++ [(value >>> 24).setWidth 8, (value >>> 16).setWidth 8, (value >>> 8).setWidth 8, value.setWidth 8])

def writeString (f : List Byte) (value : CString) : Option (List Byte) := do
  let f ← writeUint32 f (BitVec.ofNat 32 value.chars.length)
  fwrite f value.chars

def writeObject (f : List Byte) (o : KTestObject) : Option (List Byte) := do
  let f ← writeString f o.name
  let f ← writeUint32 f (BitVec.ofNat 32 o.bytes.length)
  fwrite f o.bytes

def toFile (bo : KTest) : Option (List Byte) := do
  let f ← fwrite [] magic
  let f ← writeUint32 f getCurrentVersion
  let f ← writeUint32 f (BitVec.ofNat 32 bo.args.length)
  let f ← bo.args.foldlM writeString f
  let f ← writeUint32 f bo.symArgvs
  let f ← writeUint32 f bo.symArgvLen
  let f ← writeUint32 f (BitVec.ofNat 32 bo.objects.length)
  bo.objects.foldlM writeObject f

/-- `fread(data, size, 1, f) == 1`: of an item without bytes none is read. -/
def fread (size : ℕ) : Reader Byte (List.Vector Byte size) := if size = 0 then failure else Reader.take size

def word (data : List Byte) : BitVec 32 := data.foldl (fun value b => (value <<< 8) + b.setWidth 32) 0

def readUint32 : Reader Byte (BitVec 32) := do
  let data ← fread 4
  pure (word data.toList)

theorem length_lt {α : Type} {n : BitVec 32} (v : List.Vector α n.toNat) : v.toList.length < 2 ^ 32 := by
  rw [v.toList_length]
  exact n.isLt

/-- The characters before the first NUL byte. -/
def CString.ofBuffer (len : BitVec 32) (buffer : List.Vector Byte len.toNat) : CString where
  chars := buffer.toList.takeWhile (· ≠ 0)
  no_nul := fun hmem => by simpa using List.mem_takeWhile_imp hmem
  length_lt := Nat.lt_of_le_of_lt (List.takeWhile_prefix _).length_le (KTest.length_lt buffer)

/-- The length with the NUL byte is an `unsigned` as well. -/
def readString : Reader Byte CString := do
  let len ← readUint32
  if (len + 1).toNat ≤ len.toNat then failure -- the buffer is too small
  else do
    let buffer ← fread len.toNat
    pure (.ofBuffer len buffer)

def readObject : Reader Byte KTestObject := do
  let name ← readString
  let numBytes ← readUint32
  let bytes ← fread numBytes.toNat
  pure ⟨name, bytes.toList, length_lt bytes⟩

def checkHeader : Reader Byte Unit := do
  let header ← fread 5
  if header.toList ≠ magic ∧ header.toList ≠ boutMagic then failure else pure ()

/-- Before version 2 there are no `symArgvs` and `symArgvLen`. -/
def readArgvs (version : BitVec 32) : Reader Byte (BitVec 32 × BitVec 32) :=
  if 2 ≤ version then do
    let symArgvs ← readUint32
    let symArgvLen ← readUint32
    pure (symArgvs, symArgvLen)
  else pure (0, 0)

def reader : Reader Byte KTest := do
  checkHeader
  let version ← readUint32
  if getCurrentVersion < version then failure
  else do
    let numArgs ← readUint32
    let args ← Reader.many readString numArgs.toNat
    let (symArgvs, symArgvLen) ← readArgvs version
    let numObjects ← readUint32
    let objects ← Reader.many readObject numObjects.toNat
    pure ⟨version, args.toList, length_lt args, symArgvs, symArgvLen, objects.toList, length_lt objects⟩

def fromFile (f : List Byte) : Option KTest := (reader f).map Prod.fst

end KTest

end Klee
