import Mathlib

/-! The files of `runtime/POSIX/fd.c`. A descriptor is an entry of a table, which is either one
of the system or one of a symbolic file. What the system answers is given with each call. A
failed assertion is `none`. -/

namespace Klee.Posix

inductive Errno
  | EBADF
  | EACCES
  | EEXIST
  | EFAULT
  | EINVAL
  | EIO
  | EMFILE
  | os -- what the system has set
deriving DecidableEq, Repr

open Errno

/-- `exe_disk_file_t`, with what is used of its `stat`. -/
structure DiskFile where
  size : ℕ
  contents : List UInt8
  st_mode : BitVec 32
  st_ino : ℕ
  length_contents : contents.length = size
  size_lt : size < 2 ^ 32

/-- `exe_file_t`. The values are those after `memset`. -/
structure ExeFile where
  fd : ℤ := 0
  flags : BitVec 32 := 0
  off : ℤ := 0
  dfile : Option ℕ := none
deriving DecidableEq, Repr

def MAX_FDS : ℕ := 32

def eOpen : BitVec 32 := 1

def eCloseOnExec : BitVec 32 := 2

def eReadable : BitVec 32 := 4

def eWriteable : BitVec 32 := 8

/-- The globals `__exe_fs` and `__exe_env`, and the numbers of calls. -/
structure State where
  fds : ℕ → ExeFile
  umask : BitVec 32
  save_all_writes : Bool := false
  files : ℕ → DiskFile
  n_sym_files : ℕ
  sym_stdout : Option ℕ := none
  stdout_writes : ℕ := 0
  max_failures : ℕ := 0
  read_fail : ℕ := 0
  write_fail : ℕ := 0
  close_fail : ℕ := 0
  read_calls : ℕ := 0
  write_calls : ℕ := 0
  close_calls : ℕ := 0

variable (s : State)

namespace State

def setFd (i : ℕ) (f : ExeFile) : State := { s with fds := Function.update s.fds i f }

def setFile (i : ℕ) (df : DiskFile) : State := { s with files := Function.update s.files i df }

end State

def isOpen (f : ExeFile) : Bool := f.flags &&& eOpen ≠ 0

/-- The entry of a valid descriptor. -/
def getFile (fd : ℤ) : Option ℕ :=
  if 0 ≤ fd ∧ fd < MAX_FDS ∧ isOpen (s.fds fd.toNat) then some fd.toNat else none

def freeFd : Option ℕ := (List.range MAX_FDS).find? fun fd => !isOpen (s.fds fd)

/-- `__get_sym_file`. A path is its characters, which have a sign. -/
def getSymFile : Option (List ℤ) → Option ℕ
  | some [c] => do
      let i ← (List.range s.n_sym_files).find? fun i => c = 65 + (BitVec.ofNat 8 i).toInt
      if (s.files i).st_ino = 0 then none else some i
  | _ => none

def O_RDONLY : BitVec 32 := 0

def O_WRONLY : BitVec 32 := 1

def O_RDWR : BitVec 32 := 2

def O_ACCMODE : BitVec 32 := 3

def O_CREAT : BitVec 32 := 0o100

def O_EXCL : BitVec 32 := 0o200

def O_TRUNC : BitVec 32 := 0o1000

def has_permission (flags mode : BitVec 32) : Bool :=
  let read_access := flags &&& O_RDONLY ≠ 0 ∨ flags &&& O_RDWR ≠ 0
  let write_access := flags &&& O_WRONLY ≠ 0 ∨ flags &&& O_RDWR ≠ 0
  if read_access ∧ (mode &&& 0o400) ||| (mode &&& 0o040) ||| (mode &&& 0o004) ≠ 0 then false
  else if write_access ∧ ¬ (mode &&& 0o200) ||| (mode &&& 0o020) ||| (mode &&& 0o002) ≠ 0 then false
  else true

def openFlags (flags : BitVec 32) : BitVec 32 :=
  if flags &&& O_ACCMODE = O_RDONLY then eOpen ||| eReadable
  else if flags &&& O_ACCMODE = O_WRONLY then eOpen ||| eWriteable
  else eOpen ||| (eReadable ||| eWriteable)

def chmod (df : DiskFile) (mode : BitVec 32) : DiskFile := { df with st_mode := mode }

def fd_open (pathname : Option (List ℤ)) (flags mode : BitVec 32) (os_fd : ℤ) : Except Errno ℕ × State :=
  match freeFd s with
  | none => (.error .EMFILE, s)
  | some fd =>
      match getSymFile s pathname with
      | some df =>
          let f : ExeFile := { dfile := some df }
          if flags &&& O_CREAT ≠ 0 ∧ flags &&& O_EXCL ≠ 0 then (.error .EEXIST, s.setFd fd f)
          else if flags &&& O_TRUNC ≠ 0 ∧ flags &&& O_RDONLY ≠ 0 then (.error .EACCES, s.setFd fd f)
          else if flags &&& O_EXCL ≠ 0 ∧ flags &&& O_CREAT = 0 then (.error .EACCES, s.setFd fd f)
          else if has_permission flags (s.files df).st_mode = false then (.error .EACCES, s.setFd fd f)
          else
            let st_mode := ((s.files df).st_mode &&& ~~~0o777) ||| (mode &&& ~~~s.umask)
            (.ok fd, (s.setFile df (chmod (s.files df) st_mode)).setFd fd { f with flags := openFlags flags })
      | none =>
          if os_fd = -1 then (.error .os, s.setFd fd {})
          else (.ok fd, s.setFd fd { fd := os_fd, flags := openFlags flags })

def close (fd : ℤ) : Except Errno Unit × State :=
  let s := { s with close_calls := s.close_calls + 1 }
  match getFile s fd with
  | none => (.error .EBADF, s)
  | some i =>
      if s.max_failures ≠ 0 ∧ s.close_fail = s.close_calls then
        (.error EIO, { s with max_failures := s.max_failures - 1 })
      else (.ok (), s.setFd i {})

/-- A number as a `size_t`, and as an `off64_t`. -/
def u64 (n : ℤ) : ℕ := (n % 2 ^ 64).toNat

def s64 (n : ℤ) : ℤ := n.bmod (2 ^ 64)

/-- `memcpy` to a place in the contents of a file. -/
def overwrite (contents : List UInt8) (off : ℤ) (bytes : List UInt8) : List UInt8 :=
  contents.mapIdx fun i b => if off ≤ i then bytes[(i - off).toNat]?.getD b else b

def setContents (df : DiskFile) (off : ℤ) (bytes : List UInt8) : DiskFile where
  size := df.size
  contents := overwrite df.contents off bytes
  st_mode := df.st_mode
  st_ino := df.st_ino
  length_contents := by rw [overwrite, List.length_mapIdx, df.length_contents]
  size_lt := df.size_lt

/-- The part of `read` for a symbolic file. -/
def readSym (i : ℕ) (f : ExeFile) (df : DiskFile) (count : ℕ) : Option (Except Errno (ℤ × List UInt8) × State) :=
  if f.off < 0 then none
  else if df.size < f.off then some (.ok (0, []), s)
  else
    let count := if df.size < u64 (f.off + count) then u64 (df.size - f.off) else count
    some (.ok (s64 count, (df.contents.drop f.off.toNat).take count), s.setFd i { f with off := s64 (f.off + count) })

/-- What is returned, and what is in the buffer. The answer of the system are those of its own. -/
def read (fd : ℤ) (buf : Bool) (count : ℕ) (os : ℤ × List UInt8) : Option (Except Errno (ℤ × List UInt8) × State) :=
  let s := { s with read_calls := s.read_calls + 1 }
  if count = 0 then some (.ok (0, []), s)
  else if buf = false then some (.error .EFAULT, s)
  else
    match getFile s fd with
    | none => some (.error .EBADF, s)
    | some i =>
        if s.max_failures ≠ 0 ∧ s.read_fail = s.read_calls then
          some (.error EIO, { s with max_failures := s.max_failures - 1 })
        else
          let f := s.fds i
          match f.dfile with
          | none =>
              if os.1 = -1 then some (.error .os, s)
              else some (.ok os, if f.fd ≠ 0 then s.setFd i { f with off := s64 (f.off + os.1) } else s)
          | some df => readSym s i f (s.files df) count

/-- How many bytes of a write are inside of the file. The assertion is that there are no
others if all of them are to be saved. -/
def actualCount (f : ExeFile) (df : DiskFile) (count : ℕ) : Option ℕ :=
  if u64 (f.off + count) ≤ df.size then some count
  else if s.save_all_writes then none
  else if f.off < df.size then some (u64 (df.size - f.off))
  else some 0

/-- The part of `write` for a symbolic file. -/
def writeSym (i df : ℕ) (f : ExeFile) (buf : List UInt8) : Option (Except Errno ℤ × State) := do
  let actual_count ← actualCount s f (s.files df) buf.length
  let s := if actual_count ≠ 0 then s.setFile df (setContents (s.files df) f.off (buf.take actual_count)) else s
  let s := if s.sym_stdout = some df then { s with stdout_writes := (s.stdout_writes + actual_count) % 2 ^ 32 } else s
  some (.ok (s64 buf.length), s.setFd i { f with off := s64 (f.off + buf.length) })

/-- The count is the length of the buffer. -/
def write (fd : ℤ) (buf : List UInt8) (os : ℤ) : Option (Except Errno ℤ × State) :=
  let s := { s with write_calls := s.write_calls + 1 }
  match getFile s fd with
  | none => some (.error .EBADF, s)
  | some i =>
      if s.max_failures ≠ 0 ∧ s.write_fail = s.write_calls then
        some (.error EIO, { s with max_failures := s.max_failures - 1 })
      else
        let f := s.fds i
        match f.dfile with
        | none =>
            if os = -1 then some (.error .os, s)
            else if os < 0 then none
            else some (.ok os, if f.fd ≠ 1 ∧ f.fd ≠ 2 then s.setFd i { f with off := s64 (f.off + os) } else s)
        | some df => writeSym s i df f buf

def SEEK_SET : ℤ := 0

def SEEK_CUR : ℤ := 1

def SEEK_END : ℤ := 2

/-- The new offset in a symbolic file. -/
def seekTarget (f : ExeFile) (df : DiskFile) (offset whence : ℤ) : Option ℤ :=
  if whence = SEEK_SET then some offset
  else if whence = SEEK_CUR then some (s64 (f.off + offset))
  else if whence = SEEK_END then some (s64 (df.size + offset))
  else none

/-- The answers of the system are for the current offset, which is sought first, and then for the
target. -/
def fd_lseek (fd offset whence : ℤ) (os : ℤ × ℤ) : Option (Except Errno ℤ × State) :=
  match getFile s fd with
  | none => some (.error .EBADF, s)
  | some i =>
      let f := s.fds i
      match f.dfile with
      | none =>
          if whence ≠ SEEK_SET ∧ os.1 ≠ -1 ∧ os.1 ≠ f.off then none
          else
            let new_off := if whence ≠ SEEK_SET ∧ os.1 = -1 then -1 else os.2
            if new_off = -1 then some (.error .os, s)
            else some (.ok new_off, s.setFd i { f with off := new_off })
      | some df =>
          match seekTarget f (s.files df) offset whence with
          | none => some (.error .EINVAL, s)
          | some new_off =>
              if new_off < 0 then some (.error .EINVAL, s)
              else some (.ok new_off, s.setFd i { f with off := new_off })

def dup2 (oldfd newfd : ℤ) : Except Errno ℤ × State :=
  match getFile s oldfd with
  | none => (.error .EBADF, s)
  | some i =>
      if ¬ (0 ≤ newfd ∧ newfd < MAX_FDS) then (.error .EBADF, s)
      else
        let j := newfd.toNat
        let s := if isOpen (s.fds j) then (close s newfd).2 else s
        -- the entry of `oldfd` as it is now
        let f := s.fds i
        (.ok newfd, s.setFd j { f with flags := f.flags &&& ~~~eCloseOnExec })

def dup (oldfd : ℤ) : Except Errno ℤ × State :=
  match getFile s oldfd with
  | none => (.error .EBADF, s)
  | some _ =>
      match freeFd s with
      | none => (.error .EMFILE, s)
      | some fd => dup2 s oldfd fd

end Klee.Posix
