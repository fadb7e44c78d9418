import DdKlee.Lib.Machine
import DdKlee.Spec.PosixFile

/-! Descriptors of symbolic files: which of them can be opened, how they are duplicated, and what
is read and written through them. -/

namespace Klee.Posix

variable {s : State} {fd oldfd newfd : ℤ} {i j : ℕ} {f : ExeFile}

theorem getFile_eq_some : getFile s fd = some i ↔ fd = i ∧ i < MAX_FDS ∧ isOpen (s.fds i) := by
  unfold getFile
  constructor
  · intro h
    split_ifs at h with hfd
    cases h
    exact ⟨(Int.toNat_of_nonneg hfd.1).symm, by omega, hfd.2.2⟩
  · rintro ⟨rfl, hlt, hopen⟩
    exact if_pos ⟨by omega, by exact_mod_cast hlt, hopen⟩

theorem setFd_self : (s.setFd i f).fds i = f := Function.update_self _ _ _

theorem setFd_ne (h : j ≠ i) : (s.setFd i f).fds j = s.fds j := Function.update_of_ne h _ _

theorem setFile_self {df : ℕ} {file : DiskFile} : (s.setFile df file).files df = file := Function.update_self _ _ _

theorem setFile_ne {df k : ℕ} {file : DiskFile} (h : k ≠ df) : (s.setFile df file).files k = s.files k :=
  Function.update_of_ne h _ _

theorem freeFd_eq_some (h : freeFd s = some i) : i < MAX_FDS ∧ isOpen (s.fds i) = false := by
  have hmem := List.mem_of_find?_eq_some h
  have hfree := List.find?_some h
  exact ⟨List.mem_range.mp hmem, by simpa using hfree⟩

/-- A descriptor is open on the file of another one, at the same offset and with the same
access. -/
structure Aliases (s s' : State) (old new : ℕ) : Prop where
  old_eq : s'.fds old = s.fds old
  open_old : isOpen (s'.fds old)
  open_new : isOpen (s'.fds new)
  dfile : (s'.fds new).dfile = (s.fds old).dfile
  fd : (s'.fds new).fd = (s.fds old).fd
  off : (s'.fds new).off = (s.fds old).off
  access : (s'.fds new).flags &&& (eReadable ||| eWriteable) = (s.fds old).flags &&& (eReadable ||| eWriteable)
  other : ∀ k, k ≠ new → s'.fds k = s.fds k

theorem close_fds (hfail : s.max_failures = 0) (h : getFile s fd = some i) :
    (close s fd).2.fds = Function.update s.fds i {} := by
  have hget : getFile { s with close_calls := s.close_calls + 1 } fd = some i := h
  unfold close
  simp only [hget]
  rw [if_neg fun hinject => hinject.1 hfail]
  rfl

theorem dup2_eq (hfail : s.max_failures = 0) (hold : getFile s oldfd = some i) (hnew : newfd = j) (hj : j < MAX_FDS) :
    (dup2 s oldfd newfd).1 = .ok newfd ∧ (dup2 s oldfd newfd).2.fds =
      Function.update s.fds j (if i = j then {} else { s.fds i with flags := (s.fds i).flags &&& ~~~eCloseOnExec }) := by
  subst hnew
  have hvalid : (0 : ℤ) ≤ j ∧ (j : ℤ) < MAX_FDS := ⟨by omega, by exact_mod_cast hj⟩
  rw [getFile_eq_some] at hold
  rw [dup2, (getFile_eq_some.mpr hold)]
  simp only [hvalid, not_true, and_self, if_false, Int.toNat_natCast, true_and]
  by_cases hopen : isOpen (s.fds j)
  · have hclose := close_fds hfail (getFile_eq_some.mpr ⟨rfl, hj, hopen⟩)
    rw [if_pos hopen]
    simp only [State.setFd, hclose, Function.update_idem]
    by_cases hij : i = j
    · rw [if_pos hij, hij, Function.update_self]
      rfl
    · rw [if_neg hij, Function.update_of_ne hij]
  · have hij : i ≠ j := by
      rintro rfl
      exact hopen hold.2.2
    rw [if_neg hopen, if_neg hij]
    rfl

theorem aliases_of_ne (hfail : s.max_failures = 0) (hold : getFile s oldfd = some i) (hnew : newfd = j) (hj : j < MAX_FDS)
    (hne : i ≠ j) : Aliases s (dup2 s oldfd newfd).2 i j := by
  obtain ⟨-, hfds⟩ := dup2_eq hfail hold hnew hj
  obtain ⟨-, -, hopen⟩ := getFile_eq_some.mp hold
  rw [if_neg hne] at hfds
  have hi : (dup2 s oldfd newfd).2.fds i = s.fds i := by rw [hfds, Function.update_of_ne hne]
  have hj' : (dup2 s oldfd newfd).2.fds j = { s.fds i with flags := (s.fds i).flags &&& ~~~eCloseOnExec } := by
    rw [hfds, Function.update_self]
  have hflags (flags : BitVec 32) : flags &&& ~~~eCloseOnExec &&& eOpen = flags &&& eOpen ∧
      flags &&& ~~~eCloseOnExec &&& (eReadable ||| eWriteable) = flags &&& (eReadable ||| eWriteable) :=
    ⟨by rw [BitVec.and_assoc]; rfl, by rw [BitVec.and_assoc]; rfl⟩
  refine ⟨hi, hi ▸ hopen, ?_, by rw [hj'], by rw [hj'], by rw [hj'], by rw [hj']; exact (hflags _).2, fun k hk => ?_⟩
  · rw [hj', isOpen, (hflags _).1]
    exact hopen
  · rw [hfds, Function.update_of_ne hk]

theorem dup2_aliases_iff (hfail : s.max_failures = 0) (hold : getFile s oldfd = some i) (hnew : newfd = j)
    (hj : j < MAX_FDS) :
    (((dup2 s oldfd newfd).1 = .ok newfd ∧ Aliases s (dup2 s oldfd newfd).2 i j) ↔ oldfd ≠ newfd) ∧
      ∀ k, freeFd s = some k → (dup s oldfd).1 = .ok (k : ℤ) ∧ Aliases s (dup s oldfd).2 i k := by
  obtain ⟨rfl, -, hopen⟩ := getFile_eq_some.mp hold
  refine ⟨⟨fun h => ?_, fun hne => ⟨(dup2_eq hfail hold hnew hj).1, aliases_of_ne hfail hold hnew hj ?_⟩⟩, fun k hk => ?_⟩
  · -- the entry is cleared before it is copied to itself
    rintro rfl
    obtain rfl : i = j := by exact_mod_cast hnew
    obtain ⟨-, hfds⟩ := dup2_eq hfail hold rfl hj
    have hclosed := h.2.open_old
    rw [hfds, if_pos rfl, Function.update_self] at hclosed
    cases hclosed
  · rintro rfl
    exact hne hnew.symm
  · obtain ⟨hlt, hfree⟩ := freeFd_eq_some hk
    have hne : i ≠ k := by
      rintro rfl
      cases hopen.symm.trans hfree
    have hdup : dup s i = dup2 s i k := by rw [dup, hold, hk]
    rw [hdup]
    exact ⟨(dup2_eq hfail hold rfl hlt).1, aliases_of_ne hfail hold rfl hlt hne⟩

def oneFile (st_mode : BitVec 32) : State where
  fds fd := if fd = 0 then { flags := eOpen ||| eReadable, dfile := some 0 } else {}
  umask := 0o022
  files _ := { size := 2, contents := [1, 2], st_mode, st_ino := 1, length_contents := rfl, size_lt := by decide }
  n_sym_files := 1

theorem dup2_aliases_one : Aliases (oneFile 0) (dup2 (oneFile 0) 0 1).2 0 1 :=
  ((dup2_aliases_iff rfl rfl rfl (by decide)).1.mpr (by decide)).2

/-- A descriptor that is duplicated to itself is closed. -/
theorem dup2_self_closes : getFile (oneFile 0) 0 = some 0 ∧ (dup2 (oneFile 0) 0 0).1 = .ok 0 ∧
    getFile (dup2 (oneFile 0) 0 0).2 0 = none := ⟨rfl, rfl, rfl⟩

/-- What an access mode asks for, and what the permissions allow. -/
def reads (flags : BitVec 32) : Bool := flags &&& O_ACCMODE ≠ O_WRONLY

def writes (flags : BitVec 32) : Bool := flags &&& O_ACCMODE ≠ O_RDONLY

def readable (st_mode : BitVec 32) : Bool := st_mode &&& 0o444 ≠ 0

def writable (st_mode : BitVec 32) : Bool := st_mode &&& 0o222 ≠ 0

def Permitted (flags st_mode : BitVec 32) : Prop :=
  (reads flags → readable st_mode) ∧ (writes flags → writable st_mode)

theorem accmode_cases (flags : BitVec 32) :
    (flags &&& O_ACCMODE = O_RDONLY ∧ flags &&& O_WRONLY = 0 ∧ flags &&& O_RDWR = 0) ∨
    (flags &&& O_ACCMODE = O_WRONLY ∧ flags &&& O_WRONLY ≠ 0 ∧ flags &&& O_RDWR = 0) ∨
    (flags &&& O_ACCMODE ≠ O_RDONLY ∧ flags &&& O_ACCMODE ≠ O_WRONLY ∧ flags &&& O_RDWR ≠ 0) := by
  have hwronly : flags &&& O_WRONLY = flags &&& O_ACCMODE &&& O_WRONLY := by
    rw [BitVec.and_assoc]
    rfl
  have hrdwr : flags &&& O_RDWR = flags &&& O_ACCMODE &&& O_RDWR := by
    rw [BitVec.and_assoc]
    rfl
  have hle : (flags &&& O_ACCMODE).toNat ≤ 3 := by
    rw [BitVec.toNat_and]
    exact Nat.and_le_right
  have hcases : ∃ k ≤ 3, flags &&& O_ACCMODE = BitVec.ofNat 32 k :=
    ⟨_, hle, BitVec.eq_of_toNat_eq (by rw [BitVec.toNat_ofNat, Nat.mod_eq_of_lt (by omega)])⟩
  obtain ⟨k, hk, h⟩ := hcases
  rw [hwronly, hrdwr, h]
  interval_cases k <;> decide

/-- The check of the code is the other way round for reading. -/
theorem has_permission_iff (flags st_mode : BitVec 32) :
    has_permission flags st_mode = true ↔
      (flags &&& O_RDWR ≠ 0 → readable st_mode = false) ∧ (writes flags → writable st_mode) := by
  have hreadable : (st_mode &&& 0o400) ||| (st_mode &&& 0o040) ||| (st_mode &&& 0o004) = st_mode &&& 0o444 := by
    rw [← BitVec.and_or_distrib_left, ← BitVec.and_or_distrib_left]
    rfl
  have hwritable : (st_mode &&& 0o200) ||| (st_mode &&& 0o020) ||| (st_mode &&& 0o002) = st_mode &&& 0o222 := by
    rw [← BitVec.and_or_distrib_left, ← BitVec.and_or_distrib_left]
    rfl
  have hrdonly : flags &&& O_RDONLY = 0 := BitVec.and_zero
  have hread : (flags &&& O_RDONLY ≠ 0 ∨ flags &&& O_RDWR ≠ 0) ↔ flags &&& O_RDWR ≠ 0 :=
    ⟨fun h => h.resolve_left fun h => h hrdonly, .inr⟩
  have hwrite : (flags &&& O_WRONLY ≠ 0 ∨ flags &&& O_RDWR ≠ 0) ↔ flags &&& O_ACCMODE ≠ O_RDONLY := by
    rcases accmode_cases flags with ⟨hacc, hw, hr⟩ | ⟨hacc, hw, hr⟩ | ⟨hacc, -, hr⟩
    · exact iff_of_false (by tauto) (by tauto)
    · exact iff_of_true (.inl hw) (by rw [hacc]; decide)
    · exact iff_of_true (.inr hr) hacc
  unfold has_permission readable writes writable
  simp only [hreadable, hwritable, hread, hwrite, decide_eq_true_eq, decide_eq_false_iff_not]
  split_ifs
  · exact iff_of_false nofun (by tauto)
  · exact iff_of_false nofun (by tauto)
  · exact iff_of_true rfl (by tauto)

theorem permitted_iff (flags st_mode : BitVec 32) :
    (has_permission flags st_mode = true ↔ Permitted flags st_mode) ↔
      (flags &&& O_ACCMODE = O_RDONLY → readable st_mode) ∧ (flags &&& O_RDWR ≠ 0 → writable st_mode = false) := by
  rw [has_permission_iff, Permitted, reads, writes]
  simp only [decide_eq_true_eq]
  have hne : O_RDONLY ≠ O_WRONLY := by decide
  rcases accmode_cases flags with ⟨hacc, -, hr⟩ | ⟨hacc, -, hr⟩ | ⟨hacc, hacc', hr⟩
  · cases readable st_mode <;> simp [hacc, hr, hne]
  · cases writable st_mode <;> simp [hacc, hr, hne.symm]
  · cases readable st_mode <;> cases writable st_mode <;> simp [hacc, hacc']
    exact hr

inductive OpenCall
  | open (pathname : Option (List ℤ)) (flags mode : BitVec 32) (os_fd : ℤ)
  | close (fd : ℤ)

def OpenCall.run (s : State) : OpenCall → State
  | .open pathname flags mode os_fd => (fd_open s pathname flags mode os_fd).2
  | .close fd => (Posix.close s fd).2

def openTrace : State → List OpenCall → List (State × OpenCall)
  | _, [] => []
  | s, call :: calls => (s, call) :: openTrace (call.run s) calls

/-- An open call of a symbolic file respects its permissions. -/
def RespectsPermissions (s : State) : OpenCall → Prop
  | .open pathname flags mode os_fd => ∀ df, getSymFile s pathname = some df → freeFd s ≠ none →
      ((∃ fd, (fd_open s pathname flags mode os_fd).1 = .ok fd) ↔ Permitted flags (s.files df).st_mode) ∧
      ((∃ e, (fd_open s pathname flags mode os_fd).1 = .error e) →
        ((fd_open s pathname flags mode os_fd).2.files df).st_mode = (s.files df).st_mode) ∧
      (flags &&& O_CREAT = 0 → ((fd_open s pathname flags mode os_fd).2.files df).st_mode &&& 0o777 =
        (s.files df).st_mode &&& 0o777)
  | .close _ => True

/-- What has to hold for that: a file that is opened for reading only is readable, one that is
opened for both is not writable, and one that is opened without being created gets the
permissions that it has. -/
def PermissionsAgree (s : State) : OpenCall → Prop
  | .open pathname flags mode _ => ∀ df, getSymFile s pathname = some df → freeFd s ≠ none →
      (flags &&& O_ACCMODE = O_RDONLY → readable (s.files df).st_mode) ∧
      (flags &&& O_RDWR ≠ 0 → writable (s.files df).st_mode = false) ∧
      (Permitted flags (s.files df).st_mode → flags &&& O_CREAT = 0 →
        mode &&& ~~~s.umask &&& 0o777 = (s.files df).st_mode &&& 0o777)
  | .close _ => True

def PlainFlags : OpenCall → Prop
  | .open _ flags _ _ => flags &&& O_EXCL = 0 ∧ flags &&& O_TRUNC = 0
  | .close _ => True

theorem fd_open_eq {pathname : Option (List ℤ)} {flags mode : BitVec 32} {os_fd : ℤ} {df : ℕ} {k : ℕ}
    (hfree : freeFd s = some k) (hfile : getSymFile s pathname = some df) (hexcl : flags &&& O_EXCL = 0) :
    fd_open s pathname flags mode os_fd =
      if has_permission flags (s.files df).st_mode then
        (.ok k, (s.setFile df (chmod (s.files df) (((s.files df).st_mode &&& ~~~0o777) ||| (mode &&& ~~~s.umask)))).setFd k
          { dfile := some df, flags := openFlags flags })
      else (.error .EACCES, s.setFd k { dfile := some df }) := by
  have hrdonly : flags &&& O_RDONLY = 0 := BitVec.and_zero
  unfold fd_open
  simp only [hfree, hfile, hexcl, hrdonly, ne_eq, not_true, and_false, false_and, if_false]
  cases has_permission flags (s.files df).st_mode <;> rfl

theorem respects_iff {call : OpenCall} (hplain : PlainFlags call) : RespectsPermissions s call ↔ PermissionsAgree s call := by
  cases call with
  | close fd => rfl
  | «open» pathname flags mode os_fd =>
    refine forall₂_congr fun df hfile => forall_congr' fun hfree => ?_
    obtain ⟨k, hk⟩ := Option.ne_none_iff_exists'.mp hfree
    rw [fd_open_eq hk hfile hplain.1]
    have hmode : (s.files df).st_mode &&& ~~~0o777 &&& 0o777 = 0 := by
      rw [BitVec.and_assoc]
      exact BitVec.and_zero
    have hkeep : ((s.files df).st_mode &&& ~~~0o777 ||| mode &&& ~~~s.umask) &&& 0o777 = mode &&& ~~~s.umask &&& 0o777 := by
      rw [BitVec.and_or_distrib_right, hmode]
      exact BitVec.zero_or
    have hagree := permitted_iff flags (s.files df).st_mode
    refine Iff.trans ?_ and_assoc
    rw [← hagree]
    cases hperm : has_permission flags (s.files df).st_mode with
    | true =>
      have hst : (((s.setFile df (chmod (s.files df) ((s.files df).st_mode &&& ~~~0o777 ||| mode &&& ~~~s.umask))).setFd k
          { flags := openFlags flags, dfile := some df }).files df).st_mode =
          (s.files df).st_mode &&& ~~~0o777 ||| mode &&& ~~~s.umask :=
        congrArg DiskFile.st_mode setFile_self
      rw [if_pos rfl]
      simp only [Except.ok.injEq, exists_eq', reduceCtorEq, exists_false, false_implies, true_and, hst, hkeep]
      tauto
    | false =>
      simp only [Bool.false_eq_true, if_false, reduceCtorEq, exists_false, Except.error.injEq, exists_eq', true_implies]
      have hsame : ((s.setFd k { dfile := some df }).files df).st_mode = (s.files df).st_mode := rfl
      simp only [hsame, implies_true, and_true]
      tauto

theorem opens_respect_iff (s : State) (calls : List OpenCall) (hplain : ∀ call ∈ calls, PlainFlags call) :
    (∀ p ∈ openTrace s calls, RespectsPermissions p.1 p.2) ↔ ∀ p ∈ openTrace s calls, PermissionsAgree p.1 p.2 := by
  have hcall : ∀ {s calls}, (∀ call ∈ calls, PlainFlags call) → ∀ p ∈ openTrace s calls, PlainFlags p.2 := by
    intro s calls hplain
    induction calls generalizing s with
    | nil => nofun
    | cons call calls ih =>
      obtain ⟨hcall, hcalls⟩ := List.forall_mem_cons.mp hplain
      exact List.forall_mem_cons.mpr ⟨hcall, ih hcalls⟩
  exact forall₂_congr fun p hp => respects_iff (hcall hplain p hp)

/-- A file is created for writing and closed. -/
theorem opens_respect_create :
    ∃ calls, calls = [OpenCall.open (some [65]) (O_WRONLY ||| O_CREAT) 0o666 (-1), .close 1] ∧
      ∀ p ∈ openTrace (oneFile 0o644) calls, RespectsPermissions p.1 p.2 := by
  refine ⟨_, rfl, (opens_respect_iff _ _ ?_).mpr ?_⟩
  · exact List.forall_mem_cons.mpr ⟨⟨by decide, by decide⟩, List.forall_mem_singleton.mpr trivial⟩
  · refine List.forall_mem_cons.mpr ⟨?_, List.forall_mem_singleton.mpr trivial⟩
    rintro df hdf -
    cases hdf
    exact ⟨by decide, by decide, fun _ => by decide⟩

/-- A file that can be read and written cannot be opened for both. -/
theorem open_readwrite_fails :
    getSymFile (oneFile 0o644) (some [65]) = some 0 ∧ freeFd (oneFile 0o644) ≠ none ∧
    Permitted O_RDWR ((oneFile 0o644).files 0).st_mode ∧
    (fd_open (oneFile 0o644) (some [65]) O_RDWR 0 (-1)).1 = .error .EACCES :=
  ⟨rfl, by decide, by unfold Permitted; decide, rfl⟩

/-- The contents of files, and the file and the offset of each descriptor. -/
structure FileTable where
  contents : ℕ → List UInt8
  descriptor : ℕ → Option (ℕ × ℕ)

inductive FileCall
  | read (fd count : ℕ)
  | write (fd : ℕ) (buf : List UInt8)
  | lseek (fd : ℕ) (offset whence : ℤ)

namespace FileTable

variable (t : FileTable)

def seek (fd df off : ℕ) : Option FileTable :=
  if off < 2 ^ 63 then some { t with descriptor := Function.update t.descriptor fd (some (df, off)) } else none

def splice (contents : List UInt8) (off : ℕ) (buf : List UInt8) : List UInt8 :=
  contents.take off ++ buf.take (contents.length - off) ++ contents.drop (off + buf.length)

def target (size off : ℕ) (offset whence : ℤ) : Option ℤ :=
  if whence = SEEK_SET then some offset
  else if whence = SEEK_CUR then some (off + offset)
  else if whence = SEEK_END then some (size + offset)
  else none

/-- The answer to a call is a number and the bytes that have been read. Calls on a descriptor
that is not open are left out, and those whose count or offset is not in range. -/
def step : FileCall → Option (Except Errno (ℤ × List UInt8) × FileTable)
  | .read fd count => do
      let (df, off) ← t.descriptor fd
      guard (count < 2 ^ 63)
      let bytes := ((t.contents df).drop off).take count
      let t ← t.seek fd df (off + bytes.length)
      some (.ok (bytes.length, bytes), t)
  | .write fd buf => do
      let (df, off) ← t.descriptor fd
      guard (buf.length < 2 ^ 63)
      let t : FileTable := { t with contents := Function.update t.contents df (splice (t.contents df) off buf) }
      let t ← t.seek fd df (off + buf.length)
      some (.ok (buf.length, []), t)
  | .lseek fd offset whence => do
      let (df, off) ← t.descriptor fd
      guard (-2 ^ 63 ≤ offset ∧ offset < 2 ^ 63)
      match target (t.contents df).length off offset whence with
      | none => some (.error .EINVAL, t)
      | some new_off =>
          if new_off < 0 then some (.error .EINVAL, t)
          else do
            let t ← t.seek fd df new_off.toNat
            some (.ok (new_off, []), t)

end FileTable

/-- The calls of the code. The system is not asked for anything. -/
def FileCall.run (s : State) : FileCall → Option (Except Errno (ℤ × List UInt8) × State)
  | .read fd count => Posix.read s fd true count (0, [])
  | .write fd buf => (Posix.write s fd buf 0).map fun r => (r.1.map (·, []), r.2)
  | .lseek fd offset whence => (fd_lseek s fd offset whence (0, 0)).map fun r => (r.1.map (·, []), r.2)

def State.table (s : State) : FileTable where
  contents df := (s.files df).contents
  descriptor i := if i < MAX_FDS ∧ isOpen (s.fds i) then (s.fds i).dfile.map (·, (s.fds i).off.toNat) else none

def OpenOn (s : State) (i df : ℕ) : Prop := i < MAX_FDS ∧ isOpen (s.fds i) ∧ (s.fds i).dfile = some df

/-- No failures are injected, offsets are in range, and apart from the contents and the offsets of
symbolic files nothing has changed since `s₀`. -/
structure Serves (s₀ s : State) : Prop where
  max_failures : s.max_failures = 0
  save_all_writes : s.save_all_writes = false
  off : ∀ i df, OpenOn s i df → 0 ≤ (s.fds i).off ∧ (s.fds i).off < 2 ^ 63
  size : ∀ df, (s.files df).size = (s₀.files df).size
  entry : ∀ i, s.fds i = { s₀.fds i with off := (s.fds i).off }
  other : ∀ i, (s₀.fds i).dfile = none → s.fds i = s₀.fds i

section Files

variable {s₀ : State} {df off : ℕ}

theorem descriptor_eq_some :
    s.table.descriptor i = some (df, off) ↔ OpenOn s i df ∧ (s.fds i).off.toNat = off := by
  unfold State.table OpenOn
  simp only
  split_ifs with hopen
  · rw [Option.map_eq_some_iff]
    constructor
    · rintro ⟨df, hdf, h⟩
      cases h
      exact ⟨⟨hopen.1, hopen.2, hdf⟩, rfl⟩
    · rintro ⟨⟨-, -, hdf⟩, rfl⟩
      exact ⟨df, hdf, rfl⟩
  · exact iff_of_false nofun fun h => hopen ⟨h.1.1, h.1.2.1⟩

theorem Serves.counters {s' : State} (h : Serves s₀ s) (hfds : s'.fds = s.fds) (hfiles : s'.files = s.files)
    (hfail : s'.max_failures = s.max_failures) (hsave : s'.save_all_writes = s.save_all_writes) : Serves s₀ s' where
  max_failures := hfail.trans h.max_failures
  save_all_writes := hsave.trans h.save_all_writes
  off i df hopen := by
    unfold OpenOn at hopen
    rw [hfds] at hopen ⊢
    exact h.off i df hopen
  size := by
    rw [hfiles]
    exact h.size
  entry := by
    rw [hfds]
    exact h.entry
  other := by
    rw [hfds]
    exact h.other

theorem table_congr {s' : State} (hfds : s'.fds = s.fds) (hfiles : s'.files = s.files) : s'.table = s.table := by
  unfold State.table
  rw [hfds, hfiles]

def State.moveTo (s : State) (i off : ℕ) : State := s.setFd i { s.fds i with off := off }

theorem moveTo_self : (s.moveTo i off).fds i = { s.fds i with off := off } := setFd_self

theorem moveTo_ne (h : j ≠ i) : (s.moveTo i off).fds j = s.fds j := setFd_ne h

theorem openOn_moveTo {df : ℕ} : OpenOn (s.moveTo i off) j df ↔ OpenOn s j df := by
  unfold OpenOn
  by_cases hj : j = i
  · rw [hj, moveTo_self]
    rfl
  · rw [moveTo_ne hj]

theorem table_moveTo (hopen : OpenOn s i df) (hoff : off < 2 ^ 63) :
    s.table.seek i df off = some (s.moveTo i off).table := by
  have hdesc : (s.moveTo i off).table.descriptor = Function.update s.table.descriptor i (some (df, off)) := by
    funext j
    by_cases hj : j = i
    · rw [hj, Function.update_self, descriptor_eq_some, openOn_moveTo, moveTo_self]
      exact ⟨hopen, rfl⟩
    · rw [Function.update_of_ne hj]
      unfold State.table
      simp only [moveTo_ne hj]
  rw [FileTable.seek, if_pos hoff, ← hdesc]
  rfl

theorem Serves.moveTo (h : Serves s₀ s) (hopen : OpenOn s i df) (hoff : off < 2 ^ 63) : Serves s₀ (s.moveTo i off) where
  max_failures := h.max_failures
  save_all_writes := h.save_all_writes
  off j df' hj := by
    by_cases hji : j = i
    · have hlt : (off : ℤ) < 2 ^ 63 := by exact_mod_cast hoff
      rw [hji, moveTo_self]
      exact ⟨Int.natCast_nonneg off, hlt⟩
    · rw [moveTo_ne hji]
      exact h.off j df' (openOn_moveTo.mp hj)
  size := h.size
  entry j := by
    by_cases hji : j = i
    · rw [hji, moveTo_self]
      exact congrArg (fun f : ExeFile => { f with off := (off : ℤ) }) (h.entry i)
    · rw [moveTo_ne hji]
      exact h.entry j
  other j hj := by
    have hji : j ≠ i := by
      rintro rfl
      have hdf := congrArg ExeFile.dfile (h.entry j)
      rw [hopen.2.2, hj] at hdf
      cases hdf
    rw [moveTo_ne hji]
    exact h.other j hj

theorem moveTo_off (hoff : (s.fds i).off = off) : s.moveTo i off = s := by
  rw [State.moveTo, ← hoff, State.setFd, Function.update_eq_self]

theorem u64_natCast {n : ℕ} (h : n < 2 ^ 64) : u64 n = n := by
  unfold u64
  omega

theorem s64_natCast {n : ℕ} (h : n < 2 ^ 63) : s64 n = n := by
  unfold s64
  rw [Int.bmod_eq_of_le] <;> omega

theorem getFile_of_openOn (hopen : OpenOn s i df) : getFile s i = some i :=
  getFile_eq_some.mpr ⟨rfl, hopen.1, hopen.2.1⟩

theorem readSym_eq {count : ℕ} (hoff : (s.fds i).off = off) (hlt : off < 2 ^ 63) (hcount : count < 2 ^ 63) :
    let bytes := ((s.files df).contents.drop off).take count
    readSym s i (s.fds i) (s.files df) count = some (.ok (bytes.length, bytes), s.moveTo i (off + bytes.length)) := by
  intro bytes
  have hsize := (s.files df).length_contents
  have hsize_lt := (s.files df).size_lt
  have hlen : bytes.length = min count ((s.files df).size - off) := by
    rw [List.length_take, List.length_drop, hsize]
  unfold readSym
  simp only [hoff]
  rw [if_neg (by omega)]
  by_cases hbehind : ((s.files df).size : ℤ) < off
  · have hnil : bytes.length = 0 := by omega
    rw [if_pos hbehind, hnil, List.length_eq_zero_iff.mp hnil, Nat.add_zero, moveTo_off hoff]
    rfl
  · have hsum : u64 (off + count) = off + count := u64_natCast (n := off + count) (by omega)
    have hrest : ((s.files df).size : ℤ) - off = ((s.files df).size - off : ℕ) := by omega
    have hread : (if (s.files df).size < u64 (off + count) then u64 ((s.files df).size - off) else count) =
        bytes.length := by
      rw [hsum, hrest, u64_natCast (by omega), hlen]
      split_ifs <;> omega
    have htake : ((s.files df).contents.drop off).take bytes.length = bytes := by
      rw [List.take_eq_take_iff, List.length_drop, hsize]
      omega
    rw [if_neg hbehind, hread, Int.toNat_natCast, htake, s64_natCast (by omega), State.moveTo, ← Nat.cast_add, s64_natCast (by omega)]

theorem actualCount_eq {count : ℕ} (hsave : s.save_all_writes = false) (hoff : (s.fds i).off = off)
    (hlt : off + count < 2 ^ 63) :
    actualCount s (s.fds i) (s.files df) count = some (min count ((s.files df).size - off)) := by
  have hsize_lt := (s.files df).size_lt
  have hsum : u64 (off + count) = off + count := u64_natCast (n := off + count) (by omega)
  unfold actualCount
  rw [hoff, hsum, hsave]
  simp only [Bool.false_eq_true, if_false]
  split_ifs with hfits hpart
  · rw [Nat.min_eq_left (by omega)]
  · have hrest : ((s.files df).size : ℤ) - off = ((s.files df).size - off : ℕ) := by omega
    rw [hrest, u64_natCast (by omega), Nat.min_eq_right (by omega)]
  · rw [Nat.min_eq_right (by omega), Nat.sub_eq_zero_of_le (by omega)]

theorem overwrite_take (contents buf : List UInt8) (off : ℕ) :
    overwrite contents off (buf.take (min buf.length (contents.length - off))) = FileTable.splice contents off buf := by
  refine List.ext_getElem? fun k => ?_
  rw [overwrite, List.getElem?_mapIdx, FileTable.splice, List.append_assoc]
  by_cases hlen : k < contents.length
  · rw [List.getElem?_eq_getElem hlen, Option.map_some]
    by_cases hbefore : k < off
    · rw [if_neg (by omega), List.getElem?_append_left (by simp; omega), List.getElem?_take_of_lt hbefore,
        List.getElem?_eq_getElem hlen]
    · have hsub : ((k : ℤ) - off).toNat = k - off := by omega
      have hskip : k - (contents.take off).length = k - off := by rw [List.length_take]; omega
      rw [if_pos (by omega), List.getElem?_append_right (by simp; omega), hsub, hskip]
      by_cases hinside : k < off + buf.length
      · rw [List.getElem?_take_of_lt (by omega), List.getElem?_append_left (by simp; omega),
          List.getElem?_take_of_lt (by omega), List.getElem?_eq_getElem (by omega)]
        rfl
      · rw [List.getElem?_take, if_neg (by omega), List.getElem?_append_right (by simp; omega), List.getElem?_drop,
          List.length_take, Option.getD_none, ← List.getElem?_eq_getElem hlen]
        congr 1
        omega
  · have hnone : contents[k]? = none := List.getElem?_eq_none (by omega)
    rw [hnone, Option.map_none, List.getElem?_eq_none]
    simp only [List.length_append, List.length_take, List.length_drop]
    omega

theorem Serves.offset (h : Serves s₀ s) (hdesc : s.table.descriptor i = some (df, off)) :
    OpenOn s i df ∧ (s.fds i).off = off ∧ off < 2 ^ 63 := by
  obtain ⟨hopen, rfl⟩ := descriptor_eq_some.mp hdesc
  obtain ⟨hnonneg, hlt⟩ := h.off i df hopen
  have heq : (s.fds i).off = ((s.fds i).off.toNat : ℤ) := (Int.toNat_of_nonneg hnonneg).symm
  exact ⟨hopen, heq, by omega⟩

theorem guard_eq_some {p : Prop} [Decidable p] {u : Unit} : (guard p : Option Unit) = some u ↔ p := by
  by_cases hp : p
  · simp [hp]
  · simp [hp]

theorem lt_of_seek {t t' : FileTable} (h : t.seek i df off = some t') : off < 2 ^ 63 := by
  by_contra hge
  rw [FileTable.seek, if_neg hge] at h
  cases h

theorem seek_eq_some (hopen : OpenOn s i df) {t : FileTable} (h : s.table.seek i df off = some t) :
    off < 2 ^ 63 ∧ (s.moveTo i off).table = t := by
  have hlt := lt_of_seek h
  rw [table_moveTo hopen hlt] at h
  exact ⟨hlt, Option.some.inj h⟩

section

variable (hfail : s.max_failures = 0) (hopen : OpenOn s i df)

include hfail hopen

theorem read_eq {count : ℕ} {os : ℤ × List UInt8} (hcount : count ≠ 0) :
    read s i true count os = readSym { s with read_calls := s.read_calls + 1 } i (s.fds i) (s.files df) count := by
  have hget : getFile { s with read_calls := s.read_calls + 1 } i = some i := getFile_of_openOn hopen
  unfold read
  simp only [hcount, if_false, Bool.true_eq_false, hget]
  rw [if_neg fun hinject => hinject.1 hfail, hopen.2.2]

theorem write_eq {buf : List UInt8} {os : ℤ} :
    write s i buf os = writeSym { s with write_calls := s.write_calls + 1 } i df (s.fds i) buf := by
  have hget : getFile { s with write_calls := s.write_calls + 1 } i = some i := getFile_of_openOn hopen
  unfold write
  simp only [hget]
  rw [if_neg fun hinject => hinject.1 hfail, hopen.2.2]

end

theorem read_step {count : ℕ} {t : FileTable} {answer : Except Errno (ℤ × List UInt8)} (h : Serves s₀ s)
    (hstep : s.table.step (.read i count) = some (answer, t)) :
    ∃ s', FileCall.run s (.read i count) = some (answer, s') ∧ Serves s₀ s' ∧ s'.table = t := by
  simp only [FileTable.step, bind_eq_some, Prod.exists, guard_eq_some] at hstep
  obtain ⟨df, off, hdesc, -, hcount, t', hseek, hanswer⟩ := hstep
  cases hanswer
  obtain ⟨hopen, hoff, hlt⟩ := h.offset hdesc
  obtain ⟨hlt', rfl⟩ := seek_eq_some hopen hseek
  let s1 : State := { s with read_calls := s.read_calls + 1 }
  have hserves : Serves s₀ s1 := h.counters rfl rfl rfl rfl
  refine ⟨s1.moveTo i _, ?_, hserves.moveTo hopen hlt', rfl⟩
  by_cases hzero : count = 0
  · have hself : s1.moveTo i off = s1 := moveTo_off hoff
    subst hzero
    rw [List.take_zero, List.length_nil, Nat.add_zero, hself]
    rfl
  · rw [FileCall.run, read_eq h.max_failures hopen hzero]
    exact @readSym_eq s1 i df off count hoff hlt hcount

theorem setContents_nil (file : DiskFile) (off : ℕ) : setContents file off [] = file := by
  have hsame : overwrite file.contents off [] = file.contents := by
    have hsplice := overwrite_take file.contents [] off
    rw [List.take_nil, FileTable.splice, List.take_nil, List.append_nil] at hsplice
    exact hsplice.trans (List.take_append_drop off _)
  cases file
  simp only [setContents] at hsame ⊢
  congr

theorem Serves.setContents (h : Serves s₀ s) (off : ℤ) (bytes : List UInt8) :
    Serves s₀ (s.setFile df (Posix.setContents (s.files df) off bytes)) where
  max_failures := h.max_failures
  save_all_writes := h.save_all_writes
  off := h.off
  size k := by
    by_cases hk : k = df
    · rw [hk, setFile_self]
      exact h.size df
    · rw [setFile_ne hk]
      exact h.size k
  entry := h.entry
  other := h.other

theorem table_setFile {file : DiskFile} :
    (s.setFile df file).table = { s.table with contents := Function.update s.table.contents df file.contents } := by
  have hcontents : (s.setFile df file).table.contents = Function.update s.table.contents df file.contents := by
    funext k
    by_cases hk : k = df
    · rw [hk, Function.update_self]
      exact congrArg DiskFile.contents setFile_self
    · rw [Function.update_of_ne hk]
      exact congrArg DiskFile.contents (setFile_ne hk)
  rw [← hcontents]
  rfl

theorem writeSym_eq {buf : List UInt8} (hsave : s.save_all_writes = false) (hoff : (s.fds i).off = off)
    (hlt : off + buf.length < 2 ^ 63) :
    let file := setContents (s.files df) off (buf.take (min buf.length ((s.files df).size - off)))
    ∃ s' : State, writeSym s i df (s.fds i) buf = some (.ok buf.length, s'.moveTo i (off + buf.length)) ∧
      s'.fds = s.fds ∧ s'.files = (s.setFile df file).files ∧ s'.max_failures = s.max_failures ∧
      s'.save_all_writes = s.save_all_writes := by
  intro file
  let count : ℕ := min buf.length ((s.files df).size - off)
  -- nothing is copied if there are no bytes
  have hfile : (if count ≠ 0 then s.setFile df file else s) = s.setFile df file := by
    split_ifs with hzero
    · rfl
    · have hsame : file = s.files df := by
        have hcount : min buf.length ((s.files df).size - off) = 0 := not_not.mp hzero
        simp only [file, hcount, List.take_zero]
        exact setContents_nil _ _
      rw [hsame, State.setFile, Function.update_eq_self]
  let s' : State := if (s.setFile df file).sym_stdout = some df then
    { s.setFile df file with stdout_writes := (s.stdout_writes + count) % 2 ^ 32 } else s.setFile df file
  have hs' : s'.fds = s.fds ∧ s'.files = (s.setFile df file).files ∧ s'.max_failures = s.max_failures ∧
      s'.save_all_writes = s.save_all_writes := by
    simp only [s']
    split_ifs <;> exact ⟨rfl, rfl, rfl, rfl⟩
  have hend : s64 ((off : ℤ) + buf.length) = (off + buf.length : ℕ) := s64_natCast hlt
  refine ⟨s', ?_, hs'⟩
  rw [writeSym, actualCount_eq hsave hoff hlt, State.moveTo, hs'.1, hoff, hend, s64_natCast (by omega)]
  simp only [some_bind]
  rw [hfile]
  rfl

theorem write_step {buf : List UInt8} {t : FileTable} {answer : Except Errno (ℤ × List UInt8)} (h : Serves s₀ s)
    (hstep : s.table.step (.write i buf) = some (answer, t)) :
    ∃ s', FileCall.run s (.write i buf) = some (answer, s') ∧ Serves s₀ s' ∧ s'.table = t := by
  simp only [FileTable.step, bind_eq_some, Prod.exists, guard_eq_some] at hstep
  obtain ⟨df, off, hdesc, -, hcount, t', hseek, hanswer⟩ := hstep
  cases hanswer
  obtain ⟨hopen, hoff, hlt⟩ := h.offset hdesc
  have hlt' : off + buf.length < 2 ^ 63 := lt_of_seek hseek
  let s1 : State := { s with write_calls := s.write_calls + 1 }
  have hserves : Serves s₀ s1 := h.counters rfl rfl rfl rfl
  obtain ⟨s', hwrite, hfds, hfiles, hfail, hsave⟩ := @writeSym_eq s1 i df off buf h.save_all_writes hoff hlt'
  have hserves' : Serves s₀ s' := (hserves.setContents _ _).counters hfds hfiles hfail hsave
  have hopen' : OpenOn s' i df := by
    unfold OpenOn
    rw [hfds]
    exact hopen
  have htable : s'.table = { s.table with
      contents := Function.update s.table.contents df (FileTable.splice (s.table.contents df) off buf) } := by
    have hsplice := overwrite_take (s.files df).contents buf off
    rw [(s.files df).length_contents] at hsplice
    have hwritten : s'.table = (s1.setFile df (setContents (s1.files df) off
      (buf.take (min buf.length ((s1.files df).size - off))))).table := table_congr hfds hfiles
    rw [hwritten, table_setFile]
    exact congrArg (fun file => { s.table with contents := Function.update s.table.contents df file }) hsplice
  rw [← htable] at hseek
  obtain ⟨-, rfl⟩ := seek_eq_some hopen' hseek
  refine ⟨s'.moveTo i (off + buf.length), ?_, hserves'.moveTo hopen' hlt', rfl⟩
  rw [FileCall.run, write_eq h.max_failures hopen]
  exact congrArg (Option.map _) hwrite

theorem seekTarget_eq {offset whence : ℤ} (hoff : (s.fds i).off = off) (hrange : -2 ^ 63 ≤ offset ∧ offset < 2 ^ 63)
    (hlt : ∀ new_off, FileTable.target (s.files df).size off offset whence = some new_off → new_off < 2 ^ 63) :
    seekTarget (s.fds i) (s.files df) offset whence = FileTable.target (s.files df).size off offset whence := by
  have hs64 : ∀ {n : ℤ}, -2 ^ 63 ≤ n → n < 2 ^ 63 → s64 n = n := by
    intro n hge hlt
    unfold s64
    rw [Int.bmod_eq_of_le] <;> omega
  unfold FileTable.target at hlt
  unfold seekTarget FileTable.target
  split_ifs at hlt ⊢ with hset hcur hend
  · rfl
  · rw [hoff, hs64 (by omega) (hlt _ rfl)]
  · rw [hs64 (by omega) (hlt _ rfl)]
  · rfl

theorem fd_lseek_eq {offset whence : ℤ} {os : ℤ × ℤ} (hopen : OpenOn s i df) :
    fd_lseek s i offset whence os =
      match seekTarget (s.fds i) (s.files df) offset whence with
      | none => some (.error .EINVAL, s)
      | some new_off =>
          if new_off < 0 then some (.error .EINVAL, s)
          else some (.ok new_off, s.setFd i { s.fds i with off := new_off }) := by
  unfold fd_lseek
  simp only [getFile_of_openOn hopen, hopen.2.2]
  all_goals rfl

theorem lseek_step {offset whence : ℤ} {t : FileTable} {answer : Except Errno (ℤ × List UInt8)} (h : Serves s₀ s)
    (hstep : s.table.step (.lseek i offset whence) = some (answer, t)) :
    ∃ s', FileCall.run s (.lseek i offset whence) = some (answer, s') ∧ Serves s₀ s' ∧ s'.table = t := by
  simp only [FileTable.step, bind_eq_some, Prod.exists, guard_eq_some] at hstep
  obtain ⟨df, off, hdesc, -, hrange, hstep⟩ := hstep
  obtain ⟨hopen, hoff, hlt⟩ := h.offset hdesc
  have hsize : (s.table.contents df).length = (s.files df).size := (s.files df).length_contents
  rw [hsize] at hstep
  rw [FileCall.run, fd_lseek_eq hopen]
  have hinvalid : ∃ s', some ((.error .EINVAL : Except Errno (ℤ × List UInt8)), s) = some (.error .EINVAL, s') ∧
      Serves s₀ s' ∧ s'.table = s.table := ⟨s, rfl, h, rfl⟩
  cases htarget : FileTable.target (s.files df).size off offset whence with
  | none =>
    rw [htarget] at hstep
    cases hstep
    rw [seekTarget_eq hoff hrange (by rw [htarget]; nofun), htarget]
    exact hinvalid
  | some new_off =>
    have hseek (hlt : new_off < 2 ^ 63) : seekTarget (s.fds i) (s.files df) offset whence = some new_off := by
      rw [seekTarget_eq hoff hrange (by rw [htarget]; rintro _ ⟨⟩; exact hlt), htarget]
    rw [htarget] at hstep
    simp only at hstep
    split_ifs at hstep with hneg
    · cases hstep
      rw [hseek (by omega)]
      simp only [if_pos hneg]
      exact hinvalid
    · rw [bind_eq_some] at hstep
      obtain ⟨t', htable, hanswer⟩ := hstep
      cases hanswer
      have heq : new_off = (new_off.toNat : ℤ) := by omega
      obtain ⟨hlt', rfl⟩ := seek_eq_some hopen htable
      rw [hseek (by omega)]
      simp only [if_neg hneg]
      refine ⟨s.moveTo i new_off.toNat, ?_, h.moveTo hopen hlt', rfl⟩
      rw [State.moveTo, ← heq]
      rfl

def Backs (s₀ s : State) (t : FileTable) : Prop := Serves s₀ s ∧ s.table = t

theorem file_call_simulates (s₀ : State) {s : State} {t : FileTable} {call : FileCall}
    {answer : Except Errno (ℤ × List UInt8)} {t' : FileTable} (h : Backs s₀ s t) (_ : True) (hstep : t.step call = some (answer, t')) :
    ∃ out s', call.run s = some (out, s') ∧ out = answer ∧ Backs s₀ s' t' := by
  obtain ⟨hserves, rfl⟩ := h
  have hmatch : ∃ s', call.run s = some (answer, s') ∧ Serves s₀ s' ∧ s'.table = t' := by
    cases call with
    | read i count => exact read_step hserves hstep
    | write i buf => exact write_step hserves hstep
    | lseek i offset whence => exact lseek_step hserves hstep
  obtain ⟨s', hrun, hs'⟩ := hmatch
  exact ⟨answer, s', hrun, rfl, hs'⟩

/-- Symbolic files are files of a fixed size, whatever is read, written and sought. -/
theorem file_calls_refine (s : State) (hfail : s.max_failures = 0) (hsave : s.save_all_writes = false)
    (hoff : ∀ i df, OpenOn s i df → 0 ≤ (s.fds i).off ∧ (s.fds i).off < 2 ^ 63) (calls : List FileCall)
    {answers : List (Except Errno (ℤ × List UInt8))} {t : FileTable}
    (hrun : Machine.run FileTable.step s.table calls = some (answers, t)) :
    ∃ s', Machine.run FileCall.run s calls = some (answers, s') ∧ s'.table = t ∧
      (∀ df, (s'.files df).size = (s.files df).size) ∧
      (∀ i, s'.fds i = { s.fds i with off := (s'.fds i).off }) ∧
      ∀ i, (s.fds i).dfile = none → s'.fds i = s.fds i := by
  have hserves : Serves s s := ⟨hfail, hsave, hoff, fun _ => rfl, fun _ => rfl, fun _ _ => rfl⟩
  obtain ⟨answers', s', hrun', hanswers, hserves', htable⟩ :=
    Machine.run_simulates FileCall.run FileTable.step (file_call_simulates s) calls ⟨hserves, rfl⟩ (fun _ _ => trivial) hrun
  rw [List.forall₂_eq_eq_eq] at hanswers
  subst hanswers
  exact ⟨s', hrun', htable, hserves'.size, hserves'.entry, hserves'.other⟩

/-- Three bytes are written to a file of two, and two are read back. -/
theorem file_calls_refine_one :
    ∃ s', Machine.run FileCall.run (oneFile 0) [.write 0 [7, 8, 9], .lseek 0 (-2) SEEK_CUR, .read 0 4] =
      some ([.ok (3, []), .ok (1, []), .ok (1, [8])], s') := by
  have hoff : ∀ i df, OpenOn (oneFile 0) i df → 0 ≤ ((oneFile 0).fds i).off ∧ ((oneFile 0).fds i).off < 2 ^ 63 := by
    rintro i df -
    unfold oneFile
    simp only
    split_ifs <;> decide
  have hrun : ∃ t, Machine.run FileTable.step (oneFile 0).table [.write 0 [7, 8, 9], .lseek 0 (-2) SEEK_CUR, .read 0 4] =
      some ([.ok (3, []), .ok (1, []), .ok (1, [8])], t) := ⟨_, rfl⟩
  obtain ⟨t, hrun⟩ := hrun
  obtain ⟨s', hs', -⟩ := file_calls_refine (oneFile 0) rfl rfl hoff _ hrun
  exact ⟨s', hs'⟩

end Files

end Klee.Posix
