import DdKlee.Lib.Prog
import DdKlee.Spec.KTest

/-! What is written of a test case can be read, unless it has an empty string or an
object without bytes. -/

namespace Klee.KTest

open Reader

def uint32Bytes (value : BitVec 32) : List Byte :=
  [(value >>> 24).setWidth 8, (value >>> 16).setWidth 8, (value >>> 8).setWidth 8, value.setWidth 8]

def stringBytes (s : CString) : List Byte := uint32Bytes (BitVec.ofNat 32 s.chars.length) ++ s.chars

def objectBytes (o : KTestObject) : List Byte :=
  stringBytes o.name ++ (uint32Bytes (BitVec.ofNat 32 o.bytes.length) ++ o.bytes)

def argvsBytes (bo : KTest) : List Byte := uint32Bytes bo.symArgvs ++ uint32Bytes bo.symArgvLen

def fileBytes (bo : KTest) : List Byte :=
  magic ++ (uint32Bytes getCurrentVersion ++ (uint32Bytes (BitVec.ofNat 32 bo.args.length) ++
    (bo.args.flatMap stringBytes ++ (argvsBytes bo ++
      (uint32Bytes (BitVec.ofNat 32 bo.objects.length) ++ bo.objects.flatMap objectBytes)))))

theorem fwrite_eq (f data : List Byte) : fwrite f data = if data ≠ [] then some (f ++ data) else none := by
  simp [fwrite]

theorem writeString_eq (f : List Byte) (s : CString) :
    writeString f s = if s.chars ≠ [] then some (f ++ stringBytes s) else none := by
  change fwrite _ _ = _
  rw [fwrite_eq, stringBytes, ← List.append_assoc]
  rfl

theorem writeObject_eq (f : List Byte) (o : KTestObject) :
    writeObject f o = if o.name.chars ≠ [] ∧ o.bytes ≠ [] then some (f ++ objectBytes o) else none := by
  simp only [writeObject, writeString_eq, Option.bind_eq_bind]
  by_cases hname : o.name.chars ≠ []
  · rw [if_pos hname, Option.bind_some]
    change fwrite _ _ = _
    rw [fwrite_eq]
    by_cases hbytes : o.bytes ≠ []
    · rw [if_pos hbytes, if_pos ⟨hname, hbytes⟩, objectBytes, List.append_assoc, List.append_assoc, uint32Bytes]
    · rw [if_neg hbytes, if_neg fun h => hbytes h.2]
  · rw [if_neg hname, if_neg fun h => hname h.1]
    rfl

theorem foldlM_write {α : Type} {write : List Byte → α → Option (List Byte)} {ok : α → Prop} [DecidablePred ok]
    {enc : α → List Byte} (h : ∀ f a, write f a = if ok a then some (f ++ enc a) else none) (as : List α)
    (f : List Byte) : as.foldlM write f = if ∀ a ∈ as, ok a then some (f ++ as.flatMap enc) else none := by
  induction as generalizing f with
  | nil => simp
  | cons a as ih =>
    rw [List.foldlM_cons, h]
    by_cases ha : ok a
    · rw [if_pos ha, some_bind, ih, List.flatMap_cons, List.append_assoc]
      simp only [List.forall_mem_cons, ha, true_and]
    · rw [if_neg ha, if_neg fun hall => ha (hall a List.mem_cons_self)]
      rfl

structure Writable (bo : KTest) : Prop where
  args : ∀ s ∈ bo.args, s.chars ≠ []
  objects : ∀ o ∈ bo.objects, o.name.chars ≠ [] ∧ o.bytes ≠ []

theorem toFile_iff (bo : KTest) (f : List Byte) : bo.toFile = some f ↔ bo.Writable ∧ f = fileBytes bo := by
  simp only [toFile, fwrite_eq, writeUint32, Option.bind_eq_bind, foldlM_write writeString_eq,
    foldlM_write writeObject_eq]
  rw [if_pos (by simp [magic])]
  by_cases hargs : ∀ s ∈ bo.args, s.chars ≠ []
  · by_cases hobjects : ∀ o ∈ bo.objects, o.name.chars ≠ [] ∧ o.bytes ≠ []
    · simp only [if_pos hargs, if_pos hobjects, Option.bind_some, Option.some.injEq, List.nil_append,
        List.append_assoc]
      exact ⟨fun heq => ⟨⟨hargs, hobjects⟩, heq.symm⟩, fun ⟨_, heq⟩ => heq.symm⟩
    · simp only [if_pos hargs, if_neg hobjects, Option.bind_some]
      exact ⟨nofun, fun ⟨h, _⟩ => absurd h.objects hobjects⟩
  · simp only [if_neg hargs, Option.bind_some, Option.bind_none]
    exact ⟨nofun, fun ⟨h, _⟩ => absurd h.args hargs⟩

theorem word_uint32Bytes (value : BitVec 32) : word (uint32Bytes value) = value := by
  apply BitVec.eq_of_toNat_eq
  simp only [word, uint32Bytes, List.foldl_cons, List.foldl_nil, BitVec.toNat_add, BitVec.toNat_shiftLeft,
    BitVec.toNat_setWidth, BitVec.toNat_ushiftRight, Nat.shiftLeft_eq, Nat.shiftRight_eq_div_pow]
  have hlt := value.isLt
  simp
  omega

theorem reads_fread {n : ℕ} (v : List.Vector Byte n) (hn : n ≠ 0) : Reads (fread n) v.toList v := by
  rw [fread, if_neg hn]
  exact .take v

theorem reads_uint32 (value : BitVec 32) : Reads readUint32 (uint32Bytes value) value := by
  have hread := (reads_fread (⟨uint32Bytes value, rfl⟩ : List.Vector Byte 4) (by decide)).map fun v => word v.toList
  change Reads readUint32 (uint32Bytes value) (word (uint32Bytes value)) at hread
  rwa [word_uint32Bytes] at hread

theorem toNat_length {α : Type} {l : List α} (h : l.length < 2 ^ 32) : (BitVec.ofNat 32 l.length).toNat = l.length := by
  rw [BitVec.toNat_ofNat, Nat.mod_eq_of_lt h]

theorem reads_data {data : List Byte} (h : data.length < 2 ^ 32) (hne : data ≠ []) :
    Reads (fread (BitVec.ofNat 32 data.length).toNat) data ⟨data, (toNat_length h).symm⟩ := by
  have hlen : (BitVec.ofNat 32 data.length).toNat ≠ 0 := by
    rw [toNat_length h]
    simpa using hne
  exact reads_fread ⟨data, (toNat_length h).symm⟩ hlen

theorem ofBuffer_chars (s : CString) :
    CString.ofBuffer (BitVec.ofNat 32 s.chars.length) ⟨s.chars, (toNat_length s.length_lt).symm⟩ = s := by
  have hchars : s.chars.takeWhile (· ≠ 0) = s.chars := by
    refine List.takeWhile_eq_self_iff.mpr fun c hc => ?_
    have hne : c ≠ 0 := fun heq => s.no_nul (heq ▸ hc)
    simpa using hne
  cases s
  simpa [CString.ofBuffer] using hchars

theorem buffer_small {s : CString} :
    (BitVec.ofNat 32 s.chars.length + 1).toNat ≤ (BitVec.ofNat 32 s.chars.length).toNat ↔
      ¬ s.chars.length + 1 < 2 ^ 32 := by
  have hlt := s.length_lt
  rw [BitVec.toNat_add, toNat_length hlt]
  simp
  omega

theorem reads_string {s : CString} (hne : s.chars ≠ []) (hlt : s.chars.length + 1 < 2 ^ 32) :
    Reads readString (stringBytes s) s := by
  refine (reads_uint32 _).bind ?_
  rw [if_neg fun hle => buffer_small.mp hle hlt]
  have hread := (reads_data s.length_lt hne).map fun v => CString.ofBuffer _ v
  rwa [ofBuffer_chars] at hread

theorem rejects_string {s : CString} (hlt : ¬ s.chars.length + 1 < 2 ^ 32) : Rejects readString (stringBytes s) := by
  refine (reads_uint32 _).bind_rejects ?_
  rw [if_pos (buffer_small.mpr hlt)]
  exact fun _ => rfl

theorem reads_object {o : KTestObject} (hne : o.name.chars ≠ []) (hlt : o.name.chars.length + 1 < 2 ^ 32)
    (hbytes : o.bytes ≠ []) : Reads readObject (objectBytes o) o := by
  refine (reads_string hne hlt).bind ((reads_uint32 _).bind ?_)
  exact (reads_data o.numBytes_lt hbytes).map fun bytes => KTestObject.mk o.name bytes.toList (length_lt bytes)

theorem rejects_object {o : KTestObject} (hlt : ¬ o.name.chars.length + 1 < 2 ^ 32) :
    Rejects readObject (objectBytes o) := (rejects_string hlt).bind _

theorem reads_header : Reads checkHeader magic () := by
  have hpure : Reads (if magic ≠ magic ∧ magic ≠ boutMagic then failure else pure ()) ([] : List Byte) () := .pure ()
  have hread := (reads_fread (⟨magic, rfl⟩ : List.Vector Byte 5) (by decide)).bind (f := fun header =>
    if header.toList ≠ magic ∧ header.toList ≠ boutMagic then failure else pure ()) hpure
  rwa [List.append_nil] at hread

theorem reads_argvs (bo : KTest) :
    Reads (readArgvs getCurrentVersion) (argvsBytes bo) (bo.symArgvs, bo.symArgvLen) :=
  (reads_uint32 bo.symArgvs).bind ((reads_uint32 bo.symArgvLen).map fun len => (bo.symArgvs, len))

structure Readable (bo : KTest) : Prop where
  args : ∀ s ∈ bo.args, s.chars.length + 1 < 2 ^ 32
  objects : ∀ o ∈ bo.objects, o.name.chars.length + 1 < 2 ^ 32

theorem reads_args {bo : KTest} (h : bo.Writable) (hlt : ∀ s ∈ bo.args, s.chars.length + 1 < 2 ^ 32) :
    Reads (many readString (BitVec.ofNat 32 bo.args.length).toNat) (bo.args.flatMap stringBytes)
      ⟨bo.args, (toNat_length bo.numArgs_lt).symm⟩ :=
  .many ⟨bo.args, (toNat_length bo.numArgs_lt).symm⟩ fun s hs => reads_string (h.args s hs) (hlt s hs)

theorem reads_objects {bo : KTest} (h : bo.Writable) (h' : bo.Readable) :
    Reads (many readObject (BitVec.ofNat 32 bo.objects.length).toNat) (bo.objects.flatMap objectBytes)
      ⟨bo.objects, (toNat_length bo.numObjects_lt).symm⟩ :=
  .many ⟨bo.objects, (toNat_length bo.numObjects_lt).symm⟩ fun o ho =>
    reads_object (h.objects o ho).1 (h'.objects o ho) (h.objects o ho).2

theorem not_newer : ¬ getCurrentVersion < getCurrentVersion := by decide

theorem reads_file {bo : KTest} (h : bo.Writable) (h' : bo.Readable) :
    Reads reader (fileBytes bo) { bo with version := getCurrentVersion } := by
  refine reads_header.bind ((reads_uint32 getCurrentVersion).bind ?_)
  rw [if_neg not_newer]
  refine (reads_uint32 _).bind ((reads_args h h'.args).bind ((reads_argvs bo).bind ((reads_uint32 _).bind ?_)))
  exact (reads_objects h h').map fun objects => KTest.mk getCurrentVersion bo.args bo.numArgs_lt bo.symArgvs
    bo.symArgvLen objects.toList (length_lt objects)

theorem rejects_args {bo : KTest} (h : bo.Writable) (hlong : ∃ s ∈ bo.args, ¬ s.chars.length + 1 < 2 ^ 32) :
    Rejects (many readString (BitVec.ofNat 32 bo.args.length).toNat) (bo.args.flatMap stringBytes) := by
  refine .many (toNat_length bo.numArgs_lt).symm (fun s hs => ?_) ?_
  · by_cases hlt : s.chars.length + 1 < 2 ^ 32
    · exact .inl (reads_string (h.args s hs) hlt)
    · exact .inr (rejects_string hlt)
  · obtain ⟨s, hs, hlt⟩ := hlong
    exact ⟨s, hs, rejects_string hlt⟩

theorem rejects_objects {bo : KTest} (h : bo.Writable)
    (hlong : ∃ o ∈ bo.objects, ¬ o.name.chars.length + 1 < 2 ^ 32) :
    Rejects (many readObject (BitVec.ofNat 32 bo.objects.length).toNat) (bo.objects.flatMap objectBytes) := by
  refine .many (toNat_length bo.numObjects_lt).symm (fun o ho => ?_) ?_
  · by_cases hlt : o.name.chars.length + 1 < 2 ^ 32
    · exact .inl (reads_object (h.objects o ho).1 hlt (h.objects o ho).2)
    · exact .inr (rejects_object hlt)
  · obtain ⟨o, ho, hlt⟩ := hlong
    exact ⟨o, ho, rejects_object hlt⟩

theorem rejects_file {bo : KTest} (h : bo.Writable) (h' : ¬ bo.Readable) : Rejects reader (fileBytes bo) := by
  refine reads_header.bind_rejects ((reads_uint32 getCurrentVersion).bind_rejects ?_)
  rw [if_neg not_newer]
  refine (reads_uint32 _).bind_rejects ?_
  by_cases hargs : ∃ s ∈ bo.args, ¬ s.chars.length + 1 < 2 ^ 32
  · exact (rejects_args h hargs).bind _
  · have hshort : ∀ s ∈ bo.args, s.chars.length + 1 < 2 ^ 32 := fun s hs => by_contra fun hlt => hargs ⟨s, hs, hlt⟩
    have hlong : ∃ o ∈ bo.objects, ¬ o.name.chars.length + 1 < 2 ^ 32 := by
      by_contra hobjects
      exact h' ⟨hshort, fun o ho => by_contra fun hlt => hobjects ⟨o, ho, hlt⟩⟩
    refine (reads_args h hshort).bind_rejects ((reads_argvs bo).bind_rejects ((reads_uint32 _).bind_rejects ?_))
    rw [← List.append_nil (bo.objects.flatMap objectBytes)]
    exact (rejects_objects h hlong).bind []

/-- A test case can be written, read again and not be read from a part of its file, if and
only if every string has a character and room for a NUL byte, and every object has bytes. -/
theorem fromFile_toFile_iff (bo : KTest) :
    (∃ f, bo.toFile = some f ∧ fromFile f = some { bo with version := getCurrentVersion } ∧
      ∀ p, p <+: f → p ≠ f → fromFile p = none) ↔
    (∀ s ∈ bo.args ++ bo.objects.map KTestObject.name, s.chars ≠ [] ∧ s.chars.length + 1 < 2 ^ 32) ∧
      ∀ o ∈ bo.objects, o.bytes ≠ [] := by
  constructor
  · rintro ⟨f, hf, hread, -⟩
    obtain ⟨hw, rfl⟩ := (toFile_iff bo f).mp hf
    have hr : bo.Readable := by
      by_contra hr
      rw [fromFile, (rejects_file hw hr).run] at hread
      cases hread
    refine ⟨List.forall_mem_append.mpr ⟨fun s hs => ⟨hw.args s hs, hr.args s hs⟩, fun s hs => ?_⟩,
      fun o ho => (hw.objects o ho).2⟩
    obtain ⟨o, ho, rfl⟩ := List.mem_map.mp hs
    exact ⟨(hw.objects o ho).1, hr.objects o ho⟩
  · rintro ⟨hstrings, hbytes⟩
    obtain ⟨hargs, hnames⟩ := List.forall_mem_append.mp hstrings
    have hname : ∀ o ∈ bo.objects, _ := fun o ho => hnames o.name (List.mem_map_of_mem ho)
    have hw : bo.Writable := ⟨fun s hs => (hargs s hs).1, fun o ho => ⟨(hname o ho).1, hbytes o ho⟩⟩
    have hr : bo.Readable := ⟨fun s hs => (hargs s hs).2, fun o ho => (hname o ho).2⟩
    have hread := reads_file hw hr
    refine ⟨fileBytes bo, (toFile_iff bo _).mpr ⟨hw, rfl⟩, by rw [fromFile, hread.run]; rfl, fun p hp hne => ?_⟩
    rw [fromFile, hread.short p hp hne]
    rfl

def emptyObject : KTest :=
  ⟨getCurrentVersion, [], by decide, 0, 0, [⟨⟨[0x78], by decide, by decide⟩, [], by decide⟩], by decide⟩

theorem emptyObject_unwritten : emptyObject.toFile = none := by decide

end Klee.KTest
