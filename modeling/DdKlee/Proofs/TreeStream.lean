import DdKlee.Lib.Prog
import DdKlee.Spec.TreeStream

/-! Every stream is read back as it was written. -/

namespace Klee

namespace Streams

variable (s : Streams) (os : ℕ) (bytes : List (BitVec 8)) {i : ℕ}

theorem content_write_self : (s.write os bytes).content os = s.content os ++ bytes := Function.update_self ..

theorem content_write_ne (h : i ≠ os) : (s.write os bytes).content i = s.content i := Function.update_of_ne h ..

theorem content_open_self : (s.openStream os).content (s.count + 1) = s.content os := Function.update_self ..

theorem content_open_ne (h : i ≠ s.count + 1) : (s.openStream os).content i = s.content i :=
  Function.update_of_ne h ..

end Streams

namespace TreeStreamWriter

open Reader

theorem ofWord_word {n : ℕ} (h : n < 2 ^ 32) : ofWord (word n) = n := by
  simp only [ofWord, word, List.foldr_cons, List.foldr_nil, BitVec.toNat_ofNat]
  omega

theorem reads_word {n : ℕ} (h : n < 2 ^ 32) : Reads readWord (word n) n := by
  have hread := (Reads.take (⟨word n, rfl⟩ : List.Vector (BitVec 8) 4)).map fun v => ofWord v.toList
  change Reads readWord (word n) (ofWord (word n)) at hread
  rwa [ofWord_word h] at hread

theorem reads_header {id tag : ℕ} (hid : id < 2 ^ 32) (htag : tag < 2 ^ 32) :
    Reads readHeader (word id ++ word tag) (id, tag) :=
  (reads_word hid).bind ((reads_word htag).map fun tag => (id, tag))

theorem testBit_size {n : ℕ} (h : n < 2 ^ 31) : n.testBit 31 = false := Nat.testBit_lt_two_pow h

theorem tag_lt {n : ℕ} (h : n < 2 ^ 31) : n ||| forkBit < 2 ^ 32 :=
  Nat.or_lt_two_pow (Nat.lt_trans h (by decide)) (by decide)

theorem testBit_tag (n : ℕ) : (n ||| forkBit).testBit 31 = true := by
  rw [Nat.testBit_or, forkBit, Nat.testBit_two_pow_self, Bool.or_true]

theorem tag_xor {n : ℕ} (h : n < 2 ^ 31) : (n ||| forkBit) ^^^ forkBit = n := by
  refine Nat.eq_of_testBit_eq fun i => ?_
  rw [Nat.testBit_xor, Nat.testBit_or, forkBit, Nat.testBit_two_pow]
  by_cases hi : 31 = i
  · subst hi
    simp [testBit_size h]
  · simp [hi]

inductive Record
  | fork (parent child : ℕ)
  | data (id : ℕ) (bytes : List (BitVec 8))

namespace Record

def bytes : Record → List (BitVec 8)
  | fork parent child => word parent ++ word (child ||| forkBit)
  | data id bytes => word id ++ (word bytes.length ++ bytes)

def apply (s : Streams) : Record → Streams
  | fork parent _ => s.openStream parent
  | data id bytes => s.write id bytes

end Record

/-- From `n` streams to `m`: they are opened in the order of their numbers, and written to
when they are open. -/
def Valid (m : ℕ) : ℕ → List Record → Prop
  | n, [] => n = m
  | n, .fork parent child :: log => parent ≤ n ∧ child = n + 1 ∧ Valid m (n + 1) log
  | n, .data id bytes :: log => 0 < id ∧ id ≤ n ∧ bytes.length < 2 ^ 31 ∧ Valid m n log

variable {n m k parent child id : ℕ} {log log' : List Record} {bytes : List (BitVec 8)}

theorem Valid.append (h : Valid m n log) (h' : Valid k m log') : Valid k n (log ++ log') := by
  induction log generalizing n with
  | nil =>
    cases h
    exact h'
  | cons r log ih =>
    cases r with
    | fork parent child => exact ⟨h.1, h.2.1, ih h.2.2⟩
    | data id bytes => exact ⟨h.1, h.2.1, h.2.2.1, ih h.2.2.2⟩

theorem Valid.le (h : Valid m n log) : n ≤ m := by
  induction log generalizing n with
  | nil => exact Nat.le_of_eq h
  | cons r log ih =>
    cases r with
    | fork parent child => exact Nat.le_of_succ_le (ih h.2.2)
    | data id bytes => exact ih h.2.2.2

theorem Valid.fork_lt (h : Valid m n log) (hmem : .fork parent child ∈ log) : parent < child ∧ n < child := by
  induction log generalizing n with
  | nil => cases hmem
  | cons r log ih =>
    cases r with
    | fork p c =>
      rcases List.mem_cons.mp hmem with heq | hmem
      · cases heq
        obtain ⟨hle, rfl, -⟩ := h
        omega
      · have hlt := ih h.2.2 hmem
        omega
    | data id bytes =>
      rcases List.mem_cons.mp hmem with heq | hmem
      · cases heq
      · exact ih h.2.2.2 hmem

def fileBytes (log : List Record) : List (BitVec 8) := log.flatMap Record.bytes

theorem length_le_fileBytes (log : List Record) : log.length ≤ (fileBytes log).length := by
  induction log with
  | nil => simp
  | cons r log ih =>
    have hr : 1 ≤ r.bytes.length := by cases r <;> simp [Record.bytes, word]
    simp only [fileBytes, List.flatMap_cons, List.length_append, List.length_cons] at ih ⊢
    omega

def Linked (log : List Record) (roots : List ℕ) : Prop := (0 :: roots).IsChain fun a b => .fork a b ∈ log

theorem chain_ok {parents : List (ℕ × ℕ)} (hfound : ∀ i, 0 < i → i ≤ n → ∃ p, parents.lookup i = some p)
    (hparents : ∀ i p, parents.lookup i = some p → p < i ∧ .fork p i ∈ log) (fuel : ℕ) :
    ∀ {id : ℕ} {roots : List ℕ}, id ≤ fuel → id ≤ n → (id :: roots).IsChain (fun a b => .fork a b ∈ log) →
      ∃ roots', chain parents fuel id roots = some (roots' ++ roots) ∧ Linked log (roots' ++ roots) := by
  induction fuel with
  | zero =>
    intro id roots hid _ hchain
    cases Nat.le_zero.mp hid
    exact ⟨[], by simp [chain], hchain⟩
  | succ fuel ih =>
    intro id roots hid hn hchain
    by_cases hzero : id = 0
    · subst hzero
      exact ⟨[], by simp [chain], hchain⟩
    · obtain ⟨p, hp⟩ := hfound id (Nat.pos_of_ne_zero hzero) hn
      obtain ⟨hlt, hfork⟩ := hparents id p hp
      obtain ⟨roots', hrun, hlinked⟩ := ih (by omega) (by omega) (List.isChain_cons_cons.mpr ⟨hfork, hchain⟩)
      refine ⟨roots' ++ [id], ?_, ?_⟩
      · rw [chain, if_neg hzero, hp]
        simpa using hrun
      · simpa using hlinked

section

variable {streamID fuel : ℕ} {parents : List (ℕ × ℕ)} {rest : List (BitVec 8)}

theorem readHeader_fork (hparent : parent < 2 ^ 31) (hchild : child < 2 ^ 31) :
    readHeader ((Record.fork parent child).bytes ++ rest) = some ((parent, child ||| forkBit), rest) :=
  (reads_header (Nat.lt_trans hparent (by decide)) (tag_lt hchild)).append rest

theorem readHeader_data (hid : id < 2 ^ 31) (hbytes : bytes.length < 2 ^ 31) :
    readHeader ((Record.data id bytes).bytes ++ rest) = some ((id, bytes.length), bytes ++ rest) := by
  rw [Record.bytes, ← List.append_assoc, List.append_assoc]
  exact (reads_header (Nat.lt_trans hid (by decide)) (Nat.lt_trans hbytes (by decide))).append (bytes ++ rest)

theorem take_data : Reader.take bytes.length (bytes ++ rest) = some (⟨bytes, rfl⟩, rest) :=
  (Reads.take (⟨bytes, rfl⟩ : List.Vector _ bytes.length)).append rest

theorem findRoots_fork (hparent : parent < 2 ^ 31) (hchild : child < 2 ^ 31) :
    findRoots streamID (fuel + 1) parents ((Record.fork parent child).bytes ++ rest) =
      if child = streamID then chain parents (parents.length + 1) parent [child]
      else findRoots streamID fuel (parents ++ [(child, parent)]) rest := by
  rw [findRoots, readHeader_fork hparent hchild]
  simp only [some_bind, if_pos (testBit_tag child), tag_xor hchild]

theorem findRoots_data (hid : id < 2 ^ 31) (hbytes : bytes.length < 2 ^ 31) :
    findRoots streamID (fuel + 1) parents ((Record.data id bytes).bytes ++ rest) =
      findRoots streamID fuel parents rest := by
  rw [findRoots, readHeader_data hid hbytes]
  simp only [some_bind, testBit_size hbytes, Bool.false_eq_true, if_false, take_data]

structure Parents (full : List Record) (n : ℕ) (parents : List (ℕ × ℕ)) : Prop where
  length : parents.length = n
  found : ∀ i, 0 < i → i ≤ n → ∃ p, parents.lookup i = some p
  parent : ∀ i p, parents.lookup i = some p → p < i ∧ .fork p i ∈ full

theorem lookup_append_singleton (parents : List (ℕ × ℕ)) (i : ℕ) :
    (parents ++ [(child, parent)]).lookup i =
      (parents.lookup i).or (if i = child then some parent else none) := by
  rw [List.lookup_append]
  by_cases hi : i = child
  · simp [List.lookup, hi]
  · have hbeq : (i == child) = false := beq_eq_false_iff_ne.mpr hi
    simp [List.lookup, hi, hbeq]

theorem Parents.snoc {full : List Record} (h : Parents full n parents) (hle : parent ≤ n)
    (hmem : .fork parent (n + 1) ∈ full) : Parents full (n + 1) (parents ++ [(n + 1, parent)]) where
  length := by simp [h.length]
  found i hpos hi := by
    rw [lookup_append_singleton]
    by_cases hlast : i = n + 1
    · cases hlook : parents.lookup i with
      | none => exact ⟨parent, by simp [hlast]⟩
      | some p => exact ⟨p, rfl⟩
    · obtain ⟨p, hp⟩ := h.found i hpos (by omega)
      exact ⟨p, by simp [hp]⟩
  parent i p hp := by
    rw [lookup_append_singleton] at hp
    cases hlook : parents.lookup i with
    | some q =>
      rw [hlook] at hp
      cases hp
      exact h.parent i p hlook
    | none =>
      rw [hlook, Option.none_or] at hp
      split at hp
      · rename_i hi
        cases hp
        exact ⟨by omega, hi ▸ hmem⟩
      · cases hp

theorem findRoots_ok {full : List Record} (hm : m < 2 ^ 31) (hid : streamID ≤ m) (log : List Record) :
    ∀ {n fuel parents}, Valid m n log → (∀ r ∈ log, r ∈ full) → n < streamID → Parents full n parents →
      log.length < fuel → ∃ roots, findRoots streamID fuel parents (fileBytes log) = some (roots ++ [streamID]) ∧
        Linked full (roots ++ [streamID]) := by
  induction log with
  | nil =>
    intro n fuel parents h _ hlt
    cases h
    omega
  | cons r log ih =>
    intro n fuel parents h hfull hlt hparents hfuel
    obtain ⟨hr, hlog⟩ := List.forall_mem_cons.mp hfull
    obtain ⟨fuel, rfl⟩ : ∃ k, fuel = k + 1 := ⟨fuel - 1, by omega⟩
    have hfuel' : log.length < fuel := by simpa using hfuel
    cases r with
    | fork parent child =>
      obtain ⟨hle, rfl, hrest⟩ := h
      have hn := hrest.le
      rw [fileBytes, List.flatMap_cons, findRoots_fork (by omega) (by omega)]
      by_cases heq : n + 1 = streamID
      · rw [if_pos heq, hparents.length, ← heq]
        refine chain_ok hparents.found hparents.parent (n + 1) (by omega) hle ?_
        exact List.isChain_cons_cons.mpr ⟨hr, List.isChain_singleton _⟩
      · rw [if_neg heq]
        exact ih hrest hlog (by omega) (hparents.snoc hle hr) hfuel'
    | data id bytes =>
      obtain ⟨-, hle, hlen, hrest⟩ := h
      have hn := hrest.le
      rw [fileBytes, List.flatMap_cons, findRoots_data (by omega) hlen]
      exact ih hrest hlog hlt hparents hfuel'

end

section

variable {fuel top : ℕ} {roots rest' : List ℕ} {out rest : List (BitVec 8)} {s : Streams}

theorem replay_fork (hparent : parent < 2 ^ 31) (hchild : child < 2 ^ 31) :
    replay (fuel + 1) ((Record.fork parent child).bytes ++ rest) (top :: roots) out =
      if top = parent ∧ roots.head? = some child then replay fuel rest roots out
      else replay fuel rest (top :: roots) out := by
  rw [replay, readHeader_fork hparent hchild]
  simp only [if_pos (testBit_tag child), tag_xor hchild, List.head?_cons, Option.some.injEq, List.tail_cons]

theorem replay_data (hid : id < 2 ^ 31) (hbytes : bytes.length < 2 ^ 31) :
    replay (fuel + 1) ((Record.data id bytes).bytes ++ rest) (top :: roots) out =
      replay fuel rest (top :: roots) (if top = id then out ++ bytes else out) := by
  rw [replay, readHeader_data hid hbytes]
  simp only [testBit_size hbytes, Bool.false_eq_true, if_false, take_data, some_bind,
    List.head?_cons, Option.some.injEq]
  rfl

/-- What is known when the records `log` are left: the next streams are still to be opened,
one from the other, and what was put out is what the first of them has so far. -/
structure Replaying (log : List Record) (n : ℕ) (s : Streams) (top : ℕ) (roots : List ℕ) (out : List (BitVec 8)) :
    Prop where
  count : s.count = n
  root : s.content 0 = []
  unopened : ∀ i, n < i → s.content i = []
  out : out = s.content top
  opened : top ≤ n ∨ .fork 0 top ∈ log
  linked : (top :: roots).IsChain fun a b => .fork a b ∈ log

theorem Replaying.data (h : Replaying (.data id bytes :: log) n s top roots out) (hpos : 0 < id) (hid : id ≤ n) :
    Replaying log n (s.write id bytes) top roots (if top = id then out ++ bytes else out) where
  count := h.count
  root := by rw [s.content_write_ne id bytes (by omega), h.root]
  unopened i hi := by rw [s.content_write_ne id bytes (by omega), h.unopened i hi]
  out := by
    rw [h.out]
    by_cases heq : top = id
    · rw [if_pos heq, heq, s.content_write_self]
    · rw [if_neg heq, s.content_write_ne id bytes heq]
  opened := h.opened.imp_right fun hmem => by simpa using hmem
  linked := h.linked.imp fun a b hmem => by simpa using hmem

theorem lt_of_linked (hvalid : Valid m n log) (h : (top :: roots).IsChain fun a b => .fork a b ∈ log) :
    ∀ i ∈ roots, top < i ∧ n < i := by
  induction roots generalizing top with
  | nil => simp
  | cons next roots ih =>
    obtain ⟨hfork, hchain⟩ := List.isChain_cons_cons.mp h
    have hlt := hvalid.fork_lt hfork
    refine List.forall_mem_cons.mpr ⟨hlt, fun i hi => ?_⟩
    have hi := ih hchain i hi
    omega

theorem linked_tail (hne : child ∉ roots)
    (h : (top :: roots).IsChain fun a b => .fork a b ∈ Record.fork parent child :: log) :
    (top :: roots).IsChain fun a b => .fork a b ∈ log := by
  induction roots generalizing top with
  | nil => exact List.isChain_singleton top
  | cons next roots ih =>
    obtain ⟨hfork, hchain⟩ := List.isChain_cons_cons.mp h
    refine List.isChain_cons_cons.mpr ⟨?_, ih (List.not_mem_of_not_mem_cons hne) hchain⟩
    rcases List.mem_cons.mp hfork with heq | hmem
    · cases heq
      exact absurd List.mem_cons_self hne
    · exact hmem

theorem Replaying.pop (h : Replaying (.fork parent (n + 1) :: log) n s top ((n + 1) :: roots) out)
    (hle : parent ≤ n) (hvalid : Valid m (n + 1) log) :
    top = parent ∧ Replaying log (n + 1) (s.openStream parent) (n + 1) roots out := by
  obtain ⟨hfork, hchain⟩ := List.isChain_cons_cons.mp h.linked
  have hvalid' : Valid m n (.fork parent (n + 1) :: log) := ⟨hle, rfl, hvalid⟩
  have htop : top = parent := by
    rcases List.mem_cons.mp hfork with heq | hmem
    · cases heq
      rfl
    · have hlt := hvalid.fork_lt hmem
      omega
  have hcount := h.count
  refine ⟨htop, ⟨congrArg (· + 1) h.count, ?_, fun i hi => ?_, ?_, .inl le_rfl, linked_tail (fun hmem => ?_) hchain⟩⟩
  · rw [s.content_open_ne parent (by omega), h.root]
  · rw [s.content_open_ne parent (by omega), h.unopened i (by omega)]
  · rw [← hcount, s.content_open_self, h.out, htop]
  · exact absurd (lt_of_linked hvalid' hchain (n + 1) hmem).1 (Nat.lt_irrefl _)

theorem Replaying.skip (h : Replaying (.fork parent (n + 1) :: log) n s top roots out) (hle : parent ≤ n)
    (hvalid : Valid m (n + 1) log) (hnext : roots.head? ≠ some (n + 1)) :
    Replaying log (n + 1) (s.openStream parent) top roots out := by
  have hvalid' : Valid m n (.fork parent (n + 1) :: log) := ⟨hle, rfl, hvalid⟩
  have hcount := h.count
  have hnew : n + 1 ∉ roots := fun hmem => by
    cases roots with
    | nil => cases hmem
    | cons next roots =>
      obtain ⟨hfork, hchain⟩ := List.isChain_cons_cons.mp h.linked
      rcases List.mem_cons.mp hmem with heq | hmem
      · exact hnext (by rw [heq]; rfl)
      · have hnext := hvalid'.fork_lt hfork
        have hlt := lt_of_linked hvalid' hchain (n + 1) hmem
        omega
  refine ⟨congrArg (· + 1) h.count, ?_, fun i hi => ?_, ?_, ?_, linked_tail hnew h.linked⟩
  · rw [s.content_open_ne parent (by omega), h.root]
  · rw [s.content_open_ne parent (by omega), h.unopened i (by omega)]
  · by_cases htop : top = n + 1
    · -- the first of the streams is opened itself, from none
      have hroot : parent = 0 := by
        rcases h.opened with hopen | hmem
        · omega
        · rcases List.mem_cons.mp hmem with heq | hmem
          · cases heq
            rfl
          · have hlt := hvalid.fork_lt hmem
            omega
      rw [h.out, htop, h.unopened (n + 1) (by omega), ← hcount, s.content_open_self, hroot, h.root]
    · rw [h.out, s.content_open_ne parent (by omega)]
  · rcases h.opened with hopen | hmem
    · exact .inl (by omega)
    · rcases List.mem_cons.mp hmem with heq | hmem
      · cases heq
        exact .inl le_rfl
      · exact .inr hmem

theorem replay_ok (hm : m < 2 ^ 31) (log : List Record) :
    ∀ {n fuel s top roots out}, Valid m n log → Replaying log n s top roots out → log.length < fuel →
      replay fuel (fileBytes log) (top :: roots) out =
        some ((log.foldl Record.apply s).content ((top :: roots).getLast (List.cons_ne_nil _ _))) := by
  induction log with
  | nil =>
    intro n fuel s top roots out _ h hfuel
    obtain ⟨fuel, rfl⟩ : ∃ k, fuel = k + 1 := ⟨fuel - 1, by simp at hfuel; omega⟩
    have hroots : roots = [] := by
      cases roots with
      | nil => rfl
      | cons next roots => cases (List.isChain_cons_cons.mp h.linked).1
    subst hroots
    exact congrArg some h.out
  | cons r log ih =>
    intro n fuel s top roots out hvalid h hfuel
    obtain ⟨fuel, rfl⟩ : ∃ k, fuel = k + 1 := ⟨fuel - 1, by omega⟩
    have hfuel' : log.length < fuel := by simpa using hfuel
    rw [fileBytes, List.flatMap_cons, List.foldl_cons]
    cases r with
    | fork parent child =>
      obtain ⟨hle, rfl, hrest⟩ := hvalid
      have hn := hrest.le
      rw [replay_fork (by omega) (by omega)]
      by_cases hnext : roots.head? = some (n + 1)
      · obtain ⟨roots, rfl⟩ := List.head?_eq_some_iff.mp hnext
        obtain ⟨htop, h'⟩ := h.pop hle hrest
        rw [if_pos ⟨htop, hnext⟩, List.getLast_cons_cons]
        exact ih hrest h' hfuel'
      · rw [if_neg fun hc => hnext hc.2]
        exact ih hrest (h.skip hle hrest hnext) hfuel'
    | data id bytes =>
      obtain ⟨hpos, hle, hlen, hrest⟩ := hvalid
      have hn := hrest.le
      rw [replay_data (by omega) hlen]
      exact ih hrest (h.data hpos hle) hfuel'

end

/-- The records in the file and the bytes in the buffer make the streams. -/
structure Represents (w : TreeStreamWriter) (s : Streams) (log : List Record) : Prop where
  output : w.output = fileBytes log
  valid : Valid s.count 0 log
  streams : s = (log.foldl Record.apply {}).write w.lastID w.buffer
  ids : w.ids = s.count + 1
  count_lt : s.count < 2 ^ 31
  buffer_le : w.buffer.length ≤ bufferSize
  lastID : w.buffer ≠ [] → 0 < w.lastID ∧ w.lastID ≤ s.count

variable {w : TreeStreamWriter} {s : Streams} {os : ℕ}

theorem write_nil (s : Streams) (os : ℕ) : s.write os [] = s := by
  simp only [Streams.write, List.append_nil, Function.update_eq_self]

theorem write_write (s : Streams) (os : ℕ) (a b : List (BitVec 8)) :
    (s.write os a).write os b = s.write os (a ++ b) := by
  simp only [Streams.write, Function.update_self, Function.update_idem, List.append_assoc]

theorem fileBytes_snoc (log : List Record) (r : Record) : fileBytes (log ++ [r]) = fileBytes log ++ r.bytes := by
  simp [fileBytes]

theorem represents_start : Represents {} {} [] where
  output := rfl
  valid := rfl
  streams := (write_nil {} 0).symm
  ids := rfl
  count_lt := by decide
  buffer_le := Nat.zero_le _
  lastID h := absurd rfl h

theorem Represents.flushBuffer (h : Represents w s log) :
    ∃ log', Represents w.flushBuffer s log' ∧ w.flushBuffer.buffer = [] := by
  unfold TreeStreamWriter.flushBuffer
  split
  · exact ⟨log, h, ‹_›⟩
  · rename_i hne
    obtain ⟨hpos, hle⟩ := h.lastID hne
    have hlen : w.buffer.length < 2 ^ 31 := Nat.lt_of_le_of_lt h.buffer_le (by decide)
    refine ⟨log ++ [.data w.lastID w.buffer], ⟨?_, ?_, ?_, h.ids, h.count_lt, Nat.zero_le _, fun hc => absurd rfl hc⟩, rfl⟩
    · rw [fileBytes_snoc, ← h.output]
      rfl
    · exact h.valid.append ⟨hpos, hle, hlen, rfl⟩
    · rw [write_nil, List.foldl_append]
      exact h.streams

theorem Represents.openStream (h : Represents w s log) (hos : os ≤ s.count) (hlt : s.count + 1 < 2 ^ 31) :
    (w.openStream os).1 = s.count + 1 ∧ ∃ log', Represents (w.openStream os).2 (s.openStream os) log' := by
  obtain ⟨log', h', hbuffer⟩ := h.flushBuffer
  refine ⟨h'.ids, log' ++ [.fork os (s.count + 1)], ⟨?_, ?_, ?_, ?_, hlt, h'.buffer_le, fun hne => absurd hbuffer hne⟩⟩
  · rw [fileBytes_snoc, ← h'.output, TreeStreamWriter.openStream, h'.ids]
    rfl
  · exact h'.valid.append ⟨hos, rfl, rfl⟩
  · have hstreams := h'.streams
    rw [hbuffer, write_nil] at hstreams
    simp only [TreeStreamWriter.openStream, hbuffer, write_nil, List.foldl_append, ← hstreams]
    rfl
  · simp only [TreeStreamWriter.openStream, h'.ids]
    exact Nat.mod_eq_of_lt (Nat.lt_trans (Nat.succ_lt_succ hlt) (by decide))

theorem Represents.write_empty (h : Represents w s log) (hbuffer : w.buffer = []) (hpos : 0 < os) (hos : os ≤ s.count)
    (hlen : bytes.length < 2 ^ 31) :
    ∃ w' log', (if bytes.length < bufferSize then some { w with lastID := os, buffer := bytes }
      else some { w with output := w.output ++ (word os ++ (word bytes.length ++ bytes)) }) = some w' ∧
        Represents w' (s.write os bytes) log' := by
  have hstreams := h.streams
  rw [hbuffer, write_nil] at hstreams
  split
  · rename_i hlt
    refine ⟨_, log, rfl, ⟨h.output, h.valid, by rw [← hstreams], h.ids, h.count_lt, Nat.le_of_lt hlt, fun _ => ⟨hpos, hos⟩⟩⟩
  · refine ⟨_, log ++ [.data os bytes], rfl, ⟨?_, ?_, ?_, h.ids, h.count_lt, h.buffer_le, fun hne => absurd hbuffer hne⟩⟩
    · rw [fileBytes_snoc, ← h.output]
      rfl
    · exact h.valid.append ⟨hpos, hos, hlen, rfl⟩
    · simp only [hbuffer, write_nil, List.foldl_append, ← hstreams]
      rfl

theorem Represents.write (h : Represents w s log) (hpos : 0 < os) (hos : os ≤ s.count) (hlen : bytes.length < 2 ^ 31) :
    ∃ w' log', w.write os bytes = some w' ∧ Represents w' (s.write os bytes) log' := by
  have hsum : (bytes.length + w.buffer.length) % 2 ^ 32 = bytes.length + w.buffer.length := by
    refine Nat.mod_eq_of_lt ?_
    have hle := h.buffer_le
    have hsize : bufferSize = 16384 := rfl
    omega
  simp only [TreeStreamWriter.write, hsum]
  by_cases hfull : w.buffer ≠ [] ∧ (os ≠ w.lastID ∨ bufferSize < bytes.length + w.buffer.length)
  · obtain ⟨log', h', hbuffer⟩ := h.flushBuffer
    rw [if_pos hfull, if_neg (not_not.mpr hbuffer)]
    exact h'.write_empty hbuffer hpos hos hlen
  · rw [if_neg hfull]
    by_cases hbuffer : w.buffer = []
    · rw [if_neg (not_not.mpr hbuffer)]
      exact h.write_empty hbuffer hpos hos hlen
    · obtain ⟨hid, hle⟩ := not_or.mp (not_and.mp hfull hbuffer)
      have hroom : w.buffer.length + bytes.length ≤ bufferSize := by omega
      rw [if_pos hbuffer, if_pos hroom]
      refine ⟨_, log, rfl, ⟨h.output, h.valid, ?_, h.ids, h.count_lt, by simpa using hroom, fun _ => h.lastID hbuffer⟩⟩
      rw [← write_write, ← h.streams, not_not.mp hid]

theorem Represents.readStream (h : Represents w s log) (hpos : 0 < id) (hid : id ≤ s.count) :
    w.readStream id = some (s.content id, w.flush) := by
  obtain ⟨log', h', hbuffer⟩ := h.flushBuffer
  have hstreams := h'.streams
  rw [hbuffer, write_nil] at hstreams
  have hfuel : log'.length < (fileBytes log').length + 1 := Nat.lt_succ_of_le (length_le_fileBytes log')
  have hnone : Parents log' 0 [] := ⟨rfl, fun i _ _ => by omega, fun i p hp => by cases hp⟩
  obtain ⟨roots, hfind, hlinked⟩ := findRoots_ok h.count_lt hid log' h'.valid (fun _ hr => hr) hpos hnone hfuel
  obtain ⟨top, rest, hroots⟩ := List.exists_cons_of_ne_nil (List.append_ne_nil_of_right_ne_nil roots (List.cons_ne_nil id []))
  rw [Linked, hroots] at hlinked
  obtain ⟨htop, hchain⟩ := List.isChain_cons_cons.mp hlinked
  have hreplay := replay_ok h.count_lt log' h'.valid
    (⟨rfl, rfl, fun _ _ => rfl, rfl, .inr htop, hchain⟩ : Replaying log' 0 {} top rest []) hfuel
  have hlast : (top :: rest).getLast (List.cons_ne_nil _ _) = id := by simp [← hroots]
  rw [hlast, ← hstreams] at hreplay
  rw [TreeStreamWriter.readStream, if_pos ⟨hpos, by rw [h.ids]; omega⟩]
  simp only [TreeStreamWriter.flush, h'.output, hfind, hroots, hreplay, some_bind]

theorem Represents.step (h : Represents w s log) {op : StreamOp} (hop : s.Legal op) :
    ∃ w' log', w.step op = some w' ∧ Represents w' (s.step op) log' := by
  cases op with
  | openStream os =>
    obtain ⟨-, log', h'⟩ := h.openStream hop.1 hop.2
    exact ⟨_, log', rfl, h'⟩
  | write os bytes => exact h.write hop.1 hop.2.1 hop.2.2
  | flush =>
    obtain ⟨log', h', -⟩ := h.flushBuffer
    exact ⟨_, log', rfl, h'⟩

theorem Represents.run (h : Represents w s log) {ops : List StreamOp} (hops : s.LegalRun ops) :
    ∃ w' log', ops.foldlM TreeStreamWriter.step w = some w' ∧ Represents w' (ops.foldl Streams.step s) log' := by
  induction ops generalizing w s log with
  | nil => exact ⟨w, log, rfl, h⟩
  | cons op ops ih =>
    obtain ⟨w1, log1, hrun1, h1⟩ := h.step hops.1
    obtain ⟨w', log', hrun, h'⟩ := ih h1 hops.2
    refine ⟨w', log', ?_, h'⟩
    rw [List.foldlM_cons, hrun1]
    exact hrun

/-- Whatever is done with the streams, each of them is read as it should be. -/
theorem run_readStream {ops : List StreamOp} (hops : Streams.LegalRun {} ops) :
    ∃ w, ops.foldlM TreeStreamWriter.step {} = some w ∧
      ∀ id, 0 < id → id ≤ (ops.foldl Streams.step {}).count →
        w.readStream id = some ((ops.foldl Streams.step {}).content id, w.flush) := by
  obtain ⟨w, log, hrun, h⟩ := represents_start.run hops
  exact ⟨w, hrun, fun id hpos hid => h.readStream hpos hid⟩

/-- The copy has what was written before it was opened, and not what was written after. -/
theorem run_readStream_branch :
    let ops := [.openStream 0, .write 1 [0x61], .openStream 1, .write 1 [0x63], .write 2 [0x62]]
    Streams.LegalRun {} ops ∧
      ∃ w, ops.foldlM TreeStreamWriter.step {} = some w ∧ w.readStream 2 = some ([0x61, 0x62], w.flush) := by
  intro ops
  have hops : Streams.LegalRun {} ops := by simp [ops, Streams.LegalRun, Streams.Legal, Streams.step,
    Streams.openStream, Streams.write]
  obtain ⟨w, hrun, hread⟩ := run_readStream hops
  exact ⟨hops, w, hrun, hread 2 (by decide) (by decide)⟩

end TreeStreamWriter

end Klee
