import DdKlee.Proofs.ObjectState
import DdKlee.Spec.FlatMemory

/-! Reads and writes of whole words: the loops over the bytes are the load and the
store of the flat object. -/

namespace Klee

open Expr

theorem Concat_byte (b : BitVec 8) {k m : ℕ} (hm : m < 256 ^ k) :
    ConstantExpr.Concat ⟨8, b⟩ (APInt.ofNat (8 * k) m) = APInt.ofNat (8 * (k + 1)) (m + 256 ^ k * b.toNat) := by
  have hpow : (256 : ℕ) ^ k = 2 ^ (8 * k) := (pow_mul 2 8 k).symm
  have hpow' : (256 : ℕ) ^ (k + 1) = 2 ^ (8 * (k + 1)) := (pow_mul 2 8 (k + 1)).symm
  rw [hpow] at hm
  rw [APInt.ofNat, ConstantExpr.Concat_mk]
  refine APInt.eq_of_toNat (by change 8 + 8 * k = 8 * (k + 1); omega) ?_
  have hlt : m + 256 ^ k * b.toNat < 256 ^ (k + 1) := by
    have hb := b.isLt
    rw [pow_succ]
    nlinarith
  rw [APInt.toNat_ofNat, Nat.mod_eq_of_lt (hpow' ▸ hlt), hpow, APInt.toNat, BitVec.toNat_append,
    BitVec.toNat_ofNat, Nat.mod_eq_of_lt hm, ← Nat.shiftLeft_add_eq_or_of_lt hm, Nat.shiftLeft_eq]
  ring

theorem Extract_byte {a : APInt} {i : ℕ} (h : 8 * i + 8 ≤ a.width) :
    ConstantExpr.Extract a (8 * i) 8 = ⟨8, BitVec.ofNat 8 (a.toNat / 256 ^ i)⟩ := by
  obtain ⟨w, x⟩ := a
  rw [ConstantExpr.Extract_mk x h]
  congr 1
  apply BitVec.eq_of_toNat_eq
  rw [BitVec.extractLsb'_toNat, BitVec.toNat_ofNat, Nat.shiftRight_eq_div_pow, pow_mul]
  rfl

def word (ctx : Context) (n : ℕ) (bytes : ℕ → BitVec 8) (k : ℕ) : ℕ :=
  Nat.ofDigits 256 ((List.range k).map fun i => (bytes (ObjectState.byteIndex ctx n i)).toNat)

section Word

variable (ctx : Context) (n : ℕ) (bytes : ℕ → BitVec 8) (k : ℕ)

theorem word_lt : word ctx n bytes k < 256 ^ k := by
  have hlt := Nat.ofDigits_lt_base_pow_length (b := 256)
    (l := (List.range k).map fun i => (bytes (ObjectState.byteIndex ctx n i)).toNat) (by decide)
    (by simp only [List.mem_map]; rintro x ⟨i, -, rfl⟩; exact (bytes _).isLt)
  rwa [List.length_map, List.length_range] at hlt

theorem word_succ : word ctx n bytes (k + 1) =
    word ctx n bytes k + 256 ^ k * (bytes (ObjectState.byteIndex ctx n k)).toNat := by
  rw [word, List.range_succ, List.map_append, Nat.ofDigits_append, List.length_map, List.length_range]
  simp [word]

end Word

namespace ObjectState

theorem byteIndex_lt (ctx : Context) {n i : ℕ} (h : i < n) : byteIndex ctx n i < n := by
  unfold byteIndex
  split_ifs <;> omega

theorem byteIndex_byteIndex (ctx : Context) {n i : ℕ} (h : i < n) : byteIndex ctx n (byteIndex ctx n i) = i := by
  unfold byteIndex
  split_ifs <;> omega

theorem byteIndex_one (ctx : Context) : byteIndex ctx 1 0 = 0 := by
  unfold byteIndex
  split_ifs <;> rfl

theorem load_eq (ctx : Context) (o : FlatObject) (offset width : ℕ) :
    o.load ctx offset width =
      APInt.ofNat width (word ctx (numBytes width) (fun i => o.bytes (offset + i)) (numBytes width)) := by
  unfold FlatObject.load word byteIndex
  dsimp only
  congr 2
  cases ctx.isLittleEndian with
  | true => rfl
  | false =>
    rw [if_neg (by decide)]
    apply List.ext_getElem
    · simp
    · intro i _ _
      simp [Nat.sub_right_comm]

theorem store_bytes (ctx : Context) (o : FlatObject) (offset width value : ℕ) (j : ℕ) :
    (o.store ctx offset width value).bytes j =
      if offset ≤ j ∧ j < offset + numBytes width then
        .ofNat 8 (value / 256 ^ byteIndex ctx (numBytes width) (j - offset))
      else o.bytes j := by
  simp only [FlatObject.store, byteIndex, Nat.sub_right_comm]

variable {os os' : ObjectState} {ctx : Context} {cache : ArrayCache}

def ReadsByte (readByte : ObjectState → ArrayCache → ℕ → Option (Expr × ObjectState × ArrayCache))
    (size n : ℕ) (base : Bytes → ℕ) : Prop :=
  ∀ os cache idx, os.Valid → os.size = size → idx < n → ∃ e os' cache',
    readByte os cache idx = some (e, os', cache') ∧ SameBytes os os' ∧ e.WellTyped ∧ e.getWidth = 8 ∧
      ∀ σ bytes, os.Represents σ bytes → base σ + n ≤ size → e.eval σ = ⟨8, bytes (base σ + idx)⟩

variable {readByte : ObjectState → ArrayCache → ℕ → Option (Expr × ObjectState × ArrayCache)}
  {n : ℕ} {base : Bytes → ℕ}

/-- After `k + 1` rounds the loop has the least bytes of the word. -/
theorem readBytes_ok (h : os.Valid) (ctx : Context) (cache : ArrayCache)
    (hread : ReadsByte readByte os.size n base) (k : ℕ) (hk : k < n) :
    ∃ e os' cache', readBytes readByte ctx n os cache (k + 1) = some (some e, os', cache') ∧ SameBytes os os' ∧
      e.WellTyped ∧ e.getWidth = 8 * (k + 1) ∧
      ∀ σ bytes, os.Represents σ bytes → base σ + n ≤ os.size →
        e.eval σ = APInt.ofNat (8 * (k + 1)) (word ctx n (fun i => bytes (base σ + i)) (k + 1)) := by
  induction k with
  | zero =>
    obtain ⟨e, os', cache', hrun, hsame, ht, hw, heval⟩ :=
      hread os cache (byteIndex ctx n 0) h rfl (byteIndex_lt ctx hk)
    refine ⟨e, os', cache', by simp [readBytes, hrun], hsame, ht, hw, fun σ bytes hr hin => ?_⟩
    rw [heval σ bytes hr hin, word_succ]
    simp [word, APInt.ofNat]
  | succ k ih =>
    obtain ⟨e1, os₁, cache1, hrun1, hsame1, ht1, hw1, heval1⟩ := ih (Nat.lt_of_succ_lt hk)
    obtain ⟨e2, os2, cache2, hrun2, hsame2, ht2, hw2, heval2⟩ :=
      hread os₁ cache1 (byteIndex ctx n (k + 1)) hsame1.valid hsame1.size (byteIndex_lt ctx hk)
    have hs := ConcatExpr_create_simplifies (P := fun _ => True) (l := e2) (r := e1) ⟨ht2, ht1⟩
    refine ⟨ConcatExpr.create e2 e1, os2, cache2, ?_, hsame1.trans hsame2, hs.typed, ?_, fun σ bytes hr hin => ?_⟩
    · rw [readBytes, hrun1]
      simp only [some_bind, hrun2, Option.map_some, Option.getD_some]
    · rw [hs.width, Expr.getWidth, hw1, hw2]
      omega
    · rw [hs.eval σ trivial, Expr.eval, heval1 σ bytes hr hin,
        heval2 σ bytes (hsame1.represents σ bytes hr) hin, Concat_byte _ (word_lt ..), ← word_succ]

theorem readWith_ok (h : os.Valid) (ctx : Context) (cache : ArrayCache) {width : ℕ}
    (hwidth : IsAccessWidth width) (hread : ReadsByte readByte os.size (numBytes width) base) :
    ∃ e os' cache', readWith readByte ctx os cache width = some (some e, os', cache') ∧ SameBytes os os' ∧
      e.WellTyped ∧ e.getWidth = width ∧
      ∀ σ bytes, os.Represents σ bytes → base σ + numBytes width ≤ os.size →
        e.eval σ = FlatObject.load ctx ⟨os.size, bytes⟩ (base σ) width := by
  by_cases hbool : width = 1
  · subst hbool
    obtain ⟨e, os', cache', hrun, hsame, ht, hw, heval⟩ := hread os cache 0 h rfl (by decide)
    have htyped : (extract e 0 1).WellTyped := ⟨ht, by decide, by omega⟩
    have hs := ExtractExpr_create_simplifies (P := fun _ => True) htyped
    refine ⟨_, os', cache', by simp [readWith, hrun], hsame, hs.typed, hs.width, fun σ bytes hr hin => ?_⟩
    rw [hs.eval σ trivial, Expr.eval, heval σ bytes hr hin, load_eq]
    -- one byte is read, and its lowest bit is kept
    have hword : word ctx (numBytes 1) (fun i => bytes (base σ + i)) (numBytes 1) = (bytes (base σ)).toNat := by
      simp [word, numBytes, List.range_succ, byteIndex_one]
    rw [hword, ConstantExpr.Extract_mk _ (by decide), APInt.ofNat]
    congr 1
  · obtain ⟨hpos, hmod⟩ := hwidth.resolve_left hbool
    have hn : numBytes width = width / 8 := if_neg hbool
    rw [hn] at hread
    obtain ⟨k, hk⟩ : ∃ k, width / 8 = k + 1 := Nat.exists_eq_succ_of_ne_zero (by omega)
    obtain ⟨e, os', cache', hrun, hsame, ht, hw, heval⟩ :=
      readBytes_ok h ctx cache hread k (by omega)
    have hw8 : 8 * (k + 1) = width := by omega
    refine ⟨e, os', cache', ?_, hsame, ht, hw.trans hw8, fun σ bytes hr hin => ?_⟩
    · rw [readWith, if_neg hbool, if_pos (by omega)]
      exact hk.symm ▸ hrun
    · rw [hn] at hin
      rw [heval σ bytes hr hin, load_eq, hn, hw8, hk]

theorem readsByte_concrete {c : ℕ} (size : ℕ) (hin : c + n ≤ size) :
    ReadsByte (fun os cache idx => os.read8 cache (c + idx)) size n fun _ => c := by
  rintro os cache idx h rfl hidx
  obtain ⟨e, os', cache', hrun, hsame, ht, hw, heval⟩ := read8_ok h cache (i := c + idx) (by omega)
  exact ⟨e, os', cache', hrun, hsame, ht, hw, fun σ bytes hr _ => heval σ bytes hr⟩

theorem readAt_ok (h : os.Valid) (ctx : Context) (cache : ArrayCache) {offset width : ℕ}
    (hwidth : IsAccessWidth width) (hin : offset + numBytes width ≤ os.size) :
    ∃ e os' cache', os.readAt ctx cache offset width = some (some e, os', cache') ∧ SameBytes os os' ∧
      e.WellTyped ∧ e.getWidth = width ∧
      ∀ σ bytes, os.Represents σ bytes → e.eval σ = FlatObject.load ctx ⟨os.size, bytes⟩ offset width := by
  obtain ⟨e, os', cache', hrun, hsame, ht, hw, heval⟩ :=
    readWith_ok h ctx cache hwidth (readsByte_concrete os.size hin)
  exact ⟨e, os', cache', hrun, hsame, ht, hw, fun σ bytes hr => heval σ bytes hr hin⟩

/-- An offset of 32 bits that the bytes after it can be read at. -/
structure IsOffset (offset : Expr) : Prop where
  typed : offset.WellTyped
  width : offset.getWidth = 32
  folded : offset.Folded
  symbolic : offset.isConstant = false

variable {offset value : Expr}

theorem offsetAt_ok (h : IsOffset offset) (idx : ℕ) :
    (offsetAt offset idx).WellTyped ∧ (offsetAt offset idx).getWidth = 32 ∧
      (offsetAt offset idx).isConstant = false ∧
      ∀ σ, (offset.eval σ).toNat + idx < 2 ^ 32 →
        ((offsetAt offset idx).eval σ).toNat = (offset.eval σ).toNat + idx := by
  have hs := AddExpr_create_simplifies (P := fun _ => True) (l := offset) (r := ConstantExpr.alloc idx 32)
    ⟨h.typed, trivial, h.width⟩
  refine ⟨hs.typed, hs.width.trans h.width, AddExpr_create_not_constant (by decide : (32 : ℕ) ≠ 1) h.folded h.symbolic,
    fun σ hlt => ?_⟩
  obtain ⟨x, hx⟩ := Expr.exists_bits σ h.typed h.width
  have heval : (offsetAt offset idx).eval σ = (APInt.mk 32 x).add (APInt.ofNat 32 idx) := by
    rw [← hx]
    exact hs.eval σ trivial
  rw [hx] at hlt ⊢
  rw [heval, APInt.ofNat, APInt.add_mk, APInt.toNat, BitVec.toNat_add, BitVec.toNat_ofNat, Nat.add_mod_mod]
  exact Nat.mod_eq_of_lt hlt

theorem truncated_ok (ht : offset.WellTyped) :
    (ZExtExpr.create offset 32).WellTyped ∧ (ZExtExpr.create offset 32).getWidth = 32 ∧
      ∀ σ, ((ZExtExpr.create offset 32).eval σ).toNat = (offset.eval σ).toNat % 2 ^ 32 := by
  have hmatching : (Operation.cast .zext offset 32).Matching := ⟨ht, by decide⟩
  have hs := Operation.create_simplifies (P := fun _ => True) hmatching
  have heval : ∀ σ, (ZExtExpr.create offset 32).eval σ = (offset.eval σ).zextOrTrunc 32 := fun σ =>
    (hs.eval σ trivial).trans (Operation.eval_node hmatching σ)
  refine ⟨hs.typed, ?_, fun σ => ?_⟩
  · exact (Expr.eval_width (fun _ _ => 0) hs.typed).symm.trans (congrArg APInt.width (heval _))
  · rw [heval]
    exact BitVec.toNat_setWidth ..

theorem isOffset_truncated (ht : offset.WellTyped) (hf : offset.Folded)
    (hne : ∀ c, ZExtExpr.create offset 32 = constant c → False) : IsOffset (ZExtExpr.create offset 32) :=
  ⟨(truncated_ok ht).1, (truncated_ok ht).2.1, folded_closed.CastKind_create .zext 32 hf, isConstant_eq_false hne⟩

theorem readsByte_symbolic (h : IsOffset offset) {size : ℕ} (hsize : size < 2 ^ 32) :
    ReadsByte (fun os cache idx => os.read8Symbolic cache (offsetAt offset idx)) size n
      fun σ => (offset.eval σ).toNat := by
  rintro os cache idx hvalid rfl hidx
  obtain ⟨ht, hw, hconst, heval⟩ := offsetAt_ok h idx
  obtain ⟨e, os', cache', hrun, hsame, het, hew, hvalue⟩ := read8Symbolic_ok hvalid cache ht hw hconst
  refine ⟨e, os', cache', hrun, hsame, het, hew, fun σ bytes hr hin => ?_⟩
  dsimp only at hin ⊢
  have hidx : ((offsetAt offset idx).eval σ).toNat = (offset.eval σ).toNat + idx := heval σ (by omega)
  rw [hvalue σ bytes hr (by omega), hidx]

theorem readsByte_bool (h : IsOffset offset) (size : ℕ) :
    ReadsByte (fun os cache _ => os.read8Symbolic cache offset) size 1 fun σ => (offset.eval σ).toNat := by
  rintro os cache idx hvalid rfl hidx
  obtain ⟨e, os', cache', hrun, hsame, het, hew, hvalue⟩ :=
    read8Symbolic_ok hvalid cache h.typed h.width h.symbolic
  obtain rfl : idx = 0 := by omega
  exact ⟨e, os', cache', hrun, hsame, het, hew, fun σ bytes hr hin => hvalue σ bytes hr (Nat.lt_of_succ_le hin)⟩

/-- A read returns the bytes at the offset, under every assignment that keeps it
within the object. There has to be one, since an offset may be constant. -/
theorem read_ok (h : os.Valid) (ctx : Context) (cache : ArrayCache) {width : ℕ} (hwidth : IsAccessWidth width)
    (ht : offset.WellTyped) (hf : offset.Folded)
    (hin : ∃ σ, (offset.eval σ).toNat + numBytes width ≤ os.size) :
    ∃ e os' cache', os.read ctx cache offset width = some (some e, os', cache') ∧ SameBytes os os' ∧
      e.WellTyped ∧ e.getWidth = width ∧
      ∀ σ bytes, os.Represents σ bytes → (offset.eval σ).toNat + numBytes width ≤ os.size →
        e.eval σ = FlatObject.load ctx ⟨os.size, bytes⟩ (offset.eval σ).toNat width := by
  obtain ⟨-, -, htrunc⟩ := truncated_ok ht
  have hsize := h.size_lt
  have hplace : ∀ σ, (offset.eval σ).toNat + numBytes width ≤ os.size →
      ((ZExtExpr.create offset 32).eval σ).toNat = (offset.eval σ).toNat := fun σ hσ =>
    (htrunc σ).trans (Nat.mod_eq_of_lt (by omega))
  unfold read
  split
  · rename_i c hc
    obtain ⟨σ0, hσ0⟩ := hin
    have hconst : ∀ σ, (offset.eval σ).toNat + numBytes width ≤ os.size → c.toNat = (offset.eval σ).toNat :=
      fun σ hσ => by rw [← hplace σ hσ, hc, Expr.eval]
    have hin : c.toNat + numBytes width ≤ os.size := by rw [hconst σ0 hσ0]; exact hσ0
    obtain ⟨e, os', cache', hrun, hsame, het, hew, heval⟩ := readAt_ok h ctx cache hwidth hin
    exact ⟨e, os', cache', hrun, hsame, het, hew, fun σ bytes hr hσ => hconst σ hσ ▸ heval σ bytes hr⟩
  · rename_i hne
    have hoff := isOffset_truncated ht hf hne
    by_cases hbool : width = 1
    · subst hbool
      obtain ⟨e, os', cache', hrun, hsame, het, hew, heval⟩ :=
        readWith_ok h ctx cache hwidth (readsByte_bool hoff os.size)
      refine ⟨e, os', cache', by rw [if_pos rfl]; exact hrun, hsame, het, hew, fun σ bytes hr hσ => ?_⟩
      rw [← hplace σ hσ]
      exact heval σ bytes hr (hplace σ hσ ▸ hσ)
    · obtain ⟨e, os', cache', hrun, hsame, het, hew, heval⟩ :=
        readWith_ok h ctx cache hwidth (readsByte_symbolic hoff hsize)
      refine ⟨e, os', cache', by rw [if_neg hbool]; exact hrun, hsame, het, hew, fun σ bytes hr hσ => ?_⟩
      rw [← hplace σ hσ]
      exact heval σ bytes hr (hplace σ hσ ▸ hσ)

namespace Changes

variable {os₁ : ObjectState} {bounds bounds' : Bytes → Prop} {change change' : Bytes → (ℕ → BitVec 8) → ℕ → BitVec 8}

theorem refl (h : os.Valid) : Changes os os bounds fun _ bytes => bytes :=
  ⟨h, rfl, rfl, rfl, rfl, fun _ _ hr _ => hr⟩

theorem trans (h : Changes os os₁ bounds change) (h' : Changes os₁ os' bounds change') :
    Changes os os' bounds fun σ bytes => change' σ (change σ bytes) :=
  ⟨h'.valid, h'.size.trans h.size, h'.object.trans h.object, h'.owner.trans h.owner,
    h'.readOnly.trans h.readOnly, fun σ bytes hr hb => h'.represents σ _ (h.represents σ bytes hr hb) hb⟩

theorem congr (h : Changes os os' bounds change) (hb : ∀ σ, bounds' σ → bounds σ)
    (hc : ∀ σ, bounds' σ → ∀ bytes, change' σ bytes = change σ bytes) : Changes os os' bounds' change' :=
  ⟨h.valid, h.size, h.object, h.owner, h.readOnly, fun σ bytes hr hσ =>
    hc σ hσ bytes ▸ h.represents σ bytes hr (hb σ hσ)⟩

end Changes

def wrote (ctx : Context) (n base : ℕ) (value : ℕ → BitVec 8) (bytes : ℕ → BitVec 8) : ℕ → ℕ → BitVec 8
  | 0 => bytes
  | k + 1 => Function.update (wrote ctx n base value bytes k) (base + byteIndex ctx n k) (value k)

theorem wrote_apply (ctx : Context) (base : ℕ) (value bytes : ℕ → BitVec 8) {k : ℕ} (hk : k ≤ n) (j : ℕ) :
    wrote ctx n base value bytes k j =
      if base ≤ j ∧ j < base + n ∧ byteIndex ctx n (j - base) < k then value (byteIndex ctx n (j - base))
      else bytes j := by
  induction k with
  | zero => simp [wrote]
  | succ k ih =>
    rw [wrote, Function.update_apply, ih (Nat.le_of_succ_le hk)]
    have hidx := byteIndex_lt ctx hk
    have hinv := byteIndex_byteIndex ctx hk
    by_cases hj : j = base + byteIndex ctx n k
    · subst hj
      rw [if_pos rfl, Nat.add_sub_cancel_left, hinv, if_pos ⟨by omega, by omega, by omega⟩]
    · have hne : base ≤ j → j < base + n → byteIndex ctx n (j - base) ≠ k := by
        rintro hle hlt rfl
        rw [byteIndex_byteIndex ctx (by omega)] at hj
        omega
      rw [if_neg hj]
      congr 1
      rw [eq_iff_iff]
      constructor
      · rintro ⟨hle, hlt, hb⟩
        exact ⟨hle, hlt, by omega⟩
      · rintro ⟨hle, hlt, hb⟩
        exact ⟨hle, hlt, by have := hne hle hlt; omega⟩

theorem wrote_eq_store (ctx : Context) (size base width value : ℕ) (bytes : ℕ → BitVec 8) :
    (FlatObject.store ctx ⟨size, bytes⟩ base width value).bytes =
      wrote ctx (numBytes width) base (fun i => .ofNat 8 (value / 256 ^ i)) bytes (numBytes width) := by
  funext j
  rw [store_bytes, wrote_apply ctx base _ bytes le_rfl]
  congr 1
  rw [eq_iff_iff]
  constructor
  · rintro ⟨hle, hlt⟩
    exact ⟨hle, hlt, byteIndex_lt ctx (by omega)⟩
  · rintro ⟨hle, hlt, -⟩
    exact ⟨hle, hlt⟩

theorem writeBytes_ok {writeByte : ObjectState → ℕ → ℕ → Option ObjectState} {value : Bytes → ℕ → BitVec 8}
    (h : os.Valid)
    (hwrite : ∀ os₁ : ObjectState, ∀ i < n, os₁.Valid → os₁.size = os.size → ∃ os2,
      writeByte os₁ (byteIndex ctx n i) i = some os2 ∧ Changes os₁ os2 (fun σ => base σ + n ≤ os.size)
        fun σ bytes => Function.update bytes (base σ + byteIndex ctx n i) (value σ i))
    (k : ℕ) (hk : k ≤ n) :
    ∃ os', writeBytes writeByte ctx n os k = some os' ∧ Changes os os' (fun σ => base σ + n ≤ os.size)
      fun σ bytes => wrote ctx n (base σ) (value σ) bytes k := by
  induction k with
  | zero => exact ⟨os, rfl, .refl h⟩
  | succ k ih =>
    obtain ⟨os₁, hrun1, hc1⟩ := ih (Nat.le_of_succ_le hk)
    obtain ⟨os2, hrun2, hc2⟩ := hwrite os₁ k hk hc1.valid hc1.size
    exact ⟨os2, by rw [writeBytes, hrun1]; exact hrun2, hc1.trans hc2⟩

def WriterOf (writeByte : ObjectState → ℕ → Expr → Option ObjectState) (size n : ℕ) (base : Bytes → ℕ) : Prop :=
  ∀ os idx e (value : Bytes → BitVec 8), os.Valid → os.size = size → idx < n → e.WellTyped → e.getWidth = 8 →
    (∀ σ, e.eval σ = ⟨8, value σ⟩) → ∃ os', writeByte os idx e = some os' ∧
      Changes os os' (fun σ => base σ + n ≤ size) fun σ bytes => Function.update bytes (base σ + idx) (value σ)

def Stores (ctx : Context) (os os' : ObjectState) (place : Bytes → ℕ) (value : Expr) : Prop :=
  Changes os os' (fun σ => place σ + numBytes value.getWidth ≤ os.size) fun σ bytes =>
    (FlatObject.store ctx ⟨os.size, bytes⟩ (place σ) value.getWidth (value.eval σ).toNat).bytes

theorem Stores.congr_place {place place' : Bytes → ℕ} (h : Stores ctx os os' place value)
    (hplace : ∀ σ, place' σ + numBytes value.getWidth ≤ os.size → place σ = place' σ) :
    Stores ctx os os' place' value := by
  refine Changes.congr h (fun σ hσ => ?_) fun σ hσ bytes => ?_
  · rw [hplace σ hσ]
    exact hσ
  · rw [hplace σ hσ]

theorem writeWith_ok {writeByte : ObjectState → ℕ → Expr → Option ObjectState} (h : os.Valid) (ctx : Context)
    (ht : value.WellTyped) (hwidth : IsAccessWidth value.getWidth)
    (hwrite : WriterOf writeByte os.size (numBytes value.getWidth) base) :
    ∃ os', writeWith writeByte ctx os value = some os' ∧ Stores ctx os os' base value := by
  unfold writeWith Stores
  dsimp only
  simp only [wrote_eq_store]
  by_cases hbool : value.getWidth = 1
  · -- a Bool is written as the byte it extends to
    have hs := CastKind.create_simplifies (P := fun _ => True) .zext (e := value) (w := 8) ⟨ht, by omega⟩
    have hn : numBytes value.getWidth = 1 := if_pos hbool
    rw [hn] at hwrite ⊢
    have heval : ∀ σ, (ZExtExpr.create value 8).eval σ = ⟨8, BitVec.ofNat 8 (value.eval σ).toNat⟩ := fun σ => by
      refine (hs.eval σ trivial).trans ?_
      change APInt.mk 8 _ = _
      congr 1
      exact (BitVec.ofNat_toNat ..).symm
    obtain ⟨os', hrun, hc⟩ := hwrite os 0 _ _ h rfl Nat.one_pos hs.typed hs.width heval
    refine ⟨os', by rw [if_pos hbool]; exact hrun, hc.congr (fun _ hσ => hσ) fun σ _ bytes => ?_⟩
    simp [wrote, byteIndex_one]
  · obtain ⟨hpos, hmod⟩ := hwidth.resolve_left hbool
    have hn : numBytes value.getWidth = value.getWidth / 8 := if_neg hbool
    rw [if_neg hbool, if_pos (by omega), hn]
    rw [hn] at hwrite
    refine writeBytes_ok h (fun os₁ i hi hvalid hsize => ?_) _ le_rfl
    have htyped : (extract value (8 * i) 8).WellTyped := ⟨ht, by decide, by omega⟩
    have hs := ExtractExpr_create_simplifies (P := fun _ => True) htyped
    refine hwrite os₁ _ _ _ hvalid hsize (byteIndex_lt ctx hi) hs.typed hs.width fun σ => ?_
    rw [hs.eval σ trivial, Expr.eval, Extract_byte (by rw [Expr.eval_width σ ht]; omega)]

theorem WritesByte.changes {place : Bytes → ℕ} {byte : Bytes → BitVec 8} {idx : ℕ}
    (h : WritesByte os os' place byte) (hidx : idx < n)
    (hplace : ∀ σ, base σ + n ≤ os.size → place σ = base σ + idx) :
    Changes os os' (fun σ => base σ + n ≤ os.size) fun σ bytes =>
      Function.update bytes (base σ + idx) (byte σ) := by
  refine Changes.congr h (fun σ hσ => ?_) fun σ hσ bytes => ?_
  · rw [hplace σ hσ]
    omega
  · rw [hplace σ hσ]

theorem writerOf_concrete (size c : ℕ) :
    WriterOf (fun os idx byte => os.write8 (c + idx) byte) size n fun _ => c := by
  rintro os idx e value h rfl hidx ht hw hvalue
  obtain ⟨os', hrun, hc⟩ := write8_ok h (c + idx) ht hw hvalue
  exact ⟨os', hrun, hc.changes hidx fun _ _ => rfl⟩

theorem writerOf_symbolic (h : IsOffset offset) {size : ℕ} (hsize : size < 2 ^ 32) :
    WriterOf (fun os idx byte => os.write8Symbolic (offsetAt offset idx) byte) size n
      fun σ => (offset.eval σ).toNat := by
  rintro os idx e value hvalid rfl hidx het hew hvalue
  obtain ⟨ht, hw, hconst, heval⟩ := offsetAt_ok h idx
  obtain ⟨os', hrun, hc⟩ := write8Symbolic_ok hvalid ht hw hconst het hew hvalue
  exact ⟨os', hrun, hc.changes hidx fun σ hσ => heval σ (by omega)⟩

theorem writerOf_bool (h : IsOffset offset) (size : ℕ) :
    WriterOf (fun os _ byte => os.write8Symbolic offset byte) size 1 fun σ => (offset.eval σ).toNat := by
  rintro os idx e value hvalid rfl hidx het hew hvalue
  obtain ⟨os', hrun, hc⟩ := write8Symbolic_ok hvalid h.typed h.width h.symbolic het hew hvalue
  exact ⟨os', hrun, hc.changes hidx fun σ _ => by rw [Nat.lt_one_iff.mp hidx, Nat.add_zero]⟩

theorem writeWord_ok (h : os.Valid) (offset : ℕ) {c : APInt} (hw : c.width = 8 * n) (hbool : c.width ≠ 1) :
    ∃ os', writeWord ctx n os offset c.toNat = some os' ∧ Stores ctx os os' (fun _ => offset) (constant c) := by
  have hn : numBytes (constant c).getWidth = n := by
    rw [numBytes, Expr.getWidth, if_neg hbool, hw, Nat.mul_div_cancel_left _ (by decide)]
  unfold writeWord Stores
  simp only [wrote_eq_store, hn]
  refine writeBytes_ok h (fun os₁ i hi hvalid hsize => ⟨_, rfl, ?_⟩) n le_rfl
  have hbyte : c.toNat >>> (8 * i) = c.toNat / 256 ^ i := by
    rw [Nat.shiftRight_eq_div_pow, pow_mul]
    rfl
  rw [hbyte, ← hsize]
  exact (write8Concrete_ok hvalid _ _).changes (byteIndex_lt ctx hi) fun _ _ => rfl

theorem width_of_isPowerOfTwo {w : ℕ} (hw : IsAccessWidth w) (hle : w ≤ 64) (hpow : isPowerOfTwo w = true) :
    w = 1 ∨ w = 8 ∨ w = 16 ∨ w = 32 ∨ w = 64 := by
  revert hw hpow
  interval_cases w <;> decide

theorem write8Concrete_stores (h : os.Valid) (offset : ℕ) {c : APInt} (hw : c.width = 1 ∨ c.width = 8) :
    Stores ctx os (os.write8Concrete offset (.ofNat 8 c.toNat)) (fun _ => offset) (constant c) := by
  have hn : numBytes (constant c).getWidth = 1 := by rcases hw with hw | hw <;> rw [Expr.getWidth, hw] <;> rfl
  unfold Stores
  simp only [wrote_eq_store, hn]
  refine (write8Concrete_ok h offset _).congr (fun σ hσ => Nat.lt_of_succ_le hσ) fun σ _ bytes => ?_
  simp [wrote, byteIndex_one, Expr.eval]

theorem writeAt_ok (h : os.Valid) (ctx : Context) (offset : ℕ) (ht : value.WellTyped)
    (hwidth : IsAccessWidth value.getWidth) :
    ∃ os', os.writeAt ctx offset value = some os' ∧ Stores ctx os os' (fun _ => offset) value := by
  have hgeneral := writeWith_ok h ctx ht hwidth (writerOf_concrete os.size offset)
  unfold writeAt
  dsimp only
  split
  · rename_i c
    split_ifs with hsmall
    · have hwords := width_of_isPowerOfTwo hwidth hsmall.1 hsmall.2
      change c.width = 1 ∨ c.width = 8 ∨ c.width = 16 ∨ c.width = 32 ∨ c.width = 64 at hwords
      split
      · rename_i hw
        exact ⟨_, rfl, write8Concrete_stores h offset (.inl hw)⟩
      · rename_i hw
        exact ⟨_, rfl, write8Concrete_stores h offset (.inr hw)⟩
      · rename_i hw
        exact writeWord_ok h offset hw (by omega)
      · rename_i hw
        exact writeWord_ok h offset hw (by omega)
      · rename_i hw
        exact writeWord_ok h offset hw (by omega)
      · rename_i h1 h8 h16 h32 h64
        rcases hwords with hw | hw | hw | hw | hw
        exacts [(h1 hw).elim, (h8 hw).elim, (h16 hw).elim, (h32 hw).elim, (h64 hw).elim]
    · exact hgeneral
  · exact hgeneral

theorem write_truncated_ok (h : os.Valid) (ctx : Context) (hot : offset.WellTyped) (hof : offset.Folded)
    (ht : value.WellTyped) (hwidth : IsAccessWidth value.getWidth) :
    ∃ os', os.write ctx offset value = some os' ∧
      Stores ctx os os' (fun σ => ((ZExtExpr.create offset 32).eval σ).toNat) value := by
  unfold write
  split
  · rename_i c hc
    obtain ⟨os', hrun, hst⟩ := writeAt_ok h ctx c.toNat ht hwidth
    exact ⟨os', hrun, by rw [hc]; exact hst⟩
  · rename_i hne
    have hoff := isOffset_truncated hot hof hne
    split_ifs with hbool
    · exact writeWith_ok h ctx ht hwidth
        (by rw [show numBytes value.getWidth = 1 from if_pos hbool]; exact writerOf_bool hoff os.size)
    · exact writeWith_ok h ctx ht hwidth (writerOf_symbolic hoff h.size_lt)

theorem write_ok (h : os.Valid) (ctx : Context) (hot : offset.WellTyped) (hof : offset.Folded)
    (ht : value.WellTyped) (hwidth : IsAccessWidth value.getWidth) :
    ∃ os', os.write ctx offset value = some os' ∧ Stores ctx os os' (fun σ => (offset.eval σ).toNat) value := by
  obtain ⟨-, -, htrunc⟩ := truncated_ok hot
  have hsize := h.size_lt
  have hpos : 0 < numBytes value.getWidth := by
    unfold numBytes
    rcases hwidth with hw | hw <;> split_ifs <;> omega
  obtain ⟨os', hrun, hst⟩ := write_truncated_ok h ctx hot hof ht hwidth
  exact ⟨os', hrun, hst.congr_place fun σ hσ => (htrunc σ).trans (Nat.mod_eq_of_lt (by omega))⟩

end ObjectState

end Klee
