import DdKlee.Proofs.Create.Binary

/-! Concat and Extract, which call each other, and the casts. The identities
are checked bit by bit. -/

namespace Klee

open Expr

variable {P : Bytes → Prop} {e l r : Expr} {off w : ℕ}

namespace ConstantExpr

variable {a b : APInt}

@[simp] theorem Concat_width : (Concat a b).width = a.width + b.width := rfl

@[simp] theorem Extract_width : (Extract a off w).width = w := rfl

theorem Concat_mk {v : ℕ} (x : BitVec v) (y : BitVec w) : Concat ⟨v, x⟩ ⟨w, y⟩ = ⟨v + w, x ++ y⟩ := by
  have h : (x.setWidth (v + w) <<< w) ||| y.setWidth (v + w) = x ++ y := by
    ext i hi
    simp only [BitVec.getElem_or, BitVec.getElem_shiftLeft, BitVec.getElem_setWidth,
      BitVec.getElem_append]
    grind
  rw [← h]
  exact APInt.or_mk _ _

theorem Extract_mk {v : ℕ} (x : BitVec v) (h : off + w ≤ v) :
    Extract ⟨v, x⟩ off w = ⟨w, x.extractLsb' off w⟩ := by
  simp only [Extract, APInt.zextOrTrunc]
  congr 1
  ext i hi
  simp
  grind

theorem Concat_bit_right {i : ℕ} (hi : i < b.width) : (Concat a b).bit i = b.bit i := by
  rw [Concat_mk, APInt.bit, BitVec.getLsbD_append, if_pos hi]
  rfl

theorem Concat_bit_left {i : ℕ} (hi : b.width ≤ i) : (Concat a b).bit i = a.bit (i - b.width) := by
  rw [Concat_mk, APInt.bit, BitVec.getLsbD_append, if_neg (by omega)]
  rfl

theorem Extract_bit (h : off + w ≤ a.width) {i : ℕ} (hi : i < w) :
    (Extract a off w).bit i = a.bit (off + i) := by
  rw [Extract_mk a.bits h, APInt.bit, BitVec.getLsbD_extractLsb']
  simp [hi, APInt.bit]

theorem Extract_zero (a : APInt) : Extract a 0 a.width = a := by
  simp [Extract, APInt.zextOrTrunc]

theorem Concat_Extract {v : ℕ} (h : off + w + v ≤ a.width) :
    Concat (Extract a (off + w) v) (Extract a off w) = Extract a off (v + w) := by
  refine APInt.ext_bit rfl fun i hi => ?_
  have hi' : i < v + w := hi
  rw [Extract_bit (by omega) hi']
  by_cases hlt : i < w
  · rw [Concat_bit_right hlt, Extract_bit (by omega) hlt]
  · rw [Concat_bit_left (by simpa using hlt), Extract_width, Extract_bit h (by omega),
      show off + w + (i - w) = off + i by omega]

theorem Extract_Concat_left (hoff : b.width ≤ off) (h : off + w ≤ a.width + b.width) :
    Extract (Concat a b) off w = Extract a (off - b.width) w := by
  refine APInt.ext_bit rfl fun i hi => ?_
  have hi' : i < w := hi
  rw [Extract_bit h hi', Extract_bit (by omega) hi', Concat_bit_left (by omega),
    show off + i - b.width = off - b.width + i by omega]

theorem Extract_Concat_right (h : off + w ≤ b.width) :
    Extract (Concat a b) off w = Extract b off w := by
  refine APInt.ext_bit rfl fun i hi => ?_
  have hi' : i < w := hi
  rw [Extract_bit (by simp only [Concat_width]; omega) hi', Extract_bit h hi',
    Concat_bit_right (by omega)]

theorem Extract_Concat_both (hoff : off ≤ b.width) (hw : b.width ≤ off + w)
    (h : off + w ≤ a.width + b.width) :
    Extract (Concat a b) off w =
      Concat (Extract a 0 (w + off - b.width)) (Extract b off (b.width - off)) := by
  refine APInt.ext_bit (by simp only [Extract_width, Concat_width]; omega) fun i hi => ?_
  have hi' : i < w := hi
  rw [Extract_bit h hi']
  by_cases hlt : off + i < b.width
  · have hlt' : i < b.width - off := by omega
    rw [Concat_bit_right hlt, Concat_bit_right hlt', Extract_bit (by omega) hlt']
  · rw [Concat_bit_left (by omega), Concat_bit_left (by simp only [Extract_width]; omega),
      Extract_width, Extract_bit (by omega) (by omega)]
    congr 1
    omega

end ConstantExpr

theorem createWith_simplifies {f : Expr → ℕ → ℕ → Expr}
    (hf : ∀ {e o v}, (extract e o v).WellTyped → Simplifies P (extract e o v) (f e o v))
    (h : (concat l r).WellTyped) :
    Simplifies P (concat l r) (ConcatExpr.createWith f l r) := by
  unfold ConcatExpr.createWith
  split
  · exact Simplifies.const rfl fun _ _ => rfl
  · rename_i el ol wl er ofr wr
    split_ifs with hmerge
    · obtain ⟨rfl, rfl⟩ := hmerge
      obtain ⟨⟨he, hwl, hbl⟩, -, hwr, -⟩ := h
      have hext : (extract el ofr (wl + wr)).WellTyped := ⟨he, by omega, by omega⟩
      refine Simplifies.trans ⟨hext, rfl, fun σ _ => ?_, ?_⟩ (hf hext)
      · simp only [Expr.eval]
        rw [ConstantExpr.Concat_Extract (by rw [Expr.eval_width σ he]; omega)]
      · simp only [Expr.weight]; omega
    · exact Simplifies.refl h
  · exact Simplifies.refl h

/-- What an extract node that `ExtractExpr::create` returns takes its bits
from is no larger than the operand. -/
theorem ExtractExpr_create_size (n : ℕ) : ∀ (e : Expr) (off w : ℕ), e.size < n →
    ∀ z o v, ExtractExpr.create e off w = extract z o v → z.size ≤ e.size := by
  induction n with
  | zero => exact fun _ _ _ h => absurd h (Nat.not_lt_zero _)
  | succ n ih =>
    intro e off w hn z o v h
    rw [ExtractExpr.create.eq_def] at h
    split_ifs at h with hw
    · subst h
      simp only [Expr.size]; omega
    split at h
    · cases h
    · rename_i left right
      simp only [Expr.size] at hn ⊢
      split_ifs at h with h1 h2
      · exact (ih _ _ _ (by omega) _ _ _ h).trans (by omega)
      · exact (ih _ _ _ (by omega) _ _ _ h).trans (by omega)
      · unfold ConcatExpr.createWith at h
        split at h
        · cases h
        · rename_i el ol wl er ofr wr hl hr
          have hel := ih _ _ _ (by omega) _ _ _ hl
          dsimp only at h
          split_ifs at h with hm hs
          · exact (ih el _ _ (by simp only [Expr.size] at hs; omega) _ _ _ h).trans (by omega)
          · cases h; omega
        · cases h
    · cases h; exact le_rfl

/-- The case of an extract that meets both sides of a concat, as the source has
it: the merged term is smaller, so the test of its size succeeds. -/
theorem ExtractExpr_create_concat (hw : w ≠ (concat l r).getWidth) (hoff : off < r.getWidth)
    (hboth : r.getWidth < off + w) :
    ExtractExpr.create (concat l r) off w =
      ConcatExpr.create (ExtractExpr.create l 0 (w + off - r.getWidth))
        (ExtractExpr.create r off (r.getWidth - off)) := by
  rw [ExtractExpr.create, if_neg hw, if_neg (by omega), if_neg (by omega), ConcatExpr.create]
  unfold ConcatExpr.createWith
  split
  · rfl
  · rename_i el ol wl er ofr wr hl hr
    have hel := ExtractExpr_create_size _ _ _ _ (Nat.lt_succ_self _) _ _ _ hl
    have hlt : el.size < (concat l r).size := by simp only [Expr.size]; omega
    simp only [if_pos hlt]
  · rfl

theorem simplifies_extract_all (h : (extract e off w).WellTyped) (hw : w = e.getWidth) :
    Simplifies P (extract e off w) e := by
  obtain ⟨he, -, hle⟩ := h
  obtain rfl : off = 0 := by omega
  refine ⟨he, hw.symm, fun σ _ => ?_, by simp only [Expr.weight]; omega⟩
  rw [Expr.eval, hw, ← Expr.eval_width σ he, ConstantExpr.Extract_zero]

theorem simplifies_extract_concat_left (h : (extract (concat l r) off w).WellTyped)
    (hoff : r.getWidth ≤ off) :
    Simplifies P (extract (concat l r) off w) (extract l (off - r.getWidth) w) := by
  obtain ⟨⟨hl, hr⟩, hpos, hle⟩ := h
  simp only [getWidth] at hle
  refine ⟨⟨hl, hpos, by omega⟩, rfl, fun σ _ => ?_, by simp only [Expr.weight]; omega⟩
  have hlw := Expr.eval_width σ hl
  have hrw := Expr.eval_width σ hr
  simp only [Expr.eval]
  rw [ConstantExpr.Extract_Concat_left (by omega) (by omega), hrw]

theorem simplifies_extract_concat_right (h : (extract (concat l r) off w).WellTyped)
    (hle : off + w ≤ r.getWidth) :
    Simplifies P (extract (concat l r) off w) (extract r off w) := by
  obtain ⟨⟨hl, hr⟩, hpos, -⟩ := h
  refine ⟨⟨hr, hpos, hle⟩, rfl, fun σ _ => ?_, by simp only [Expr.weight]; omega⟩
  have hrw := Expr.eval_width σ hr
  simp only [Expr.eval]
  rw [ConstantExpr.Extract_Concat_right (by omega)]

theorem simplifies_extract_concat_both (h : (extract (concat l r) off w).WellTyped)
    (hoff : off < r.getWidth) (hboth : r.getWidth < off + w) :
    Simplifies P (extract (concat l r) off w)
      (concat (extract l 0 (w + off - r.getWidth)) (extract r off (r.getWidth - off))) := by
  obtain ⟨⟨hl, hr⟩, hpos, hle⟩ := h
  simp only [getWidth] at hle
  refine ⟨⟨⟨hl, by omega, by omega⟩, hr, by omega, by omega⟩, by simp only [getWidth]; omega,
    fun σ _ => ?_, by simp only [Expr.weight]; omega⟩
  have hlw := Expr.eval_width σ hl
  have hrw := Expr.eval_width σ hr
  simp only [Expr.eval]
  rw [ConstantExpr.Extract_Concat_both (by omega) (by omega) (by omega), hrw]

theorem ExtractExpr_create_simplifies_of_size (n : ℕ) : ∀ (e : Expr) (off w : ℕ), e.size < n →
    (extract e off w).WellTyped → Simplifies P (extract e off w) (ExtractExpr.create e off w) := by
  induction n with
  | zero => exact fun _ _ _ h => absurd h (Nat.not_lt_zero _)
  | succ n ih =>
    intro e off w hn h
    rw [ExtractExpr.create.eq_def]
    split_ifs with hw
    · exact simplifies_extract_all h hw
    split
    · exact Simplifies.const rfl fun _ _ => rfl
    · rename_i left right
      simp only [Expr.size] at hn
      split_ifs with hoff hboth
      · have hmove := simplifies_extract_concat_left (P := P) h hoff
        exact hmove.trans (ih _ _ _ (by omega) hmove.typed)
      · have hmove := simplifies_extract_concat_right (P := P) h hboth
        exact hmove.trans (ih _ _ _ (by omega) hmove.typed)
      · have hmove := simplifies_extract_concat_both (P := P) h (by omega) (by omega)
        have hkids := hmove.trans ((ih _ _ _ (by omega) hmove.typed.1).concat
          (ih _ _ _ (by omega) hmove.typed.2))
        refine hkids.trans (createWith_simplifies (fun {x o v} hx => ?_) hkids.typed)
        split_ifs with hs
        · exact ih x o v (by simp only [Expr.size] at hs; omega) hx
        · exact Simplifies.refl hx
    · exact Simplifies.refl h

theorem ExtractExpr_create_simplifies (h : (extract e off w).WellTyped) :
    Simplifies P (extract e off w) (ExtractExpr.create e off w) :=
  ExtractExpr_create_simplifies_of_size _ e off w (Nat.lt_succ_self _) h

theorem ConcatExpr_create_simplifies (h : (concat l r).WellTyped) :
    Simplifies P (concat l r) (ConcatExpr.create l r) :=
  createWith_simplifies ExtractExpr_create_simplifies h

theorem NotExpr_create_simplifies (h : (Expr.not e).WellTyped) :
    Simplifies P (Expr.not e) (NotExpr.create e) := by
  unfold NotExpr.create
  split
  · exact Simplifies.const rfl fun _ _ => rfl
  · exact Simplifies.refl h

theorem CastKind.apply_self (k : CastKind) (a : APInt) : k.apply a a.width = a := by
  cases k with
  | zext => exact APInt.zextOrTrunc_self a
  | sext => exact APInt.sextOrTrunc_self a

theorem CastKind.apply_eq_Extract (k : CastKind) {a : APInt} (h : w ≤ a.width) :
    k.apply a w = ConstantExpr.Extract a 0 w := by
  cases k with
  | zext => simp [CastKind.apply, ConstantExpr.ZExt, ConstantExpr.Extract]
  | sext =>
    simp only [CastKind.apply, ConstantExpr.SExt, ConstantExpr.Extract, APInt.sextOrTrunc,
      APInt.zextOrTrunc, BitVec.sshiftRight_zero]
    rw [BitVec.signExtend_eq_setWidth_of_le _ h]

theorem CastKind.create_simplifies (k : CastKind) (h : (Expr.cast k e w).WellTyped) :
    Simplifies P (Expr.cast k e w) (k.create e w) := by
  unfold CastKind.create
  split_ifs with hw hlt
  · refine ⟨h.1, hw.symm, fun σ _ => ?_, by simp only [Expr.weight]; omega⟩
    rw [Expr.eval, hw, ← Expr.eval_width σ h.1, CastKind.apply_self]
  · exact absurd h.2 (by omega)
  · split
    · exact Simplifies.const (CastKind.apply_width _ _ _) fun _ _ => rfl
    · exact Simplifies.refl h

theorem CastKind.create_trunc (k : CastKind) (h : w < e.getWidth) :
    k.create e w = ExtractExpr.create e 0 w := by
  unfold CastKind.create
  rw [if_neg (by omega), if_pos h]

end Klee
