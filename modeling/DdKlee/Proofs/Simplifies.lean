import DdKlee.Spec.Create

/-! When one expression may stand for another: both are well typed at one
width, they have one value under every assignment of interest, and the second
is not heavier. The weight is chosen so that no simplifying constructor
increases it and replacing a subterm by a constant decreases it, which is what
bounds the rewriting of the constraint manager. -/

namespace Klee

open Expr

theorem Array.initial_width (a : Array) (σ : Bytes) (i : ℕ) : (a.initial σ i).width = a.range := by
  unfold Array.initial
  split
  · rename_i v hv
    exact a.constant_range v (List.mem_of_getElem? hv)
  · rfl

mutual

theorem Expr.eval_width (σ : Bytes) : ∀ {e : Expr}, e.WellTyped → (e.eval σ).width = e.getWidth
  | .constant _, _ => rfl
  | .notOptimized src, h => Expr.eval_width σ (e := src) h
  | .read _ _ _, h => UpdateNode.lookup_width σ _ h.1
  | .select c t f, ⟨_, ht, hf, _, hw⟩ => by
    simp only [Expr.eval, getWidth]
    split_ifs
    · exact Expr.eval_width σ ht
    · rw [hw]; exact Expr.eval_width σ hf
  | .concat l r, ⟨hl, hr⟩ => by
    simp only [Expr.eval, getWidth, ConstantExpr.Concat, APInt.or_width]
    rw [Expr.eval_width σ hl, Expr.eval_width σ hr]
  | .extract _ _ _, _ => rfl
  | .not e, h => Expr.eval_width σ (e := e) h
  | .cast k _ _, _ => by cases k <;> rfl
  | .binary k l _, ⟨hl, _⟩ => by
    have hw := Expr.eval_width σ hl
    cases k <;> simp [Expr.eval, getWidth, BinaryKind.apply, BinaryKind.isCmp, hw]

theorem UpdateNode.lookup_width (σ : Bytes) {root : Array} :
    ∀ {head : UpdateNode} (i : APInt), head.WellTyped root → (head.lookup σ root i).width = root.range
  | .null, i, _ => root.initial_width σ i.toNat
  | .node _ _ _, i, ⟨hn, _, hv, _, hvw⟩ => by
    simp only [UpdateNode.lookup]
    split_ifs
    · rw [Expr.eval_width σ hv, hvw]
    · exact UpdateNode.lookup_width σ i hn

end

theorem Expr.toNat_eval_lt (σ : Bytes) {e : Expr} (h : e.WellTyped) : (e.eval σ).toNat < 2 ^ e.getWidth :=
  Expr.eval_width σ h ▸ (e.eval σ).toNat_lt

theorem Expr.exists_bits (σ : Bytes) {e : Expr} (he : e.WellTyped) {w : ℕ} (hw : e.getWidth = w) :
    ∃ x : BitVec w, e.eval σ = ⟨w, x⟩ := by
  subst hw
  rw [← Expr.eval_width σ he]
  exact ⟨(e.eval σ).bits, rfl⟩

theorem Expr.exists_bool (σ : Bytes) {e : Expr} (he : e.WellTyped) (hw : e.getWidth = 1) :
    ∃ b, e.eval σ = APInt.ofBool b :=
  ⟨_, APInt.eq_ofBool (by rw [Expr.eval_width σ he, hw])⟩

theorem BinaryKind.weight_eq : BinaryKind.eq.weight = 1 := rfl

theorem BinaryKind.weight_pos (k : BinaryKind) : 0 < k.weight := by cases k <;> decide

theorem Expr.weight_pos : ∀ e : Expr, 0 < e.weight
  | .extract e _ _ => by have := Expr.weight_pos e; simp only [Expr.weight]; omega
  | .binary k l r => by have := k.weight_pos; simp only [Expr.weight]; omega
  | .constant _ | .notOptimized _ | .read _ _ _ | .select _ _ _ | .concat _ _ | .not _
  | .cast _ _ _ => by simp [Expr.weight]

theorem Expr.one_lt_weight : ∀ {e : Expr}, e.isConstant = false → 1 < e.weight
  | .constant _, h => by simp [isConstant] at h
  | .notOptimized e, _ | .not e, _ | .cast _ e _, _ | .extract e _ _, _ | .read _ _ e, _ => by
    have := Expr.weight_pos e
    simp only [Expr.weight]
    omega
  | .select c _ _, _ => by simp only [Expr.weight]; omega
  | .concat l r, _ | .binary _ l r, _ => by
    have := Expr.weight_pos l
    have := Expr.weight_pos r
    simp only [Expr.weight]
    omega

/-- `r` may stand for `e` under the assignments `P`. -/
structure Simplifies (P : Bytes → Prop) (e r : Expr) : Prop where
  typed : r.WellTyped
  width : r.getWidth = e.getWidth
  eval : ∀ σ, P σ → r.eval σ = e.eval σ
  weight : r.weight ≤ e.weight

namespace Simplifies

variable {P : Bytes → Prop} {e r s a b c a' b' c' : Expr}

theorem refl (h : e.WellTyped) : Simplifies P e e :=
  ⟨h, rfl, fun _ _ => rfl, le_rfl⟩

theorem trans (h : Simplifies P e r) (h' : Simplifies P r s) : Simplifies P e s :=
  ⟨h'.typed, h'.width.trans h.width, fun σ hσ => (h'.eval σ hσ).trans (h.eval σ hσ),
    h'.weight.trans h.weight⟩

theorem const {v : APInt} (hw : v.width = e.getWidth) (hv : ∀ σ, P σ → v = e.eval σ) :
    Simplifies P e (constant v) :=
  ⟨trivial, hw, hv, Expr.weight_pos e⟩

theorem select (hc : Simplifies P a a') (ht : Simplifies P b b') (hf : Simplifies P c c')
    (h : (Expr.select a b c).WellTyped) :
    Simplifies P (Expr.select a b c) (Expr.select a' b' c') where
  typed := ⟨hc.typed, ht.typed, hf.typed, hc.width.trans h.2.2.2.1, by
    rw [ht.width, hf.width]; exact h.2.2.2.2⟩
  width := ht.width
  eval σ hσ := by simp only [Expr.eval, hc.eval σ hσ, ht.eval σ hσ, hf.eval σ hσ]
  weight := by
    have := hc.weight
    have := ht.weight
    have := hf.weight
    simp only [Expr.weight]
    omega

theorem concat (hl : Simplifies P a a') (hr : Simplifies P b b') :
    Simplifies P (Expr.concat a b) (Expr.concat a' b') where
  typed := ⟨hl.typed, hr.typed⟩
  width := by simp only [getWidth, hl.width, hr.width]
  eval σ hσ := by simp only [Expr.eval, hl.eval σ hσ, hr.eval σ hσ]
  weight := by
    have := hl.weight
    have := hr.weight
    simp only [Expr.weight]
    omega

theorem extract (he : Simplifies P a a') {off w : ℕ} (h : (Expr.extract a off w).WellTyped) :
    Simplifies P (Expr.extract a off w) (Expr.extract a' off w) where
  typed := ⟨he.typed, h.2.1, by rw [he.width]; exact h.2.2⟩
  width := rfl
  eval σ hσ := by simp only [Expr.eval, he.eval σ hσ]
  weight := by
    have := he.weight
    simp only [Expr.weight]
    omega

theorem not (he : Simplifies P a a') : Simplifies P (Expr.not a) (Expr.not a') where
  typed := he.typed
  width := he.width
  eval σ hσ := by simp only [Expr.eval, he.eval σ hσ]
  weight := by
    have := he.weight
    simp only [Expr.weight]
    omega

theorem notOptimized (he : Simplifies P a a') :
    Simplifies P (Expr.notOptimized a) (Expr.notOptimized a') where
  typed := he.typed
  width := he.width
  eval σ hσ := by simp only [Expr.eval, he.eval σ hσ]
  weight := by
    have := he.weight
    simp only [Expr.weight]
    omega

theorem cast (he : Simplifies P a a') {k : CastKind} {w : ℕ} (h : (Expr.cast k a w).WellTyped) :
    Simplifies P (Expr.cast k a w) (Expr.cast k a' w) where
  typed := ⟨he.typed, by rw [he.width]; exact h.2⟩
  width := rfl
  eval σ hσ := by simp only [Expr.eval, he.eval σ hσ]
  weight := by
    have := he.weight
    simp only [Expr.weight]
    omega

theorem binary (hl : Simplifies P a a') (hr : Simplifies P b b') {k : BinaryKind}
    (h : (Expr.binary k a b).WellTyped) :
    Simplifies P (Expr.binary k a b) (Expr.binary k a' b') where
  typed := ⟨hl.typed, hr.typed, by rw [hl.width, hr.width]; exact h.2.2⟩
  width := by simp only [getWidth, hl.width]
  eval σ hσ := by simp only [Expr.eval, hl.eval σ hσ, hr.eval σ hσ]
  weight := by
    have := hl.weight
    have := hr.weight
    simp only [Expr.weight]
    omega

theorem readIndex (hi : Simplifies P a a') {root : Array} {head : UpdateNode}
    (h : (Expr.read root head a).WellTyped) :
    Simplifies P (Expr.read root head a) (Expr.read root head a') where
  typed := ⟨h.1, hi.typed, hi.width.trans h.2.2⟩
  width := rfl
  eval σ hσ := by simp only [Expr.eval, hi.eval σ hσ]
  weight := by
    have := hi.weight
    simp only [Expr.weight]
    omega

end Simplifies

end Klee
