import DdKlee.Proofs.Simplifies

/-! Every `create` function simplifies the node of its kind: on operands of
matching widths the result is well typed, has the width and the value of the
node, and is not heavier. Here the steps that all share, and And, Or, Eq, Ne
and Xor. -/

namespace Klee

open Expr

variable {P : Bytes → Prop} {e l r a b : Expr}

theorem exists_constant (h : e.isConstant = true) : ∃ c, e = constant c := by
  cases e with
  | constant c => exact ⟨c, rfl⟩
  | _ => simp [isConstant] at h

theorem eval_width_eq (h : l.WellTyped ∧ r.WellTyped ∧ l.getWidth = r.getWidth) (σ : Bytes) :
    (l.eval σ).width = (r.eval σ).width := by
  rw [Expr.eval_width σ h.1, Expr.eval_width σ h.2.1, h.2.2]

theorem simplifies_swap {k : BinaryKind} (h : (binary k l r).WellTyped)
    (hk : ∀ {x y : APInt}, x.width = y.width → k.apply x y = k.apply y x) :
    Simplifies P (binary k l r) (binary k r l) where
  typed := ⟨h.2.1, h.1, h.2.2.symm⟩
  width := by simp only [getWidth, h.2.2]
  eval σ _ := (hk (eval_width_eq h σ)).symm
  weight := by simp only [Expr.weight]; omega

theorem simplifies_left {k : BinaryKind} (h : (binary k l r).WellTyped) (hk : k.isCmp = false)
    (hv : ∀ σ, P σ → l.eval σ = k.apply (l.eval σ) (r.eval σ)) :
    Simplifies P (binary k l r) l where
  typed := h.1
  width := by simp [getWidth, hk]
  eval σ hσ := hv σ hσ
  weight := by simp only [Expr.weight]; omega

/-- Bool operands have Bool values, so a rewriting of Bool nodes is decided on
the four pairs of values. -/
theorem simplifies_bool {k : BinaryKind} (h : (binary k l r).WellTyped) (hw : l.getWidth = 1)
    (typed : e.WellTyped) (width : e.getWidth = 1) (weight : e.weight ≤ (binary k l r).weight)
    (hv : ∀ σ p q, l.eval σ = APInt.ofBool p → r.eval σ = APInt.ofBool q →
      e.eval σ = k.apply (APInt.ofBool p) (APInt.ofBool q)) :
    Simplifies P (binary k l r) e where
  typed := typed
  width := by
    rw [width]
    cases hk : k.isCmp <;> simp [getWidth, hk, hw]
  eval σ _ := by
    obtain ⟨p, hp⟩ := Expr.exists_bool σ h.1 hw
    obtain ⟨q, hq⟩ := Expr.exists_bool σ h.2.1 (h.2.2 ▸ hw)
    rw [hv σ p q hp hq, Expr.eval, hp, hq]
  weight := weight

theorem simplifies_fold {k : BinaryKind} {cl cr : APInt}
    (h : (binary k (constant cl) (constant cr)).WellTyped) :
    Simplifies P (binary k (constant cl) (constant cr)) (constant (k.apply cl cr)) :=
  Simplifies.const (Expr.eval_width (fun _ _ => 0) h) fun _ _ => rfl

theorem bcreate_simplifies {k : BinaryKind} {create : Expr → Expr → Expr}
    (create_ok : Simplifies P (binary k l r) (create l r)) (h : (binary k l r).WellTyped) :
    Simplifies P (binary k l r) (bcreate k create l r) := by
  unfold bcreate
  split
  · exact simplifies_fold h
  · exact create_ok

theorem bcreateR_simplifies {k : BinaryKind} {create : Expr → Expr → Expr}
    {createPartial : Expr → APInt → Expr} {createPartialR : APInt → Expr → Expr}
    (partialR_ok : ∀ cl, l = constant cl → Simplifies P (binary k l r) (createPartialR cl r))
    (partial_ok : ∀ cr, r = constant cr → Simplifies P (binary k l r) (createPartial l cr))
    (create_ok : Simplifies P (binary k l r) (create l r)) (h : (binary k l r).WellTyped) :
    Simplifies P (binary k l r) (bcreateR k create createPartial createPartialR l r) := by
  unfold bcreateR
  split
  · exact simplifies_fold h
  · exact partialR_ok _ rfl
  · exact partial_ok _ rfl
  · exact create_ok

theorem AndExpr_createPartial_simplifies {cr : APInt} (h : (binary .and l (constant cr)).WellTyped) :
    Simplifies P (binary .and l (constant cr)) (AndExpr_createPartial l cr) := by
  unfold AndExpr_createPartial
  split_ifs with h1 h2
  · exact simplifies_left h rfl fun σ _ => (APInt.and_allOnes (eval_width_eq h σ) h1).symm
  · exact Simplifies.const h.2.2.symm fun σ _ => (APInt.and_zero (eval_width_eq h σ) h2).symm
  · exact Simplifies.refl h

theorem AndExpr_createPartialR_simplifies {cl : APInt}
    (h : (binary .and (constant cl) r).WellTyped) :
    Simplifies P (binary .and (constant cl) r) (AndExpr_createPartialR cl r) :=
  (simplifies_swap h APInt.and_comm).trans
    (AndExpr_createPartial_simplifies ⟨h.2.1, h.1, h.2.2.symm⟩)

theorem AndExpr_create_simplifies (h : (binary .and l r).WellTyped) :
    Simplifies P (binary .and l r) (AndExpr.create l r) :=
  bcreateR_simplifies (fun _ hl => by subst hl; exact AndExpr_createPartialR_simplifies h)
    (fun _ hr => by subst hr; exact AndExpr_createPartial_simplifies h) (Simplifies.refl h) h

theorem OrExpr_createPartial_simplifies {cr : APInt} (h : (binary .or l (constant cr)).WellTyped) :
    Simplifies P (binary .or l (constant cr)) (OrExpr_createPartial l cr) := by
  unfold OrExpr_createPartial
  split_ifs with h1 h2
  · exact Simplifies.const h.2.2.symm fun σ _ => (APInt.or_allOnes (eval_width_eq h σ) h1).symm
  · exact simplifies_left h rfl fun σ _ => (APInt.or_zero (eval_width_eq h σ) h2).symm
  · exact Simplifies.refl h

theorem OrExpr_create_simplifies (h : (binary .or l r).WellTyped) :
    Simplifies P (binary .or l r) (OrExpr.create l r) :=
  bcreateR_simplifies
    (fun _ hl => by
      subst hl
      exact (simplifies_swap h APInt.or_comm).trans
        (OrExpr_createPartial_simplifies ⟨h.2.1, h.1, h.2.2.symm⟩))
    (fun _ hr => by subst hr; exact OrExpr_createPartial_simplifies h) (Simplifies.refl h) h

theorem CastKind.trunc_apply {k : CastKind} {x : APInt} {w : ℕ} (h : x.width ≤ w) :
    ConstantExpr.ZExt (k.apply x w) x.width = x := by
  cases k with
  | zext => exact APInt.zextOrTrunc_zextOrTrunc h
  | sext => exact APInt.zextOrTrunc_sextOrTrunc h

theorem CastKind.apply_width (k : CastKind) (x : APInt) (w : ℕ) : (k.apply x w).width = w := by
  cases k <;> rfl

theorem simplifies_cmp {k : BinaryKind} (hk : k.isCmp = true) (typed : e.WellTyped)
    (width : e.getWidth = 1) (eval : ∀ σ, e.eval σ = k.apply (l.eval σ) (r.eval σ))
    (weight : e.weight ≤ l.weight + r.weight + k.weight) : Simplifies P (binary k l r) e where
  typed := typed
  width := by simp [width, getWidth, hk]
  eval σ _ := eval σ
  weight := weight

theorem EqExpr_create_simplifies' (h : (binary .eq l r).WellTyped) :
    Simplifies P (binary .eq l r) (EqExpr_create l r) := by
  unfold EqExpr_create
  split_ifs with heq
  · subst heq
    exact Simplifies.const rfl fun σ _ => by
      simp only [Expr.eval, BinaryKind.apply, APInt.eq_self]
      rfl
  · exact Simplifies.refl h

theorem isTrue_iff {c : APInt} : ConstantExpr.isTrue c = true ↔ c = APInt.ofBool true := by
  simp only [ConstantExpr.isTrue, Bool.and_eq_true, beq_iff_eq]
  constructor
  · rintro ⟨hw, hb⟩
    rw [APInt.eq_ofBool hw, hb]
  · rintro rfl
    exact ⟨rfl, rfl⟩

theorem isFalse_iff {c : APInt} : ConstantExpr.isFalse c = true ↔ c = APInt.ofBool false := by
  simp only [ConstantExpr.isFalse, Bool.and_eq_true, beq_iff_eq, Bool.not_eq_true']
  constructor
  · rintro ⟨hw, hb⟩
    rw [APInt.eq_ofBool hw, hb]
  · rintro rfl
    exact ⟨rfl, rfl⟩

theorem Expr.eval_of_isTrue {e : Expr} (h : e.isTrue = true) (σ : Bytes) : e.eval σ = APInt.ofBool true := by
  cases e with
  | constant c => exact isTrue_iff.mp h
  | _ => cases h

theorem Expr.eval_of_isFalse {e : Expr} (h : e.isFalse = true) (σ : Bytes) :
    e.eval σ = APInt.ofBool false := by
  cases e with
  | constant c => exact isFalse_iff.mp h
  | _ => cases h

theorem simplifies_eq_true (h : (binary .eq (constant (APInt.ofBool true)) r).WellTyped) :
    Simplifies P (binary .eq (constant (APInt.ofBool true)) r) r := by
  refine simplifies_bool h rfl h.2.1 h.2.2.symm (by simp only [Expr.weight]; omega) ?_
  intro σ p q hp hq
  rw [hq, ← show APInt.ofBool true = APInt.ofBool p from hp]
  cases q <;> rfl

theorem simplifies_eq_false_eq_false
    (h : (binary .eq (constant (APInt.ofBool false))
      (binary .eq (constant (APInt.ofBool false)) r)).WellTyped) :
    Simplifies P (binary .eq (constant (APInt.ofBool false))
      (binary .eq (constant (APInt.ofBool false)) r)) r := by
  have hr := h.2.1
  refine simplifies_cmp rfl hr.2.1 hr.2.2.symm (fun σ => ?_) (by simp only [Expr.weight]; omega)
  obtain ⟨q, hq⟩ := Expr.exists_bool σ hr.2.1 hr.2.2.symm
  simp only [Expr.eval, hq]
  cases q <;> rfl

theorem simplifies_eq_false_or
    (h : (binary .eq (constant (APInt.ofBool false)) (binary .or a b)).WellTyped) :
    Simplifies P (binary .eq (constant (APInt.ofBool false)) (binary .or a b))
      (binary .and (binary .eq (constant (APInt.ofBool false)) a)
        (binary .eq (constant (APInt.ofBool false)) b)) := by
  obtain ⟨-, ⟨ha, hb, hab⟩, hw⟩ := h
  have hwa : a.getWidth = 1 := hw.symm
  have hwb : b.getWidth = 1 := hab ▸ hwa
  refine simplifies_cmp rfl ⟨⟨trivial, ha, hwa.symm⟩, ⟨trivial, hb, hwb.symm⟩, rfl⟩ rfl
    (fun σ => ?_) (by simp only [Expr.weight, BinaryKind.weight]; omega)
  obtain ⟨p, hp⟩ := Expr.exists_bool σ ha hwa
  obtain ⟨q, hq⟩ := Expr.exists_bool σ hb hwb
  simp only [Expr.eval, hp, hq]
  cases p <;> cases q <;> rfl

theorem simplifies_eq_cast {k : CastKind} {c : APInt} {w : ℕ}
    (h : (binary .eq (constant c) (.cast k a w)).WellTyped)
    (hc : c = k.apply (ConstantExpr.ZExt c a.getWidth) c.width) :
    Simplifies P (binary .eq (constant c) (.cast k a w))
      (binary .eq (constant (ConstantExpr.ZExt c a.getWidth)) a) := by
  obtain ⟨-, ⟨ha, haw⟩, hw⟩ := h
  have hcw : c.width = w := hw
  refine simplifies_cmp rfl ⟨trivial, ha, rfl⟩ rfl (fun σ => ?_) (by simp only [Expr.weight]; omega)
  have hwa := Expr.eval_width σ ha
  simp only [Expr.eval, BinaryKind.apply, APInt.ofBool_inj]
  rw [Bool.eq_iff_iff, APInt.eq_iff hwa.symm, APInt.eq_iff (by rw [CastKind.apply_width, hcw])]
  constructor
  · intro heq
    rw [← heq, ← hcw]; exact hc
  · intro heq
    rw [heq, ← hwa, CastKind.trunc_apply (hwa ▸ haw)]

theorem simplifies_eq_cast_false {k : CastKind} {c : APInt} {w : ℕ}
    (h : (binary .eq (constant c) (.cast k a w)).WellTyped)
    (hc : c ≠ k.apply (ConstantExpr.ZExt c a.getWidth) c.width) :
    Simplifies P (binary .eq (constant c) (.cast k a w)) (ConstantExpr.alloc 0 1) := by
  obtain ⟨-, ⟨ha, haw⟩, hw⟩ := h
  have hcw : c.width = w := hw
  refine Simplifies.const rfl fun σ _ => ?_
  have hwa := Expr.eval_width σ ha
  have hne : c.eq (k.apply (a.eval σ) w) = false := by
    rw [← Bool.not_eq_true, APInt.eq_iff (by rw [CastKind.apply_width, hcw])]
    intro heq
    apply hc
    rw [heq, ← hwa, CastKind.trunc_apply (hwa ▸ haw), CastKind.apply_width]
  simp only [Expr.eval, BinaryKind.apply, hne]
  rfl

theorem simplifies_eq_move {k : BinaryKind} {c d : APInt} (c' : APInt)
    (h : (binary .eq (constant c) (binary k (constant d) b)).WellTyped) (hw : c'.width = d.width)
    (hv : ∀ x : APInt, d.width = x.width → c.eq (k.apply d x) = c'.eq x) :
    Simplifies P (binary .eq (constant c) (binary k (constant d) b)) (binary .eq (constant c') b) := by
  obtain ⟨-, ⟨-, hb, hdb⟩, -⟩ := h
  refine simplifies_cmp rfl ⟨trivial, hb, hw.trans hdb⟩ rfl (fun σ => ?_) (by simp only [Expr.weight]; omega)
  exact congrArg APInt.ofBool (hv _ ((Expr.eval_width σ hb).trans hdb.symm).symm).symm

theorem EqExpr_create_constant {c : APInt} (h : l.isConstant = false) :
    EqExpr.create l (constant c) = EqExpr_createPartialR c l := by
  cases l with
  | constant v => simp [isConstant] at h
  | _ => rfl

theorem EqExpr_create_constant_simplifies {c : APInt} (h : (binary .eq (constant c) r).WellTyped)
    (ih : r.isConstant = false →
      Simplifies P (binary .eq (constant c) r) (EqExpr_createPartialR c r)) :
    Simplifies P (binary .eq (constant c) r) (EqExpr.create r (constant c)) := by
  rcases hr : r.isConstant with _ | _
  · rw [EqExpr_create_constant hr]
    exact ih hr
  · obtain ⟨v, rfl⟩ := exists_constant hr
    refine Simplifies.const rfl fun _ _ => ?_
    simp only [Expr.eval, BinaryKind.apply]
    rw [APInt.eq_comm h.2.2.symm]

theorem createIsZero_eq (x : Expr) :
    (match x with
      | constant c => constant (APInt.ofBool (c.eq (APInt.ofNat c.width 0)))
      | _ => EqExpr_createPartialR (APInt.ofNat x.getWidth 0) x) = x.createIsZero := by
  cases x <;> rfl

theorem EqExpr_create_eq (x : Expr) (c : APInt) :
    (match x with
      | constant v => constant (APInt.ofBool (v.eq c))
      | _ => EqExpr_createPartialR c x) = EqExpr.create x (constant c) := by
  cases x <;> rfl

theorem eq_ofBool_false {c : APInt} (hw : c.width = 1) (hc : ¬ConstantExpr.isTrue c = true) :
    c = APInt.ofBool false := by
  have h := APInt.eq_ofBool hw
  rcases hb : c.getBoolValue with _ | _
  · rw [h, hb]
  · exact absurd (isTrue_iff.mpr (by rw [h, hb])) hc

theorem createIsZero_simplifies_of (h : a.WellTyped) (hw : a.getWidth = 1)
    (ih : (binary .eq (constant (APInt.ofNat a.getWidth 0)) a).WellTyped →
      Simplifies P (binary .eq (constant (APInt.ofNat a.getWidth 0)) a)
        (EqExpr_createPartialR (APInt.ofNat a.getWidth 0) a)) :
    Simplifies P (binary .eq (constant (APInt.ofBool false)) a) a.createIsZero := by
  rw [show APInt.ofBool false = APInt.ofNat a.getWidth 0 by rw [hw]; rfl]
  exact EqExpr_create_constant_simplifies ⟨trivial, h, rfl⟩ fun _ => ih ⟨trivial, h, rfl⟩

theorem EqExpr_createPartialR_simplifies (c : APInt) (r : Expr) :
    (binary .eq (constant c) r).WellTyped →
      Simplifies P (binary .eq (constant c) r) (EqExpr_createPartialR c r) := by
  fun_induction EqExpr_createPartialR c r with
  | case1 r c hw hc =>
    intro h
    obtain rfl := isTrue_iff.mp hc
    exact simplifies_eq_true h
  | case2 c hw hc ce right hce =>
    intro h
    obtain rfl := eq_ofBool_false hw hc
    obtain rfl := isFalse_iff.mp hce.2
    exact simplifies_eq_false_eq_false h
  | case4 c hw hc left right ihl ihr =>
    intro h
    obtain rfl := eq_ofBool_false hw hc
    have hor := simplifies_eq_false_or (P := P) h
    obtain ⟨-, ⟨hl, hr, hlr⟩, hw⟩ := h
    have hzl := createIsZero_simplifies_of hl hw.symm ihl
    have hzr := createIsZero_simplifies_of hr (hlr ▸ hw.symm) ihr
    have hand := Simplifies.binary hzl hzr hor.typed
    have hcreate := (hor.trans hand).trans (AndExpr_create_simplifies hand.typed)
    rw [← createIsZero_eq left, ← createIsZero_eq right] at hcreate
    exact hcreate
  | case6 c hw k w v trunc hc =>
    intro h
    have h' := simplifies_eq_cast (P := P) h hc
    exact h'.trans (EqExpr_create_constant_simplifies h'.typed fun hn => by simp [isConstant] at hn)
  | case7 c hw k src w trunc hc hsrc ih =>
    intro h
    have h' := simplifies_eq_cast (P := P) h hc
    exact h'.trans (ih h'.typed)
  | case8 c hw k src w trunc hc => exact fun h => simplifies_eq_cast_false h hc
  | case9 c hw d b ih =>
    intro h
    have hcd : c.width = d.width := h.2.2
    have h' := simplifies_eq_move (P := P) (c.sub d) h hcd fun x => APInt.eq_add hcd
    exact h'.trans (ih h'.typed)
  | case10 c hw d b ih =>
    intro h
    have h' := simplifies_eq_move (P := P) (d.sub c) h rfl fun x => APInt.eq_sub h.2.2
    exact h'.trans (ih h'.typed)
  | case3 | case5 | case11 => exact EqExpr_create_simplifies'

theorem EqExpr_create_simplifies (h : (binary .eq l r).WellTyped) :
    Simplifies P (binary .eq l r) (EqExpr.create l r) :=
  bcreateR_simplifies (fun _ hl => by subst hl; exact EqExpr_createPartialR_simplifies _ _ h)
    (fun _ hr => by
      subst hr
      refine (simplifies_swap h fun hw => ?_).trans
        (EqExpr_createPartialR_simplifies _ _ ⟨h.2.1, h.1, h.2.2.symm⟩)
      simp only [BinaryKind.apply, APInt.eq_comm hw])
    (EqExpr_create_simplifies' h) h

theorem EqExpr_createPartialR_eq (c : APInt) (r : Expr) :
    EqExpr_createPartialR c r =
      if c.width = 1 then
        if ConstantExpr.isTrue c then r
        else
          match r with
          | binary .eq (constant ce) right =>
              if ce.width = 1 ∧ ConstantExpr.isFalse ce then right
              else EqExpr_create (constant c) (binary .eq (constant ce) right)
          | binary .or left right => AndExpr.create left.createIsZero right.createIsZero
          | r => EqExpr_create (constant c) r
      else
        match r with
        | .cast k src _ =>
            if c = k.apply (ConstantExpr.ZExt c src.getWidth) c.width then
              EqExpr.create src (constant (ConstantExpr.ZExt c src.getWidth))
            else ConstantExpr.alloc 0 1
        | binary .add (constant c1) b => EqExpr_createPartialR (c.sub c1) b
        | binary .sub (constant c1) b => EqExpr_createPartialR (c1.sub c) b
        | r => EqExpr_create (constant c) r := by
  simp only [← createIsZero_eq, ← EqExpr_create_eq]
  exact EqExpr_createPartialR.eq_def c r

theorem createIsZero_simplifies (h : a.WellTyped) (hw : a.getWidth = 1) :
    Simplifies P (binary .eq (constant (APInt.ofBool false)) a) a.createIsZero :=
  createIsZero_simplifies_of h hw (EqExpr_createPartialR_simplifies _ _)

theorem NeExpr_create_simplifies (h : (binary .ne l r).WellTyped) :
    Simplifies P (binary .ne l r) (NeExpr.create l r) := by
  have hne : Simplifies P (binary .ne l r)
      (binary .eq (constant (APInt.ofBool false)) (binary .eq l r)) := by
    refine simplifies_cmp rfl ⟨trivial, h, rfl⟩ rfl (fun σ => ?_)
      (by simp only [Expr.weight, BinaryKind.weight]; omega)
    simp only [Expr.eval, BinaryKind.apply]
    cases (l.eval σ).eq (r.eval σ) <;> rfl
  have heq := Simplifies.binary (Simplifies.refl (P := P) (e := constant (APInt.ofBool false)) trivial)
    (EqExpr_create_simplifies (P := P) h) hne.typed
  exact (hne.trans heq).trans (EqExpr_create_simplifies heq.typed)

theorem XorExpr_createPartialR_simplifies {cl : APInt} (h : (binary .xor (constant cl) r).WellTyped) :
    Simplifies P (binary .xor (constant cl) r) (XorExpr_createPartialR cl r) := by
  unfold XorExpr_createPartialR
  split_ifs with h1 h2
  · refine (simplifies_swap h APInt.xor_comm).trans (simplifies_left ⟨h.2.1, h.1, h.2.2.symm⟩ rfl ?_)
    exact fun σ _ => (APInt.xor_zero (eval_width_eq h σ).symm h1).symm
  · -- the constant is 1, and 1 ^ r is the negation of r
    have hcl : cl = APInt.ofBool true := by
      have hv := APInt.eq_ofBool h2
      rcases hb : cl.getBoolValue with _ | _
      · rw [hb] at hv; subst hv; exact absurd rfl h1
      · rw [hv, hb]
    have hrw : r.getWidth = 1 := h.2.2 ▸ h2
    refine Simplifies.trans ?_ (EqExpr_createPartialR_simplifies (APInt.ofNat 1 0) r
      ⟨trivial, h.2.1, hrw.symm⟩)
    refine simplifies_bool h h2 ⟨trivial, h.2.1, hrw.symm⟩ rfl (by simp [Expr.weight, BinaryKind.weight]) ?_
    intro σ p q hp hq
    rw [← hp, Expr.eval, Expr.eval, Expr.eval, hcl, hq]
    cases q <;> rfl
  · exact Simplifies.refl h

theorem XorExpr_createPartial_simplifies {cr : APInt} (h : (binary .xor l (constant cr)).WellTyped) :
    Simplifies P (binary .xor l (constant cr)) (XorExpr_createPartial l cr) :=
  (simplifies_swap h APInt.xor_comm).trans
    (XorExpr_createPartialR_simplifies ⟨h.2.1, h.1, h.2.2.symm⟩)

theorem XorExpr_create_simplifies (h : (binary .xor l r).WellTyped) :
    Simplifies P (binary .xor l r) (XorExpr.create l r) :=
  bcreateR_simplifies (fun _ hl => by subst hl; exact XorExpr_createPartialR_simplifies h)
    (fun _ hr => by subst hr; exact XorExpr_createPartial_simplifies h) (Simplifies.refl h) h

end Klee
