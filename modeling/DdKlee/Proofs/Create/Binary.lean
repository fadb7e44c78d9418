import DdKlee.Proofs.Create.Arith

/-! Mul, the divisions, the shifts and the comparisons, and the constructors
of all binary kinds taken together. Apart from Mul these constructors rewrite
Bool operands only, where an identity is decided on the four pairs of values. -/

namespace Klee

open Expr

variable {P : Bytes → Prop} {e l r a b : Expr}

theorem simplifies_bool_and (h : (binary .mul l r).WellTyped) (hw : l.getWidth = 1) :
    Simplifies P (binary .mul l r) (binary .and l r) := by
  refine simplifies_bool h hw h hw le_rfl fun σ p q hp hq => ?_
  simp only [Expr.eval, hp, hq]
  cases p <;> cases q <;> rfl

theorem isOne_iff {c : APInt} : ConstantExpr.isOne c = true ↔ c.toNat = 1 := by
  simp only [ConstantExpr.isOne, APInt.getLimitedValue, beq_iff_eq]
  omega

theorem MulExpr_createPartialR_simplifies {c : APInt} (h : (binary .mul (constant c) r).WellTyped) :
    Simplifies P (binary .mul (constant c) r) (MulExpr_createPartialR c r) := by
  have hswap := simplifies_swap (P := P) h APInt.mul_comm
  unfold MulExpr_createPartialR
  split_ifs with hw h1 h0
  · exact (simplifies_bool_and h hw).trans (AndExpr_createPartialR_simplifies h)
  · exact hswap.trans (simplifies_left hswap.typed rfl fun σ _ =>
      (APInt.mul_one (eval_width_eq h σ).symm (isOne_iff.mp h1)).symm)
  · exact hswap.trans (Simplifies.const h.2.2 fun σ _ =>
      (APInt.mul_zero (eval_width_eq h σ).symm h0).symm)
  · exact Simplifies.refl h

theorem MulExpr_create_simplifies (h : (binary .mul l r).WellTyped) :
    Simplifies P (binary .mul l r) (MulExpr.create l r) := by
  refine bcreateR_simplifies (fun _ hl => by subst hl; exact MulExpr_createPartialR_simplifies h)
    (fun _ hr => ?_) ?_ h
  · subst hr
    exact (simplifies_swap h APInt.mul_comm).trans
      (MulExpr_createPartialR_simplifies ⟨h.2.1, h.1, h.2.2.symm⟩)
  · unfold MulExpr_create
    split_ifs with hw
    · exact simplifies_bool_and h hw
    · exact Simplifies.refl h

theorem bcreate_bool_simplifies {k : BinaryKind} {bool : Expr → Expr → Expr} (h : (binary k l r).WellTyped)
    (hbool : l.getWidth = 1 → Simplifies P (binary k l r) (bool l r)) :
    Simplifies P (binary k l r)
      (bcreate k (fun l r => if l.getWidth = 1 then bool l r else binary k l r) l r) := by
  refine bcreate_simplifies ?_ h
  split_ifs with hw
  · exact hbool hw
  · exact Simplifies.refl h

theorem simplifies_bool_left {k : BinaryKind} (h : (binary k l r).WellTyped) (hw : l.getWidth = 1)
    (hv : ∀ p q, APInt.ofBool p = k.apply (APInt.ofBool p) (APInt.ofBool q)) :
    Simplifies P (binary k l r) l :=
  simplifies_bool h hw h.1 hw (by simp only [Expr.weight]; omega)
    fun σ p q hp _ => hp ▸ hv p q

theorem simplifies_bool_const {k : BinaryKind} {c : Bool} (h : (binary k l r).WellTyped)
    (hw : l.getWidth = 1)
    (hv : ∀ p q, APInt.ofBool c = k.apply (APInt.ofBool p) (APInt.ofBool q)) :
    Simplifies P (binary k l r) (constant (APInt.ofBool c)) :=
  simplifies_bool h hw trivial rfl (Expr.weight_pos _) fun _ p q _ _ => hv p q

theorem simplifies_bool_not {k : BinaryKind} (k' : BinaryKind) (left : Bool) (h : (binary k l r).WellTyped)
    (hw : l.getWidth = 1) (hk' : k'.isCmp = false) (hweight : k'.weight + 2 ≤ k.weight)
    (hv : ∀ p q, k'.apply (APInt.ofBool (p ^^ left)) (APInt.ofBool (q ^^ !left)) =
      k.apply (APInt.ofBool p) (APInt.ofBool q)) {create : Expr → Expr → Expr}
    (hcreate : ∀ {l r}, (binary k' l r).WellTyped → Simplifies P (binary k' l r) (create l r)) :
    Simplifies P (binary k l r)
      (create (bif left then l.createIsZero else l) (bif left then r else r.createIsZero)) := by
  have hrw : r.getWidth = 1 := h.2.2 ▸ hw
  let zero := binary .eq (constant (APInt.ofBool false))
  have hnot : Simplifies P (binary k l r) (binary k' (bif left then zero l else l) (bif left then r else zero r)) := by
    refine simplifies_bool h hw ?_ ?_ ?_ fun σ p q hp hq => ?_
    · cases left
      · exact ⟨h.1, ⟨trivial, h.2.1, hrw.symm⟩, hw⟩
      · exact ⟨⟨trivial, h.1, hw.symm⟩, h.2.1, hrw.symm⟩
    · cases left <;> simp [getWidth, hk', hw, zero]
    · cases left <;> simp only [zero, cond, Expr.weight, BinaryKind.weight_eq] <;> omega
    · rw [← hv p q]
      cases left <;> simp only [zero, cond, Expr.eval, hp, hq] <;> cases p <;> cases q <;> rfl
  have hmove : Simplifies P (binary k l r)
      (binary k' (bif left then l.createIsZero else l) (bif left then r else r.createIsZero)) := by
    cases left
    · exact hnot.inRight (createIsZero_simplifies h.2.1 hrw)
    · exact hnot.inLeft (createIsZero_simplifies h.1 hw)
  exact hmove.trans (hcreate hmove.typed)

theorem UDivExpr_create_simplifies (h : (binary .udiv l r).WellTyped) :
    Simplifies P (binary .udiv l r) (UDivExpr.create l r) :=
  bcreate_bool_simplifies h fun hw => simplifies_bool_left h hw (by decide)

theorem SDivExpr_create_simplifies (h : (binary .sdiv l r).WellTyped) :
    Simplifies P (binary .sdiv l r) (SDivExpr.create l r) :=
  bcreate_bool_simplifies h fun hw => simplifies_bool_left h hw (by decide)

theorem URemExpr_create_simplifies (h : (binary .urem l r).WellTyped) :
    Simplifies P (binary .urem l r) (URemExpr.create l r) :=
  bcreate_bool_simplifies h fun hw => simplifies_bool_const (c := false) h hw (by decide)

theorem SRemExpr_create_simplifies (h : (binary .srem l r).WellTyped) :
    Simplifies P (binary .srem l r) (SRemExpr.create l r) :=
  bcreate_bool_simplifies h fun hw => simplifies_bool_const (c := false) h hw (by decide)

theorem ShlExpr_create_simplifies (h : (binary .shl l r).WellTyped) :
    Simplifies P (binary .shl l r) (ShlExpr.create l r) :=
  bcreate_bool_simplifies h fun hw => simplifies_bool_not .and false h hw rfl le_rfl (by decide) AndExpr_create_simplifies

theorem LShrExpr_create_simplifies (h : (binary .lshr l r).WellTyped) :
    Simplifies P (binary .lshr l r) (LShrExpr.create l r) :=
  bcreate_bool_simplifies h fun hw => simplifies_bool_not .and false h hw rfl le_rfl (by decide) AndExpr_create_simplifies

theorem AShrExpr_create_simplifies (h : (binary .ashr l r).WellTyped) :
    Simplifies P (binary .ashr l r) (AShrExpr.create l r) :=
  bcreate_bool_simplifies h fun hw => simplifies_bool_left h hw (by decide)

theorem UltExpr_create_simplifies (h : (binary .ult l r).WellTyped) :
    Simplifies P (binary .ult l r) (UltExpr.create l r) :=
  bcreate_bool_simplifies h fun hw => simplifies_bool_not .and true h hw rfl le_rfl (by decide) AndExpr_create_simplifies

theorem UleExpr_create_simplifies (h : (binary .ule l r).WellTyped) :
    Simplifies P (binary .ule l r) (UleExpr.create l r) :=
  bcreate_bool_simplifies h fun hw => simplifies_bool_not .or true h hw rfl le_rfl (by decide) OrExpr_create_simplifies

theorem SltExpr_create_simplifies (h : (binary .slt l r).WellTyped) :
    Simplifies P (binary .slt l r) (SltExpr.create l r) :=
  bcreate_bool_simplifies h fun hw => simplifies_bool_not .and false h hw rfl le_rfl (by decide) AndExpr_create_simplifies

theorem SleExpr_create_simplifies (h : (binary .sle l r).WellTyped) :
    Simplifies P (binary .sle l r) (SleExpr.create l r) :=
  bcreate_bool_simplifies h fun hw => simplifies_bool_not .or false h hw rfl le_rfl (by decide) OrExpr_create_simplifies

theorem simplifies_mirror {k : BinaryKind} (k' : BinaryKind) (h : (binary k l r).WellTyped) (hk : k.isCmp = true)
    (hk' : k'.isCmp = true) (hweight : k'.weight = k.weight)
    (hv : ∀ x y : APInt, k'.apply y x = k.apply x y) : Simplifies P (binary k l r) (binary k' r l) :=
  simplifies_cmp hk ⟨h.2.1, h.1, h.2.2.symm⟩ (by simp [getWidth, hk']) (fun σ => hv _ _)
    (by simp only [Expr.weight, hweight]; omega)

theorem BinaryKind.create_simplifies (k : BinaryKind) (h : (binary k l r).WellTyped) :
    Simplifies P (binary k l r) (k.create l r) := by
  have h' : (binary k r l).WellTyped := ⟨h.2.1, h.1, h.2.2.symm⟩
  cases k with
  | add => exact AddExpr_create_simplifies h
  | sub => exact SubExpr_create_simplifies h
  | mul => exact MulExpr_create_simplifies h
  | udiv => exact UDivExpr_create_simplifies h
  | sdiv => exact SDivExpr_create_simplifies h
  | urem => exact URemExpr_create_simplifies h
  | srem => exact SRemExpr_create_simplifies h
  | and => exact AndExpr_create_simplifies h
  | or => exact OrExpr_create_simplifies h
  | xor => exact XorExpr_create_simplifies h
  | shl => exact ShlExpr_create_simplifies h
  | lshr => exact LShrExpr_create_simplifies h
  | ashr => exact AShrExpr_create_simplifies h
  | eq => exact EqExpr_create_simplifies h
  | ne => exact NeExpr_create_simplifies h
  | ult => exact UltExpr_create_simplifies h
  | ule => exact UleExpr_create_simplifies h
  | slt => exact SltExpr_create_simplifies h
  | sle => exact SleExpr_create_simplifies h
  | ugt =>
    exact (simplifies_mirror .ult h rfl rfl rfl fun _ _ => rfl).trans
      (UltExpr_create_simplifies h')
  | uge =>
    exact (simplifies_mirror .ule h rfl rfl rfl fun _ _ => rfl).trans
      (UleExpr_create_simplifies h')
  | sgt =>
    exact (simplifies_mirror .slt h rfl rfl rfl fun _ _ => rfl).trans
      (SltExpr_create_simplifies h')
  | sge =>
    exact (simplifies_mirror .sle h rfl rfl rfl fun _ _ => rfl).trans
      (SleExpr_create_simplifies h')

end Klee
