import DdKlee.Proofs.Create.Extract

/-! Select and Read, and the soundness of the `create` functions taken
together: a node of any operator applied to its operands is created with the
value and the width of the operation on the operands' values. -/

namespace Klee

open Expr

variable {P : Bytes → Prop} {e c t f index : Expr}

theorem simplifies_select_bool (h : (select c t f).WellTyped) (hw : t.getWidth = 1)
    (typed : e.WellTyped) (width : e.getWidth = 1) (weight : e.weight ≤ (select c t f).weight)
    (hv : ∀ σ p q s, c.eval σ = APInt.ofBool p → t.eval σ = APInt.ofBool q →
      f.eval σ = APInt.ofBool s → e.eval σ = APInt.ofBool (if p then q else s)) :
    Simplifies P (select c t f) e where
  typed := typed
  width := width.trans hw.symm
  eval σ _ := by
    obtain ⟨hc, ht, hf, hcw, htf⟩ := h
    obtain ⟨p, hp⟩ := Expr.exists_bool σ hc hcw
    obtain ⟨q, hq⟩ := Expr.exists_bool σ ht hw
    obtain ⟨s, hs⟩ := Expr.exists_bool σ hf (htf ▸ hw)
    rw [hv σ p q s hp hq hs, Expr.eval, hp, hq, hs]
    cases p <;> rfl
  weight := weight

theorem SelectExpr_create_simplifies (h : (select c t f).WellTyped) :
    Simplifies P (select c t f) (SelectExpr.create c t f) := by
  obtain ⟨hc, ht, hf, hcw, htf⟩ := id h
  unfold SelectExpr.create
  split
  · -- the condition is a constant
    split_ifs with htrue
    · exact ⟨ht, rfl, fun σ _ => by rw [Expr.eval, Expr.eval, if_pos htrue],
        by simp only [Expr.weight]; omega⟩
    · exact ⟨hf, htf.symm, fun σ _ => by rw [Expr.eval, Expr.eval, if_neg htrue],
        by simp only [Expr.weight]; omega⟩
  split_ifs with heq hw
  · subst heq
    exact ⟨ht, rfl, fun σ _ => by rw [Expr.eval, ite_self], by simp only [Expr.weight]; omega⟩
  · have hfw : f.getWidth = 1 := htf ▸ hw
    split
    · rename_i ct
      split_ifs with htrue
      · -- 1 on the left: c | f
        obtain rfl := isTrue_iff.mp htrue
        have hor : Simplifies P (select c (constant (APInt.ofBool true)) f) (binary .or c f) := by
          refine simplifies_select_bool h rfl ⟨hc, hf, hcw.trans hfw.symm⟩ hcw
            (by simp only [Expr.weight, BinaryKind.weight]; omega) fun σ p q s hp hq hs => ?_
          rw [← APInt.ofBool_injective (show APInt.ofBool true = APInt.ofBool q from hq)]
          simp only [Expr.eval, hp, hs]
          cases p <;> cases s <;> rfl
        exact hor.trans (OrExpr_create_simplifies hor.typed)
      · -- 0 on the left: !c & f
        obtain rfl := eq_ofBool_false hw htrue
        have hand : Simplifies P (select c (constant (APInt.ofBool false)) f)
            (binary .and (binary .eq (constant (APInt.ofBool false)) c) f) := by
          refine simplifies_select_bool h rfl ⟨⟨trivial, hc, hcw.symm⟩, hf, hfw.symm⟩ rfl
            (by simp only [Expr.weight, BinaryKind.weight]; omega) fun σ p q s hp hq hs => ?_
          rw [← APInt.ofBool_injective (show APInt.ofBool false = APInt.ofBool q from hq)]
          simp only [Expr.eval, hp, hs]
          cases p <;> cases s <;> rfl
        have hzero := hand.inLeft (createIsZero_simplifies hc hcw)
        exact hzero.trans (AndExpr_create_simplifies hzero.typed)
    · rename_i cf _
      split_ifs with htrue
      · -- 1 on the right: !c | t
        obtain rfl := isTrue_iff.mp htrue
        have hor : Simplifies P (select c t (constant (APInt.ofBool true)))
            (binary .or (binary .eq (constant (APInt.ofBool false)) c) t) := by
          refine simplifies_select_bool h hw ⟨⟨trivial, hc, hcw.symm⟩, ht, hw.symm⟩ rfl
            (by simp only [Expr.weight, BinaryKind.weight]; omega) fun σ p q s hp hq hs => ?_
          rw [← APInt.ofBool_injective (show APInt.ofBool true = APInt.ofBool s from hs)]
          simp only [Expr.eval, hp, hq]
          cases p <;> cases q <;> rfl
        have hzero := hor.inLeft (createIsZero_simplifies hc hcw)
        exact hzero.trans (OrExpr_create_simplifies hzero.typed)
      · -- 0 on the right: c & t
        obtain rfl := eq_ofBool_false hfw htrue
        have hand : Simplifies P (select c t (constant (APInt.ofBool false))) (binary .and c t) := by
          refine simplifies_select_bool h hw ⟨hc, ht, hcw.trans hw.symm⟩ hcw
            (by simp only [Expr.weight, BinaryKind.weight]; omega) fun σ p q s hp hq hs => ?_
          rw [← APInt.ofBool_injective (show APInt.ofBool false = APInt.ofBool s from hs)]
          simp only [Expr.eval, hp, hq]
          cases p <;> cases q <;> rfl
        exact hand.trans (AndExpr_create_simplifies hand.typed)
    · exact Simplifies.refl h
  · exact Simplifies.refl h

theorem eval_EqExpr_create {a b : Expr} (h : (binary .eq a b).WellTyped) (σ : Bytes) :
    (EqExpr.create a b).eval σ = APInt.ofBool ((a.eval σ).eq (b.eval σ)) :=
  (EqExpr_create_simplifies (P := fun _ => True) h).eval σ trivial

/-- What the updates not rolled back, or the update found, say about a read. -/
def ReadExpr.Rolled (root : Array) (head : UpdateNode) (index : Expr) : Expr ⊕ UpdateNode → Prop
  | .inl v => v.WellTyped ∧ v.getWidth = root.range ∧ v.weight ≤ head.weight ∧
      ∀ σ, v.eval σ = head.lookup σ root (index.eval σ)
  | .inr un => un.WellTyped root ∧ un.weight ≤ head.weight ∧
      ∀ σ, un.lookup σ root (index.eval σ) = head.lookup σ root (index.eval σ)

theorem ReadExpr.Rolled.skip {root : Array} {next : UpdateNode} {i v : Expr}
    {out : Expr ⊕ UpdateNode} (h : ReadExpr.Rolled root next index out)
    (hne : ∀ σ, i.eval σ ≠ index.eval σ) : ReadExpr.Rolled root (.node next i v) index out := by
  have hlookup : ∀ σ, (UpdateNode.node next i v).lookup σ root (index.eval σ) =
      next.lookup σ root (index.eval σ) := fun σ => by rw [UpdateNode.lookup, if_neg (hne σ)]
  cases out with
  | inl u =>
    obtain ⟨hu, huw, hle, heval⟩ := h
    refine ⟨hu, huw, ?_, fun σ => (heval σ).trans (hlookup σ).symm⟩
    simp only [UpdateNode.weight]; omega
  | inr un =>
    obtain ⟨hun, hle, heval⟩ := h
    refine ⟨hun, ?_, fun σ => (heval σ).trans (hlookup σ).symm⟩
    simp only [UpdateNode.weight]; omega

theorem ReadExpr.rollback_rolled {root : Array} (hi : index.WellTyped)
    (hiw : index.getWidth = root.domain) (head : UpdateNode) (h : head.WellTyped root) :
    ReadExpr.Rolled root head index (ReadExpr.rollback index head) := by
  fun_induction ReadExpr.rollback index head with
  | case1 => exact ⟨trivial, le_rfl, fun _ => rfl⟩
  | case2 next i v ce hce htrue =>
    obtain ⟨-, hui, hv, huiw, hvw⟩ := h
    have ht : (binary .eq index i).WellTyped := ⟨hi, hui, hiw.trans huiw.symm⟩
    refine ⟨hv, hvw, by simp only [UpdateNode.weight]; omega, fun σ => ?_⟩
    have heq := eval_EqExpr_create ht σ
    rw [hce, Expr.eval, isTrue_iff.mp htrue, APInt.ofBool_inj, eq_comm, 
      APInt.eq_iff (eval_width_eq ht σ)] at heq
    rw [UpdateNode.lookup, if_pos heq.symm]
  | case3 next i v ce hce htrue ih =>
    obtain ⟨hnext, hui, hv, huiw, hvw⟩ := h
    have ht : (binary .eq index i).WellTyped := ⟨hi, hui, hiw.trans huiw.symm⟩
    refine (ih hnext).skip fun σ hne => htrue (isTrue_iff.mpr ?_)
    have heq := eval_EqExpr_create ht σ
    rwa [hce, Expr.eval, hne, APInt.eq_self] at heq
  | case4 next i v hcond => exact ⟨h, le_rfl, fun _ => rfl⟩

theorem ReadExpr_create_simplifies (ul : UpdateList) (h : (read ul.root ul.head index).WellTyped) :
    Simplifies P (read ul.root ul.head index) (ReadExpr.create ul index) := by
  obtain ⟨hhead, hi, hiw⟩ := id h
  have hrolled := ReadExpr.rollback_rolled hi hiw ul.head hhead
  unfold ReadExpr.create
  split
  · rename_i v hv
    rw [hv] at hrolled
    obtain ⟨hvt, hvw, hle, heval⟩ := hrolled
    exact ⟨hvt, hvw, fun σ _ => heval σ, by simp only [Expr.weight]; omega⟩
  · rename_i un hun
    rw [hun] at hrolled
    obtain ⟨hut, hle, heval⟩ := hrolled
    split
    · rename_i ce
      split_ifs with hlt
      · split
        · -- a constant array without updates that may be at the index
          rename_i v hv
          refine Simplifies.const (ul.root.constant_range v (List.mem_of_getElem? hv)) fun σ _ => ?_
          rw [Expr.eval, ← heval σ, UpdateNode.lookup, Expr.eval, Array.initial, hv]
        · exact ⟨⟨hut, hi, hiw⟩, rfl, fun σ _ => heval σ, by simp only [Expr.weight]; omega⟩
      · exact Simplifies.refl h
    · exact Simplifies.refl h

namespace Operation

/-- The node of an operator, which `create` simplifies. A truncating cast is the
extract of the low bits. -/
def node : Operation → Expr
  | read ul index => Expr.read ul.root ul.head index
  | select c t f => Expr.select c t f
  | concat l r => Expr.concat l r
  | extract e off w => Expr.extract e off w
  | not e => Expr.not e
  | cast k e w => if w < e.getWidth then Expr.extract e 0 w else Expr.cast k e w
  | binary k l r => Expr.binary k l r

theorem eval_node {op : Operation} (h : op.Matching) (σ : Bytes) : op.node.eval σ = op.apply σ := by
  cases op with
  | cast k e w =>
    simp only [node, apply]
    split_ifs with hlt
    · rw [Expr.eval, CastKind.apply_eq_Extract k (by rw [Expr.eval_width σ h.1]; omega)]
    · rw [Expr.eval]
  | _ => rfl

theorem create_simplifies {op : Operation} (h : op.Matching) : Simplifies P op.node op.create := by
  cases op with
  | read ul index => exact ReadExpr_create_simplifies ul h
  | select c t f => exact SelectExpr_create_simplifies h
  | concat l r => exact ConcatExpr_create_simplifies h
  | extract e off w => exact ExtractExpr_create_simplifies h
  | not e => exact NotExpr_create_simplifies h
  | cast k e w =>
    simp only [node, create]
    split_ifs with hlt
    · rw [k.create_trunc hlt]
      exact ExtractExpr_create_simplifies ⟨h.1, h.2, by omega⟩
    · exact k.create_simplifies ⟨h.1, by omega⟩
  | binary k l r => exact k.create_simplifies h

/-- Every `create` function preserves meaning: on operands of matching widths
and under every assignment the created expression has the value of the
operation on the operands' values, and that value's width. -/
theorem eval_create (op : Operation) (h : op.Matching) (σ : Bytes) :
    op.create.eval σ = op.apply σ ∧ op.create.getWidth = (op.apply σ).width := by
  have hs := create_simplifies (P := fun _ => True) h
  have heval := (hs.eval σ trivial).trans (eval_node h σ)
  exact ⟨heval, by rw [← heval, Expr.eval_width σ hs.typed]⟩

/-- The sum `(3 - x) + 4` of a symbolic byte. -/
theorem eval_create_sub_add :
    let x := Expr.read (Array.symbolic 0 "x" 4 (by decide)) .null (constant (APInt.ofNat 32 1))
    let op := binary .add (.binary .sub (constant (APInt.ofNat 8 3)) x) (constant (APInt.ofNat 8 4))
    op.Matching ∧ op.create.eval (fun _ _ => 9) = op.apply (fun _ _ => 9) ∧
      op.create.getWidth = (op.apply fun _ _ => 9).width :=
  ⟨by decide, eval_create _ (by decide) _⟩

end Operation

end Klee
