import DdKlee.Proofs.Create.Closed

/-! What the `create` functions build is folded: an operation on constants is a
constant. The negation of such an expression is a constant only if the expression
is. -/

namespace Klee

open Expr

mutual

/-- No operation is on constants only, except a read of a symbolic array, of an
array with updates, or beyond the size of a constant array. A Bool `Or` has no
constant operand. -/
def Expr.Folded : Expr → Prop
  | .constant _ => True
  | .notOptimized _ => False
  | .read root head i =>
      head.Folded ∧ i.Folded ∧
        (root.isConstantArray = true → head = .null → ∀ c, i = constant c → root.size ≤ c.toNat)
  | .select c t f => c.Folded ∧ t.Folded ∧ f.Folded ∧ c.isConstant = false
  | .concat l r => l.Folded ∧ r.Folded ∧ (l.isConstant = false ∨ r.isConstant = false)
  | .extract e _ _ => e.Folded ∧ e.isConstant = false
  | .not e => e.Folded ∧ e.isConstant = false
  | .cast _ src _ => src.Folded ∧ src.isConstant = false
  | .binary k l r =>
      l.Folded ∧ r.Folded ∧ (l.isConstant = false ∨ r.isConstant = false) ∧
        (k = .or → l.NoBool ∧ r.NoBool)

def UpdateNode.Folded : UpdateNode → Prop
  | .null => True
  | .node next i v => next.Folded ∧ i.Folded ∧ v.Folded

end

theorem folded_closed : CreateClosed true Expr.Folded where
  constant _ := trivial
  kids_binary h := ⟨h.1, h.2.1, h.2.2.1.imp (fun h _ => h) fun h _ => h⟩
  kids_concat h := ⟨h.1, h.2.1⟩
  kids_extract h := ⟨h.1, fun _ => h.2⟩
  kids_cast h := h.1
  binary hl hr hfree hor := ⟨hl, hr, hfree.imp (fun h => h rfl) fun h => h rfl, hor⟩
  select hc ht hf hfree := ⟨hc, ht, hf, hfree rfl⟩
  concat hl hr hfree := ⟨hl, hr, hfree.imp (fun h => h rfl) fun h => h rfl⟩
  extract he hfree := ⟨he, hfree rfl⟩
  not he hfree := ⟨he, hfree rfl⟩
  cast he hfree := ⟨he, hfree rfl⟩

theorem folded_updates {head : UpdateNode} (h : ∀ e ∈ head.exprs, e.Folded) : head.Folded := by
  induction head with
  | null => trivial
  | node next i v ih =>
    simp only [UpdateNode.exprs, List.mem_cons] at h
    exact ⟨ih fun e he => h e (.inr (.inr he)), h i (.inl rfl), h v (.inr (.inl rfl))⟩

theorem rollback_folded (index : Expr) (head : UpdateNode) (h : head.Folded) :
    match ReadExpr.rollback index head with
    | .inl v => v.Folded
    | .inr un => un.Folded := by
  fun_induction ReadExpr.rollback index head with
  | case1 => trivial
  | case2 next i v => exact h.2.2
  | case3 next i v ce _ _ ih => exact ih h.1
  | case4 => exact h

theorem ReadExpr_create_folded (ul : UpdateList) {index : Expr} (hhead : ul.head.Folded)
    (hindex : index.Folded) : (ReadExpr.create ul index).Folded := by
  have hrolled := rollback_folded index ul.head hhead
  unfold ReadExpr.create
  split
  · rename_i v hv
    rwa [hv] at hrolled
  · rename_i un hun
    rw [hun] at hrolled
    split
    · rename_i ce
      split_ifs with hlt
      · split
        · trivial
        · -- an array with constant values has one at the index
          rename_i hsome
          refine ⟨hrolled, trivial, fun hconst hnull c hc => ?_⟩
          rcases ul.root.constant_size with hnil | hlen
          · simp [Array.isConstantArray, Array.isSymbolicArray, hnil] at hconst
          · exact absurd (List.getElem?_eq_getElem (by omega)) (hsome _ hnull)
      · refine ⟨hhead, trivial, fun _ _ c hc => ?_⟩
        cases hc
        omega
    · rename_i hne
      exact ⟨hhead, hindex, fun _ _ c hc => absurd hc (hne c)⟩

theorem Expr.Created.folded {e : Expr} (h : e.Created) : e.Folded := by
  induction h with
  | constant v => trivial
  | create op matching operands ih =>
    cases op with
    | read ul index =>
      simp only [Operation.operands, List.mem_cons] at ih
      exact ReadExpr_create_folded ul (folded_updates fun e he => ih e (.inr he)) (ih index (.inl rfl))
    | select c t f =>
      simp only [Operation.operands, List.forall_mem_cons] at ih
      exact folded_closed.SelectExpr_create ih.1 ih.2.1 ih.2.2.1
    | concat l r =>
      simp only [Operation.operands, List.forall_mem_cons] at ih
      exact folded_closed.ConcatExpr_create ih.1 ih.2.1
    | extract e off w => exact folded_closed.ExtractExpr_create off w (ih e List.mem_cons_self)
    | not e => exact folded_closed.NotExpr_create (ih e List.mem_cons_self)
    | cast k e w => exact folded_closed.CastKind_create k w (ih e List.mem_cons_self)
    | binary k l r =>
      simp only [Operation.operands, List.forall_mem_cons] at ih
      exact folded_closed.BinaryKind_create k ih.1 ih.2.1

theorem Expr.Created.wellTyped {e : Expr} (h : e.Created) : e.WellTyped := by
  cases h with
  | constant v => trivial
  | create op matching operands => exact (Operation.create_simplifies (P := fun _ => True) matching).typed

theorem AndExpr_create_not_constant {l r : Expr} (hl : l.isConstant = false) (hr : r.isConstant = false) :
    (AndExpr.create l r).isConstant = false := by
  unfold AndExpr.create bcreateR
  split <;> simp_all [isConstant, AndExpr_create]

theorem EqExpr_create_not_constant (cl : APInt) {r : Expr} (hr : r.isConstant = false) :
    (EqExpr_create (constant cl) r).isConstant = false := by
  unfold EqExpr_create
  rw [if_neg (by rintro rfl; simp [isConstant] at hr)]
  rfl

theorem EqExpr_createPartialR_not_constant {cl : APInt} {r : Expr} (hcl : cl.width = 1)
    (hzero : ConstantExpr.isTrue cl = false) (hr : r.Folded) (ht : r.WellTyped) (hw : r.getWidth = 1)
    (hc : r.isConstant = false) : (EqExpr_createPartialR cl r).isConstant = false := by
  fun_induction EqExpr_createPartialR cl r with
  | case1 cl r _ htrue => simp [hzero] at htrue
  | case2 cl _ _ ce right hce => exact hr.2.2.1.resolve_left (by simp [isConstant])
  | case3 => exact EqExpr_create_not_constant _ rfl
  | case4 cl _ _ left right ihl ihr =>
    obtain ⟨hl, hr, -, hor⟩ := hr
    obtain ⟨htl, htr, hlr⟩ := ht
    have hlw : left.getWidth = 1 := hw
    have hlc : ∀ c, left = constant c → False := by
      rintro c rfl
      exact (hor rfl).1 c rfl hlw
    have hrc : ∀ c, right = constant c → False := by
      rintro c rfl
      exact (hor rfl).2 c rfl (hlr.symm.trans hlw)
    have hnl := ihl (by simp [hlw]) (by rw [hlw]; rfl) hl htl hlw (isConstant_eq_false hlc)
    have hnr := ihr (by simp [← hlr, hlw]) (by rw [← hlr, hlw]; rfl) hr htr (hlr ▸ hlw)
      (isConstant_eq_false hrc)
    refine AndExpr_create_not_constant ?_ ?_
    · split
      · exact absurd rfl (hlc _)
      · exact hnl
    · split
      · exact absurd rfl (hrc _)
      · exact hnr
  | case5 cl _ _ r => exact EqExpr_create_not_constant _ hc
  | _ => contradiction

theorem createIsZero_not_constant {e : Expr} (h : e.Folded) (ht : e.WellTyped) (hw : e.getWidth = 1)
    (hc : e.isConstant = false) : e.createIsZero.isConstant = false := by
  have hstep : (EqExpr_createPartialR (APInt.ofNat 1 0) e).isConstant = false :=
    EqExpr_createPartialR_not_constant rfl rfl h ht hw hc
  unfold Expr.createIsZero
  rw [hw]
  cases e with
  | constant v => cases hc
  | _ => exact hstep

theorem not_constant_right {k : BinaryKind} {c : APInt} {x : Expr} (h : (binary k (constant c) x).Folded) :
    x.isConstant = false :=
  h.2.2.1.resolve_left (by simp [isConstant])

theorem arith_createPartialR_not_constant (n : ℕ) : ∀ (cl : APInt) (r : Expr), r.size < n → cl.width ≠ 1 →
    r.Folded → r.isConstant = false → (AddExpr_createPartialR cl r).isConstant = false ∧
      (SubExpr_createPartialR cl r).isConstant = false := by
  induction n with
  | zero => exact fun _ _ h => absurd h (Nat.not_lt_zero _)
  | succ n ih =>
    intro cl r hn hw hr hc
    have hadd : ∀ {k c x}, r = binary k (constant c) x → (AddExpr.createK (cl.add c) x).isConstant = false ∧
        (SubExpr.createK (cl.add c) x).isConstant = false ∧ (AddExpr.createK (cl.sub c) x).isConstant = false ∧
        (SubExpr.createK (cl.sub c) x).isConstant = false := by
      rintro k c x rfl
      have hx := not_constant_right hr
      have hsize : x.size < n := by simp only [Expr.size] at hn; omega
      have hsum := ih (cl.add c) x hsize hw hr.2.1 hx
      have hdiff := ih (cl.sub c) x hsize hw hr.2.1 hx
      cases x with
      | constant v => cases hx
      | _ => exact ⟨hsum.1, hsum.2, hdiff.1, hdiff.2⟩
    rw [AddExpr_createPartialR_eq, SubExpr_createPartialR_eq, if_neg hw, if_neg hw]
    simp only [AddExpr_create_constant, SubExpr_create_constant, AddExpr.createK.eq_1, SubExpr.createK.eq_1]
    constructor
    · split_ifs
      · exact hc
      split
      · exact (hadd rfl).1
      · exact (hadd rfl).2.1
      · rfl
    · split
      · exact (hadd rfl).2.2.2
      · exact (hadd rfl).2.2.1
      · rfl

theorem AddExpr_create_not_constant {l : Expr} {cr : APInt} (hw : cr.width ≠ 1) (hl : l.Folded)
    (hc : l.isConstant = false) : (AddExpr.create l (constant cr)).isConstant = false := by
  have hsum := (arith_createPartialR_not_constant _ cr l (Nat.lt_succ_self _) hw hl hc).1
  rw [AddExpr_create_eq]
  cases l with
  | constant v => cases hc
  | _ => exact hsum

end Klee
