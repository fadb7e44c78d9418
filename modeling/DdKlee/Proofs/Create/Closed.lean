import DdKlee.Proofs.Create

/-! The `create` functions rearrange what they are given: the result is made of
parts of the operands, of constants and of nodes over them. So a class of
expressions with its parts and such nodes is not left. -/

namespace Klee

open Expr

def Expr.Free (strict : Bool) (e : Expr) : Prop := strict = true → e.isConstant = false

def Expr.NoBool (e : Expr) : Prop := ∀ c, e = constant c → c.width ≠ 1

/-- The class has the constants, the operands of its nodes, and nodes over its
expressions. A strict class may leave out the nodes over constants, and Bool
`Or` nodes with a constant. -/
structure CreateClosed (strict : Bool) (C : Expr → Prop) : Prop where
  constant : ∀ c, C (constant c)
  kids_binary : ∀ {k l r}, C (binary k l r) → C l ∧ C r ∧ (l.Free strict ∨ r.Free strict)
  kids_concat : ∀ {l r}, C (concat l r) → C l ∧ C r
  kids_extract : ∀ {e off w}, C (extract e off w) → C e ∧ e.Free strict
  kids_cast : ∀ {k e w}, C (cast k e w) → C e
  binary : ∀ {k l r}, C l → C r → l.Free strict ∨ r.Free strict → (k = .or → l.NoBool ∧ r.NoBool) →
    C (binary k l r)
  select : ∀ {c t f}, C c → C t → C f → c.Free strict → C (select c t f)
  concat : ∀ {l r}, C l → C r → l.Free strict ∨ r.Free strict → C (concat l r)
  extract : ∀ {e off w}, C e → e.Free strict → C (extract e off w)
  not : ∀ {e}, C e → e.Free strict → C (Expr.not e)
  cast : ∀ {k e w}, C e → e.Free strict → C (cast k e w)

variable {strict : Bool} {C : Expr → Prop} {e l r c t f : Expr}

theorem isConstant_eq_false (h : ∀ v, e = constant v → False) : e.isConstant = false := by
  cases e with
  | constant v => exact absurd rfl (h v)
  | _ => rfl

theorem free_of_ne (h : ∀ v, e = constant v → False) : e.Free strict := fun _ => isConstant_eq_false h

theorem noBool_of_ne (h : ∀ v, e = constant v → False) : e.NoBool := fun v hv => absurd hv (h v)

theorem free_right {v : APInt} (h : (constant v).Free strict ∨ e.Free strict) : e.Free strict := by
  rcases h with h | h
  · exact fun hs => absurd (h hs) (by simp [isConstant])
  · exact h

namespace CreateClosed

variable (hC : CreateClosed strict C)

include hC

theorem node {k : BinaryKind} (hl : C l) (hr : C r) (hfree : l.Free strict ∨ r.Free strict)
    (hk : k ≠ .or) : C (.binary k l r) :=
  hC.binary hl hr hfree fun h => absurd h hk

theorem bcreate {k : BinaryKind} {create : Expr → Expr → Expr} (hl : C l) (hr : C r)
    (hcreate : l.Free strict ∨ r.Free strict → C (create l r)) : C (bcreate k create l r) := by
  unfold Klee.bcreate
  split
  · exact hC.constant _
  · rename_i h
    refine hcreate ?_
    by_cases hlc : ∃ v, l = .constant v
    · obtain ⟨v, rfl⟩ := hlc
      exact .inr (free_of_ne fun v' hv' => h v v' rfl hv')
    · exact .inl (free_of_ne fun v hv => hlc ⟨v, hv⟩)

theorem bcreateR {k : BinaryKind} {create : Expr → Expr → Expr} {createPartial : Expr → APInt → Expr}
    {createPartialR : APInt → Expr → Expr} (hl : C l) (hr : C r)
    (hstepR : ∀ cl {r}, C r → (∀ v, r = .constant v → False) → C (createPartialR cl r))
    (hstep : ∀ {l} cr, C l → (∀ v, l = .constant v → False) → C (createPartial l cr))
    (hcreate : (∀ v, l = .constant v → False) → (∀ v, r = .constant v → False) → C (create l r)) :
    C (bcreateR k create createPartial createPartialR l r) := by
  unfold Klee.bcreateR
  split
  · exact hC.constant _
  · rename_i cl hr'
    exact hstepR cl hr hr'
  · rename_i cr hl'
    exact hstep cr hl hl'
  · rename_i hl' hr' _
    exact hcreate hl' hr'

theorem AndExpr_createPartial (cr : APInt) (hl : C l) (hne : ∀ v, l = .constant v → False) :
    C (AndExpr_createPartial l cr) := by
  unfold Klee.AndExpr_createPartial
  split_ifs
  · exact hl
  · exact hC.constant _
  · exact hC.node hl (hC.constant _) (.inl (free_of_ne hne)) (by decide)

theorem AndExpr_create (hl : C l) (hr : C r) : C (AndExpr.create l r) :=
  hC.bcreateR hl hr (fun cl _ h hne => hC.AndExpr_createPartial cl h hne)
    (fun cr h hne => hC.AndExpr_createPartial cr h hne)
    fun hne _ => hC.node hl hr (.inl (free_of_ne hne)) (by decide)

theorem OrExpr_createPartial (cr : APInt) (hl : C l) (hne : ∀ v, l = .constant v → False) :
    C (OrExpr_createPartial l cr) := by
  unfold Klee.OrExpr_createPartial
  split_ifs with hones hzero
  · exact hC.constant _
  · exact hl
  · refine hC.binary hl (hC.constant _) (.inl (free_of_ne hne)) fun _ => ⟨noBool_of_ne hne, ?_⟩
    -- a Bool constant is all ones or zero
    rintro c ⟨rfl⟩ hw
    have hb := APInt.eq_ofBool hw
    cases hbit : cr.getBoolValue with
    | false => exact hzero (by rw [hb, hbit]; rfl)
    | true => exact hones (by rw [hb, hbit]; rfl)

theorem OrExpr_create (hl : C l) (hr : C r) : C (OrExpr.create l r) :=
  hC.bcreateR hl hr (fun cl _ h hne => hC.OrExpr_createPartial cl h hne)
    (fun cr h hne => hC.OrExpr_createPartial cr h hne)
    fun hl' hr' => hC.binary hl hr (.inl (free_of_ne hl')) fun _ => ⟨noBool_of_ne hl', noBool_of_ne hr'⟩

theorem EqExpr_create_two (hl : C l) (hr : C r) (hfree : l.Free strict ∨ r.Free strict) :
    C (EqExpr_create l r) := by
  unfold EqExpr_create
  split_ifs
  · exact hC.constant _
  · exact hC.node hl hr hfree (by decide)

theorem EqExpr_createPartialR (cl : APInt) (hr : C r) (hfree : r.Free strict) :
    C (EqExpr_createPartialR cl r) := by
  fun_induction Klee.EqExpr_createPartialR cl r with
  | case1 => exact hr
  | case2 => exact (hC.kids_binary hr).2.1
  | case3 => exact hC.EqExpr_create_two (hC.constant _) hr (.inr hfree)
  | case4 cl _ _ left right ihl ihr =>
    obtain ⟨hleft, hright, -⟩ := hC.kids_binary hr
    refine hC.AndExpr_create ?_ ?_
    · split
      · exact hC.constant _
      · rename_i hne
        exact ihl hleft (free_of_ne hne)
    · split
      · exact hC.constant _
      · rename_i hne
        exact ihr hright (free_of_ne hne)
  | case5 => exact hC.EqExpr_create_two (hC.constant _) hr (.inr hfree)
  | case6 => exact hC.constant _
  | case7 cl _ k src w trunc _ hne ih => exact ih (hC.kids_cast hr) (free_of_ne hne)
  | case8 => exact hC.constant _
  | case9 cl _ c b ih =>
    obtain ⟨-, hb, hfree'⟩ := hC.kids_binary hr
    exact ih hb (free_right hfree')
  | case10 cl _ c b ih =>
    obtain ⟨-, hb, hfree'⟩ := hC.kids_binary hr
    exact ih hb (free_right hfree')
  | case11 => exact hC.EqExpr_create_two (hC.constant _) hr (.inr hfree)

theorem EqExpr_create (hl : C l) (hr : C r) : C (EqExpr.create l r) :=
  hC.bcreateR hl hr (fun cl _ h hne => hC.EqExpr_createPartialR cl h (free_of_ne hne))
    (fun cr h hne => hC.EqExpr_createPartialR cr h (free_of_ne hne))
    fun hne _ => hC.EqExpr_create_two hl hr (.inl (free_of_ne hne))

theorem createIsZero (he : C e) : C e.createIsZero := hC.EqExpr_create he (hC.constant _)

theorem XorExpr_createPartialR (cl : APInt) (hr : C r) (hne : ∀ v, r = .constant v → False) :
    C (XorExpr_createPartialR cl r) := by
  unfold Klee.XorExpr_createPartialR
  split_ifs
  · exact hr
  · exact hC.EqExpr_createPartialR _ hr (free_of_ne hne)
  · exact hC.node (hC.constant _) hr (.inr (free_of_ne hne)) (by decide)

theorem XorExpr_create (hl : C l) (hr : C r) : C (XorExpr.create l r) :=
  hC.bcreateR hl hr (fun cl _ h hne => hC.XorExpr_createPartialR cl h hne)
    (fun cr h hne => hC.XorExpr_createPartialR cr h hne)
    fun hne _ => hC.node hl hr (.inl (free_of_ne hne)) (by decide)

theorem createPartialR_step (cl : APInt) (hr : C r) (hne : ∀ v, r = .constant v → False)
    (ih : ∀ (k : APInt) (x : Expr), x.size < r.size → C x → C (AddExpr.createK k x) ∧ C (SubExpr.createK k x)) :
    C (AddExpr_createPartialR cl r) ∧ C (SubExpr_createPartialR cl r) := by
  rw [AddExpr_createPartialR_eq, SubExpr_createPartialR_eq]
  simp only [AddExpr_create_constant, SubExpr_create_constant, AddExpr.createK.eq_1, SubExpr.createK.eq_1]
  have hxor := hC.XorExpr_createPartialR cl hr hne
  split_ifs with hw hz
  · exact ⟨hxor, hxor⟩
  · refine ⟨hr, ?_⟩
    split
    · exact (ih _ _ (by simp only [Expr.size]; omega) (hC.kids_binary hr).2.1).2
    · exact (ih _ _ (by simp only [Expr.size]; omega) (hC.kids_binary hr).2.1).1
    · exact hC.node (hC.constant _) hr (.inr (free_of_ne hne)) (by decide)
  · constructor
    · split
      · exact (ih _ _ (by simp only [Expr.size]; omega) (hC.kids_binary hr).2.1).1
      · exact (ih _ _ (by simp only [Expr.size]; omega) (hC.kids_binary hr).2.1).2
      · exact hC.node (hC.constant _) hr (.inr (free_of_ne hne)) (by decide)
    · split
      · exact (ih _ _ (by simp only [Expr.size]; omega) (hC.kids_binary hr).2.1).2
      · exact (ih _ _ (by simp only [Expr.size]; omega) (hC.kids_binary hr).2.1).1
      · exact hC.node (hC.constant _) hr (.inr (free_of_ne hne)) (by decide)

theorem createK (n : ℕ) : ∀ (k : APInt) (x : Expr), x.size < n → C x →
    C (AddExpr.createK k x) ∧ C (SubExpr.createK k x) := by
  induction n with
  | zero => exact fun _ x hx => absurd hx (Nat.not_lt_zero _)
  | succ n ih =>
    intro k x hx h
    unfold AddExpr.createK SubExpr.createK
    split
    · exact ⟨hC.constant _, hC.constant _⟩
    · rename_i hne
      exact hC.createPartialR_step k h hne fun k' y hy => ih k' y (by omega)

theorem AddExpr_createK (k : APInt) (h : C r) : C (AddExpr.createK k r) :=
  (hC.createK _ k r (Nat.lt_succ_self _) h).1

theorem SubExpr_createK (k : APInt) (h : C r) : C (SubExpr.createK k r) :=
  (hC.createK _ k r (Nat.lt_succ_self _) h).2

theorem createPartialR (cl : APInt) (hr : C r) (hne : ∀ v, r = .constant v → False) :
    C (AddExpr_createPartialR cl r) ∧ C (SubExpr_createPartialR cl r) :=
  hC.createPartialR_step cl hr hne fun k _ _ h => ⟨hC.AddExpr_createK k h, hC.SubExpr_createK k h⟩

theorem SubExpr_createByK (k : APInt) (h : C l) : C (SubExpr.createByK l k) := by
  unfold SubExpr.createByK
  split
  · exact hC.constant _
  · rename_i hne
    exact (hC.createPartialR _ h hne).1

theorem arith_create (n : ℕ) : ∀ l r : Expr, l.size + r.size < n → C l → C r →
    C (AddExpr.create l r) ∧ C (SubExpr.create l r) := by
  induction n with
  | zero => exact fun _ _ h => absurd h (Nat.not_lt_zero _)
  | succ n ih =>
    intro l r hn hl hr
    rw [AddExpr_create_eq, SubExpr_create_eq]
    refine ⟨hC.bcreateR hl hr (fun cl _ h hne => (hC.createPartialR cl h hne).1)
      (fun cr h hne => (hC.createPartialR cr h hne).1) fun hne _ => ?_,
      hC.bcreateR hl hr (fun cl _ h hne => (hC.createPartialR cl h hne).2)
      (fun cr h hne => (hC.createPartialR _ h hne).1) fun hne _ => ?_⟩
    · unfold Klee.AddExpr_create
      simp only [AddExpr_create_constant]
      split_ifs
      · exact hC.node hl hr (.inl (free_of_ne hne)) (by decide)
      split
      · have ha := (hC.kids_binary hl).2.1
        exact hC.AddExpr_createK _ (ih _ _ (by simp only [Expr.size] at hn; omega) ha hr).1
      · have ha := (hC.kids_binary hl).2.1
        exact hC.AddExpr_createK _ (ih _ _ (by simp only [Expr.size] at hn; omega) hr ha).2
      · have hb := (hC.kids_binary hr).2.1
        exact hC.AddExpr_createK _ (ih _ _ (by simp only [Expr.size] at hn; omega) hl hb).1
      · have hb := (hC.kids_binary hr).2.1
        exact hC.AddExpr_createK _ (ih _ _ (by simp only [Expr.size] at hn; omega) hl hb).2
      · exact hC.node hl hr (.inl (free_of_ne hne)) (by decide)
    · unfold Klee.SubExpr_create
      simp only [AddExpr_create_constant, SubExpr_create_constant, SubExpr_create_constant_right]
      split_ifs
      · exact hC.node hl hr (.inl (free_of_ne hne)) (by decide)
      · exact hC.constant _
      split
      · have ha := (hC.kids_binary hl).2.1
        exact hC.AddExpr_createK _ (ih _ _ (by simp only [Expr.size] at hn; omega) ha hr).2
      · have ha := (hC.kids_binary hl).2.1
        exact hC.SubExpr_createK _ (ih _ _ (by simp only [Expr.size] at hn; omega) ha hr).1
      · have hb := (hC.kids_binary hr).2.1
        exact hC.SubExpr_createByK _ (ih _ _ (by simp only [Expr.size] at hn; omega) hl hb).2
      · have hb := (hC.kids_binary hr).2.1
        exact hC.SubExpr_createByK _ (ih _ _ (by simp only [Expr.size] at hn; omega) hl hb).1
      · exact hC.node hl hr (.inl (free_of_ne hne)) (by decide)

theorem MulExpr_createPartialR (cl : APInt) (hr : C r) (hne : ∀ v, r = .constant v → False) :
    C (MulExpr_createPartialR cl r) := by
  unfold Klee.MulExpr_createPartialR
  split_ifs
  · exact hC.AndExpr_createPartial cl hr hne
  · exact hr
  · exact hC.constant _
  · exact hC.node (hC.constant _) hr (.inr (free_of_ne hne)) (by decide)

theorem MulExpr_create (hl : C l) (hr : C r) : C (MulExpr.create l r) := by
  refine hC.bcreateR hl hr (fun cl _ h hne => hC.MulExpr_createPartialR cl h hne)
    (fun cr h hne => hC.MulExpr_createPartialR cr h hne) fun hne _ => ?_
  unfold Klee.MulExpr_create
  split_ifs
  · exact hC.node hl hr (.inl (free_of_ne hne)) (by decide)
  · exact hC.node hl hr (.inl (free_of_ne hne)) (by decide)

theorem bcreate_bool {k : BinaryKind} {create : Expr → Expr → Expr} {b : Expr} (hl : C l) (hr : C r)
    (hk : k ≠ .or) (hb : C b) (hcreate : create l r = if l.getWidth = 1 then b else .binary k l r) :
    C (Klee.bcreate k create l r) := by
  refine hC.bcreate hl hr fun hfree => ?_
  rw [hcreate]
  split_ifs
  · exact hb
  · exact hC.node hl hr hfree hk

theorem UltExpr_create (hl : C l) (hr : C r) : C (UltExpr.create l r) :=
  hC.bcreate_bool hl hr (by decide) (hC.AndExpr_create (hC.createIsZero hl) hr) rfl

theorem UleExpr_create (hl : C l) (hr : C r) : C (UleExpr.create l r) :=
  hC.bcreate_bool hl hr (by decide) (hC.OrExpr_create (hC.createIsZero hl) hr) rfl

theorem SltExpr_create (hl : C l) (hr : C r) : C (SltExpr.create l r) :=
  hC.bcreate_bool hl hr (by decide) (hC.AndExpr_create hl (hC.createIsZero hr)) rfl

theorem SleExpr_create (hl : C l) (hr : C r) : C (SleExpr.create l r) :=
  hC.bcreate_bool hl hr (by decide) (hC.OrExpr_create hl (hC.createIsZero hr)) rfl

theorem BinaryKind_create (k : BinaryKind) (hl : C l) (hr : C r) : C (k.create l r) := by
  have hshift := hC.AndExpr_create hl (hC.createIsZero hr)
  cases k with
  | add => exact (hC.arith_create _ l r (Nat.lt_succ_self _) hl hr).1
  | sub => exact (hC.arith_create _ l r (Nat.lt_succ_self _) hl hr).2
  | mul => exact hC.MulExpr_create hl hr
  | udiv => exact hC.bcreate_bool hl hr (by decide) hl rfl
  | sdiv => exact hC.bcreate_bool hl hr (by decide) hl rfl
  | urem => exact hC.bcreate_bool hl hr (by decide) (hC.constant _) rfl
  | srem => exact hC.bcreate_bool hl hr (by decide) (hC.constant _) rfl
  | and => exact hC.AndExpr_create hl hr
  | or => exact hC.OrExpr_create hl hr
  | xor => exact hC.XorExpr_create hl hr
  | shl => exact hC.bcreate_bool hl hr (by decide) hshift rfl
  | lshr => exact hC.bcreate_bool hl hr (by decide) hshift rfl
  | ashr => exact hC.bcreate_bool hl hr (by decide) hl rfl
  | eq => exact hC.EqExpr_create hl hr
  | ne => exact hC.EqExpr_create (hC.constant _) (hC.EqExpr_create hl hr)
  | ult => exact hC.UltExpr_create hl hr
  | ule => exact hC.UleExpr_create hl hr
  | ugt => exact hC.UltExpr_create hr hl
  | uge => exact hC.UleExpr_create hr hl
  | slt => exact hC.SltExpr_create hl hr
  | sle => exact hC.SleExpr_create hl hr
  | sgt => exact hC.SltExpr_create hr hl
  | sge => exact hC.SleExpr_create hr hl

theorem createWith {extractCreate : Expr → ℕ → ℕ → Expr} (hl : C l) (hr : C r)
    (hextract : ∀ e off w, C e → e.Free strict → C (extractCreate e off w)) :
    C (ConcatExpr.createWith extractCreate l r) := by
  unfold ConcatExpr.createWith
  split
  · exact hC.constant _
  · split_ifs
    · obtain ⟨he, hfree⟩ := hC.kids_extract hl
      exact hextract _ _ _ he hfree
    · exact hC.concat hl hr (.inl fun _ => rfl)
  · rename_i hne _
    refine hC.concat hl hr ?_
    by_cases hlc : ∃ v, l = .constant v
    · obtain ⟨v, rfl⟩ := hlc
      exact .inr (free_of_ne fun v' hv' => hne v v' rfl hv')
    · exact .inl (free_of_ne fun v hv => hlc ⟨v, hv⟩)

theorem ExtractExpr_create_of_size (n : ℕ) : ∀ (e : Expr) (off w : ℕ), e.size < n → C e →
    C (ExtractExpr.create e off w) := by
  induction n with
  | zero => exact fun _ _ _ h => absurd h (Nat.not_lt_zero _)
  | succ n ih =>
    intro e off w hn he
    rw [ExtractExpr.create.eq_def]
    split_ifs with hw
    · exact he
    split
    · exact hC.constant _
    · rename_i left right
      simp only [Expr.size] at hn
      obtain ⟨hleft, hright⟩ := hC.kids_concat he
      split_ifs
      · exact ih _ _ _ (by omega) hleft
      · exact ih _ _ _ (by omega) hright
      · refine hC.createWith (ih _ _ _ (by omega) hleft) (ih _ _ _ (by omega) hright) fun x o v hx hfree => ?_
        split_ifs with hs
        · exact ih x o v (by simp only [Expr.size] at hs; omega) hx
        · exact hC.extract hx hfree
    · rename_i hne _
      exact hC.extract he (free_of_ne hne)

theorem ExtractExpr_create (off w : ℕ) (he : C e) : C (ExtractExpr.create e off w) :=
  hC.ExtractExpr_create_of_size _ e off w (Nat.lt_succ_self _) he

theorem ConcatExpr_create (hl : C l) (hr : C r) : C (ConcatExpr.create l r) :=
  hC.createWith hl hr fun _ off w he _ => hC.ExtractExpr_create off w he

theorem NotExpr_create (he : C e) : C (NotExpr.create e) := by
  unfold NotExpr.create
  split
  · exact hC.constant _
  · rename_i hne
    exact hC.not he (free_of_ne hne)

theorem CastKind_create (k : CastKind) (w : ℕ) (he : C e) : C (k.create e w) := by
  unfold CastKind.create
  split_ifs
  · exact he
  · exact hC.ExtractExpr_create 0 w he
  · split
    · exact hC.constant _
    · rename_i hne
      exact hC.cast he (free_of_ne hne)

theorem SelectExpr_create (hc : C c) (ht : C t) (hf : C f) : C (SelectExpr.create c t f) := by
  unfold SelectExpr.create
  split
  · split_ifs
    · exact ht
    · exact hf
  · rename_i hne
    have hselect := hC.select hc ht hf (free_of_ne hne)
    split_ifs
    · exact ht
    · split
      · split_ifs
        · exact hC.OrExpr_create hc hf
        · exact hC.AndExpr_create (hC.createIsZero hc) hf
      · split_ifs
        · exact hC.OrExpr_create (hC.createIsZero hc) ht
        · exact hC.AndExpr_create hc ht
      · exact hselect
    · exact hselect

end CreateClosed

theorem allReads_closed (p : Array → Expr → Prop) : CreateClosed false (Expr.AllReads p) where
  constant _ := trivial
  kids_binary h := ⟨h.1, h.2, .inl fun hs => by cases hs⟩
  kids_concat h := h
  kids_extract h := ⟨h, fun hs => by cases hs⟩
  kids_cast h := h
  binary hl hr _ _ := ⟨hl, hr⟩
  select hc ht hf _ := ⟨hc, ht, hf⟩
  concat hl hr _ := ⟨hl, hr⟩
  extract he _ := he
  not he _ := he
  cast he _ := he

end Klee
