import DdKlee.Proofs.Create.Logic

/-! Add, Sub and Mul. The constructors of Add and Sub gather constants; each
move is an identity of the ring of bit-vectors, and the recursion is over the
size of both operands. -/

namespace Klee

open Expr

variable {P : Bytes → Prop} {e l r a b k : Expr}

inductive Linear
  | k | a | b
  | add (s t : Linear)
  | sub (s t : Linear)

namespace Linear

def expr (k a b : Expr) : Linear → Expr
  | .k => k
  | .a => a
  | .b => b
  | add s t => binary .add (s.expr k a b) (t.expr k a b)
  | sub s t => binary .sub (s.expr k a b) (t.expr k a b)

def bits {w : ℕ} (x y z : BitVec w) : Linear → BitVec w
  | .k => x
  | .a => y
  | .b => z
  | add s t => s.bits x y z + t.bits x y z
  | sub s t => s.bits x y z - t.bits x y z

theorem eval_expr {σ : Bytes} {w : ℕ} {x y z : BitVec w} (hx : k.eval σ = ⟨w, x⟩) (hy : a.eval σ = ⟨w, y⟩)
    (hz : b.eval σ = ⟨w, z⟩) (s : Linear) : (s.expr k a b).eval σ = ⟨w, s.bits x y z⟩ := by
  induction s with
  | k => exact hx
  | a => exact hy
  | b => exact hz
  | add s t ihs iht => simp only [expr, Expr.eval, BinaryKind.apply, ihs, iht, APInt.add_mk, bits]
  | sub s t ihs iht => simp only [expr, Expr.eval, BinaryKind.apply, ihs, iht, APInt.sub_mk, bits]

section

variable (hk : k.WellTyped) (ha : a.WellTyped) (hb : b.WellTyped) (hka : k.getWidth = a.getWidth)
  (hab : a.getWidth = b.getWidth)

include hk ha hb hka hab

theorem typed_expr (s : Linear) : (s.expr k a b).WellTyped ∧ (s.expr k a b).getWidth = a.getWidth := by
  induction s with
  | k => exact ⟨hk, hka⟩
  | a => exact ⟨ha, rfl⟩
  | b => exact ⟨hb, hab.symm⟩
  | add s t ihs iht | sub s t ihs iht => exact ⟨⟨ihs.1, iht.1, ihs.2.trans iht.2.symm⟩, ihs.2⟩

theorem simplifies (s t : Linear) (weight : (t.expr k a b).weight ≤ (s.expr k a b).weight := by
      simp only [Linear.expr, Expr.weight, BinaryKind.weight]; omega)
    (bits : ∀ {w} (x y z : BitVec w), t.bits x y z = s.bits x y z := by intros; simp only [Linear.bits]; ring) :
    Simplifies P (s.expr k a b) (t.expr k a b) where
  typed := (t.typed_expr hk ha hb hka hab).1
  width := (t.typed_expr hk ha hb hka hab).2.trans (s.typed_expr hk ha hb hka hab).2.symm
  eval σ _ := by
    obtain ⟨x, hx⟩ := Expr.exists_bits σ hk hka
    obtain ⟨y, hy⟩ := Expr.exists_bits σ ha rfl
    obtain ⟨z, hz⟩ := Expr.exists_bits σ hb hab.symm
    rw [eval_expr hx hy hz, eval_expr hx hy hz, bits]
  weight := weight

end

end Linear

theorem Simplifies.foldLeft {p q : BinaryKind} {c d : APInt}
    (h : Simplifies P e (Expr.binary p (Expr.binary q (constant c) (constant d)) r)) :
    Simplifies P e (Expr.binary p (constant (q.apply c d)) r) :=
  h.trans (Simplifies.binary (simplifies_fold h.typed.1) (Simplifies.refl h.typed.2.1) h.typed)

theorem Simplifies.inLeft {p : BinaryKind} (h : Simplifies P e (Expr.binary p l r))
    (hl : Simplifies P l a) : Simplifies P e (Expr.binary p a r) :=
  h.trans (Simplifies.binary hl (Simplifies.refl h.typed.2.1) h.typed)

theorem Simplifies.inRight {p : BinaryKind} (h : Simplifies P e (Expr.binary p l r))
    (hr : Simplifies P r a) : Simplifies P e (Expr.binary p l a) :=
  h.trans (Simplifies.binary (Simplifies.refl h.typed.1) hr h.typed)

theorem simplifies_bool_xor {p : BinaryKind} (hp : p = .add ∨ p = .sub)
    (h : (binary p l r).WellTyped) (hw : l.getWidth = 1) :
    Simplifies P (binary p l r) (binary .xor l r) := by
  refine simplifies_bool h hw h hw (by rcases hp with rfl | rfl <;> exact le_rfl) ?_
  intro σ x y hx hy
  simp only [Expr.eval, hx, hy]
  rcases hp with rfl | rfl <;> cases x <;> cases y <;> rfl

theorem AddExpr_create_constant (k : APInt) (x : Expr) :
    AddExpr.create (constant k) x = AddExpr.createK k x := by
  cases x <;> simp [AddExpr.create, AddExpr.createK]

theorem SubExpr_create_constant (k : APInt) (x : Expr) :
    SubExpr.create (constant k) x = SubExpr.createK k x := by
  cases x <;> simp [SubExpr.create, SubExpr.createK]

theorem SubExpr_create_constant_right (x : Expr) (k : APInt) :
    SubExpr.create x (constant k) = SubExpr.createByK x k := by
  cases x <;> simp [SubExpr.create, SubExpr.createByK]

theorem AddExpr_create_eq : AddExpr.create =
    bcreateR .add AddExpr_create AddExpr_createPartial AddExpr_createPartialR := by
  funext l r
  unfold bcreateR AddExpr_create
  simp only [AddExpr_create_constant]
  exact AddExpr.create.eq_def l r

theorem SubExpr_create_eq : SubExpr.create =
    bcreateR .sub SubExpr_create SubExpr_createPartial SubExpr_createPartialR := by
  funext l r
  unfold bcreateR SubExpr_create
  simp only [AddExpr_create_constant, SubExpr_create_constant, SubExpr_create_constant_right]
  exact SubExpr.create.eq_def l r

theorem AddExpr_createPartialR_eq (cl : APInt) (r : Expr) :
    AddExpr_createPartialR cl r =
      if cl.width = 1 then XorExpr_createPartialR cl r
      else if ConstantExpr.isZero cl then r
      else
        match r with
        | binary .add (constant c) x => AddExpr.create (AddExpr.create (constant cl) (constant c)) x
        | binary .sub (constant c) x => SubExpr.create (AddExpr.create (constant cl) (constant c)) x
        | r => binary .add (constant cl) r := by
  simp only [AddExpr_create_constant, AddExpr.createK, SubExpr_create_constant, SubExpr.createK]
  exact AddExpr_createPartialR.eq_def cl r

theorem SubExpr_createPartialR_eq (cl : APInt) (r : Expr) :
    SubExpr_createPartialR cl r =
      if cl.width = 1 then XorExpr_createPartialR cl r
      else
        match r with
        | binary .add (constant c) x => SubExpr.create (SubExpr.create (constant cl) (constant c)) x
        | binary .sub (constant c) x => AddExpr.create (SubExpr.create (constant cl) (constant c)) x
        | r => binary .sub (constant cl) r := by
  simp only [AddExpr_create_constant, AddExpr.createK, SubExpr_create_constant, SubExpr.createK]
  exact SubExpr_createPartialR.eq_def cl r

section PartialR

variable {cl : APInt}
  (ihAdd : ∀ (k : APInt) (x : Expr), x.size < r.size → (binary .add (constant k) x).WellTyped →
    Simplifies P (binary .add (constant k) x) (AddExpr.createK k x))
  (ihSub : ∀ (k : APInt) (x : Expr), x.size < r.size → (binary .sub (constant k) x).WellTyped →
    Simplifies P (binary .sub (constant k) x) (SubExpr.createK k x))

include ihAdd ihSub

theorem AddExpr_createPartialR_step (h : (binary .add (constant cl) r).WellTyped) :
    Simplifies P (binary .add (constant cl) r) (AddExpr_createPartialR cl r) := by
  rw [AddExpr_createPartialR_eq]
  simp only [AddExpr_create_constant, SubExpr_create_constant, AddExpr.createK.eq_1]
  split_ifs with hw hz
  · exact (simplifies_bool_xor (.inl rfl) h hw).trans (XorExpr_createPartialR_simplifies h)
  · refine (simplifies_swap h APInt.add_comm).trans (simplifies_left ⟨h.2.1, h.1, h.2.2.symm⟩ rfl ?_)
    exact fun σ _ => (APInt.add_zero (eval_width_eq h σ).symm hz).symm
  split
  · rename_i c x
    obtain ⟨-, hx, hcx⟩ := h.2.1
    have hmove := (Linear.simplifies (P := P) (k := constant cl) (a := constant c) trivial trivial hx h.2.2 hcx
      (.add .k (.add .a .b)) (.add (.add .k .a) .b)).foldLeft
    exact hmove.trans (ihAdd _ x (by simp only [Expr.size]; omega) hmove.typed)
  · rename_i c x
    obtain ⟨-, hx, hcx⟩ := h.2.1
    have hmove := (Linear.simplifies (P := P) (k := constant cl) (a := constant c) trivial trivial hx h.2.2 hcx
      (.add .k (.sub .a .b)) (.sub (.add .k .a) .b)).foldLeft
    exact hmove.trans (ihSub _ x (by simp only [Expr.size]; omega) hmove.typed)
  · exact Simplifies.refl h

theorem SubExpr_createPartialR_step (h : (binary .sub (constant cl) r).WellTyped) :
    Simplifies P (binary .sub (constant cl) r) (SubExpr_createPartialR cl r) := by
  rw [SubExpr_createPartialR_eq]
  simp only [AddExpr_create_constant, SubExpr_create_constant, SubExpr.createK.eq_1]
  split_ifs with hw
  · exact (simplifies_bool_xor (.inr rfl) h hw).trans (XorExpr_createPartialR_simplifies h)
  split
  · rename_i c x
    obtain ⟨-, hx, hcx⟩ := h.2.1
    have hmove := (Linear.simplifies (P := P) (k := constant cl) (a := constant c) trivial trivial hx h.2.2 hcx
      (.sub .k (.add .a .b)) (.sub (.sub .k .a) .b)).foldLeft
    exact hmove.trans (ihSub _ x (by simp only [Expr.size]; omega) hmove.typed)
  · rename_i c x
    obtain ⟨-, hx, hcx⟩ := h.2.1
    have hmove := (Linear.simplifies (P := P) (k := constant cl) (a := constant c) trivial trivial hx h.2.2 hcx
      (.sub .k (.sub .a .b)) (.add (.sub .k .a) .b)).foldLeft
    exact hmove.trans (ihAdd _ x (by simp only [Expr.size]; omega) hmove.typed)
  · exact Simplifies.refl h

end PartialR

theorem createK_simplifies (n : ℕ) : ∀ (c : APInt) (x : Expr), x.size < n →
    ((binary .add (constant c) x).WellTyped →
      Simplifies P (binary .add (constant c) x) (AddExpr.createK c x)) ∧
    ((binary .sub (constant c) x).WellTyped →
      Simplifies P (binary .sub (constant c) x) (SubExpr.createK c x)) := by
  induction n with
  | zero => exact fun _ x hx => absurd hx (Nat.not_lt_zero _)
  | succ n ih =>
    intro c x hx
    have ihAdd := fun k y (hy : y.size < x.size) => (ih k y (by omega)).1
    have ihSub := fun k y (hy : y.size < x.size) => (ih k y (by omega)).2
    constructor
    · intro h
      unfold AddExpr.createK
      split
      · exact simplifies_fold h
      · exact AddExpr_createPartialR_step ihAdd ihSub h
    · intro h
      unfold SubExpr.createK
      split
      · exact simplifies_fold h
      · exact SubExpr_createPartialR_step ihAdd ihSub h

theorem AddExpr_createK_simplifies {c : APInt} (h : (binary .add (constant c) r).WellTyped) :
    Simplifies P (binary .add (constant c) r) (AddExpr.createK c r) :=
  (createK_simplifies _ c r (Nat.lt_succ_self _)).1 h

theorem SubExpr_createK_simplifies {c : APInt} (h : (binary .sub (constant c) r).WellTyped) :
    Simplifies P (binary .sub (constant c) r) (SubExpr.createK c r) :=
  (createK_simplifies _ c r (Nat.lt_succ_self _)).2 h

theorem AddExpr_createPartialR_simplifies {c : APInt} (h : (binary .add (constant c) r).WellTyped) :
    Simplifies P (binary .add (constant c) r) (AddExpr_createPartialR c r) :=
  AddExpr_createPartialR_step (fun _ _ _ => AddExpr_createK_simplifies)
    (fun _ _ _ => SubExpr_createK_simplifies) h

theorem SubExpr_createPartialR_simplifies {c : APInt} (h : (binary .sub (constant c) r).WellTyped) :
    Simplifies P (binary .sub (constant c) r) (SubExpr_createPartialR c r) :=
  SubExpr_createPartialR_step (fun _ _ _ => AddExpr_createK_simplifies)
    (fun _ _ _ => SubExpr_createK_simplifies) h

theorem AddExpr_createPartial_simplifies {c : APInt} (h : (binary .add l (constant c)).WellTyped) :
    Simplifies P (binary .add l (constant c)) (AddExpr_createPartial l c) :=
  (simplifies_swap h APInt.add_comm).trans
    (AddExpr_createPartialR_simplifies ⟨h.2.1, h.1, h.2.2.symm⟩)

theorem SubExpr_createPartial_simplifies {c : APInt} (h : (binary .sub l (constant c)).WellTyped) :
    Simplifies P (binary .sub l (constant c)) (SubExpr_createPartial l c) := by
  have hadd : Simplifies P (binary .sub l (constant c))
      (binary .add l (constant ((APInt.ofNat c.width 0).sub c))) := by
    refine ⟨⟨h.1, trivial, h.2.2⟩, rfl, fun σ _ => ?_, le_rfl⟩
    obtain ⟨w, y⟩ := c
    obtain ⟨x, hx⟩ := Expr.exists_bits σ h.1 (show l.getWidth = w from h.2.2)
    simp only [Expr.eval, BinaryKind.apply, hx, APInt.ofNat, APInt.sub_mk, APInt.add_mk]
    congr 1
    simp [sub_eq_add_neg]
  exact hadd.trans (AddExpr_createPartial_simplifies hadd.typed)

theorem SubExpr_createByK_simplifies {c : APInt} (h : (binary .sub l (constant c)).WellTyped) :
    Simplifies P (binary .sub l (constant c)) (SubExpr.createByK l c) := by
  unfold SubExpr.createByK
  split
  · exact simplifies_fold h
  · exact SubExpr_createPartial_simplifies h

section Create

variable
  (ihAdd : ∀ x y : Expr, x.size + y.size < l.size + r.size → (binary .add x y).WellTyped →
    Simplifies P (binary .add x y) (AddExpr.create x y))
  (ihSub : ∀ x y : Expr, x.size + y.size < l.size + r.size → (binary .sub x y).WellTyped →
    Simplifies P (binary .sub x y) (SubExpr.create x y))

include ihAdd ihSub

theorem AddExpr_create_step (h : (binary .add l r).WellTyped) :
    Simplifies P (binary .add l r) (AddExpr_create l r) := by
  obtain ⟨hl, hr, hlr⟩ := h
  unfold AddExpr_create
  split_ifs with hw
  · exact simplifies_bool_xor (.inl rfl) ⟨hl, hr, hlr⟩ hw
  simp only [AddExpr_create_constant]
  split
  case h_1 k a =>
    obtain ⟨-, ha, hka⟩ := hl
    have har := hka.symm.trans hlr
    have hmove := (Linear.simplifies (P := P) (k := constant k) trivial ha hr hka har
      (.add (.add .k .a) .b) (.add .k (.add .a .b))).inRight
      (ihAdd a r (by simp only [Expr.size]; omega) ⟨ha, hr, har⟩)
    exact hmove.trans (AddExpr_createK_simplifies hmove.typed)
  case h_2 k a =>
    obtain ⟨-, ha, hka⟩ := hl
    have har := hka.symm.trans hlr
    have hmove := (Linear.simplifies (P := P) (k := constant k) trivial ha hr hka har
      (.add (.sub .k .a) .b) (.add .k (.sub .b .a))).inRight
      (ihSub r a (by simp only [Expr.size]; omega) ⟨hr, ha, har.symm⟩)
    exact hmove.trans (AddExpr_createK_simplifies hmove.typed)
  case h_3 k b _ _ =>
    obtain ⟨-, hb, hkb⟩ := hr
    have hlb := hlr.trans hkb
    have hmove := (Linear.simplifies (P := P) (k := constant k) trivial hl hb hlr.symm hlb
      (.add .a (.add .k .b)) (.add .k (.add .a .b))).inRight (ihAdd l b (by simp only [Expr.size]; omega) ⟨hl, hb, hlb⟩)
    exact hmove.trans (AddExpr_createK_simplifies hmove.typed)
  case h_4 k b _ _ =>
    obtain ⟨-, hb, hkb⟩ := hr
    have hlb := hlr.trans hkb
    have hmove := (Linear.simplifies (P := P) (k := constant k) trivial hl hb hlr.symm hlb
      (.add .a (.sub .k .b)) (.add .k (.sub .a .b))).inRight
      (ihSub l b (by simp only [Expr.size]; omega) ⟨hl, hb, hlb⟩)
    exact hmove.trans (AddExpr_createK_simplifies hmove.typed)
  case h_5 => exact Simplifies.refl ⟨hl, hr, hlr⟩

theorem SubExpr_create_step (h : (binary .sub l r).WellTyped) :
    Simplifies P (binary .sub l r) (SubExpr_create l r) := by
  obtain ⟨hl, hr, hlr⟩ := h
  unfold SubExpr_create
  split_ifs with hw heq
  · exact simplifies_bool_xor (.inr rfl) ⟨hl, hr, hlr⟩ hw
  · subst heq
    refine Simplifies.const rfl fun σ _ => ?_
    obtain ⟨x, hx⟩ := Expr.exists_bits σ hl rfl
    simp [Expr.eval, BinaryKind.apply, hx, APInt.ofNat]
  clear heq
  simp only [AddExpr_create_constant, SubExpr_create_constant, SubExpr_create_constant_right]
  split
  case h_1 k a =>
    obtain ⟨-, ha, hka⟩ := hl
    have har := hka.symm.trans hlr
    have hmove := (Linear.simplifies (P := P) (k := constant k) trivial ha hr hka har
      (.sub (.add .k .a) .b) (.add .k (.sub .a .b))).inRight
      (ihSub a r (by simp only [Expr.size]; omega) ⟨ha, hr, har⟩)
    exact hmove.trans (AddExpr_createK_simplifies hmove.typed)
  case h_2 k a =>
    obtain ⟨-, ha, hka⟩ := hl
    have har := hka.symm.trans hlr
    have hmove := (Linear.simplifies (P := P) (k := constant k) trivial ha hr hka har
      (.sub (.sub .k .a) .b) (.sub .k (.add .a .b))).inRight
      (ihAdd a r (by simp only [Expr.size]; omega) ⟨ha, hr, har⟩)
    exact hmove.trans (SubExpr_createK_simplifies hmove.typed)
  case h_3 k b _ _ =>
    obtain ⟨-, hb, hkb⟩ := hr
    have hlb := hlr.trans hkb
    have hmove := (Linear.simplifies (P := P) (k := constant k) trivial hl hb hlr.symm hlb
      (.sub .a (.add .k .b)) (.sub (.sub .a .b) .k)).inLeft (ihSub l b (by simp only [Expr.size]; omega) ⟨hl, hb, hlb⟩)
    exact hmove.trans (SubExpr_createByK_simplifies hmove.typed)
  case h_4 k b _ _ =>
    obtain ⟨-, hb, hkb⟩ := hr
    have hlb := hlr.trans hkb
    have hmove := (Linear.simplifies (P := P) (k := constant k) trivial hl hb hlr.symm hlb
      (.sub .a (.sub .k .b)) (.sub (.add .a .b) .k)).inLeft (ihAdd l b (by simp only [Expr.size]; omega) ⟨hl, hb, hlb⟩)
    exact hmove.trans (SubExpr_createByK_simplifies hmove.typed)
  case h_5 => exact Simplifies.refl ⟨hl, hr, hlr⟩

end Create

theorem arith_create_simplifies (n : ℕ) : ∀ l r : Expr, l.size + r.size < n →
    ((binary .add l r).WellTyped → Simplifies P (binary .add l r) (AddExpr.create l r)) ∧
    ((binary .sub l r).WellTyped → Simplifies P (binary .sub l r) (SubExpr.create l r)) := by
  induction n with
  | zero => exact fun _ _ h => absurd h (Nat.not_lt_zero _)
  | succ n ih =>
    intro l r hn
    have ihAdd := fun x y (hy : x.size + y.size < l.size + r.size) => (ih x y (by omega)).1
    have ihSub := fun x y (hy : x.size + y.size < l.size + r.size) => (ih x y (by omega)).2
    constructor
    · intro h
      rw [AddExpr_create_eq]
      exact bcreateR_simplifies
        (fun _ hl => by subst hl; exact AddExpr_createPartialR_simplifies h)
        (fun _ hr => by subst hr; exact AddExpr_createPartial_simplifies h)
        (AddExpr_create_step ihAdd ihSub h) h
    · intro h
      rw [SubExpr_create_eq]
      exact bcreateR_simplifies
        (fun _ hl => by subst hl; exact SubExpr_createPartialR_simplifies h)
        (fun _ hr => by subst hr; exact SubExpr_createPartial_simplifies h)
        (SubExpr_create_step ihAdd ihSub h) h

theorem AddExpr_create_simplifies (h : (binary .add l r).WellTyped) :
    Simplifies P (binary .add l r) (AddExpr.create l r) :=
  (arith_create_simplifies _ l r (Nat.lt_succ_self _)).1 h

theorem SubExpr_create_simplifies (h : (binary .sub l r).WellTyped) :
    Simplifies P (binary .sub l r) (SubExpr.create l r) :=
  (arith_create_simplifies _ l r (Nat.lt_succ_self _)).2 h

end Klee
