import DdKlee.Proofs.Constraints
import DdKlee.Proofs.Evaluator
import DdKlee.Proofs.RangeEvaluator
import DdKlee.Spec.FastCex

/-! The exact ranges of `FastCexSolver` contain the bytes of every assignment
that satisfies the query, as long as the ranges of the indices are right. So the
query has no such assignment when its exact evaluation says so. -/

namespace Klee

open Expr

namespace CexData

variable {P : Bytes → Prop} {cd cd' : CexData}

/-- The exact ranges contain the bytes of the assignments `P`. -/
def ExactInv (P : Bytes → Prop) (cd : CexData) : Prop :=
  ∀ array cod, cd.objects array = some cod → ∀ σ, P σ → ∀ i,
    (cod.exactContents i).Contains 8 (σ array i).toNat

theorem ExactInv.init : ExactInv P {} := fun _ _ h => by cases h

theorem ExactInv.setObject (h : ExactInv P cd) {array : Array} {cod : CexObjectData}
    (hcod : ∀ σ, P σ → ∀ i, (cod.exactContents i).Contains 8 (σ array i).toNat) :
    ExactInv P (cd.setObject array cod) := by
  intro array' cod' hcod'
  simp only [CexData.setObject, Function.update_apply] at hcod'
  split_ifs at hcod' with heq
  · cases hcod'
    subst heq
    exact hcod
  · exact h array' cod' hcod'

theorem ExactInv.getObjectData (h : ExactInv P cd) (array : Array) :
    (∀ σ, P σ → ∀ i, ((cd.getObjectData array).1.exactContents i).Contains 8 (σ array i).toNat) ∧
      ExactInv P (cd.getObjectData array).2 := by
  have hnew : ∀ σ, P σ → ∀ i : ℕ,
      (({} : CexObjectData).exactContents i).Contains 8 (σ array i).toNat := fun σ _ i =>
    ⟨Nat.zero_le _, Nat.le_of_lt_succ (σ array i).isLt, (by decide : 255 < 2 ^ 8), by decide⟩
  unfold CexData.getObjectData
  split
  · rename_i cod hcod
    exact ⟨h array cod hcod, h⟩
  · exact ⟨hnew, h.setObject hnew⟩

def Preserves (P : Bytes → Prop) (f : Propogate) : Prop :=
  ∀ range cd cd', f range cd = some cd' → ExactInv P cd → ExactInv P cd'

theorem preserves_some : Preserves P fun _ cd => some cd := fun _ _ _ h hcd => by cases h; exact hcd

theorem propogatePossibleRead_preserves {root : Array} {index : Expr} :
    Preserves P (propogatePossibleRead root index) := by
  intro range cd cd' h hcd
  obtain ⟨hcod, hcd⟩ := hcd.getObjectData root
  simp only [propogatePossibleRead] at h
  split at h
  · split_ifs at h
    · cases h
      exact hcd.setObject hcod
    · cases h
      exact hcd
    · cases h
      exact hcd.setObject hcod
    · cases h
      exact hcd
  · cases h
    exact hcd

variable {l r : Expr} {pl pr : Propogate}

theorem propogateEither_preserves (hl : Preserves P pl) (hr : Preserves P pr) {v : ℕ}
    (h : propogateEither l r pl pr v cd = some cd') (hcd : ExactInv P cd) : ExactInv P cd' := by
  simp only [propogateEither, bind_eq_some] at h
  obtain ⟨rl, -, rr, -, h⟩ := h
  split_ifs at h
  · cases h
    exact hcd
  · simp only [bind_eq_some] at h
    obtain ⟨cd1, h1, rl', -, h⟩ := h
    have hcd1 := hl _ _ _ h1 hcd
    split_ifs at h
    · cases h
      exact hcd1
    · exact hr _ _ _ h hcd1

theorem propogateUnless_preserves {known : ValueRange} (hl : Preserves P pl) {v : ℕ}
    (h : propogateUnless known pl v cd = some cd') (hcd : ExactInv P cd) : ExactInv P cd' := by
  unfold propogateUnless at h
  split_ifs at h
  · cases h
    exact hcd
  · exact hl _ _ _ h hcd

theorem propogateBoth_preserves (hl : Preserves P pl) (hr : Preserves P pr) {v : ℕ}
    (h : propogateBoth l r pl pr v cd = some cd') (hcd : ExactInv P cd) : ExactInv P cd' := by
  simp only [propogateBoth, bind_eq_some] at h
  obtain ⟨rl, -, rr, -, cd1, h1, h⟩ := h
  exact propogateUnless_preserves hr h (propogateUnless_preserves hl h1 hcd)

theorem propogateCompare_preserves (hl : Preserves P pl) (hr : Preserves P pr)
    {f g : ℕ → ℕ → ValueRange} (h : propogateCompare l r pl pr f g cd = some cd')
    (hcd : ExactInv P cd) : ExactInv P cd' := by
  simp only [propogateCompare, bind_eq_some] at h
  obtain ⟨rl, -, rr, -, m, -, h⟩ := h
  split_ifs at h
  · exact hr _ _ _ h hcd
  · exact hl _ _ _ h hcd
  · cases h
    exact hcd

theorem propogatePossibleValues_preserves : ∀ e, Preserves P (propogatePossibleValues e)
  | .read _ _ _ => propogatePossibleRead_preserves
  | .constant _ | .notOptimized _ | .extract _ _ _ => preserves_some
  | .select c t f => by
    intro range cd cd' h hcd
    simp only [propogatePossibleValues, bind_eq_some] at h
    obtain ⟨cond, -, h⟩ := h
    split_ifs at h
    · exact propogatePossibleValues_preserves t _ _ _ h hcd
    · exact propogatePossibleValues_preserves f _ _ _ h hcd
    · obtain ⟨cd1, h1, h⟩ := Option.bind_eq_some_iff.mp h
      exact propogatePossibleValues_preserves f _ _ _ h (propogatePossibleValues_preserves t _ _ _ h1 hcd)
  | .concat a b => by
    intro range cd cd' h hcd
    simp only [propogatePossibleValues, bind_eq_some] at h
    obtain ⟨ra, -, cd1, h1, rb, -, h⟩ := h
    exact propogatePossibleValues_preserves b _ _ _ h (propogatePossibleValues_preserves a _ _ _ h1 hcd)
  | .not e => by
    intro range cd cd' h hcd
    simp only [propogatePossibleValues] at h
    split_ifs at h
    · exact propogatePossibleValues_preserves e _ _ _ h hcd
    · exact propogatePossibleValues_preserves e _ _ _ h hcd
    · exact preserves_some range _ _ h hcd
  | .cast k src w => by
    intro range cd cd' h hcd
    cases k <;>
      simp only [propogatePossibleValues, bind_eq_some] at h <;>
      obtain ⟨_, -, h⟩ := h <;>
      exact propogatePossibleValues_preserves src _ _ _ h hcd
  | .binary k a b => by
    have ha : Preserves P (propogatePossibleValues a) := propogatePossibleValues_preserves a
    have hb : Preserves P (propogatePossibleValues b) := propogatePossibleValues_preserves b
    intro range cd cd' h hcd
    have hkeep : some cd = some cd' → ExactInv P cd' := fun h => preserves_some range _ _ h hcd
    cases k <;> simp only [propogatePossibleValues] at h
    case add =>
      split at h
      · split_ifs at h
        · exact hkeep h
        · exact hb _ _ _ h hcd
        · exact hkeep h
      · exact hkeep h
    case and =>
      split_ifs at h
      · exact propogateEither_preserves ha hb h hcd
      · exact propogateBoth_preserves ha hb h hcd
      · exact hkeep h
    case or =>
      split_ifs at h
      · exact propogateEither_preserves ha hb h hcd
      · exact propogateBoth_preserves ha hb h hcd
      · exact hkeep h
    case eq =>
      split at h
      · split_ifs at h
        · exact hb _ _ _ h hcd
        · obtain ⟨m, -, h⟩ := Option.bind_eq_some_iff.mp h
          exact hb _ _ _ h hcd
        · exact hb _ _ _ h hcd
        · exact hkeep h
      · exact hkeep h
    case ult =>
      split_ifs at h
      · exact propogateCompare_preserves ha hb h hcd
      · exact propogateCompare_preserves ha hb h hcd
      · exact hkeep h
    case ule =>
      split_ifs at h
      · exact propogateCompare_preserves ha hb h hcd
      · exact propogateCompare_preserves ha hb h hcd
      · exact hkeep h
    all_goals first | exact hkeep h | cases h

mutual

/-- The ranges that the exact propagation of an expression looks at are right. -/
def ExactOk : Expr → Bool
  | .read _ head index => CexRangeEvaluator.RangeOk index && ExactUpdatesOk head
  | binary .eq l r => !l.isConstant || ExactOk r
  | .not e => ExactOk e
  | _ => true

def ExactUpdatesOk : UpdateNode → Bool
  | .null => true
  | .node next i v => ExactUpdatesOk next && CexRangeEvaluator.RangeOk i && ExactOk v

end

theorem narrow_contains {range cvd out : ValueRange} {x : ℕ} (hr : range.Contains 8 x)
    (hc : cvd.Contains 8 x) (h : narrow range cvd = some out) : out.Contains 8 x := by
  simp only [narrow, hr.min_eq, hr.max_eq, some_bind,
    bind_eq_some] at h
  obtain ⟨mid, hmid, h⟩ := h
  have hm : mid.Contains 8 x := by
    rw [raiseMin, hc.not_isEmpty] at hmid
    simp only [Bool.false_eq_true, if_false] at hmid
    split_ifs at hmid
    · cases hmid
      exact ⟨hr.le, hc.ge, hc.lt, hc.width⟩
    · cases hmid
      exact hc
  rw [lowerMax, hm.not_isEmpty] at h
  simp only [Bool.false_eq_true, if_false] at h
  split_ifs at h
  · cases h
    exact ⟨hm.le, hr.ge, hr.lt, hr.width⟩
  · cases h
    exact hm

theorem initial_toNat {root : Array} (hrange : root.range = 8) {i : ℕ}
    (h : root.constantValues[i]? = none) (σ : Bytes) : (root.initial σ i).toNat = (σ root i).toNat := by
  have hlt := (σ root i).isLt
  rw [Array.initial, h]
  simp only [APInt.toNat, BitVec.toNat_setWidth, hrange]
  exact Nat.mod_eq_of_lt hlt

theorem propogateExactInitial_inv {root : Array} (hrange : root.range = 8) {readIndex : Expr}
    {index range : ValueRange} {w : ℕ} (hindex : ∀ σ, index.Contains w (readIndex.eval σ).toNat)
    (hr : ∀ σ, P σ → range.Contains 8 (root.initial σ (readIndex.eval σ).toNat).toNat)
    (h : propogateExactInitial root index range cd = some cd') (hcd : ExactInv P cd) :
    ExactInv P cd' := by
  unfold propogateExactInitial at h
  split_ifs at h with hfixed hconst hlt
  · obtain ⟨_, -, h⟩ := Option.bind_eq_some_iff.mp h
    cases h
    exact hcd
  · obtain ⟨hcod, hcd1⟩ := hcd.getObjectData root
    obtain ⟨cvd, hcvd, h⟩ := Option.bind_eq_some_iff.mp h
    cases h
    have hnone : root.constantValues[index.m_min]? = none := by
      simp_all [Array.isConstantArray, Array.isSymbolicArray]
    refine hcd1.setObject fun σ hσ i => ?_
    simp only [CexObjectData.setExactValues, Function.update_apply]
    split_ifs with hi
    · subst hi
      have hval := hr σ hσ
      rw [(hindex σ).eq_of_isFixed hfixed, initial_toNat hrange hnone] at hval
      exact narrow_contains hval (hcod σ hσ _) hcvd
    · exact hcod σ hσ i
  · cases h
    exact hcd

/-- What the loop over updates may assume of the index: its range is right. -/
structure IndexOk (root : Array) (readIndex : Expr) (index : ValueRange) : Prop where
  range : root.range = 8
  typed : readIndex.WellTyped
  width : readIndex.getWidth = root.domain
  contains : ∀ σ, index.Contains root.domain (readIndex.eval σ).toNat

/-- An equality with a constant of known value. A true one fixes the other
operand, a false one of Booleans does so too, and any other is left alone. -/
theorem propogateExactEq_cases {ce : APInt} {r : Expr} {range : ValueRange} (hrt : r.WellTyped)
    (hw : ce.width = r.getWidth)
    (hr : ∀ σ, P σ → range.Contains 1 ((binary .eq (constant ce) r).eval σ).toNat) :
    (∀ cd, propogateExactValues (binary .eq (constant ce) r) range cd = some cd) ∨
      ∃ range', (∀ σ, P σ → range'.Contains r.getWidth (r.eval σ).toNat) ∧
        ∀ cd, propogateExactValues (binary .eq (constant ce) r) range cd = propogateExactValues r range' cd := by
  have hval : range.isFixed = true → ∀ σ, P σ → (ce.eq (r.eval σ)).toNat = range.m_min := by
    intro hfixed σ hσ
    have := (hr σ hσ).eq_of_isFixed hfixed
    rwa [Expr.eval, BinaryKind.apply, APInt.toNat_ofBool] at this
  simp only [propogateExactValues]
  by_cases hc : range.isFixed = true ∧ ce.width ≤ 64
  · simp only [if_pos hc]
    by_cases hne : range.m_min ≠ 0
    · simp only [if_pos hne]
      refine .inr ⟨_, fun σ hσ => ?_, fun cd => rfl⟩
      have heq : ce = r.eval σ := by
        rw [← APInt.eq_iff (hw.trans (Expr.eval_width σ hrt).symm)]
        by_contra hfalse
        rw [Bool.not_eq_true] at hfalse
        exact hne (by rw [← hval hc.1 σ hσ, hfalse]; rfl)
      rw [← hw, ← heq]
      exact ValueRange.contains_ofValue ce.toNat_lt hc.2
    · simp only [if_neg hne]
      by_cases hbool : r.getWidth = 1
      · simp only [if_pos hbool]
        refine .inr ⟨_, fun σ hσ => ?_, fun cd => rfl⟩
        obtain ⟨p, hp⟩ := Expr.exists_bool σ hrt hbool
        obtain ⟨q, rfl⟩ : ∃ q, ce = APInt.ofBool q := ⟨_, APInt.eq_ofBool (hw.trans hbool)⟩
        have hpq := hval hc.1 σ hσ
        rw [not_not.mp hne, hp] at hpq
        rw [hp, hbool]
        cases p <;> cases q <;> first
          | exact ValueRange.contains_ofValue (by decide) (by decide)
          | exact absurd hpq (by decide)
      · exact .inl fun cd => if_neg hbool
  · exact .inl fun cd => if_neg hc

theorem propogateExactNot_cases {e : Expr} {range : ValueRange} (ht : e.WellTyped)
    (hr : ∀ σ, P σ → range.Contains e.getWidth ((Expr.not e).eval σ).toNat) :
    (∀ cd, propogateExactValues (.not e) range cd = some cd) ∨
      ∃ range', (∀ σ, P σ → range'.Contains e.getWidth (e.eval σ).toNat) ∧
        ∀ cd, propogateExactValues (.not e) range cd = propogateExactValues e range' cd := by
  simp only [propogateExactValues]
  by_cases hc : e.getWidth = 1 ∧ range.isFixed = true
  · simp only [if_pos hc]
    refine .inr ⟨_, fun σ hσ => ?_, fun cd => rfl⟩
    obtain ⟨p, hp⟩ := Expr.exists_bool σ (e := e) ht hc.1
    have hval := (hr σ hσ).eq_of_isFixed hc.2
    rw [Expr.eval, hp, show ConstantExpr.Not (APInt.ofBool p) = APInt.ofBool !p by cases p <;> rfl,
      APInt.toNat_ofBool] at hval
    rw [← hval, hp, hc.1]
    cases p <;> exact ValueRange.contains_ofValue (by decide) (by decide)
  · exact .inl fun cd => if_neg hc

mutual

theorem propogateExactValues_inv : ∀ {e : Expr} {range : ValueRange} {cd cd' : CexData}, e.WellTyped →
    e.AllReads (fun root _ => root.range = 8) → ExactOk e = true →
    (∀ σ, P σ → range.Contains e.getWidth (e.eval σ).toNat) →
    propogateExactValues e range cd = some cd' → ExactInv P cd → ExactInv P cd'
  | .constant _, _, _, _, _, _, _, _, h, hcd | .notOptimized _, _, _, _, _, _, _, _, h, hcd
  | .select _ _ _, _, _, _, _, _, _, _, h, hcd | .concat _ _, _, _, _, _, _, _, _, h, hcd
  | .extract _ _ _, _, _, _, _, _, _, _, h, hcd | .cast _ _ _, _, _, _, _, _, _, _, h, hcd => by
    cases h
    exact hcd
  | .not e, range, cd, cd', ht, hreads, hok, hr, h, hcd => by
    rcases propogateExactNot_cases (e := e) ht hr with hkeep | ⟨range', hr', heq⟩
    · rw [hkeep] at h
      cases h
      exact hcd
    · rw [heq] at h
      exact propogateExactValues_inv (e := e) ht hreads hok hr' h hcd
  | .read root head index, range, cd, cd', ⟨hhead, hi, hiw⟩, ⟨hrange, hheadr, hir⟩, hok, hr, h, hcd => by
    simp only [propogateExactValues, bind_eq_some] at h
    obtain ⟨ri, hri, h⟩ := h
    simp only [ExactOk, Bool.and_eq_true] at hok
    have hindex : IndexOk root index ri := by
      refine ⟨hrange, hi, hiw, fun σ => ?_⟩
      have := CexRangeEvaluator.evaluate_contains σ hi hir hok.1 hri
      rwa [hiw] at this
    refine propogateExactRead_inv hindex hhead hheadr hok.2 (fun σ hσ => ?_) h (hcd.getObjectData root).2
    have := hr σ hσ
    rwa [getWidth, hrange] at this
  | .binary k l r, range, cd, cd', ⟨hl, hrt, hlr⟩, ⟨_, hreads⟩, hok, hr, h, hcd => by
    cases k <;> simp only [propogateExactValues] at h
    case eq =>
      cases l with
      | constant ce =>
        have hokr : ExactOk r = true := by simpa [ExactOk, isConstant] using hok
        rcases propogateExactEq_cases hrt hlr hr with hkeep | ⟨range', hr', heq⟩
        · cases (hkeep cd).symm.trans h
          exact hcd
        · exact propogateExactValues_inv hrt hreads hokr hr' ((heq cd).symm.trans h) hcd
      | _ =>
        cases h
        exact hcd
    all_goals first | (cases h; exact hcd) | cases h

theorem propogateExactRead_inv {root : Array} {readIndex : Expr} {index : ValueRange}
    (hindex : IndexOk root readIndex index) :
    ∀ {head : UpdateNode} {range : ValueRange} {cd cd' : CexData}, head.WellTyped root →
      head.AllReads (fun root _ => root.range = 8) → ExactUpdatesOk head = true →
      (∀ σ, P σ → range.Contains 8 (head.lookup σ root (readIndex.eval σ)).toNat) →
      propogateExactRead root readIndex index head range cd = some cd' → ExactInv P cd → ExactInv P cd'
  | .null, range, cd, cd', _, _, _, hr, h, hcd =>
    propogateExactInitial_inv hindex.range hindex.contains hr h hcd
  | .node next i v, range, cd, cd', ⟨hnext, hi, hv, hiw, hvw⟩, ⟨hnextr, hir, hvr⟩, hok, hr, h, hcd => by
    simp only [propogateExactRead, bind_eq_some] at h
    obtain ⟨ui, hui, h⟩ := h
    simp only [ExactUpdatesOk, Bool.and_eq_true] at hok
    obtain ⟨⟨hoknext, hoki⟩, hokv⟩ := hok
    have hui' : ∀ σ, ui.Contains root.domain (i.eval σ).toNat := fun σ => by
      have := CexRangeEvaluator.evaluate_contains σ hi hir hoki hui
      rwa [hiw] at this
    have hw : ∀ σ, (i.eval σ).width = (readIndex.eval σ).width := fun σ => by
      rw [Expr.eval_width σ hi, Expr.eval_width σ hindex.typed, hiw, hindex.width]
    split_ifs at h with hmay hmust
    · -- the update is never the one read
      refine propogateExactRead_inv hindex hnext hnextr hoknext (fun σ hσ => ?_) h hcd
      have hne : i.eval σ ≠ readIndex.eval σ := by
        intro heq
        have := hui' σ
        rw [heq] at this
        simp [this.mayEqual (hindex.contains σ)] at hmay
      have := hr σ hσ
      rwa [UpdateNode.lookup, if_neg hne] at this
    · -- the update is always the one read
      refine propogateExactValues_inv hv hvr hokv (fun σ hσ => ?_) h hcd
      have heq : i.eval σ = readIndex.eval σ := by
        rw [Bool.or_eq_true, decide_eq_true_eq] at hmust
        rcases hmust with hmust | rfl
        · exact APInt.eq_of_toNat (hw σ) ((hui' σ).eq_of_mustEqual (hindex.contains σ) hmust)
        · rfl
      have := hr σ hσ
      rw [UpdateNode.lookup, if_pos heq] at this
      rwa [hvw, hindex.range]
    · cases h
      exact hcd

end

theorem exactInitialValue_ok (hcd : ExactInv P cd) :
    ExprEvaluator.InitialOk P (fun root => root.range = 8) cd.exactInitialValue := by
  intro root i hrange hi hnone
  have hread : Simplifies P (read root .null (ConstantExpr.alloc i root.domain)) (initialRead root i) :=
    ReadExpr_create_simplifies ⟨root, .null⟩ ⟨trivial, trivial, rfl⟩
  unfold exactInitialValue
  split_ifs
  · exact hread
  · split
    · exact hread
    · rename_i cod hcod
      dsimp only
      split_ifs with hfixed
      · exact hread
      · refine Simplifies.const rfl fun σ hσ => ?_
        have hval := (hcd root cod hcod σ hσ i).eq_of_isFixed (by simpa using hfixed)
        have hlt := (σ root i).isLt
        simp only [Expr.eval, ConstantExpr.alloc, UpdateNode.lookup, APInt.toNat_ofNat,
          Nat.mod_eq_of_lt hi]
        refine APInt.eq_of_toNat (root.initial_width σ i).symm ?_
        rw [initial_toNat hrange hnone, APInt.toNat_ofNat, ← hval, hrange, Nat.mod_eq_of_lt hlt]

theorem evaluateExact_simplifies (hcd : ExactInv P cd) (useVisitorHash : Bool) {fuel : ℕ} {e : Expr}
    (ht : e.WellTyped) (hreads : ExprEvaluator.ReadsFit P (fun root => root.range = 8) e)
    (hfuel : e.weight < fuel) :
    ∃ r, cd.evaluateExact useVisitorHash fuel e = some r ∧ Simplifies P e r := by
  obtain ⟨r, visited, hrun, -, hr⟩ := ExprVisitor.visit_ok
    (ExprEvaluator.sound (exactInitialValue_ok hcd)) useVisitorHash fuel [] e
    ExprVisitor.VisitedSound.nil ht hreads hfuel
  exact ⟨r, by rw [evaluateExact, hrun]; rfl, hr.toSimplifies⟩

end CexData

namespace FastCexSolver

variable {P : Bytes → Prop} {cd cd' : CexData} {useVisitorHash : Bool} {fuel : ℕ}

/-- The expressions whose propagation is right: Bool expressions over arrays of
bytes, where the ranges of the indices looked at are right. -/
structure Accepts (e : Expr) : Prop where
  bool : IsConstraint e
  bytes : e.AllReads fun root _ => root.range = 8
  exact : CexData.ExactOk e = true

theorem propogateValue_inv {e : Expr} (he : Accepts e) {b : Bool}
    (hval : ∀ σ, P σ → e.eval σ = APInt.ofBool b) (h : propogateValue e b.toNat cd = some cd')
    (hcd : CexData.ExactInv P cd) : CexData.ExactInv P cd' := by
  obtain ⟨cd1, h1, h⟩ := Option.bind_eq_some_iff.mp h
  refine CexData.propogateExactValues_inv he.bool.1 he.bytes he.exact (fun σ hσ => ?_) h
    (CexData.propogatePossibleValues_preserves e _ _ _ h1 hcd)
  rw [hval σ hσ, he.bool.2, APInt.toNat_ofBool]
  exact ValueRange.contains_ofValue (by cases b <;> decide) (by decide)

theorem propogateConstraints_inv {cs : List Expr} (hcs : ∀ c ∈ cs, Accepts c)
    (hP : ∀ σ, P σ → σ ∈ Models cs) : ∀ cd, cs.foldlM (fun cd c => propogateValue c 1 cd) cd = some cd' →
      CexData.ExactInv P cd → CexData.ExactInv P cd' := by
  induction cs with
  | nil =>
    intro cd h hcd
    cases h
    exact hcd
  | cons c cs ih =>
    intro cd h hcd
    rw [List.foldlM_cons] at h
    obtain ⟨cd1, h1, h⟩ := Option.bind_eq_some_iff.mp h
    refine ih (fun c' hc' => hcs c' (List.mem_cons_of_mem _ hc'))
      (fun σ hσ c' hc' => hP σ hσ c' (List.mem_cons_of_mem _ hc')) cd1 h ?_
    exact propogateValue_inv (b := true) (hcs c List.mem_cons_self)
      (fun σ hσ => hP σ hσ c List.mem_cons_self) h1 hcd

theorem checkConstraints_valid (hcd : CexData.ExactInv P cd) {cs : List Expr}
    (hcs : ∀ c ∈ cs, c.WellTyped ∧ ExprEvaluator.ReadsFit P (fun root => root.range = 8) c ∧ c.weight < fuel) :
    ∀ sat, checkConstraints useVisitorHash fuel cd cs sat = some (some true) →
      ∃ c ∈ cs, ∀ σ, P σ → ¬ c.holds σ := by
  induction cs with
  | nil =>
    intro sat h
    cases sat <;> cases h
  | cons c cs ih =>
    intro sat h
    obtain ⟨ht, hreads, hfuel⟩ := hcs c List.mem_cons_self
    obtain ⟨r, hr, hsimp⟩ := CexData.evaluateExact_simplifies hcd useVisitorHash ht hreads hfuel
    simp only [checkConstraints, bind_eq_some] at h
    obtain ⟨possible, -, exact, hexact, h⟩ := h
    rw [hr] at hexact
    cases hexact
    split_ifs at h with hfalse
    · refine ⟨c, List.mem_cons_self, fun σ hσ hholds => ?_⟩
      rw [holds, ← hsimp.eval σ hσ, Expr.eval_of_isFalse hfalse] at hholds
      exact absurd (APInt.ofBool_injective hholds) (by decide)
    · obtain ⟨c', hc', hno⟩ := ih (fun c' hc' => hcs c' (List.mem_cons_of_mem _ hc')) possible h
      exact ⟨c', List.mem_cons_of_mem _ hc', hno⟩

/-- A query proven valid has no assignment that satisfies the constraints and
falsifies the expression, with reads in bounds. -/
theorem propogateValues_valid {q : Query} (hq : ∀ e ∈ q.expr :: q.constraints, Accepts e ∧ e.weight < fuel)
    (h : propogateValues useVisitorHash fuel q true = some (cd, some true)) {σ : Bytes}
    (hσ : σ ∈ Models q.constraints) (hb : ∀ e ∈ q.expr :: q.constraints, e.InBounds σ) :
    q.expr.holds σ := by
  by_contra hno
  let P : Bytes → Prop := fun τ =>
    τ ∈ Models q.constraints ∧ ¬ q.expr.holds τ ∧ ∀ e ∈ q.expr :: q.constraints, e.InBounds τ
  have hPσ : P σ := ⟨hσ, hno, hb⟩
  have hfit : ∀ e ∈ q.expr :: q.constraints, e.WellTyped ∧
      ExprEvaluator.ReadsFit P (fun root => root.range = 8) e ∧ e.weight < fuel := fun e he =>
    ⟨(hq e he).1.bool.1, ExprEvaluator.readsFit_of_inBounds (hq e he).1.bytes fun τ hτ => hτ.2.2 e he,
      (hq e he).2⟩
  have hfalse : ∀ τ, P τ → q.expr.eval τ = APInt.ofBool false := by
    intro τ hτ
    have hexpr := (hq q.expr List.mem_cons_self).1.bool
    obtain ⟨b, hbτ⟩ := Expr.exists_bool τ hexpr.1 hexpr.2
    cases b
    · exact hbτ
    · exact absurd hbτ hτ.2.1
  obtain ⟨cd1, hcd1, h⟩ := Option.bind_eq_some_iff.mp h
  obtain ⟨cd0, hcd0, hcd1⟩ := Option.bind_eq_some_iff.mp hcd1
  have hinv0 := propogateConstraints_inv (fun c hc => (hq c (List.mem_cons_of_mem _ hc)).1)
    (fun τ (hτ : P τ) => hτ.1) {} hcd0 CexData.ExactInv.init
  have hinv := propogateValue_inv (hq q.expr List.mem_cons_self).1 hfalse hcd1 hinv0
  simp only [if_true, bind_eq_some] at h
  obtain ⟨possible, -, exact, hexact, h⟩ := h
  obtain ⟨ht, hreads, hlt⟩ := hfit q.expr List.mem_cons_self
  obtain ⟨r, hr, hsimp⟩ := CexData.evaluateExact_simplifies hinv useVisitorHash ht hreads hlt
  rw [hr] at hexact
  cases hexact
  split_ifs at h with htrue
  · exact hno ((hsimp.eval σ hPσ).symm.trans (Expr.eval_of_isTrue htrue σ))
  · obtain ⟨answer, hanswer, h⟩ := Option.bind_eq_some_iff.mp h
    cases h
    obtain ⟨c, hc, hnever⟩ := checkConstraints_valid hinv
      (fun c hc => hfit c (List.mem_cons_of_mem _ hc)) _ hanswer
    exact hnever σ hPσ (hσ c hc)

/-- `5 == A[300]` after a write to `A` at the byte `X[0]`, with the question
whether `5 == A[300]` without that write. -/
def byteIndexQuery : Query :=
  let x : Array := .symbolic 0 "X" 4 Array.four_lt_size
  let a : Array := .symbolic 1 "A" 400 (by decide)
  let index := concat (ConstantExpr.alloc 0 24) (read x .null (ConstantExpr.alloc 0 32))
  let five := ConstantExpr.alloc 5 8
  let at300 := ConstantExpr.alloc 300 32
  ⟨[binary .eq five (read a (.node .null index (ConstantExpr.alloc 7 8)) at300)],
    binary .eq five (read a .null at300)⟩

/-- `5 == A[70000]` after a write of 5 to `A` at the 32-bit word of `X`, with the
question whether `5 == A[70000]` without that write. -/
def wordIndexQuery : Query :=
  let x : Array := .symbolic 0 "X" 4 Array.four_lt_size
  let a : Array := .symbolic 1 "A" 131072 (by decide)
  let byte (i : ℕ) : Expr := read x .null (ConstantExpr.alloc i 32)
  let word := concat (byte 3) (concat (byte 2) (concat (byte 1) (byte 0)))
  let five := ConstantExpr.alloc 5 8
  let at70000 := ConstantExpr.alloc 70000 32
  ⟨[binary .eq five (read a (.node .null word five) at70000)], binary .eq five (read a .null at70000)⟩

def wordIndexBytes : Bytes := fun array i =>
  if array.id = 0 then BitVec.ofNat 8 (70000 / 256 ^ i) else 6

end FastCexSolver

end Klee
