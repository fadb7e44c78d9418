import DdKlee.Proofs.Create.Extract
import DdKlee.Proofs.ValueRange
import DdKlee.Spec.Canonical
import DdKlee.Spec.RangeEvaluator

/-! The range of an expression contains its values, unless a concatenation in
it is shifted by the wrong width. -/

namespace Klee.CexRangeEvaluator

open Expr

mutual

/-- What `evaluate` gets right: constants of at most 64 bits, and concatenations
whose right operand has the 8 bits the left one is shifted by. Operands that are
not looked at do not matter. -/
def RangeOk : Expr → Bool
  | constant c => c.width ≤ 64
  | .read _ head index => RangeOk index && UpdatesOk head
  | select c t f => RangeOk c && RangeOk t && RangeOk f
  | concat l r => RangeOk l && RangeOk r && r.getWidth == 8 && l.getWidth + 8 ≤ 64
  | binary k l r =>
      match k with
      | .shl | .lshr | .ashr => true
      | _ => RangeOk l && RangeOk r
  | notOptimized _ | .not _ | extract _ _ _ | .cast _ _ _ => true

def UpdatesOk : UpdateNode → Bool
  | .null => true
  | .node next i v => UpdatesOk next && RangeOk i && RangeOk v

end

variable {left right out : ValueRange} {w : ℕ}

theorem decided_contains {mustHold mustFail p : Bool} (h : decided mustHold mustFail = some out)
    (hhold : mustHold = true → p = true) (hfail : mustFail = true → p = false) :
    out.Contains 1 (APInt.ofBool p).toNat := by
  unfold decided at h
  split_ifs at h with h1 h2
  · cases h
    rw [hhold h1]
    exact ValueRange.contains_ofValue (by decide) (by decide)
  · cases h
    rw [hfail h2]
    exact ValueRange.contains_ofValue (by decide) (by decide)
  · exact ValueRange.contains_ofWidth h (by cases p <;> decide)

theorem sext_eq {n : ℕ} (hn : n < 2 ^ w) :
    ints.sext n w = if 2 * n < 2 ^ w then (n : ℤ) else n - (2 ^ w : ℕ) := by
  rw [ints.sext, BitVec.toInt_eq_toNat_cond, BitVec.toNat_ofNat, Nat.mod_eq_of_lt hn]

theorem signed_contains {x : BitVec w} (h : left.Contains w x.toNat) :
    (∀ lo, left.minSigned w = some lo → lo ≤ x.toInt) ∧
      ∀ hi, left.maxSigned w = some hi → x.toInt ≤ hi := by
  have hle := h.le
  have hge := h.ge
  have hlt := h.lt
  have hx := BitVec.toInt_eq_toNat_cond x
  -- the sign bit of a positive width
  have hhalf : left.signedDefined w = true → 2 ^ w = 2 * 2 ^ (w - 1) ∧ 0 < 2 ^ (w - 1) := by
    intro hdef
    simp only [ValueRange.signedDefined, Bool.and_eq_true, decide_eq_true_eq] at hdef
    obtain ⟨n, rfl⟩ : ∃ n, w = n + 1 := Nat.exists_eq_succ_of_ne_zero (by omega)
    exact ⟨by rw [Nat.add_sub_cancel, pow_succ, Nat.mul_comm], Nat.two_pow_pos _⟩
  constructor
  · intro lo hlo
    simp only [ValueRange.minSigned] at hlo
    split_ifs at hlo with hdef hmax
    · obtain ⟨hpow, hpos⟩ := hhalf hdef
      rw [sext_eq (by omega), if_neg (by omega)] at hlo
      cases hlo
      rw [hx]
      split_ifs <;> omega
    · obtain ⟨hpow, hpos⟩ := hhalf hdef
      cases hlo
      rw [hx, if_pos (by omega)]
      omega
  · intro hi hhi
    simp only [ValueRange.maxSigned] at hhi
    split_ifs at hhi with hdef hmax
    · obtain ⟨hpow, hpos⟩ := hhalf hdef
      cases hhi
      rw [hx]
      split_ifs <;> omega
    · obtain ⟨hpow, hpos⟩ := hhalf hdef
      rw [sext_eq hlt] at hhi
      cases hhi
      rw [hx]
      split_ifs <;> omega

theorem evaluateBinary_contains {k : BinaryKind} {x y : BitVec w}
    (hl : left.Contains w x.toNat) (hr : right.Contains w y.toNat)
    (h : evaluateBinary k w left right = some out) :
    out.Contains (if k.isCmp then 1 else w) (k.apply ⟨w, x⟩ ⟨w, y⟩).toNat := by
  have hwidth : ∀ z : APInt, z.width = w → z.toNat < 2 ^ w := fun z hz => hz ▸ z.toNat_lt
  have hlle := hl.le
  have hlge := hl.ge
  have hrle := hr.le
  have hrge := hr.ge
  cases k <;> simp only [BinaryKind.isCmp, BinaryKind.apply, evaluateBinary] at h ⊢
  case and =>
    rw [APInt.and_mk, APInt.toNat, BitVec.toNat_and]
    exact hl.binaryAnd hr h
  case or =>
    rw [APInt.or_mk, APInt.toNat, BitVec.toNat_or]
    exact hl.binaryOr hr h
  case xor =>
    rw [APInt.xor_mk, APInt.toNat, BitVec.toNat_xor]
    exact hl.binaryXor hr h
  case eq =>
    refine decided_contains h (fun hmust => ?_) fun hmay => ?_
    · simpa [BitVec.toNat_eq] using hl.eq_of_mustEqual hr hmust
    · rw [APInt.eq_mk, beq_eq_false_iff_ne]
      rintro rfl
      simp [hl.mayEqual hr] at hmay
  case ult =>
    simp only [hl.max_eq, hl.min_eq, hr.max_eq, hr.min_eq, some_bind] at h
    refine decided_contains h (fun hmust => ?_) fun hmust => ?_ <;>
      simp only [decide_eq_true_eq] at hmust <;>
      simp only [APInt.ult_mk, BitVec.ult, decide_eq_true_eq, decide_eq_false_iff_not] <;> omega
  case ule =>
    simp only [hl.max_eq, hl.min_eq, hr.max_eq, hr.min_eq, some_bind] at h
    refine decided_contains h (fun hmust => ?_) fun hmust => ?_ <;>
      simp only [decide_eq_true_eq] at hmust <;>
      simp only [APInt.ule_mk, BitVec.ule, decide_eq_true_eq, decide_eq_false_iff_not] <;> omega
  case slt =>
    simp only [bind_eq_some] at h
    obtain ⟨lmax, hlmax, rmin, hrmin, lmin, hlmin, rmax, hrmax, h⟩ := h
    have hlmin := (signed_contains hl).1 _ hlmin
    have hlmax := (signed_contains hl).2 _ hlmax
    have hrmin := (signed_contains hr).1 _ hrmin
    have hrmax := (signed_contains hr).2 _ hrmax
    refine decided_contains h (fun hmust => ?_) fun hmust => ?_ <;>
      simp only [decide_eq_true_eq] at hmust <;>
      simp only [APInt.slt_mk, BitVec.slt, decide_eq_true_eq, decide_eq_false_iff_not] <;> omega
  case sle =>
    simp only [bind_eq_some] at h
    obtain ⟨lmax, hlmax, rmin, hrmin, lmin, hlmin, rmax, hrmax, h⟩ := h
    have hlmin := (signed_contains hl).1 _ hlmin
    have hlmax := (signed_contains hl).2 _ hlmax
    have hrmin := (signed_contains hr).1 _ hrmin
    have hrmax := (signed_contains hr).2 _ hrmax
    refine decided_contains h (fun hmust => ?_) fun hmust => ?_ <;>
      simp only [decide_eq_true_eq] at hmust <;>
      simp only [APInt.sle_mk, BitVec.sle, decide_eq_true_eq, decide_eq_false_iff_not] <;> omega
  all_goals first
    | exact ValueRange.contains_ofWidth h (hwidth _ rfl)
    | cases h

theorem getInitialReadRange_contains {root : Array} (hrange : root.range = 8) {index : ValueRange} {i : APInt}
    (hi : index.Contains w i.toNat) (h : getInitialReadRange root index = some out) (σ : Bytes) :
    out.Contains 8 (root.initial σ i.toNat).toNat := by
  have hlt := (root.initial σ i.toNat).toNat_lt
  rw [root.initial_width, hrange] at hlt
  unfold getInitialReadRange at h
  split_ifs at h with hconst
  · obtain ⟨v, hv, h⟩ := Option.bind_eq_some_iff.mp h
    simp only [Bool.and_eq_true] at hconst
    split_ifs at h
    cases h
    have heq : root.initial σ i.toNat = v := by
      rw [hi.eq_of_isFixed hconst.1.2, Array.initial, hv]
    rw [heq] at hlt ⊢
    exact ValueRange.contains_ofValue hlt (by decide)
  · cases h
    exact ⟨Nat.zero_le _, Nat.le_of_lt_succ hlt, by decide, by decide⟩

theorem evalRead_grows {root : Array} {index : ValueRange} {head : UpdateNode} {x : ℕ} :
    ∀ {res r : ValueRange}, res.m_min ≤ x → x ≤ res.m_max → evalRead root index res head = some r →
      r.m_min ≤ x ∧ x ≤ r.m_max := by
  have hunion : ∀ {res b : ValueRange}, res.m_min ≤ x → x ≤ res.m_max →
      (res.set_union b).m_min ≤ x ∧ x ≤ (res.set_union b).m_max := fun hle hge =>
    ⟨(Nat.min_le_left _ _).trans hle, hge.trans (Nat.le_max_left _ _)⟩
  induction head with
  | null =>
    intro res r hle hge h
    simp only [evalRead, bind_eq_some] at h
    obtain ⟨b, -, h⟩ := h
    cases h
    exact hunion hle hge
  | node next i v ih =>
    intro res r hle hge h
    simp only [evalRead, bind_eq_some] at h
    obtain ⟨ui, -, h⟩ := h
    split_ifs at h
    · obtain ⟨rv, -, h⟩ := Option.bind_eq_some_iff.mp h
      cases h
      exact hunion hle hge
    · simp only [bind_eq_some] at h
      obtain ⟨rv, -, full, -, h⟩ := h
      obtain ⟨hle', hge'⟩ := hunion (b := rv) hle hge
      split_ifs at h
      · cases h
        exact ⟨hle', hge'⟩
      · exact ih hle' hge' h
    · exact ih hle hge h

theorem evaluate_concat {l r : Expr} :
    evaluate (concat l r) =
      (evaluate l).bind fun a => ((ValueRange.ofValue 0).binaryOr a).bind fun s =>
        (evaluate r).bind fun b => s.concat b 8 := rfl

theorem evaluate_shift {k : BinaryKind} (hk : k = .shl ∨ k = .lshr ∨ k = .ashr) {l r : Expr} :
    evaluate (binary k l r) = ValueRange.ofWidth l.getWidth := by
  rcases hk with rfl | rfl | rfl <;> rfl

theorem evaluate_binary {k : BinaryKind} (hk : ¬ (k = .shl ∨ k = .lshr ∨ k = .ashr)) {l r : Expr} :
    evaluate (binary k l r) =
      (evaluate l).bind fun a => (evaluate r).bind fun b => evaluateBinary k l.getWidth a b := by
  cases k <;> first | rfl | simp at hk

theorem rangeOk_binary {k : BinaryKind} (hk : ¬ (k = .shl ∨ k = .lshr ∨ k = .ashr)) {l r : Expr} :
    RangeOk (binary k l r) = (RangeOk l && RangeOk r) := by
  cases k <;> first | rfl | simp at hk

mutual

theorem evaluate_contains (σ : Bytes) : ∀ {e : Expr} {r : ValueRange}, e.WellTyped →
    e.AllReads (fun root _ => root.range = 8) → RangeOk e = true → evaluate e = some r →
    r.Contains e.getWidth (e.eval σ).toNat
  | .constant c, r, _, _, hok, h => by
    simp only [evaluate, Option.some.injEq] at h
    subst h
    exact ValueRange.contains_ofConstant (by simpa [RangeOk] using hok)
  | .notOptimized e, r, ht, _, _, h => ValueRange.contains_ofWidth h (Expr.toNat_eval_lt σ (e := e) ht)
  | .not e, r, ht, _, _, h => ValueRange.contains_ofWidth h (Expr.toNat_eval_lt σ (e := .not e) ht)
  | .extract e off w, r, ht, _, _, h =>
    ValueRange.contains_ofWidth h (Expr.toNat_eval_lt σ (e := .extract e off w) ht)
  | .cast k e w, r, ht, _, _, h =>
    ValueRange.contains_ofWidth h (Expr.toNat_eval_lt σ (e := .cast k e w) ht)
  | .read root head index, r, ⟨hhead, hi, hiw⟩, ⟨hrange, hheadr, hir⟩, hok, h => by
    simp only [evaluate, bind_eq_some] at h
    obtain ⟨ri, hri, h⟩ := h
    simp only [RangeOk, Bool.and_eq_true] at hok
    have hindex := evaluate_contains σ hi hir hok.1 hri
    rw [hiw] at hindex
    rw [getWidth, hrange]
    exact evalRead_contains σ hrange hindex (Expr.eval_width σ hi |>.trans hiw) hhead hheadr hok.2
      (by decide) h
  | .select c t f, r, ⟨hc, htt, hf, hcw, htf⟩, ⟨hcr, htr, hfr⟩, hok, h => by
    simp only [evaluate, bind_eq_some] at h
    obtain ⟨rc, hrc, h⟩ := h
    simp only [RangeOk, Bool.and_eq_true] at hok
    obtain ⟨⟨hokc, hokt⟩, hokf⟩ := hok
    have hcond := evaluate_contains σ hc hcr hokc hrc
    obtain ⟨p, hp⟩ := Expr.exists_bool σ hc hcw
    have heval : (Expr.select c t f).eval σ = if p then t.eval σ else f.eval σ := by
      rw [Expr.eval, hp]
      cases p <;> rfl
    rw [hp] at hcond
    rw [heval, getWidth]
    split_ifs at h with h1 h0
    · obtain rfl : p = true := by
        have := hcond.eq_of_mustBe h1
        cases p <;> simp_all [APInt.ofBool]
      exact evaluate_contains σ htt htr hokt h
    · obtain rfl : p = false := by
        have := hcond.eq_of_mustBe h0
        cases p <;> simp_all [APInt.ofBool]
      rw [htf]
      exact evaluate_contains σ hf hfr hokf h
    · simp only [bind_eq_some] at h
      obtain ⟨rt, hrt, rf, hrf, h⟩ := h
      cases h
      have ht' := evaluate_contains σ htt htr hokt hrt
      have hf' := evaluate_contains σ hf hfr hokf hrf
      rw [← htf] at hf'
      cases p
      · exact hf'.union_right ht'.lt
      · exact ht'.union_left hf'.lt
  | .concat a b, r, ⟨ha, hb⟩, ⟨har, hbr⟩, hok, h => by
    simp only [evaluate_concat, Option.bind_eq_some_iff] at h
    obtain ⟨ra, hra, s, hs, rb, hrb, h⟩ := h
    simp only [RangeOk, Bool.and_eq_true, beq_iff_eq, decide_eq_true_eq] at hok
    obtain ⟨⟨⟨hoka, hokb⟩, hbw⟩, hw⟩ := hok
    have ha' := evaluate_contains σ ha har hoka hra
    have hb' := evaluate_contains σ hb hbr hokb hrb
    have hs' := ValueRange.Contains.binaryOr
      (ValueRange.contains_ofValue (Nat.two_pow_pos _) ha'.width) ha' hs
    rw [Nat.zero_or] at hs'
    rw [hbw] at hb'
    obtain ⟨x, hx⟩ := Expr.exists_bits σ ha rfl
    obtain ⟨y, hy⟩ := Expr.exists_bits σ hb hbw
    have hcat : ((Expr.concat a b).eval σ).toNat = (a.eval σ).toNat <<< 8 ||| (b.eval σ).toNat := by
      rw [Expr.eval, hx, hy, ConstantExpr.Concat_mk, APInt.toNat, BitVec.toNat_append]
      rfl
    rw [hcat, getWidth, hbw]
    exact hs'.concat hb' hw h
  | .binary k a b, r, ⟨ha, hb, hab⟩, ⟨har, hbr⟩, hok, h => by
    by_cases hk : k = .shl ∨ k = .lshr ∨ k = .ashr
    · rw [evaluate_shift hk] at h
      have hlt := Expr.toNat_eval_lt σ (e := .binary k a b) ⟨ha, hb, hab⟩
      have hw : (Expr.binary k a b).getWidth = a.getWidth := by rcases hk with rfl | rfl | rfl <;> rfl
      rw [hw] at hlt ⊢
      exact ValueRange.contains_ofWidth h hlt
    · rw [evaluate_binary hk] at h
      simp only [Option.bind_eq_some_iff] at h
      obtain ⟨ra, hra, rb, hrb, h⟩ := h
      rw [rangeOk_binary hk, Bool.and_eq_true] at hok
      have ha' := evaluate_contains σ ha har hok.1 hra
      have hb' := evaluate_contains σ hb hbr hok.2 hrb
      obtain ⟨x, hx⟩ := Expr.exists_bits σ ha rfl
      obtain ⟨y, hy⟩ := Expr.exists_bits σ hb hab.symm
      rw [hx] at ha'
      rw [hy, ← hab] at hb'
      rw [Expr.eval, hx, hy]
      exact evaluateBinary_contains ha' hb' h

theorem evalRead_contains (σ : Bytes) {root : Array} (hrange : root.range = 8) {index : ValueRange}
    {i : APInt} (hi : index.Contains root.domain i.toNat) (hiw : i.width = root.domain) :
    ∀ {head : UpdateNode} {res r : ValueRange}, head.WellTyped root →
      head.AllReads (fun root _ => root.range = 8) → UpdatesOk head = true → res.m_max < 2 ^ 8 →
      evalRead root index res head = some r → r.Contains 8 (head.lookup σ root i).toNat
  | .null, res, r, _, _, _, hres, h => by
    simp only [evalRead, bind_eq_some] at h
    obtain ⟨out, hout, h⟩ := h
    cases h
    exact (getInitialReadRange_contains hrange hi hout σ).union_right hres
  | .node next ui uv, res, r, ⟨hnext, hui, huv, huiw, huvw⟩, ⟨hnextr, huir, huvr⟩, hok, hres, h => by
    simp only [evalRead, bind_eq_some] at h
    obtain ⟨rui, hrui, h⟩ := h
    simp only [UpdatesOk, Bool.and_eq_true] at hok
    obtain ⟨⟨hoknext, hokui⟩, hokuv⟩ := hok
    have hui' := evaluate_contains σ hui huir hokui hrui
    rw [huiw] at hui'
    have hw := (Expr.eval_width σ hui).trans (huiw.trans hiw.symm)
    have huv' : ∀ rv, evaluate uv = some rv → rv.Contains 8 (uv.eval σ).toNat := by
      intro rv hrv
      have := evaluate_contains σ huv huvr hokuv hrv
      rwa [huvw, hrange] at this
    rw [UpdateNode.lookup]
    split_ifs at h with hmust hmay
    · -- the update is the one read
      simp only [bind_eq_some] at h
      obtain ⟨rv, hrv, h⟩ := h
      cases h
      rw [if_pos (APInt.eq_of_toNat hw (hui'.eq_of_mustEqual hi hmust))]
      exact (huv' rv hrv).union_right hres
    · simp only [bind_eq_some] at h
      obtain ⟨rv, hrv, full, hfull, h⟩ := h
      have hv := (huv' rv hrv).union_right hres
      split_ifs at h with hf
      · -- nothing is outside the full range
        cases h
        subst hf
        have hlt : ((UpdateNode.node next ui uv).lookup σ root i).toNat < 2 ^ 8 := by
          have hnode : (UpdateNode.node next ui uv).WellTyped root := ⟨hnext, hui, huv, huiw, huvw⟩
          have hlookup := UpdateNode.lookup_width σ i hnode
          rw [hrange] at hlookup
          exact hlookup ▸ APInt.toNat_lt _
        simp only [ValueRange.isFullRange, bind_eq_some,
          Option.pure_def, Option.some.injEq, Bool.and_eq_true, beq_iff_eq] at hfull
        obtain ⟨m, hm, hfull⟩ := hfull
        obtain ⟨rfl, -⟩ := bits64.maxValueOfNBits_eq hm
        rw [UpdateNode.lookup] at hlt
        exact ⟨by omega, by omega, hv.lt, by decide⟩
      · have hrest := evalRead_contains σ hrange hi hiw hnext hnextr hoknext hv.lt h
        by_cases heq : ui.eval σ = i
        · rw [if_pos heq]
          obtain ⟨hle, hge⟩ := evalRead_grows hv.le hv.ge h
          exact ⟨hle, hge, hrest.lt, hrest.width⟩
        · rw [if_neg heq]
          exact hrest
    · -- the update is not the one read
      have hne : ui.eval σ ≠ i := by
        rintro rfl
        exact hmay (hui'.mayEqual hi)
      rw [if_neg hne]
      exact evalRead_contains σ hrange hi hiw hnext hnextr hoknext hres h

end

/-- The shifts of `minSigned` and `maxSigned` are by the width of the operands. -/
def isSignedDefined : Expr → Bool
  | binary .slt l _ | binary .sle l _ => l.getWidth < 64
  | _ => true

def SignedOk (e : Expr) : Prop := e.AllSub fun e => isSignedDefined e = true

instance (e : Expr) : Decidable (SignedOk e) := inferInstanceAs (Decidable (e.AllSub _))

/-- What is asked of every expression in an expression, for `evaluate` to reach
no assertion. -/
def Defined (e : Expr) : Prop :=
  (0 < e.getWidth ∧ e.getWidth ≤ 64) ∧ e.isCanonicalNode = true ∧ isSignedDefined e = true

theorem exists_decided (mustHold mustFail : Bool) : ∃ out, decided mustHold mustFail = some out := by
  unfold decided
  split_ifs
  · exact ⟨_, rfl⟩
  · exact ⟨_, rfl⟩
  · exact ValueRange.exists_ofWidth (by decide)

theorem exists_evaluateBinary {k : BinaryKind} {x y : ℕ} {l r : Expr} (hw : l.getWidth = w)
    (hk : ¬ (k = .shl ∨ k = .lshr ∨ k = .ashr)) (hdef : Defined (binary k l r)) (hpos : 0 < w)
    (hl : left.Contains w x) (hr : right.Contains w y) :
    ∃ out, evaluateBinary k w left right = some out := by
  obtain ⟨-, hcanonical, hsigned⟩ := hdef
  have hnarrow : k = .slt ∨ k = .sle → w < 64 := by
    rintro (rfl | rfl) <;> simpa [isSignedDefined, hw] using hsigned
  have hwidth := ValueRange.exists_ofWidth hl.width
  cases k <;> simp only [evaluateBinary]
  case and => exact hl.exists_binaryAnd hr
  case or => exact hl.exists_binaryOr hr
  case xor => exact hl.exists_binaryXor hr
  case eq => exact exists_decided _ _
  case ult | ule =>
    simp only [hl.max_eq, hl.min_eq, hr.max_eq, hr.min_eq, some_bind]
    exact exists_decided _ _
  case slt | sle =>
    obtain ⟨⟨lmin, hlmin⟩, lmax, hlmax⟩ := hl.exists_signed hpos (hnarrow (by simp))
    obtain ⟨⟨rmin, hrmin⟩, rmax, hrmax⟩ := hr.exists_signed hpos (hnarrow (by simp))
    simp only [hlmin, hlmax, hrmin, hrmax, some_bind]
    exact exists_decided _ _
  case shl | lshr | ashr => simp at hk
  case ne | ugt | uge | sgt | sge => cases hcanonical
  all_goals exact hwidth

theorem exists_getInitialReadRange {root : Array} (hrange : root.range = 8) (index : ValueRange) :
    ∃ out, getInitialReadRange root index = some out := by
  unfold getInitialReadRange
  split_ifs with hconst
  · simp only [Bool.and_eq_true, decide_eq_true_eq] at hconst
    have hsize : root.constantValues.length = root.size := by
      refine root.constant_size.resolve_left fun hnil => ?_
      simp [Array.isConstantArray, Array.isSymbolicArray, hnil] at hconst
    have hv := List.getElem?_eq_getElem (hsize.symm ▸ hconst.2)
    have hwidth := root.constant_range _ (List.mem_of_getElem? hv)
    exact ⟨.ofValue _, by rw [hv, some_bind, if_pos (by omega)]; rfl⟩
  · exact ⟨_, rfl⟩

mutual

theorem exists_evaluate (σ : Bytes) : ∀ {e : Expr}, e.WellTyped →
    e.AllReads (fun root _ => root.range = 8) → RangeOk e = true → e.AllSub Defined →
    ∃ r, evaluate e = some r
  | .constant c, _, _, _, _ => ⟨_, rfl⟩
  | .notOptimized e, _, _, _, hdef => ValueRange.exists_ofWidth hdef.1.1.2
  | .not e, _, _, _, hdef => ValueRange.exists_ofWidth hdef.1.1.2
  | .extract e off w, _, _, _, hdef => ValueRange.exists_ofWidth hdef.1.1.2
  | .cast k e w, _, _, _, hdef => ValueRange.exists_ofWidth hdef.1.1.2
  | .read root head index, ⟨hhead, hi, hiw⟩, ⟨hrange, hheadr, hir⟩, hok, hdef => by
    simp only [RangeOk, Bool.and_eq_true] at hok
    obtain ⟨ri, hri⟩ := exists_evaluate σ hi hir hok.1 hdef.2.2
    obtain ⟨r, hr⟩ : ∃ r, evalRead root ri {} head = some r :=
      exists_evalRead σ hrange ri hhead hheadr hok.2 hdef.2.1
    exact ⟨r, by rw [evaluate, hri]; exact hr⟩
  | .select c t f, ⟨hc, ht, hf, _, _⟩, ⟨hcr, htr, hfr⟩, hok, hdef => by
    simp only [RangeOk, Bool.and_eq_true] at hok
    obtain ⟨rc, hrc⟩ := exists_evaluate σ hc hcr hok.1.1 hdef.2.1
    obtain ⟨rt, hrt⟩ := exists_evaluate σ ht htr hok.1.2 hdef.2.2.1
    obtain ⟨rf, hrf⟩ := exists_evaluate σ hf hfr hok.2 hdef.2.2.2
    simp only [evaluate, hrc, hrt, hrf, some_bind]
    split_ifs <;> exact ⟨_, rfl⟩
  | .concat a b, ⟨ha, hb⟩, ⟨har, hbr⟩, hok, hdef => by
    simp only [RangeOk, Bool.and_eq_true, beq_iff_eq, decide_eq_true_eq] at hok
    obtain ⟨⟨⟨hoka, hokb⟩, hbw⟩, hw⟩ := hok
    obtain ⟨ra, hra⟩ := exists_evaluate σ ha har hoka hdef.2.1
    obtain ⟨rb, hrb⟩ := exists_evaluate σ hb hbr hokb hdef.2.2
    have ha' := evaluate_contains σ ha har hoka hra
    have hb' := evaluate_contains σ hb hbr hokb hrb
    have hzero : (ValueRange.ofValue 0).Contains a.getWidth 0 :=
      ValueRange.contains_ofValue (Nat.two_pow_pos _) ha'.width
    obtain ⟨s, hs⟩ := hzero.exists_binaryOr ha'
    obtain ⟨out, hout⟩ := (hzero.binaryOr ha' hs).exists_concat (hbw ▸ hb') hw (by decide)
    exact ⟨out, by rw [evaluate_concat, hra, Option.bind_some, hs, Option.bind_some, hrb]; exact hout⟩
  | .binary k a b, ⟨ha, hb, hab⟩, ⟨har, hbr⟩, hok, hdef => by
    by_cases hk : k = .shl ∨ k = .lshr ∨ k = .ashr
    · rw [evaluate_shift hk]
      exact ValueRange.exists_ofWidth hdef.2.1.self.1.2
    · rw [rangeOk_binary hk, Bool.and_eq_true] at hok
      obtain ⟨ra, hra⟩ := exists_evaluate σ ha har hok.1 hdef.2.1
      obtain ⟨rb, hrb⟩ := exists_evaluate σ hb hbr hok.2 hdef.2.2
      have hb' := evaluate_contains σ hb hbr hok.2 hrb
      rw [← hab] at hb'
      rw [evaluate_binary hk, hra, hrb]
      exact exists_evaluateBinary rfl hk hdef.1 hdef.2.1.self.1.1 (evaluate_contains σ ha har hok.1 hra) hb'

theorem exists_evalRead (σ : Bytes) {root : Array} (hrange : root.range = 8) (index : ValueRange) :
    ∀ {head : UpdateNode} {res : ValueRange}, head.WellTyped root →
      head.AllReads (fun root _ => root.range = 8) → UpdatesOk head = true → head.AllSub Defined →
      ∃ r, evalRead root index res head = some r
  | .null, res, _, _, _, _ => by
    obtain ⟨r, hr⟩ := exists_getInitialReadRange hrange index
    exact ⟨_, by rw [evalRead, hr]; rfl⟩
  | .node next ui uv, res, ⟨hnext, hui, huv, _, _⟩, ⟨hnextr, huir, huvr⟩, hok, hdef => by
    simp only [UpdatesOk, Bool.and_eq_true] at hok
    obtain ⟨rui, hrui⟩ := exists_evaluate σ hui huir hok.1.2 hdef.2.1
    obtain ⟨rv, hrv⟩ := exists_evaluate σ huv huvr hok.2 hdef.2.2
    have hrest : ∀ res, ∃ r, evalRead root index res next = some r := fun res =>
      exists_evalRead σ hrange index hnext hnextr hok.1.1 hdef.1
    have hbyte : bits64.maxValueOfNBits 8 = some 255 := rfl
    simp only [evalRead, hrui, hrv, some_bind, ValueRange.isFullRange, hbyte,
      Option.pure_def]
    split_ifs
    · exact ⟨_, rfl⟩
    · exact ⟨_, rfl⟩
    · exact hrest _
    · exact hrest _

end

def byteAt (i : ℕ) : Expr := read (.symbolic 0 "A" 3 (by decide)) .null (ConstantExpr.alloc i 32)

end Klee.CexRangeEvaluator
