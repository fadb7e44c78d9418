import DdKlee.Proofs.PossibleValues

/-! When the propagation of `FastCexSolver` reaches no assertion. A range that is
passed down may become empty at a comparison or at a zero extension, which a
concatenation or a sign extension below does not survive; the exact ranges
conflict only if no assignment satisfies the query. -/

namespace Klee

open Expr

namespace CexData

open CexRangeEvaluator (evaluate RangeOk Defined)

variable {cd : CexData} {empty : Bool} {range : ValueRange} {e l r : Expr} {pl pr : Propogate}

/-- No possible range is empty, and all are ranges of bytes. -/
def PossibleInv (cd : CexData) : Prop :=
  ∀ array cod, cd.objects array = some cod → ∀ i,
    (cod.possibleContents i).m_min ≤ (cod.possibleContents i).m_max ∧ (cod.possibleContents i).m_max ≤ 255

theorem PossibleInv.init : PossibleInv {} := fun _ _ h => by cases h

theorem PossibleInv.setObject (h : PossibleInv cd) {array : Array} {cod : CexObjectData}
    (hcod : ∀ i, (cod.possibleContents i).m_min ≤ (cod.possibleContents i).m_max ∧
      (cod.possibleContents i).m_max ≤ 255) : PossibleInv (cd.setObject array cod) := by
  intro array' cod' hcod'
  simp only [CexData.setObject, Function.update_apply] at hcod'
  split_ifs at hcod'
  · cases hcod'
    exact hcod
  · exact h array' cod' hcod'

theorem PossibleInv.getObjectData (h : PossibleInv cd) (array : Array) :
    (∀ i, ((cd.getObjectData array).1.possibleContents i).m_min ≤
        ((cd.getObjectData array).1.possibleContents i).m_max ∧
      ((cd.getObjectData array).1.possibleContents i).m_max ≤ 255) ∧
      PossibleInv (cd.getObjectData array).2 := by
  have hnew : ∀ i, (({} : CexObjectData).possibleContents i).m_min ≤
      (({} : CexObjectData).possibleContents i).m_max ∧ (({} : CexObjectData).possibleContents i).m_max ≤ 255 :=
    fun _ => ⟨Nat.zero_le _, le_rfl⟩
  unfold CexData.getObjectData
  split
  · rename_i cod hcod
    exact ⟨h array cod hcod, h⟩
  · exact ⟨hnew, h.setObject hnew⟩

structure Fits (empty : Bool) (range : ValueRange) : Prop where
  lt : range.m_max < 2 ^ 64
  le : empty = false → range.m_min ≤ range.m_max

theorem Fits.ofValue {v : ℕ} (h : v < 2 ^ 64) : Fits empty (.ofValue v) := ⟨h, fun _ => le_rfl⟩

theorem fits_of_contains {w x : ℕ} (h : range.Contains w x) : Fits false range :=
  ⟨h.lt_64, fun _ => h.le.trans h.ge⟩

/-- A propagation of ranges that do not fail an assertion and keep the possible
ranges right. -/
def Propogates (empty : Bool) (f : Propogate) : Prop :=
  ∀ range cd, Fits empty range → PossibleInv cd → ∃ cd', f range cd = some cd' ∧ PossibleInv cd'

theorem propogates_some : Propogates empty fun _ cd => some cd := fun _ cd _ hcd => ⟨cd, rfl, hcd⟩

theorem propogatePossibleRead_propogates {root : Array} {index : Expr} (hindex : index.getWidth ≤ 64) :
    Propogates empty (propogatePossibleRead root index) := by
  intro range cd _ hcd
  obtain ⟨hcod, hcd⟩ := hcd.getObjectData root
  simp only [propogatePossibleRead]
  split
  · rename_i ce
    rw [if_pos (show ce.width ≤ 64 from hindex)]
    split_ifs with _ hfixed htmp
    · refine ⟨_, rfl, hcd.setObject fun i => ?_⟩
      simp only [CexObjectData.setPossibleValue, CexObjectData.setPossibleValues, Function.update_apply]
      split_ifs
      · exact ⟨le_rfl, Nat.le_of_lt_succ (Nat.mod_lt _ (by decide))⟩
      · exact hcod i
    · exact ⟨_, rfl, hcd⟩
    · refine ⟨_, rfl, hcd.setObject fun i => ?_⟩
      simp only [CexObjectData.setPossibleValues, Function.update_apply]
      split_ifs
      · have hmax := (hcod ce.toNat).2
        exact ⟨by simpa [ValueRange.isEmpty] using htmp, (Nat.min_le_left _ _).trans hmax⟩
      · exact hcod i
    · exact ⟨_, rfl, hcd⟩
  · exact ⟨_, rfl, hcd⟩

theorem exists_maxValueOfNBits {n : ℕ} (hn : n ≤ 64) : ∃ m, bits64.maxValueOfNBits n = some m ∧ m < 2 ^ 64 := by
  obtain ⟨m, hm⟩ : ∃ m, bits64.maxValueOfNBits n = some m := by
    simp only [bits64.maxValueOfNBits, if_pos hn]
    split_ifs <;> exact ⟨_, rfl⟩
  have hpow := Nat.pow_le_pow_right (n := 2) (by decide) hn
  have hpos := Nat.two_pow_pos n
  exact ⟨m, hm, by rw [(bits64.maxValueOfNBits_eq hm).1]; omega⟩

theorem exists_extract (h : Fits false range) (lowBit maxBit : ℕ) (hlow : lowBit < 64)
    (hmax : maxBit - lowBit ≤ 64) :
    ∃ out, range.extract lowBit maxBit = some out ∧ Fits false out := by
  obtain ⟨m, hm, hlt⟩ := exists_maxValueOfNBits hmax
  have hshift : (⟨range.m_min >>> lowBit, range.m_max >>> lowBit⟩ : ValueRange).Contains 64
      (range.m_max >>> lowBit) := by
    simp only [Nat.shiftRight_eq_div_pow]
    exact ⟨Nat.div_le_div_right (h.le rfl), le_rfl, (Nat.div_le_self _ _).trans_lt h.lt, le_rfl⟩
  have hmask := ValueRange.contains_ofValue hlt le_rfl
  obtain ⟨out, hout⟩ := hshift.exists_binaryAnd hmask
  refine ⟨out, ?_, fits_of_contains (hshift.binaryAnd hmask hout)⟩
  simp only [ValueRange.extract, ValueRange.binaryShiftRight, if_pos hlow, hm, some_bind]
  exact hout

section Operands

variable (hevall : ∃ x, evaluate l = some x) (hevalr : ∃ x, evaluate r = some x)

include hevall hevalr

theorem exists_propogateEither (hl : Propogates false pl) (hr : Propogates false pr) {v : ℕ} (hv : v < 2 ^ 64)
    (hcd : PossibleInv cd) : ∃ cd', propogateEither l r pl pr v cd = some cd' ∧ PossibleInv cd' := by
  obtain ⟨x, hx⟩ := hevall
  obtain ⟨y, hy⟩ := hevalr
  simp only [propogateEither, hx, hy, some_bind]
  split_ifs with _ hone
  · exact ⟨cd, rfl, hcd⟩
  · obtain ⟨cd1, h1, hcd1⟩ := hl _ cd (.ofValue hv) hcd
    exact ⟨cd1, by rw [h1]; rfl, hcd1⟩
  · obtain ⟨cd1, h1, hcd1⟩ := hl _ cd (.ofValue hv) hcd
    rw [h1, some_bind]
    exact hr _ cd1 (.ofValue hv) hcd1

omit hevall hevalr in
theorem exists_propogateUnless {known : ValueRange} (hl : Propogates false pl) {v : ℕ} (hv : v < 2 ^ 64)
    (hcd : PossibleInv cd) : ∃ cd', propogateUnless known pl v cd = some cd' ∧ PossibleInv cd' := by
  unfold propogateUnless
  split_ifs
  · exact ⟨cd, rfl, hcd⟩
  · exact hl _ cd (.ofValue hv) hcd

theorem exists_propogateBoth (hl : Propogates false pl) (hr : Propogates false pr) {v : ℕ} (hv : v < 2 ^ 64)
    (hcd : PossibleInv cd) : ∃ cd', propogateBoth l r pl pr v cd = some cd' ∧ PossibleInv cd' := by
  obtain ⟨x, hx⟩ := hevall
  obtain ⟨y, hy⟩ := hevalr
  simp only [propogateBoth, hx, hy, some_bind]
  obtain ⟨cd1, h1, hcd1⟩ : ∃ cd', propogateUnless x pl v cd = some cd' ∧ PossibleInv cd' :=
    exists_propogateUnless hl hv hcd
  rw [h1, some_bind]
  exact exists_propogateUnless hr hv hcd1

end Operands

theorem exists_propogateCompare {w w' x y : ℕ} {rl rr : ValueRange} (hevall : evaluate l = some rl)
    (hevalr : evaluate r = some rr) (hrl : rl.Contains w x) (hrr : rr.Contains w' y) (hw : r.getWidth ≤ 64)
    (hl : Propogates true pl) (hr : Propogates true pr) {f g : ℕ → ℕ → ValueRange}
    (hf : ∀ v m, v < 2 ^ 64 → m < 2 ^ 64 → (f v m).m_max < 2 ^ 64)
    (hg : ∀ v m, v < 2 ^ 64 → m < 2 ^ 64 → (g v m).m_max < 2 ^ 64) (hcd : PossibleInv cd) :
    ∃ cd', propogateCompare l r pl pr f g cd = some cd' ∧ PossibleInv cd' := by
  obtain ⟨m, hm, hlt⟩ := exists_maxValueOfNBits hw
  have hrl' := (hrl.le.trans hrl.ge).trans_lt hrl.lt_64
  have hrr' := (hrr.le.trans hrr.ge).trans_lt hrr.lt_64
  simp only [propogateCompare, hevall, hevalr, hm, some_bind]
  split_ifs
  · exact hr _ cd ⟨hf _ _ hrl' hlt, by simp⟩ hcd
  · exact hl _ cd ⟨hg _ _ hrr' hlt, by simp⟩ hcd
  · exact ⟨cd, rfl, hcd⟩

/-- Where a propagated range may be empty, there is no concatenation; there is no
sign extension; and the ranges that are looked at on the way are right. -/
def PossibleOk : Bool → Expr → Bool
  | empty, select c t f => RangeOk c && PossibleOk empty t && PossibleOk empty f
  | empty, concat l r => !empty && PossibleOk false l && PossibleOk false r
  | _, .cast .zext src _ => PossibleOk true src
  | _, .cast .sext _ _ => false
  | _, binary .add l r | _, binary .eq l r => !l.isConstant || PossibleOk false r
  | _, binary .and l r | _, binary .or l r =>
      l.getWidth != 1 || RangeOk l && RangeOk r && PossibleOk false l && PossibleOk false r
  | _, .not e => e.getWidth != 1 || PossibleOk false e
  | _, binary .ult l r | _, binary .ule l r =>
      RangeOk l && RangeOk r && PossibleOk true l && PossibleOk true r
  | _, _ => true

theorem exists_range (ht : e.WellTyped) (hbytes : e.AllReads fun root _ => root.range = 8)
    (hdef : e.AllSub Defined) (hok : RangeOk e = true) :
    ∃ x, evaluate e = some x ∧ ∃ v, x.Contains e.getWidth v := by
  obtain ⟨x, hx⟩ := CexRangeEvaluator.exists_evaluate (fun _ _ => 0) ht hbytes hok hdef
  exact ⟨x, hx, _, CexRangeEvaluator.evaluate_contains (fun _ _ => 0) ht hbytes hok hx⟩

theorem propogatePossibleValues_propogates : ∀ {e : Expr} {empty : Bool}, e.WellTyped →
    e.AllReads (fun root _ => root.range = 8) → e.AllSub Defined → PossibleOk empty e = true →
    Propogates empty (propogatePossibleValues e)
  | .read _ _ _, _, _, _, hdef, _ => propogatePossibleRead_propogates hdef.2.2.self.1.2
  | .constant _, _, _, _, _, _ | .notOptimized _, _, _, _, _, _ | .extract _ _ _, _, _, _, _, _ =>
    propogates_some
  | .select c t f, _, ⟨hc, ht, hf, _, _⟩, ⟨hcr, htr, hfr⟩, ⟨_, hcd, htd, hfd⟩, hok => by
    simp only [PossibleOk, Bool.and_eq_true] at hok
    have ht' := propogatePossibleValues_propogates ht htr htd hok.1.2
    have hf' := propogatePossibleValues_propogates hf hfr hfd hok.2
    obtain ⟨cond, hcond, -⟩ := exists_range hc hcr hcd hok.1.1
    intro range cd hfits hinv
    simp only [propogatePossibleValues, hcond, some_bind]
    split_ifs
    · exact ht' range cd hfits hinv
    · exact hf' range cd hfits hinv
    · obtain ⟨cd1, h1, hinv1⟩ := ht' range cd hfits hinv
      rw [h1, some_bind]
      exact hf' range cd1 hfits hinv1
  | .concat a b, empty, ⟨ha, hb⟩, ⟨har, hbr⟩, ⟨hd, had, hbd⟩, hok => by
    simp only [PossibleOk, Bool.and_eq_true, Bool.not_eq_true'] at hok
    obtain ⟨⟨rfl, hoka⟩, hokb⟩ := hok
    have hwa := had.self.1.1
    have hw : a.getWidth + b.getWidth ≤ 64 := hd.1.2
    intro range cd hfits hinv
    obtain ⟨high, hhigh, hfits1⟩ :=
      exists_extract hfits b.getWidth (b.getWidth + b.getWidth) (by omega) (by omega)
    obtain ⟨low, hlow, hfits2⟩ := exists_extract hfits 0 b.getWidth (by omega) (by omega)
    obtain ⟨cd1, h1, hinv1⟩ := propogatePossibleValues_propogates ha har had hoka high cd hfits1 hinv
    simp only [propogatePossibleValues, hhigh, hlow, h1, some_bind]
    exact propogatePossibleValues_propogates hb hbr hbd hokb low cd1 hfits2 hinv1
  | .not e, _, ht, hr, hdef, hok => by
    intro range cd _ hinv
    simp only [propogatePossibleValues]
    by_cases hc : e.getWidth = 1 ∧ range.isFixed = true
    · rw [if_pos hc]
      have hoke : PossibleOk false e = true := by simpa [PossibleOk, hc.1] using hok
      exact propogatePossibleValues_propogates (e := e) ht hr hdef.2 hoke _ cd
        (.ofValue (by split_ifs <;> decide)) hinv
    · rw [if_neg hc]
      exact ⟨cd, rfl, hinv⟩
  | .cast .zext src _, _, ⟨ht, _⟩, hr, ⟨_, hdef⟩, hok => by
    intro range cd hfits hinv
    obtain ⟨x, hx⟩ := ValueRange.exists_ofWidth hdef.self.1.2
    simp only [propogatePossibleValues, hx, some_bind]
    exact propogatePossibleValues_propogates (e := src) ht hr hdef (by simpa [PossibleOk] using hok) _ cd
      ⟨(Nat.min_le_left _ _).trans_lt hfits.lt, by simp⟩ hinv
  | .cast .sext _ _, _, _, _, _, hok => by simp [PossibleOk] at hok
  | .binary k a b, empty, ⟨ha, hb, hab⟩, ⟨har, hbr⟩, ⟨hd, had, hbd⟩, hok => by
    have iha : ∀ {empty}, PossibleOk empty a = true → Propogates empty (propogatePossibleValues a) :=
      propogatePossibleValues_propogates ha har had
    have ihb : ∀ {empty}, PossibleOk empty b = true → Propogates empty (propogatePossibleValues b) :=
      propogatePossibleValues_propogates hb hbr hbd
    intro range cd hfits hinv
    have hkeep : ∃ cd', some cd = some cd' ∧ PossibleInv cd' := ⟨cd, rfl, hinv⟩
    cases k <;> simp only [propogatePossibleValues]
    case add =>
      split
      · rename_i ce
        split_ifs with hc hempty
        · exact hkeep
        · have hpow := Nat.pow_le_pow_right (n := 2) (by decide) hc.1
          have hok' : PossibleOk false b = true := by simpa [PossibleOk, isConstant] using hok
          exact ihb hok' _ cd ⟨(APInt.toNat_lt _).trans_le hpow,
            fun _ => by simpa [ValueRange.isEmpty] using hempty⟩ hinv
        · exact hkeep
      · exact hkeep
    case eq =>
      split
      · rename_i ce
        have hok' : PossibleOk false b = true := by simpa [PossibleOk, isConstant] using hok
        have hwidth : 0 < ce.width := had.self.1.1
        split_ifs with hc hone hzero
        · exact ihb hok' _ cd (.ofValue (ce.toNat_lt.trans_le (Nat.pow_le_pow_right (by decide) hc.2))) hinv
        · obtain ⟨m, hm, hlt⟩ := exists_maxValueOfNBits hc.2
          have hpow := Nat.pow_le_pow_right (n := 2) (by decide) hwidth
          have hle : 1 ≤ m := by rw [(bits64.maxValueOfNBits_eq hm).1]; omega
          rw [hm, some_bind]
          exact ihb hok' _ cd ⟨hlt, fun _ => hle⟩ hinv
        · have hlt := ce.toNat_lt.trans_le (Nat.pow_le_pow_right (n := 2) (by decide) hc.2)
          exact ihb hok' _ cd ⟨by dsimp only; omega, fun _ => Nat.zero_le _⟩ hinv
        · exact hkeep
      · exact hkeep
    case and | or =>
      by_cases hc : a.getWidth = 1 ∧ range.isFixed = true
      · rw [if_pos hc]
        have hok' : ((RangeOk a = true ∧ RangeOk b = true) ∧ PossibleOk false a = true) ∧
            PossibleOk false b = true := by simpa [PossibleOk, hc.1] using hok
        obtain ⟨⟨⟨hra, hrb⟩, hpa⟩, hpb⟩ := hok'
        obtain ⟨x, hx, -⟩ := exists_range ha har had hra
        obtain ⟨y, hy, -⟩ := exists_range hb hbr hbd hrb
        split_ifs
        · exact exists_propogateEither ⟨x, hx⟩ ⟨y, hy⟩ (iha hpa) (ihb hpb) (by decide) hinv
        · exact exists_propogateBoth ⟨x, hx⟩ ⟨y, hy⟩ (iha hpa) (ihb hpb) (by decide) hinv
      · rw [if_neg hc]
        exact hkeep
    case ult | ule =>
      have hok' : ((RangeOk a = true ∧ RangeOk b = true) ∧ PossibleOk true a = true) ∧
          PossibleOk true b = true := by simpa [PossibleOk] using hok
      obtain ⟨⟨⟨hra, hrb⟩, hpa⟩, hpb⟩ := hok'
      obtain ⟨x, hx, _, hcx⟩ := exists_range ha har had hra
      obtain ⟨y, hy, _, hcy⟩ := exists_range hb hbr hbd hrb
      split_ifs
      · refine exists_propogateCompare hx hy hcx hcy hbd.self.1.2 (iha hpa) (ihb hpb) ?_ ?_ hinv <;>
          intro v m hv hm <;> dsimp only <;> omega
      · refine exists_propogateCompare hx hy hcx hcy hbd.self.1.2 (iha hpa) (ihb hpb) ?_ ?_ hinv <;>
          intro v m hv hm <;> dsimp only <;> omega
      · exact hkeep
    case ne | ugt | uge | sgt | sge => cases hd.2.1
    all_goals exact hkeep

theorem exists_narrow {cvd : ValueRange} {x : ℕ} (hr : range.Contains 8 x) (hc : cvd.Contains 8 x) :
    ∃ out, narrow range cvd = some out := by
  have hmin := hr.le.trans hc.ge
  have hmid : ∃ mid, raiseMin range.m_min cvd = some mid ∧ mid.Contains 8 x := by
    simp only [raiseMin, hc.not_isEmpty, Bool.false_eq_true, if_false]
    split_ifs
    · exact ⟨_, rfl, hr.le, hc.ge, hc.lt, hc.width⟩
    · exact ⟨_, rfl, hc⟩
  obtain ⟨mid, hraise, hm⟩ := hmid
  have hmax := hm.le.trans hr.ge
  simp only [narrow, hr.min_eq, hr.max_eq, hraise, some_bind, lowerMax, hm.not_isEmpty,
    Bool.false_eq_true, if_false]
  split_ifs <;> exact ⟨_, rfl⟩

section Exact

variable {σ : Bytes}

theorem exists_propogateExactInitial {root : Array} (hrange : root.range = 8) {readIndex : Expr}
    {index range : ValueRange} {w : ℕ} (hindex : index.Contains w (readIndex.eval σ).toNat)
    (hbound : (readIndex.eval σ).toNat < root.size)
    (hr : range.Contains 8 (root.initial σ (readIndex.eval σ).toNat).toNat)
    (hcd : ExactInv (· = σ) cd) (hinv : PossibleInv cd) :
    ∃ cd', propogateExactInitial root index range cd = some cd' ∧ PossibleInv cd' := by
  unfold propogateExactInitial
  by_cases hfixed : index.isFixed = true
  · have heq := hindex.eq_of_isFixed hfixed
    rw [heq] at hr hbound
    rw [if_pos hfixed]
    by_cases hconst : root.isConstantArray = true
    · have hsize : root.constantValues.length = root.size := by
        refine root.constant_size.resolve_left fun hnil => ?_
        simp [Array.isConstantArray, Array.isSymbolicArray, hnil] at hconst
      rw [if_pos hconst, List.getElem?_eq_getElem (hsize.symm ▸ hbound)]
      exact ⟨cd, rfl, hinv⟩
    · have hnone : root.constantValues[index.m_min]? = none := by
        simp_all [Array.isConstantArray, Array.isSymbolicArray]
      rw [initial_toNat hrange hnone] at hr
      obtain ⟨hcod, -⟩ := hcd.getObjectData root
      obtain ⟨hpossible, hinv'⟩ := hinv.getObjectData root
      obtain ⟨cvd, hcvd⟩ := exists_narrow hr (hcod σ rfl index.m_min)
      rw [if_neg hconst, if_pos hbound]
      simp only [hcvd, some_bind]
      refine ⟨_, rfl, hinv'.setObject ?_⟩
      exact hpossible
  · rw [if_neg hfixed]
    exact ⟨cd, rfl, hinv⟩

mutual

theorem exists_propogateExactValues : ∀ {e : Expr} {range : ValueRange} {cd : CexData}, e.WellTyped →
    e.AllReads (fun root _ => root.range = 8) → e.AllSub Defined → e.InBounds σ → ExactOk e = true →
    range.Contains e.getWidth (e.eval σ).toNat → ExactInv (· = σ) cd → PossibleInv cd →
    ∃ cd', propogateExactValues e range cd = some cd' ∧ PossibleInv cd'
  | .constant _, _, cd, _, _, _, _, _, _, _, hinv | .notOptimized _, _, cd, _, _, _, _, _, _, _, hinv
  | .select _ _ _, _, cd, _, _, _, _, _, _, _, hinv | .concat _ _, _, cd, _, _, _, _, _, _, _, hinv
  | .extract _ _ _, _, cd, _, _, _, _, _, _, _, hinv | .cast _ _ _, _, cd, _, _, _, _, _, _, _, hinv =>
    ⟨cd, rfl, hinv⟩
  | .not e, range, cd, ht, hreads, hdef, hb, hok, hr, hcd, hinv => by
    rcases propogateExactNot_cases (P := (· = σ)) (e := e) ht (fun τ hτ => hτ ▸ hr) with
      hkeep | ⟨range', hr', heq⟩
    · exact ⟨cd, hkeep cd, hinv⟩
    · rw [heq]
      exact exists_propogateExactValues (e := e) ht hreads hdef.2 hb hok (hr' σ rfl) hcd hinv
  | .read root head index, range, cd, ⟨hhead, hi, hiw⟩, ⟨hrange, hheadr, hir⟩, ⟨_, hheadd, hid⟩,
      ⟨hbound, hheadb, hib⟩, hok, hr, hcd, hinv => by
    simp only [ExactOk, Bool.and_eq_true] at hok
    obtain ⟨ri, hri⟩ := CexRangeEvaluator.exists_evaluate σ hi hir hok.1 hid
    have hindex : IndexOk root index ri := by
      refine ⟨hrange, hi, hiw, fun τ => ?_⟩
      have := CexRangeEvaluator.evaluate_contains τ hi hir hok.1 hri
      rwa [hiw] at this
    rw [getWidth, hrange] at hr
    simp only [propogateExactValues, hri, some_bind]
    exact exists_propogateExactRead hindex hbound hhead hheadr hheadd hheadb hok.2 hr (hcd.getObjectData root).2
      (hinv.getObjectData root).2
  | .binary k l r, range, cd, ⟨hl, hrt, hlr⟩, ⟨_, hreads⟩, ⟨hd, _, hdef⟩, ⟨_, hb⟩, hok, hr, hcd, hinv => by
    cases k <;> simp only [propogateExactValues]
    case eq =>
      cases l with
      | constant ce =>
        have hokr : ExactOk r = true := by simpa [ExactOk, isConstant] using hok
        rcases propogateExactEq_cases (P := (· = σ)) hrt hlr (fun τ hτ => hτ ▸ hr) with hkeep | ⟨range', hr', heq⟩
        · exact ⟨cd, hkeep cd, hinv⟩
        · obtain ⟨cd', h, hinv'⟩ := exists_propogateExactValues hrt hreads hdef hb hokr (hr' σ rfl) hcd hinv
          exact ⟨cd', (heq cd).trans h, hinv'⟩
      | _ => exact ⟨cd, rfl, hinv⟩
    case ne | ugt | uge | sgt | sge => cases hd.2.1
    all_goals exact ⟨cd, rfl, hinv⟩

theorem exists_propogateExactRead {root : Array} {readIndex : Expr} {index : ValueRange}
    (hindex : IndexOk root readIndex index) (hbound : (readIndex.eval σ).toNat < root.size) :
    ∀ {head : UpdateNode} {range : ValueRange} {cd : CexData}, head.WellTyped root →
      head.AllReads (fun root _ => root.range = 8) → head.AllSub Defined →
      head.AllReads (fun root i => (i.eval σ).toNat < root.size) → ExactUpdatesOk head = true →
      range.Contains 8 (head.lookup σ root (readIndex.eval σ)).toNat → ExactInv (· = σ) cd → PossibleInv cd →
      ∃ cd', propogateExactRead root readIndex index head range cd = some cd' ∧ PossibleInv cd'
  | .null, _, _, _, _, _, _, _, hr, hcd, hinv =>
    exists_propogateExactInitial hindex.range (hindex.contains σ) hbound hr hcd hinv
  | .node next i v, range, cd, ⟨hnext, hi, hv, hiw, hvw⟩, ⟨hnextr, hir, hvr⟩, ⟨hnextd, hid, hvd⟩,
      ⟨hnextb, _, hvb⟩, hok, hr, hcd, hinv => by
    simp only [ExactUpdatesOk, Bool.and_eq_true] at hok
    obtain ⟨⟨hoknext, hoki⟩, hokv⟩ := hok
    obtain ⟨ui, hui⟩ := CexRangeEvaluator.exists_evaluate σ hi hir hoki hid
    have hui' := CexRangeEvaluator.evaluate_contains σ hi hir hoki hui
    rw [hiw] at hui'
    have hw : (i.eval σ).width = (readIndex.eval σ).width := by
      rw [Expr.eval_width σ hi, Expr.eval_width σ hindex.typed, hiw, hindex.width]
    simp only [propogateExactRead, hui, some_bind]
    split_ifs with hmay hmust
    · have hne : i.eval σ ≠ readIndex.eval σ := by
        intro heq
        rw [heq] at hui'
        simp [hui'.mayEqual (hindex.contains σ)] at hmay
      rw [UpdateNode.lookup, if_neg hne] at hr
      exact exists_propogateExactRead hindex hbound hnext hnextr hnextd hnextb hoknext hr hcd hinv
    · have heq : i.eval σ = readIndex.eval σ := by
        rw [Bool.or_eq_true, decide_eq_true_eq] at hmust
        rcases hmust with hmust | rfl
        · exact APInt.eq_of_toNat hw (hui'.eq_of_mustEqual (hindex.contains σ) hmust)
        · rfl
      rw [UpdateNode.lookup, if_pos heq] at hr
      exact exists_propogateExactValues hv hvr hvd hvb hokv (by rwa [hvw, hindex.range]) hcd hinv
    · exact ⟨cd, rfl, hinv⟩

end

end Exact

end CexData

namespace FastCexSolver

open CexRangeEvaluator (Defined)

variable {cd : CexData} {useVisitorHash : Bool} {fuel : ℕ} {σ : Bytes}

/-- The expressions that are propagated: canonical Bool expressions of at most 64
bits, over arrays of bytes that are indexed by at most 32 bits. -/
structure Propogable (e : Expr) : Prop where
  bool : IsConstraint e
  bytes : e.AllReads fun root _ => root.range = 8
  narrow : e.Narrow
  canonical : e.Canonical
  fits : e.Fits64

structure PropogateOk (e : Expr) : Prop where
  signed : CexRangeEvaluator.SignedOk e
  possible : CexData.PossibleOk false e = true
  exact : CexData.ExactOk e = true

theorem Propogable.defined {e : Expr} (he : Propogable e) (hok : PropogateOk e) : e.AllSub Defined :=
  he.fits.and (he.canonical.and hok.signed)

theorem exists_propogateValue {e : Expr} (he : Propogable e) (hok : PropogateOk e) (hb : e.InBounds σ) {b : Bool}
    (hval : e.eval σ = APInt.ofBool b) (hcd : CexData.ExactInv (· = σ) cd) (hinv : CexData.PossibleInv cd) :
    ∃ cd', propogateValue e b.toNat cd = some cd' ∧ CexData.ExactInv (· = σ) cd' ∧ CexData.PossibleInv cd' := by
  have hb' : b.toNat < 2 ^ 64 := by cases b <;> decide
  obtain ⟨cd1, h1, hinv1⟩ := CexData.propogatePossibleValues_propogates he.bool.1 he.bytes (he.defined hok)
    hok.possible (.ofValue b.toNat) cd (.ofValue hb') hinv
  have hcd1 := CexData.propogatePossibleValues_preserves e _ _ _ h1 hcd
  have hr : (ValueRange.ofValue b.toNat).Contains e.getWidth (e.eval σ).toNat := by
    rw [hval, he.bool.2, APInt.toNat_ofBool]
    exact ValueRange.contains_ofValue (by cases b <;> decide) (by decide)
  obtain ⟨cd2, h2, hinv2⟩ := CexData.exists_propogateExactValues he.bool.1 he.bytes (he.defined hok) hb hok.exact
    hr hcd1 hinv1
  have h : propogateValue e b.toNat cd = some cd2 := by rw [propogateValue, h1]; exact h2
  exact ⟨cd2, h, propogateValue_inv ⟨he.bool, he.bytes, hok.exact⟩ (fun τ hτ => hτ ▸ hval) h hcd, hinv2⟩

theorem exists_propogateConstraints {cs : List Expr}
    (hcs : ∀ c ∈ cs, Propogable c ∧ PropogateOk c ∧ c.InBounds σ) (hσ : σ ∈ Models cs) :
    ∀ {cd}, CexData.ExactInv (· = σ) cd → CexData.PossibleInv cd →
      ∃ cd', cs.foldlM (fun cd c => propogateValue c 1 cd) cd = some cd' ∧
        CexData.ExactInv (· = σ) cd' ∧ CexData.PossibleInv cd' := by
  induction cs with
  | nil => exact fun hcd hinv => ⟨_, rfl, hcd, hinv⟩
  | cons c cs ih =>
    intro cd hcd hinv
    obtain ⟨⟨hc, hok, hb⟩, hcs⟩ := List.forall_mem_cons.mp hcs
    obtain ⟨hholds, hσ⟩ := List.forall_mem_cons.mp hσ
    obtain ⟨cd1, h1, hcd1, hinv1⟩ := exists_propogateValue (b := true) hc hok hb hholds hcd hinv
    obtain ⟨cd', h, hcd', hinv'⟩ := ih hcs hσ hcd1 hinv1
    exact ⟨cd', by rw [List.foldlM_cons, show propogateValue c 1 cd = some cd1 from h1]; exact h, hcd', hinv'⟩

theorem exists_checkConstraints (hcd : CexData.ExactInv (· = σ) cd) {cs : List Expr}
    (hcs : ∀ c ∈ cs, Propogable c ∧ c.InBounds σ ∧ c.weight < fuel) : ∀ sat,
    ∃ verdict, checkConstraints useVisitorHash fuel cd cs sat = some verdict := by
  induction cs with
  | nil => exact fun sat => ⟨_, rfl⟩
  | cons c cs ih =>
    intro sat
    obtain ⟨⟨hc, hb, hfuel⟩, hcs⟩ := List.forall_mem_cons.mp hcs
    obtain ⟨p, hp, -⟩ := CexData.evaluatePossible_eval cd useVisitorHash hc.bool.1 hc.narrow hfuel
    obtain ⟨x, hx, -⟩ := CexData.evaluateExact_simplifies hcd useVisitorHash hc.bool.1
      (ExprEvaluator.readsFit_of_inBounds hc.bytes fun τ hτ => hτ ▸ hb) hfuel
    obtain ⟨possible, hpossible⟩ : ∃ possible, stillSatisfying useVisitorHash fuel cd sat c = some possible := by
      unfold stillSatisfying
      split_ifs
      · exact ⟨_, by rw [hp]; rfl⟩
      · exact ⟨_, rfl⟩
    simp only [checkConstraints, hpossible, hx, some_bind]
    split_ifs
    · exact ⟨_, rfl⟩
    · exact ih hcs possible

instance (e : Expr) : Decidable (Propogable e) :=
  decidable_of_iff (IsConstraint e ∧ (e.AllReads fun root _ => root.range = 8) ∧ e.Narrow ∧ e.Canonical ∧ e.Fits64)
    ⟨fun ⟨h₁, h₂, h₃, h₄, h₅⟩ => ⟨h₁, h₂, h₃, h₄, h₅⟩, fun ⟨h₁, h₂, h₃, h₄, h₅⟩ => ⟨h₁, h₂, h₃, h₄, h₅⟩⟩

/-- `5 == X[0]`, with the question whether `X[0]` is not 6. -/
def conflictingQuery : Query :=
  let x := read (.symbolic 0 "X" 2 Array.two_lt_size) .null (ConstantExpr.alloc 0 32)
  ⟨[binary .eq (ConstantExpr.alloc 5 8) x],
    binary .eq (ConstantExpr.alloc 0 1) (binary .eq (ConstantExpr.alloc 6 8) x)⟩

/-- The question whether the word of `X` is at most 65535. -/
def limitQuery : Query :=
  let byte (i : ℕ) := read (.symbolic 0 "X" 2 Array.two_lt_size) .null (ConstantExpr.alloc i 32)
  ⟨[], binary .ule (concat (byte 1) (byte 0)) (ConstantExpr.alloc 65535 16)⟩

/-- An allowed query with satisfiable constraints whose propagation fails an
assertion. -/
def Aborts (q : Query) : Prop :=
  (∀ e ∈ q.expr :: q.constraints, Propogable e ∧ e.ConstantReadsInBounds) ∧
    (fun _ _ => 5) ∈ Models q.constraints ∧ (propogateQuery q true).isNone = true

end FastCexSolver

end Klee
