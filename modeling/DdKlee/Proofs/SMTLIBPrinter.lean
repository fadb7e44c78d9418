import DdKlee.Proofs.Constraints
import DdKlee.Spec.Canonical
import DdKlee.Spec.SMTLIBPrinter

/-! The terms that `ExprSMTLIBPrinter` prints: each has the sort that was asked
for, and the value of its expression. -/

namespace Klee

open Expr
open SmtLib (Term Srt Value Decls)

namespace ExprSMTLIBPrinter

theorem toString_ne_nil (radix n : ℕ) : toString radix n ≠ [] := by
  unfold toString
  split_ifs with h
  · simp
  · simpa using Nat.digits_ne_nil_iff_ne_zero.mpr h

theorem toString_lt {radix n : ℕ} (hradix : 1 < radix) {d : ℕ} (hd : d ∈ toString radix n) : d < radix := by
  unfold toString at hd
  split_ifs at hd
  · obtain rfl := List.mem_singleton.mp hd
    omega
  · exact Nat.digits_lt_base hradix (List.mem_reverse.mp hd)

theorem ofDigits_toString (radix n : ℕ) : SmtLib.ofDigits radix (toString radix n) = n := by
  unfold toString
  split_ifs with h
  · simp [h, SmtLib.ofDigits]
  · exact SmtLib.ofDigits_reverse_digits radix n

theorem length_toString_le {radix n k : ℕ} (hradix : 1 < radix) (hk : 0 < k) (hn : n < radix ^ k) :
    (toString radix n).length ≤ k := by
  unfold toString
  split_ifs with h
  · exact hk
  · rw [List.length_reverse]
    exact (Nat.digits_length_le_iff hradix n).mpr hn

theorem length_zeroPad {width : ℕ} {value : List ℕ} (hle : value.length ≤ width) (hw : width < 2 ^ 32) :
    (zeroPad width value).length = width := by
  have hmod : (width + 2 ^ 32 - value.length) % 2 ^ 32 = width - value.length := by omega
  rw [zeroPad, hmod, List.length_append, List.length_replicate]
  omega

theorem ofDigits_zeroPad (radix width : ℕ) (value : List ℕ) :
    SmtLib.ofDigits radix (zeroPad width value) = SmtLib.ofDigits radix value :=
  SmtLib.ofDigits_replicate_append radix _ value

theorem digitsOk_toString {radix : ℕ} (hradix : 1 < radix) (n : ℕ) :
    SmtLib.digitsOk radix (toString radix n) = true := by
  simp only [SmtLib.digitsOk, Bool.and_eq_true, Bool.not_eq_true', List.isEmpty_eq_false_iff, List.all_eq_true,
    decide_eq_true_eq]
  exact ⟨toString_ne_nil radix n, fun d hd => toString_lt hradix hd⟩

theorem digitsOk_zeroPad {radix width : ℕ} {value : List ℕ} (hradix : 0 < radix)
    (h : SmtLib.digitsOk radix value = true) : SmtLib.digitsOk radix (zeroPad width value) = true := by
  simp only [SmtLib.digitsOk, zeroPad, Bool.and_eq_true, Bool.not_eq_true', List.isEmpty_eq_false_iff,
    List.all_eq_true, decide_eq_true_eq, ne_eq, List.append_eq_nil_iff, not_and, List.mem_append] at h ⊢
  refine ⟨fun _ => h.1, fun d hd => ?_⟩
  rcases hd with hd | hd
  · exact (List.eq_of_mem_replicate hd).symm ▸ hradix
  · exact h.2 d hd

/-- The widths whose hexadecimal literals have them; a Bool is no literal. -/
def HexWidth (w : ℕ) : Prop := w = 1 ∨ 4 ∣ w

def srt (w : ℕ) : SMTLIB_SORT → Srt
  | .bool => .bool
  | .bitvector => .bitVec w

def valueAt (a : APInt) : SMTLIB_SORT → Value
  | .bool => .bool (ConstantExpr.isTrue a)
  | .bitvector => .bv a

theorem isTrue_or_isFalse {c : APInt} (hw : c.width = 1) :
    ConstantExpr.isTrue c = true ∨ ConstantExpr.isTrue c = false ∧ ConstantExpr.isFalse c = true := by
  cases hbit : c.getBoolValue <;> simp [ConstantExpr.isTrue, ConstantExpr.isFalse, hw, hbit]

theorem isTrue_of_width_ne {c : APInt} (hw : c.width ≠ 1) :
    ConstantExpr.isTrue c = false ∧ ConstantExpr.isFalse c = false := by
  simp [ConstantExpr.isTrue, ConstantExpr.isFalse, hw]

section Constants

variable {cdm : ConstantDisplayMode} {c : APInt} (hpos : 0 < c.width) (hlt : c.width < 2 ^ 32)
  (hhex : cdm = .hex → HexWidth c.width)

include hpos hlt hhex

theorem printConstant_digits (hw : c.width ≠ 1) :
    (zeroPad c.width (toString 2 c.toNat)).length = c.width ∧
      (cdm = .hex → 4 * (zeroPad (c.width / 4) (toString 16 c.toNat)).length = c.width) := by
  refine ⟨length_zeroPad (length_toString_le (by decide) hpos c.toNat_lt) hlt, fun h => ?_⟩
  obtain ⟨k, hk⟩ := (hhex h).resolve_left hw
  have hnat : c.toNat < 16 ^ k := by
    have := c.toNat_lt
    rwa [hk, pow_mul] at this
  rw [hk, Nat.mul_div_cancel_left _ (by decide), length_zeroPad (length_toString_le (by decide) (by omega) hnat) (by omega)]

theorem printConstant_sortOf {decls : Decls} {vars : ℕ → Option Srt} :
    (printConstant cdm c).sortOf decls vars = some (srt c.width (getSort (constant c))) := by
  unfold printConstant
  by_cases hw : c.width = 1
  · rcases isTrue_or_isFalse hw with h | ⟨h, h'⟩
    · simp [h, Term.sortOf, getSort, hw, srt]
    · simp [h, h', Term.sortOf, getSort, hw, srt]
  · obtain ⟨h, h'⟩ := isTrue_of_width_ne hw
    obtain ⟨hbin, hhexw⟩ := printConstant_digits hpos hlt hhex hw
    have hok : ∀ radix width, 1 < radix →
        SmtLib.digitsOk radix (zeroPad width (toString radix c.toNat)) = true := fun radix width hradix =>
      digitsOk_zeroPad (by omega) (digitsOk_toString hradix _)
    simp only [h, h', Bool.false_eq_true, if_false, getSort, hw, srt]
    cases cdm with
    | binary => simp only [Term.sortOf, hok 2 _ (by decide), if_true, hbin]
    | hex => simp only [Term.sortOf, hok 16 _ (by decide), if_true, hhexw]
    | decimal => simp [Term.sortOf, digitsOk_toString, hpos]

theorem printConstant_eval {arrays : String → SmtLib.Contents} {vars : ℕ → Value} :
    (printConstant cdm c).eval arrays vars = valueAt c (getSort (constant c)) := by
  unfold printConstant
  have hnat : APInt.ofNat c.width c.toNat = c := APInt.eq_of_toNat rfl (by
    rw [APInt.toNat_ofNat, Nat.mod_eq_of_lt c.toNat_lt])
  by_cases hw : c.width = 1
  · rcases isTrue_or_isFalse hw with h | ⟨h, h'⟩
    · simp [h, Term.eval, getSort, hw, valueAt]
    · simp [h, h', Term.eval, getSort, hw, valueAt]
  · obtain ⟨h, h'⟩ := isTrue_of_width_ne hw
    obtain ⟨hbin, hhexw⟩ := printConstant_digits hpos hlt hhex hw
    simp only [h, h', Bool.false_eq_true, if_false, getSort, hw, valueAt]
    cases cdm with
    | binary => simp only [Term.eval, hbin, ofDigits_zeroPad, ofDigits_toString, hnat]
    | hex => simp only [Term.eval, hhexw, ofDigits_zeroPad, ofDigits_toString, hnat]
    | decimal => simp only [Term.eval, ofDigits_toString, hnat]

end Constants

theorem getWidth_of_getSort : ∀ {e : Expr}, getSort e = .bool → e.getWidth = 1
  | notOptimized src, h => getWidth_of_getSort (e := src) h
  | constant c, h => by
    by_contra hw
    simp [getSort, show c.width ≠ 1 from hw] at h
  | .not e, h => by
    by_contra hw
    simp [getSort, show e.getWidth ≠ 1 from hw] at h
  | binary k l r, h => by
    by_cases hk : k.isCmp = true
    · simp [getWidth, hk]
    · by_contra hw
      simp only [getWidth, hk, Bool.false_eq_true, if_false] at hw
      cases k <;> simp [getSort, hw, BinaryKind.isCmp] at h hk
  | .read _ _ _, h | select _ _ _, h | concat _ _, h | extract _ _ _, h | .cast _ _ _, h => by cases h

/-- What is asked of a node: the width is an `unsigned` that is not zero, an
array that is read was met by the scan, and its literals can be written. -/
def Printable (cdm : ConstantDisplayMode) (used : List Array) (e : Expr) : Prop :=
  0 < e.getWidth ∧ e.getWidth < 2 ^ 32 ∧
    match e with
    | constant c => cdm = .hex → HexWidth c.width
    | binary .ashr l _ => cdm = .hex → HexWidth l.getWidth
    | .read root _ _ => root ∈ used
    | _ => True

section Sorts

variable {cdm : ConstantDisplayMode} {used : List Array} {decls : Decls} {bindings : List (Expr × ℕ)}
  {vars : ℕ → Option Srt} (hvars : ∀ b ∈ bindings, vars b.2 = some (srt b.1.getWidth (getSort b.1)))

include hvars

theorem printExpression_sortOf {e : Expr} {full : Term} (hpos : 0 < e.getWidth)
    (hfull : full.sortOf decls vars = some (srt e.getWidth (getSort e))) (s : SMTLIB_SORT) :
    (printExpression bindings e full s).sortOf decls vars = some (srt e.getWidth s) := by
  have hterm : (abbreviate bindings e full).sortOf decls vars = some (srt e.getWidth (getSort e)) := by
    unfold abbreviate
    cases hlookup : bindings.lookup e with
    | none => exact hfull
    | some n => exact hvars _ (SmtLib.mem_of_lookup hlookup)
  simp only [printExpression]
  split_ifs with hsort
  · cases s with
    | bitvector =>
      have hbool : getSort e = .bool := by cases h : getSort e <;> simp_all
      rw [hbool] at hterm
      simp [printCastToSort, Term.sortOf, hterm, srt, SmtLib.digitsOk, getWidth_of_getSort hbool]
    | bool =>
      have hbv : getSort e = .bitvector := by cases h : getSort e <;> simp_all
      rw [hbv] at hterm
      simp [printCastToSort, Term.sortOf, hterm, srt, SmtLib.digitsOk, hpos]
  · rw [hterm, not_not.mp hsort]

theorem printNumber_sortOf {n w : ℕ} (hpos : 0 < w) (hlt : w < 2 ^ 32) (hhex : cdm = .hex → HexWidth w) :
    (printNumber cdm bindings n w).sortOf decls vars = some (.bitVec w) :=
  printExpression_sortOf hvars (e := constant (APInt.ofNat w n)) hpos
    (printConstant_sortOf (c := APInt.ofNat w n) hpos hlt hhex) .bitvector

theorem printBinary_sortOf {k : BinaryKind} {l r : Expr} {left right : SMTLIB_SORT → Term}
    (hnode : Printable cdm used (binary k l r)) (hw : l.getWidth = r.getWidth)
    (hleft : ∀ s, (left s).sortOf decls vars = some (srt l.getWidth s))
    (hright : ∀ s, (right s).sortOf decls vars = some (srt r.getWidth s)) :
    (printBinary cdm bindings k l left right).sortOf decls vars =
      some (srt (binary k l r).getWidth (getSort (binary k l r))) := by
  rw [← hw] at hright
  cases k with
  | ashr =>
    obtain ⟨hpos, hlt, hhex⟩ := hnode
    have hnumber : ∀ n, (printNumber cdm bindings n l.getWidth).sortOf decls vars = some (.bitVec l.getWidth) :=
      fun n => printNumber_sortOf hvars hpos hlt hhex
    simp [printBinary, getSMTLIBKeyword, Term.sortOf, hleft, hright, hnumber, srt, getSort, getWidth,
      BinaryKind.isCmp]
  | and | or | xor =>
    by_cases hone : l.getWidth = 1
    · simp [printBinary, getSMTLIBKeyword, Term.sortOf, hleft, hright, srt, getSort, BinaryKind.isCmp, hone]
    · simp [printBinary, getSMTLIBKeyword, Term.sortOf, hleft, hright, srt, getSort, getWidth, BinaryKind.isCmp,
        hone]
  | eq | ne =>
    simp [printBinary, getSMTLIBKeyword, Term.sortOf, hleft, hright, srt, getSort, BinaryKind.isCmp]
  | _ =>
    simp [printBinary, getSMTLIBKeyword, Term.sortOf, hleft, hright, srt, getSort, getWidth, BinaryKind.isCmp]

variable (hdecls : ∀ root ∈ used, decls root.name = some (root.domain, root.range))

include hdecls

set_option linter.unusedSectionVars false in
mutual

theorem printFullExpression_sortOf : ∀ {e : Expr}, e.WellTyped → e.AllSub (Printable cdm used) →
    (printFullExpression cdm bindings e).sortOf decls vars = some (srt e.getWidth (getSort e))
  | constant c, _, h => printConstant_sortOf h.1 h.2.1 h.2.2
  | notOptimized src, ht, h => print_sortOf (e := src) ht h.2 (getSort src)
  | .read root head i, ht, h => by
    have harray := printUpdatesAndArray_sortOf h.1.2.2 ht.1 h.2.1
    have hi := print_sortOf ht.2.1 h.2.2 .bitvector
    simp only [print] at hi
    simp [printFullExpression, Term.sortOf, harray, hi, srt, ht.2.2, getSort, getWidth]
  | select c t f, ht, h => by
    obtain ⟨hct, htt, hft, hc, hw⟩ := ht
    have hcond := print_sortOf hct h.2.1 .bool
    have htrue := print_sortOf htt h.2.2.1 .bitvector
    have hfalse := print_sortOf hft h.2.2.2 .bitvector
    simp only [print] at hcond htrue hfalse
    simp [printFullExpression, Term.sortOf, hcond, htrue, hfalse, srt, hw, getSort, getWidth]
  | concat l r, ht, h => by
    have hl := print_sortOf ht.1 h.2.1 .bitvector
    have hr := print_sortOf ht.2 h.2.2 .bitvector
    simp only [print] at hl hr
    simp [printFullExpression, Term.sortOf, hl, hr, srt, getSort, getWidth]
  | extract e off w, ht, h => by
    obtain ⟨hte, hpos, hle⟩ := ht
    have he := print_sortOf hte h.2 .bitvector
    simp only [print] at he
    have hhigh : off ≤ off + w - 1 ∧ off + w - 1 < e.getWidth := by omega
    have hwidth : off + w - 1 - off + 1 = w := by omega
    simp [printFullExpression, Term.sortOf, he, srt, hhigh, hwidth, getSort, getWidth]
  | .not e, ht, h => by
    have he := print_sortOf (e := e) ht h.2
    simp only [print] at he
    by_cases hone : e.getWidth = 1
    · simp [printFullExpression, Term.sortOf, he, srt, hone, getSort]
    · simp [printFullExpression, Term.sortOf, he, srt, hone, getSort, getWidth]
  | .cast k src w, ht, h => by
    have hsrc := print_sortOf ht.1 h.2 .bitvector
    simp only [print] at hsrc
    have hwidth : src.getWidth + (w - src.getWidth) = w := Nat.add_sub_cancel' ht.2
    cases k <;> simp [printFullExpression, Term.sortOf, hsrc, srt, hwidth, getSort, getWidth]
  | binary k l r, ht, h =>
    printBinary_sortOf hvars h.1 ht.2.2 (print_sortOf ht.1 h.2.1) (print_sortOf ht.2.1 h.2.2)

theorem printUpdatesAndArray_sortOf {root : Array} (hroot : root ∈ used) :
    ∀ {head : UpdateNode}, head.WellTyped root → head.AllSub (Printable cdm used) →
      (printUpdatesAndArray cdm bindings root head).sortOf decls vars = some (.array root.domain root.range)
  | .null, _, _ => by simp [printUpdatesAndArray, Term.sortOf, hdecls root hroot]
  | .node next i v, ht, h => by
    obtain ⟨htn, hti, htv, hiw, hvw⟩ := ht
    have hnext := printUpdatesAndArray_sortOf hroot htn h.1
    have hi := print_sortOf hti h.2.1 .bitvector
    have hv := print_sortOf htv h.2.2 .bitvector
    simp only [print] at hi hv
    simp [printUpdatesAndArray, Term.sortOf, hnext, hi, hv, srt, hiw, hvw]

theorem print_sortOf {e : Expr} (ht : e.WellTyped) (h : e.AllSub (Printable cdm used)) (s : SMTLIB_SORT) :
    (print cdm bindings e s).sortOf decls vars = some (srt e.getWidth s) :=
  printExpression_sortOf hvars h.self.1 (printFullExpression_sortOf ht h) s

end

end Sorts

@[simp] theorem isTrue_ofBool (b : Bool) : ConstantExpr.isTrue (APInt.ofBool b) = b := by
  simp [ConstantExpr.isTrue]

/-- No shift is by the width or more, and no divisor is zero. -/
def DefinedAt (σ : Bytes) : Expr → Prop
  | binary .shl l r | binary .lshr l r | binary .ashr l r => (r.eval σ).toNat < l.getWidth
  | binary .udiv _ r | binary .sdiv _ r | binary .urem _ r | binary .srem _ r => (r.eval σ).toNat ≠ 0
  | _ => True

/-! An operator computes what its kind does. -/

section Operators

variable {k : BinaryKind} {w : ℕ} (x y : BitVec w)

theorem apply_arith {op : SmtLib.BvOp} (hk : getSMTLIBKeyword k = .arith op)
    (hdiv : k = .udiv ∨ k = .sdiv ∨ k = .urem ∨ k = .srem → y ≠ 0#w) :
    k.apply ⟨w, x⟩ ⟨w, y⟩ = ⟨w, op.apply x y⟩ := by
  cases k with
  | udiv | sdiv | urem | srem =>
    obtain rfl : _ = op := Keyword.arith.inj hk
    have hy := hdiv (by simp)
    simp [BinaryKind.apply, SmtLib.BvOp.apply, APInt.udiv, APInt.sdiv, APInt.urem, APInt.srem, APInt.divisor,
      SmtLib.smtUDiv_eq hy, SmtLib.smtSDiv_eq hy, hy]
  | shl | lshr =>
    obtain rfl : _ = op := Keyword.arith.inj hk
    simp [BinaryKind.apply, SmtLib.BvOp.apply, APInt.shl, APInt.lshr, APInt.toNat]
  | add | sub | mul =>
    obtain rfl : _ = op := Keyword.arith.inj hk
    simp [BinaryKind.apply, SmtLib.BvOp.apply]
  | _ => cases hk

theorem apply_compare {p : SmtLib.BvPred} (hk : getSMTLIBKeyword k = .compare p) :
    k.apply ⟨w, x⟩ ⟨w, y⟩ = APInt.ofBool (p.apply x y) := by
  cases k with
  | ult | ule | ugt | uge | slt | sle | sgt | sge =>
    obtain rfl : _ = p := Keyword.compare.inj hk
    simp [BinaryKind.apply, SmtLib.BvPred.apply]
  | _ => cases hk

theorem apply_logical {op : SmtLib.BoolOp} {bvOp : SmtLib.BvOp} (hk : getSMTLIBKeyword k = .logical op bvOp) :
    k.apply ⟨w, x⟩ ⟨w, y⟩ = ⟨w, bvOp.apply x y⟩ ∧
      ∀ a b, k.apply (APInt.ofBool a) (APInt.ofBool b) = APInt.ofBool (op.apply a b) := by
  cases k with
  | and | or | xor =>
    obtain ⟨rfl, rfl⟩ : _ = op ∧ _ = bvOp := by simpa [getSMTLIBKeyword] using hk
    exact ⟨by simp [BinaryKind.apply, SmtLib.BvOp.apply], by decide⟩
  | _ => cases hk

end Operators

theorem getSort_binary (k : BinaryKind) (l r : Expr) :
    getSort (binary k l r) =
      match getSMTLIBKeyword k with
      | .equal | .distinct | .compare _ => .bool
      | .logical _ _ => if l.getWidth = 1 then .bool else .bitvector
      | .ashr | .arith _ => .bitvector := by
  cases k <;> rfl

theorem eq_valueAt {a b : APInt} {s : SMTLIB_SORT} (hw : a.width = b.width) (hs : s = .bool → a.width = 1) :
    (valueAt a s).eq (valueAt b s) = a.eq b := by
  cases s with
  | bitvector => rfl
  | bool =>
    rw [APInt.eq_ofBool (hs rfl), APInt.eq_ofBool (hw.symm.trans (hs rfl))]
    cases a.getBoolValue <;> cases b.getBoolValue <;> rfl

section Values

variable {cdm : ConstantDisplayMode} {bindings : List (Expr × ℕ)} {σ : Bytes}
  {arrays : String → SmtLib.Contents} {vars : ℕ → Value}
  (hvars : ∀ b ∈ bindings, vars b.2 = valueAt (b.1.eval σ) (getSort b.1))

include hvars

theorem printExpression_eval {e : Expr} {full : Term} (hw : (e.eval σ).width = e.getWidth)
    (hfull : full.eval arrays vars = valueAt (e.eval σ) (getSort e)) {s : SMTLIB_SORT}
    (hs : s = .bool → e.getWidth = 1) :
    (printExpression bindings e full s).eval arrays vars = valueAt (e.eval σ) s := by
  have hterm : (abbreviate bindings e full).eval arrays vars = valueAt (e.eval σ) (getSort e) := by
    unfold abbreviate
    cases hlookup : bindings.lookup e with
    | none => exact hfull
    | some n => exact hvars _ (SmtLib.mem_of_lookup hlookup)
  simp only [printExpression]
  split_ifs with hsort
  · cases s with
    | bitvector =>
      have hbool : getSort e = .bool := by cases h : getSort e <;> simp_all
      have hval := APInt.eq_ofBool (hw.trans (getWidth_of_getSort hbool))
      rw [hbool, hval] at hterm
      rw [hval]
      simp only [printCastToSort, Term.eval, hterm, valueAt, isTrue_ofBool]
      cases (e.eval σ).getBoolValue <;> rfl
    | bool =>
      have hbv : getSort e = .bitvector := by cases h : getSort e <;> simp_all
      have hval := APInt.eq_ofBool (hw.trans (hs rfl))
      rw [hbv, hval] at hterm
      rw [hval]
      simp only [printCastToSort, Term.eval, hterm, valueAt, isTrue_ofBool, hs rfl]
      cases (e.eval σ).getBoolValue <;> rfl
  · rw [hterm, not_not.mp hsort]

theorem printNumber_eval {n w : ℕ} (hpos : 0 < w) (hlt : w < 2 ^ 32) (hhex : cdm = .hex → HexWidth w) :
    (printNumber cdm bindings n w).eval arrays vars = .bv (APInt.ofNat w n) :=
  printExpression_eval hvars (e := constant (APInt.ofNat w n)) rfl
    (printConstant_eval (c := APInt.ofNat w n) hpos hlt hhex) (s := .bitvector) (fun h => by cases h)

theorem printBinary_eval {used : List Array} {k : BinaryKind} {l r : Expr} {left right : SMTLIB_SORT → Term}
    (ht : (binary k l r).WellTyped) (hnode : Printable cdm used (binary k l r)) (hdef : DefinedAt σ (binary k l r))
    (hleft : ∀ s, (s = .bool → l.getWidth = 1) → (left s).eval arrays vars = valueAt (l.eval σ) s)
    (hright : ∀ s, (s = .bool → l.getWidth = 1) → (right s).eval arrays vars = valueAt (r.eval σ) s) :
    (printBinary cdm bindings k l left right).eval arrays vars =
      valueAt ((binary k l r).eval σ) (getSort (binary k l r)) := by
  obtain ⟨hlt, hrt, hw⟩ := ht
  have hlbv := hleft .bitvector (fun h => by cases h)
  have hrbv := hright .bitvector (fun h => by cases h)
  obtain ⟨x, hx⟩ := Expr.exists_bits σ hlt rfl
  obtain ⟨y, hy⟩ := Expr.exists_bits σ hrt hw.symm
  rw [hx] at hlbv
  rw [hy] at hrbv
  rw [getSort_binary, Expr.eval, hx, hy]
  have hs : getSort l = .bool → l.getWidth = 1 := getWidth_of_getSort
  have hvalue := eq_valueAt (eval_width_eq ⟨hlt, hrt, hw⟩ σ) fun h => (Expr.eval_width σ hlt).trans (hs h)
  cases hkey : getSMTLIBKeyword k with
  | arith op =>
    have hdiv : k = .udiv ∨ k = .sdiv ∨ k = .urem ∨ k = .srem → y ≠ 0#l.getWidth := by
      rintro hk rfl
      have hzero : (r.eval σ).toNat ≠ 0 := by rcases hk with rfl | rfl | rfl | rfl <;> exact hdef
      exact hzero (by rw [hy]; simp [APInt.toNat])
    simp only [printBinary, hkey, Term.eval, hlbv, hrbv, valueAt, apply_arith x y hkey hdiv, APInt.rhs_mk]
  | compare p =>
    simp only [printBinary, hkey, Term.eval, hlbv, hrbv, valueAt, apply_compare x y hkey, APInt.rhs_mk, isTrue_ofBool]
  | logical op bvOp =>
    by_cases hone : l.getWidth = 1
    · have hl := APInt.eq_ofBool ((Expr.eval_width σ hlt).trans hone)
      have hr := APInt.eq_ofBool ((Expr.eval_width σ hrt).trans (hw.symm.trans hone))
      have hlb := hleft .bool fun _ => hone
      have hrb := hright .bool fun _ => hone
      rw [hl] at hlb
      rw [hr] at hrb
      rw [← hx, ← hy, hl, hr]
      simp only [printBinary, hkey, Term.eval, hlb, hrb, valueAt, (apply_logical x y hkey).2, hone, if_true,
        isTrue_ofBool, Value.isTrue]
    · simp only [printBinary, hkey, Term.eval, hlbv, hrbv, valueAt, (apply_logical x y hkey).1, APInt.rhs_mk, hone,
        if_false]
  | equal =>
    obtain rfl : k = .eq := by cases k <;> first | rfl | cases hkey
    simp only [printBinary, hkey, Term.eval, hleft _ hs, hright _ hs, hvalue]
    simp only [hx, hy, BinaryKind.apply, valueAt, isTrue_ofBool]
  | distinct =>
    obtain rfl : k = .ne := by cases k <;> first | rfl | cases hkey
    simp only [printBinary, hkey, Term.eval, hleft _ hs, hright _ hs, hvalue]
    simp only [hx, hy, BinaryKind.apply, valueAt, isTrue_ofBool]
  | ashr =>
    obtain rfl : k = .ashr := by cases k <;> first | rfl | cases hkey
    obtain ⟨hpos, hlt', hhex⟩ := hnode
    have hnumber : ∀ n, (printNumber cdm bindings n l.getWidth).eval arrays vars = .bv ⟨l.getWidth, BitVec.ofNat _ n⟩ :=
      fun n => printNumber_eval hvars hpos hlt' hhex
    -- the shift is not by the width or more
    have huge : (BitVec.ofNat l.getWidth l.getWidth).ule y = false := by
      have hshift : (r.eval σ).toNat < l.getWidth := hdef
      rw [hy] at hshift
      have hmod : l.getWidth % 2 ^ l.getWidth = l.getWidth := Nat.mod_eq_of_lt Nat.lt_two_pow_self
      simp only [BitVec.ule, BitVec.toNat_ofNat, hmod, decide_eq_false_iff_not, not_le]
      exact hshift
    simp only [printBinary, hkey, Term.eval, hlbv, hrbv, valueAt, hnumber, SmtLib.BvPred.apply, APInt.rhs_mk, huge,
      Value.isTrue]
    rfl

variable {used : List Array}
  (harrays : ∀ root ∈ used, (arrays root.name).range = root.range ∧
    ∀ i < 2 ^ root.domain, root.initial σ i = APInt.ofNat root.range ((arrays root.name).get i))

include harrays

set_option linter.unusedSectionVars false in
mutual

theorem printFullExpression_eval : ∀ {e : Expr}, e.WellTyped → e.AllSub (Printable cdm used) →
    e.AllSub (DefinedAt σ) →
    (printFullExpression cdm bindings e).eval arrays vars = valueAt (e.eval σ) (getSort e)
  | constant c, _, h, _ => printConstant_eval h.1 h.2.1 h.2.2
  | notOptimized src, ht, h, hd => print_eval (e := src) ht h.2 hd.2 getWidth_of_getSort
  | .read root head i, ht, h, hd => by
    obtain ⟨c, hc, hrange, hget⟩ := printUpdatesAndArray_eval h.1.2.2 ht.1 h.2.1 hd.2.1
    have hi := print_eval ht.2.1 h.2.2 hd.2.2 (s := .bitvector) (fun h => by cases h)
    simp only [print] at hi
    simp only [printFullExpression, Term.eval, hc, hi, valueAt, getSort, Expr.eval, hrange]
    rw [hget _ ((Expr.eval_width σ ht.2.1).trans ht.2.2)]
  | select c t f, ht, h, hd => by
    obtain ⟨hct, htt, hft, hc, hw⟩ := ht
    have hcond := print_eval hct h.2.1 hd.2.1 (s := .bool) (fun _ => hc)
    have htrue := print_eval htt h.2.2.1 hd.2.2.1 (s := .bitvector) (fun h => by cases h)
    have hfalse := print_eval hft h.2.2.2 hd.2.2.2 (s := .bitvector) (fun h => by cases h)
    simp only [print] at hcond htrue hfalse
    simp only [printFullExpression, Term.eval, hcond, htrue, hfalse, valueAt, getSort, Expr.eval, Value.isTrue]
    split_ifs <;> rfl
  | concat l r, ht, h, hd => by
    have hl := print_eval ht.1 h.2.1 hd.2.1 (s := .bitvector) (fun h => by cases h)
    have hr := print_eval ht.2 h.2.2 hd.2.2 (s := .bitvector) (fun h => by cases h)
    simp only [print] at hl hr
    simp only [printFullExpression, Term.eval, hl, hr, valueAt, getSort, Expr.eval]
    rw [← ConstantExpr.Concat_mk]
  | extract e off w, ht, h, hd => by
    obtain ⟨hte, hpos, hle⟩ := ht
    have he := print_eval hte h.2 hd.2 (s := .bitvector) (fun h => by cases h)
    simp only [print] at he
    have hwidth : off + w - 1 - off + 1 = w := by omega
    have hle' : off + w ≤ (e.eval σ).width := (Expr.eval_width σ hte).symm ▸ hle
    simp only [printFullExpression, Term.eval, he, valueAt, getSort, Expr.eval]
    rw [hwidth, ← ConstantExpr.Extract_mk (e.eval σ).bits hle']
  | .not e, ht, h, hd => by
    by_cases hone : e.getWidth = 1
    · have he := print_eval (e := e) ht h.2 hd.2 (s := .bool) (fun _ => hone)
      simp only [print] at he
      have hval := APInt.eq_ofBool ((Expr.eval_width σ (e := e) ht).trans hone)
      rw [hval] at he
      simp only [printFullExpression, Term.eval, he, valueAt, getSort, Expr.eval, hone, if_true, Value.isTrue]
      rw [hval]
      cases (e.eval σ).getBoolValue <;> rfl
    · have he := print_eval (e := e) ht h.2 hd.2 (s := .bitvector) (fun h => by cases h)
      simp only [print] at he
      simp only [printFullExpression, Term.eval, he, valueAt, getSort, Expr.eval, hone, if_false, ConstantExpr.Not]
  | .cast k src w, ht, h, hd => by
    have hsrc := print_eval ht.1 h.2 hd.2 (s := .bitvector) (fun h => by cases h)
    simp only [print] at hsrc
    have hwidth : (src.eval σ).width + (w - src.getWidth) = w := by
      rw [Expr.eval_width σ ht.1]
      exact Nat.add_sub_cancel' ht.2
    cases k <;>
      simp only [printFullExpression, Term.eval, hsrc, valueAt, getSort, Expr.eval, hwidth, CastKind.apply,
        ConstantExpr.ZExt, ConstantExpr.SExt]
  | binary k l r, ht, h, hd =>
    printBinary_eval hvars ht h.1 hd.1 (fun _ hs => print_eval ht.1 h.2.1 hd.2.1 hs)
      fun _ hs => print_eval ht.2.1 h.2.2 hd.2.2 fun hb => ht.2.2.symm.trans (hs hb)

theorem printUpdatesAndArray_eval {root : Array} (hroot : root ∈ used) :
    ∀ {head : UpdateNode}, head.WellTyped root → head.AllSub (Printable cdm used) → head.AllSub (DefinedAt σ) →
      ∃ c, (printUpdatesAndArray cdm bindings root head).eval arrays vars = .array c ∧ c.range = root.range ∧
        ∀ i : APInt, i.width = root.domain → APInt.ofNat root.range (c.get i.toNat) = head.lookup σ root i
  | .null, _, _, _ => by
    obtain ⟨hrange, hget⟩ := harrays root hroot
    exact ⟨_, rfl, hrange, fun i hi => (hget _ (hi ▸ i.toNat_lt)).symm⟩
  | .node next i v, ht, h, hd => by
    obtain ⟨htn, hti, htv, hiw, hvw⟩ := ht
    obtain ⟨c, hc, hrange, hget⟩ := printUpdatesAndArray_eval hroot htn h.1 hd.1
    have hi := print_eval hti h.2.1 hd.2.1 (s := .bitvector) (fun h => by cases h)
    have hv := print_eval htv h.2.2 hd.2.2 (s := .bitvector) (fun h => by cases h)
    simp only [print] at hi hv
    have hw : ∀ j : APInt, j.width = root.domain → (i.eval σ).width = j.width := fun j hj =>
      (Expr.eval_width σ hti).trans (hiw.trans hj.symm)
    have hvw' : (v.eval σ).width = root.range := (Expr.eval_width σ htv).trans hvw
    refine ⟨{ c with get := fun j => if j = (i.eval σ).toNat then (v.eval σ).toNat else c.get j }, ?_, hrange,
      fun j hj => ?_⟩
    · simp only [printUpdatesAndArray, Term.eval, hc, hi, hv, valueAt]
    by_cases heq : i.eval σ = j
    · simp only [UpdateNode.lookup, heq, if_true]
      refine APInt.eq_of_toNat hvw'.symm ?_
      rw [APInt.toNat_ofNat, Nat.mod_eq_of_lt (hvw' ▸ (v.eval σ).toNat_lt)]
    · have hne : ¬ j.toNat = (i.eval σ).toNat := fun h => heq (APInt.eq_of_toNat (hw j hj) h.symm)
      simp only [UpdateNode.lookup, if_neg heq, if_neg hne]
      exact hget j hj

theorem print_eval {e : Expr} (ht : e.WellTyped) (h : e.AllSub (Printable cdm used)) (hd : e.AllSub (DefinedAt σ))
    {s : SMTLIB_SORT} (hs : s = .bool → e.getWidth = 1) :
    (print cdm bindings e s).eval arrays vars = valueAt (e.eval σ) s :=
  printExpression_eval hvars (Expr.eval_width σ ht) (printFullExpression_eval ht h hd) hs

end

end Values

end ExprSMTLIBPrinter

end Klee
