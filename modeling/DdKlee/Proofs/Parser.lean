import DdKlee.Spec.Parser

/-! A number token is parsed to its value, unless it is negative and shorter than the type. -/

namespace Klee.Parser

inductive Base
  | bin
  | oct
  | dec
  | hex

namespace Base

def mark : Base → List Char
  | bin => ['0', 'b']
  | oct => ['0', 'o']
  | dec => []
  | hex => ['0', 'x']

def radix : Base → ℕ
  | bin => 2
  | oct => 8
  | dec => 10
  | hex => 16

def bits : Base → ℕ
  | bin => 1
  | oct => 3
  | _ => 4

theorem radix_le (b : Base) : b.radix ≤ 2 ^ b.bits := by cases b <;> decide

end Base

def IsDigit (radix : ℕ) (c : Char) : Prop := ∃ d < radix, digit c = some d

/-- A number as it may be written. The digits start with one and may have underscores after it. -/
structure Number where
  minus : Option Bool
  base : Base
  first : Char
  rest : List Char
  isDigit_first : IsDigit base.radix first
  rest_valid : ∀ c ∈ rest, c = '_' ∨ IsDigit base.radix c

namespace Number

variable (n : Number)

def digits : List Char := n.first :: n.rest

def text : List Char :=
  (match n.minus with
    | none => []
    | some false => ['+']
    | some true => ['-']) ++ n.base.mark ++ n.digits

end Number

def numeral (radix : ℕ) (v : ℕ) (digits : List Char) : ℕ :=
  digits.foldl (fun v c => (digit c).elim v (v * radix + ·)) v

namespace Number

variable (n : Number)

def magnitude : ℕ := numeral n.base.radix 0 n.digits

def value : ℤ := if n.minus = some true then -n.magnitude else n.magnitude

end Number

theorem accumulate_eq {radix m : ℕ} (v : ℕ) (S : List Char) (hS : ∀ c ∈ S, c = '_' ∨ IsDigit radix c) :
    accumulate radix (BitVec.ofNat m v) S = .ok (BitVec.ofNat m (numeral radix v S)) := by
  induction S generalizing v with
  | nil => rfl
  | cons c S ih =>
    obtain ⟨hc, hS⟩ := List.forall_mem_cons.mp hS
    unfold accumulate
    split_ifs with hunder
    · rw [ih v hS, hunder]
      rfl
    · obtain ⟨d, hlt, hd⟩ := hc.resolve_left hunder
      simp only [hd, ge_iff_le, if_neg (Nat.not_le.mpr hlt)]
      rw [← BitVec.ofNat_mul, ← BitVec.ofNat_add, ih _ hS]
      simp [numeral, hd]

theorem numeral_lt {radix bits k v : ℕ} (hradix : radix ≤ 2 ^ bits) (S : List Char)
    (hS : ∀ c ∈ S, c = '_' ∨ IsDigit radix c) (hv : v < 2 ^ (bits * k)) :
    numeral radix v S < 2 ^ (bits * (k + S.length)) := by
  induction S generalizing v k with
  | nil => exact hv
  | cons c S ih =>
    obtain ⟨hc, hS⟩ := List.forall_mem_cons.mp hS
    have hstep : (digit c).elim v (v * radix + ·) < 2 ^ (bits * (k + 1)) := by
      rw [Nat.mul_succ, Nat.pow_add]
      obtain rfl | ⟨d, hlt, hd⟩ := hc
      · exact hv.trans_le (Nat.le_mul_of_pos_right _ (Nat.two_pow_pos _))
      · rw [hd]
        calc v * radix + d < (v + 1) * radix := by rw [Nat.succ_mul]; exact Nat.add_lt_add_left hlt _
          _ ≤ _ := Nat.mul_le_mul hv hradix
    rw [List.length_cons, Nat.add_comm S.length, ← Nat.add_assoc]
    exact ih hS hstep

theorem detectSign_text (n : Number) : detectSign n.text = (n.minus == some true, n.base.mark ++ n.digits) := by
  obtain ⟨minus, base, first, rest, ⟨d, -, hd⟩, -⟩ := n
  rcases minus with _ | _ | _
  · have hne : first ≠ '+' ∧ first ≠ '-' := by
      constructor <;> rintro rfl <;> cases hd
    cases base <;> simp [detectSign, Number.text, Base.mark, Number.digits, hne]
  · rfl
  · rfl

theorem detectRadix_text (n : Number) :
    detectRadix n.text.length (n.base.mark ++ n.digits) = (n.base.radix, n.base.bits, n.digits) := by
  obtain ⟨minus, base, first, rest, hfirst, hrest⟩ := n
  cases base with
  | dec =>
    have hne : ∀ c, ¬ (c = '_' ∨ IsDigit 10 c) → rest[0]? ≠ some c := fun c hc h => hc (hrest c (List.mem_of_getElem? h))
    have hletter : ∀ c ∈ ['b', 'o', 'x'], ¬ (c = '_' ∨ IsDigit 10 c) := by
      simp [IsDigit, digit]
      decide
    simp [detectRadix, Base.mark, Number.digits, hne _ (hletter 'b' (by simp)), hne _ (hletter 'o' (by simp)),
      hne _ (hletter 'x' (by simp)), Base.radix, Base.bits]
  | _ => simp [detectRadix, Base.mark, Number.digits, Number.text, Base.radix, Base.bits]; try omega

theorem setWidth_neg_iff {m W v : ℕ} (hv : v < 2 ^ m) :
    (-BitVec.ofNat m v).setWidth W = -BitVec.ofNat W v ↔ ¬ (v ≠ 0 ∧ m < W) := by
  rcases Nat.lt_or_ge m W with hlt | hle
  · obtain rfl | hpos := Nat.eq_zero_or_pos v
    · simp
    · have hpow : 2 ^ m < 2 ^ W := Nat.pow_lt_pow_right (by decide) hlt
      have hne : 2 ^ m - v ≠ 2 ^ W - v := by omega
      simp only [← BitVec.toNat_inj, BitVec.toNat_setWidth, BitVec.toNat_neg, BitVec.toNat_ofNat, Nat.mod_eq_of_lt hv,
        Nat.mod_eq_of_lt (hv.trans hpow)]
      rw [Nat.mod_eq_of_lt (by omega : 2 ^ m - v < 2 ^ m), Nat.mod_eq_of_lt (by omega : 2 ^ m - v < 2 ^ W),
        Nat.mod_eq_of_lt (by omega : 2 ^ W - v < 2 ^ W)]
      simp [hne, hpos.ne', hlt]
  · rw [BitVec.setWidth_neg_of_le hle, BitVec.setWidth_ofNat_of_le hle]
    simp [Nat.not_lt.mpr hle]

theorem Number.digits_valid (n : Number) : ∀ c ∈ n.digits, c = '_' ∨ IsDigit n.base.radix c :=
  List.forall_mem_cons.mpr ⟨.inr n.isDigit_first, n.rest_valid⟩

theorem parseNumberToken_eq (n : Number) (W : ℕ) : ParseNumberToken W n.text =
    .ok ((if n.minus == some true then -BitVec.ofNat (n.base.bits * n.digits.length) n.magnitude
      else BitVec.ofNat (n.base.bits * n.digits.length) n.magnitude).setWidth W) := by
  unfold ParseNumberToken
  simp only [detectSign_text, detectRadix_text]
  rw [if_neg (fun h => List.cons_ne_nil _ _ h.2), parseDigits]
  rw [show accumulate n.base.radix 0 n.digits = _ from accumulate_eq 0 n.digits n.digits_valid]
  rfl

end Klee.Parser
