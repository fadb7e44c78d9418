import DdKlee.Proofs.TimingSolver
import DdKlee.Spec.Resolve

/-! Pointer resolution finds exactly the objects that a pointer may point to. -/

namespace Klee

open Expr

namespace MemoryObject

variable {ctx : Context} {mo : MemoryObject} {p : Expr} {σ : Bytes}

/-- The number of addresses of an object. One of size 0 has an address of its own. -/
def extent (mo : MemoryObject) : ℕ := max mo.size 1

/-- Pointers have 32 bits or more, and the addresses of the object do not wrap
around. -/
def Fits (ctx : Context) (mo : MemoryObject) : Prop :=
  32 ≤ ctx.getPointerWidth ∧ mo.address + mo.extent ≤ 2 ^ ctx.getPointerWidth

def Contains (mo : MemoryObject) (address : ℕ) : Prop := mo.address ≤ address ∧ address < mo.address + mo.extent

def IsPointer (ctx : Context) (p : Expr) : Prop := p.WellTyped ∧ p.getWidth = ctx.getPointerWidth

theorem Fits.address_lt (h : mo.Fits ctx) : mo.address < 2 ^ ctx.getPointerWidth := by
  have hpos : 1 ≤ mo.extent := le_max_right _ _
  have hle := h.2
  omega

theorem Fits.size_lt (h : mo.Fits ctx) : mo.size < 2 ^ ctx.getPointerWidth :=
  mo.size_lt.trans_le (Nat.pow_le_pow_right (by decide) h.1)

theorem offset_typed (mo : MemoryObject) (hp : IsPointer ctx p) : (binary .sub p (mo.getBaseExpr ctx)).WellTyped :=
  ⟨hp.1, trivial, hp.2⟩

theorem getOffsetExpr_ok (mo : MemoryObject) (hp : IsPointer ctx p) : IsPointer ctx (mo.getOffsetExpr ctx p) := by
  have hs := SubExpr_create_simplifies (P := fun _ => True) (offset_typed mo hp)
  exact ⟨hs.typed, hs.width.trans hp.2⟩

theorem eval_offset (hp : IsPointer ctx p) (hmo : mo.Fits ctx) (σ : Bytes) :
    ((mo.getOffsetExpr ctx p).eval σ).toNat =
      if mo.address ≤ (p.eval σ).toNat then (p.eval σ).toNat - mo.address
      else (p.eval σ).toNat + 2 ^ ctx.getPointerWidth - mo.address := by
  obtain ⟨x, hx⟩ := Expr.exists_bits σ hp.1 hp.2
  have heval : (mo.getOffsetExpr ctx p).eval σ =
      (APInt.mk ctx.getPointerWidth x).sub (APInt.ofNat ctx.getPointerWidth mo.address) := by
    rw [← hx]
    exact (SubExpr_create_simplifies (P := fun _ => True) (offset_typed mo hp)).eval σ trivial
  have hlt := x.isLt
  have hfits := hmo.address_lt
  have hval : (p.eval σ).toNat = x.toNat := by rw [hx]; rfl
  have hsub : ((mo.getOffsetExpr ctx p).eval σ).toNat =
      (2 ^ ctx.getPointerWidth - mo.address + x.toNat) % 2 ^ ctx.getPointerWidth := by
    rw [heval, APInt.ofNat, APInt.sub_mk]
    simp only [APInt.toNat, BitVec.toNat_sub, BitVec.toNat_ofNat, Nat.mod_eq_of_lt hfits]
  rw [hsub, hval]
  by_cases hle : mo.address ≤ x.toNat
  · have hsum : 2 ^ ctx.getPointerWidth - mo.address + x.toNat =
        (x.toNat - mo.address) + 2 ^ ctx.getPointerWidth := by omega
    rw [if_pos hle, hsum, Nat.add_mod_right, Nat.mod_eq_of_lt (by omega)]
  · rw [if_neg hle, Nat.mod_eq_of_lt (by omega)]
    omega

theorem getBoundsCheckPointer_isConstraint (mo : MemoryObject) (hp : IsPointer ctx p) :
    IsConstraint (mo.getBoundsCheckPointer ctx p) := by
  have hoff := getOffsetExpr_ok mo hp
  unfold getBoundsCheckPointer getBoundsCheckOffset
  split_ifs
  · exact create_isConstraint (k := .eq) (alloc_typed hoff) rfl
  · exact create_isConstraint (k := .ult) (alloc_typed hoff) rfl

theorem holds_getBoundsCheckPointer (hp : IsPointer ctx p) (hmo : mo.Fits ctx) :
    (mo.getBoundsCheckPointer ctx p).holds σ ↔ mo.Contains (p.eval σ).toNat := by
  have hoff := getOffsetExpr_ok mo hp
  have hlt : (p.eval σ).toNat < 2 ^ ctx.getPointerWidth := hp.2 ▸ Expr.toNat_eval_lt σ hp.1
  have heval := eval_offset hp hmo σ
  have hsize := hmo.size_lt
  have hrange := hmo.2
  unfold extent at hrange
  unfold getBoundsCheckPointer getBoundsCheckOffset Contains extent
  split_ifs with hzero
  · rw [holds_eq_zero hoff, heval]
    split_ifs <;> omega
  · rw [getSizeExpr, holds_ult_alloc hoff hsize, heval]
    split_ifs <;> omega

theorem getBoundsCheckPointerBytes_isConstraint (mo : MemoryObject) (hp : IsPointer ctx p) (bytes : ℕ) :
    IsConstraint (mo.getBoundsCheckPointerBytes ctx p bytes) := by
  unfold getBoundsCheckPointerBytes getBoundsCheckOffsetBytes
  split_ifs
  · exact create_isConstraint (k := .ult) (alloc_typed (getOffsetExpr_ok mo hp)) rfl
  · exact ⟨trivial, rfl⟩

theorem holds_getBoundsCheckPointerBytes (hp : IsPointer ctx p) (hmo : mo.Fits ctx) {bytes : ℕ}
    (hbytes : 0 < bytes) :
    (mo.getBoundsCheckPointerBytes ctx p bytes).holds σ ↔
      mo.address ≤ (p.eval σ).toNat ∧ (p.eval σ).toNat + bytes ≤ mo.address + mo.size := by
  have hoff := getOffsetExpr_ok mo hp
  have hlt : (p.eval σ).toNat < 2 ^ ctx.getPointerWidth := hp.2 ▸ Expr.toNat_eval_lt σ hp.1
  have heval := eval_offset hp hmo σ
  have hsize := mo.size_lt
  have hwidth := hmo.size_lt
  have hrange := hmo.2
  unfold extent at hrange
  unfold getBoundsCheckPointerBytes getBoundsCheckOffsetBytes
  split_ifs with hle
  · have hmod : (mo.size - bytes + 1) % 2 ^ 32 = mo.size - bytes + 1 := Nat.mod_eq_of_lt (by omega)
    rw [hmod, holds_ult_alloc hoff (by omega), heval]
    split_ifs <;> omega
  · refine ⟨fun h => absurd h not_holds_false, fun h => ?_⟩
    omega

end MemoryObject

namespace AddressSpace

open MemoryObject TimingSolver

/-- The objects of the address space have addresses of their own. -/
structure Layout (ctx : Context) (as : AddressSpace) : Prop where
  fits : ∀ op ∈ as.objects, op.1.Fits ctx
  disjoint : ∀ op ∈ as.objects, ∀ op' ∈ as.objects, op ≠ op' → ∀ address,
    op.1.Contains address → ¬ op'.1.Contains address

variable {ctx : Context} {as : AddressSpace} {op op' : ObjectPair} {ts : TimingSolver} {constraints : List Expr}
  {p : Expr}

theorem Layout.le_of_lt (h : Layout ctx as) (hop : op ∈ as.objects) (hop' : op' ∈ as.objects)
    (hlt : op.1.address < op'.1.address) : op.1.address + op.1.extent ≤ op'.1.address := by
  by_contra hgt
  have hpos : 1 ≤ op'.1.extent := le_max_right _ _
  have hne : op ≠ op' := by
    rintro rfl
    omega
  exact h.disjoint op hop op' hop' hne op'.1.address ⟨by omega, by omega⟩ ⟨le_rfl, by omega⟩

theorem Layout.lookupPrevious_eq_some (h : Layout ctx as) (hop : op ∈ as.objects) {address : ℕ}
    (hin : op.1.Contains address) : as.objects.lookupPrevious address = some op := by
  refine OrderedMap.lookupPrevious_eq_some hop hin.1 fun op' hop' hle => ?_
  by_contra hgt
  have hend := h.le_of_lt hop hop' (Nat.lt_of_not_le hgt)
  have hlt := hin.2
  omega

theorem resolveOneConstant_eq_some_iff (h : Layout ctx as) (c : APInt) :
    as.resolveOneConstant c = some op ↔ op ∈ as.objects ∧ op.1.Contains c.toNat := by
  unfold resolveOneConstant
  simp only [bind_eq_some, Option.ite_none_right_eq_some, Option.some.injEq]
  constructor
  · rintro ⟨res, hprev, hin, rfl⟩
    obtain ⟨hmem, hle, -⟩ := OrderedMap.le_of_lookupPrevious hprev
    refine ⟨hmem, hle, ?_⟩
    unfold extent
    omega
  · rintro ⟨hmem, hin⟩
    refine ⟨op, h.lookupPrevious_eq_some hmem hin, ?_, rfl⟩
    obtain ⟨hle, hlt⟩ := hin
    unfold extent at hlt
    omega

def MayPoint (constraints : List Expr) (p : Expr) (op : ObjectPair) : Prop :=
  ∃ σ ∈ Solutions constraints, op.1.Contains (p.eval σ).toNat

section Queries

variable (hs : ts.Exact constraints) (hp : IsPointer ctx p) (hfits : op.1.Fits ctx)

include hs hp hfits

theorem mayBeTrue_bounds : ∃ b, ts.mayBeTrue constraints (op.1.getBoundsCheckPointer ctx p) = some b ∧
    (b = true ↔ MayPoint constraints p op) := by
  obtain ⟨b, hb, hiff⟩ := mayBeTrue_ok hs (getBoundsCheckPointer_isConstraint op.1 hp)
  exact ⟨b, hb, by simp only [hiff, holds_getBoundsCheckPointer hp hfits, MayPoint]⟩

theorem mustBeTrue_bounds : ∃ b, ts.mustBeTrue constraints (op.1.getBoundsCheckPointer ctx p) = some b ∧
    (b = true ↔ ∀ σ ∈ Solutions constraints, op.1.Contains (p.eval σ).toNat) := by
  obtain ⟨b, hb, hiff⟩ := mustBeTrue_ok hs (getBoundsCheckPointer_isConstraint op.1 hp)
  exact ⟨b, hb, by simp only [hiff, holds_getBoundsCheckPointer hp hfits]⟩

theorem mustBeTrue_uge : ∃ b, ts.mustBeTrue constraints (UgeExpr.create p (op.1.getBaseExpr ctx)) = some b ∧
    (b = true ↔ ∀ σ ∈ Solutions constraints, op.1.address ≤ (p.eval σ).toNat) := by
  obtain ⟨b, hb, hiff⟩ := mustBeTrue_ok hs (create_isConstraint (k := .uge) (alloc_typed hp (n := op.1.address)) rfl)
  refine ⟨b, hb, hiff.trans (forall₂_congr fun σ _ => ?_)⟩
  exact holds_uge_alloc hp hfits.address_lt

theorem mustBeTrue_ult : ∃ b, ts.mustBeTrue constraints (UltExpr.create p (op.1.getBaseExpr ctx)) = some b ∧
    (b = true ↔ ∀ σ ∈ Solutions constraints, (p.eval σ).toNat < op.1.address) := by
  obtain ⟨b, hb, hiff⟩ := mustBeTrue_ok hs (create_isConstraint (k := .ult) (alloc_typed hp (n := op.1.address)) rfl)
  refine ⟨b, hb, hiff.trans (forall₂_congr fun σ _ => ?_)⟩
  exact holds_ult_alloc hp hfits.address_lt

end Queries

theorem Layout.not_mayPoint_of_uge (h : Layout ctx as) (hop : op ∈ as.objects) (hop' : op' ∈ as.objects)
    (hlt : op'.1.address < op.1.address)
    (huge : ∀ σ ∈ Solutions constraints, op.1.address ≤ (p.eval σ).toNat) : ¬ MayPoint constraints p op' := by
  rintro ⟨σ, hσ, -, hin⟩
  have hend := h.le_of_lt hop' hop hlt
  have hle := huge σ hσ
  omega

theorem not_mayPoint_of_ult (hle : op.1.address ≤ op'.1.address)
    (hult : ∀ σ ∈ Solutions constraints, (p.eval σ).toNat < op.1.address) : ¬ MayPoint constraints p op' := by
  rintro ⟨σ, hσ, hin, -⟩
  have hlt := hult σ hσ
  omega

theorem Layout.eq_of_must (h : Layout ctx as) (hop : op ∈ as.objects) (hop' : op' ∈ as.objects)
    (hmust : ∀ σ ∈ Solutions constraints, op.1.Contains (p.eval σ).toNat) (hmay : MayPoint constraints p op') :
    op' = op := by
  obtain ⟨σ, hσ, hin⟩ := hmay
  by_contra hne
  exact h.disjoint op hop op' hop' (Ne.symm hne) _ (hmust σ hσ) hin

section Search

variable (hl : Layout ctx as) (hs : ts.Exact constraints) (hp : IsPointer ctx p)

include hl hs hp

theorem resolveOneDown_ok (ops : List ObjectPair) (hops : ∀ op ∈ ops, op ∈ as.objects)
    (hsorted : ops.Pairwise fun a b => b.1.address < a.1.address) :
    ∃ r, resolveOneDown ctx ts constraints p ops = some r ∧ (∀ op, r = some op → op ∈ ops ∧ MayPoint constraints p op) ∧
      (r = none → ∀ op ∈ ops, ¬ MayPoint constraints p op) := by
  induction ops with
  | nil => exact ⟨none, rfl, by simp, by simp⟩
  | cons op ops ih =>
    obtain ⟨hop, hops⟩ := List.forall_mem_cons.mp hops
    obtain ⟨hlt, hsorted⟩ := List.pairwise_cons.mp hsorted
    obtain ⟨may, hmay, hmay_iff⟩ := mayBeTrue_bounds hs hp (hl.fits op hop)
    obtain ⟨must, hmust, hmust_iff⟩ := mustBeTrue_uge hs hp (hl.fits op hop)
    simp only [resolveOneDown, hmay, hmust, some_bind]
    cases may with
    | true => exact ⟨some op, rfl, fun op' h => by cases h; exact ⟨by simp, hmay_iff.mp rfl⟩, by simp⟩
    | false =>
      have hnot : ¬ MayPoint constraints p op := fun h => by cases hmay_iff.mpr h
      cases must with
      | true =>
        refine ⟨none, rfl, by simp, fun _ => List.forall_mem_cons.mpr ⟨hnot, fun op' hop' => ?_⟩⟩
        exact hl.not_mayPoint_of_uge hop (hops op' hop') (hlt op' hop') (hmust_iff.mp rfl)
      | false =>
        obtain ⟨r, hrun, hsome, hnone⟩ := ih hops hsorted
        refine ⟨r, hrun, fun op' h => ?_, fun h => List.forall_mem_cons.mpr ⟨hnot, hnone h⟩⟩
        exact ⟨List.mem_cons_of_mem _ (hsome op' h).1, (hsome op' h).2⟩

theorem resolveOneUp_ok (ops : List ObjectPair) (hops : ∀ op ∈ ops, op ∈ as.objects)
    (hsorted : ops.Pairwise fun a b => a.1.address < b.1.address) :
    ∃ r, resolveOneUp ctx ts constraints p ops = some r ∧ (∀ op, r = some op → op ∈ ops ∧ MayPoint constraints p op) ∧
      (r = none → ∀ op ∈ ops, ¬ MayPoint constraints p op) := by
  induction ops with
  | nil => exact ⟨none, rfl, by simp, by simp⟩
  | cons op ops ih =>
    obtain ⟨hop, hops⟩ := List.forall_mem_cons.mp hops
    obtain ⟨hlt, hsorted⟩ := List.pairwise_cons.mp hsorted
    obtain ⟨may, hmay, hmay_iff⟩ := mayBeTrue_bounds hs hp (hl.fits op hop)
    obtain ⟨must, hmust, hmust_iff⟩ := mustBeTrue_ult hs hp (hl.fits op hop)
    simp only [resolveOneUp, hmay, hmust, some_bind]
    cases must with
    | true =>
      refine ⟨none, rfl, by simp, fun _ op' hop' => not_mayPoint_of_ult ?_ (hmust_iff.mp rfl)⟩
      rcases List.mem_cons.mp hop' with rfl | hop'
      · exact le_rfl
      · exact (hlt op' hop').le
    | false =>
      cases may with
      | true => exact ⟨some op, rfl, fun op' h => by cases h; exact ⟨by simp, hmay_iff.mp rfl⟩, by simp⟩
      | false =>
        have hnot : ¬ MayPoint constraints p op := fun h => by cases hmay_iff.mpr h
        obtain ⟨r, hrun, hsome, hnone⟩ := ih hops hsorted
        refine ⟨r, hrun, fun op' h => ?_, fun h => List.forall_mem_cons.mpr ⟨hnot, hnone h⟩⟩
        exact ⟨List.mem_cons_of_mem _ (hsome op' h).1, (hsome op' h).2⟩

theorem resolveOne_ok :
    ∃ r, as.resolveOne ctx ts constraints p = some r ∧
      (∀ op, r = some op → op ∈ as.objects ∧ MayPoint constraints p op) ∧
      (r = none → ∀ op ∈ as.objects, ¬ MayPoint constraints p op) := by
  unfold resolveOne
  split
  · rename_i c
    obtain ⟨σ0, hσ0⟩ := hs.solver.satisfiable
    refine ⟨_, rfl, fun op hop => ?_, fun hnone op hop hmay => ?_⟩
    · obtain ⟨hmem, hin⟩ := (resolveOneConstant_eq_some_iff hl c).mp hop
      exact ⟨hmem, σ0, hσ0, hin⟩
    · obtain ⟨σ, hσ, hin⟩ := hmay
      rw [(resolveOneConstant_eq_some_iff hl c).mpr ⟨hop, hin⟩] at hnone
      cases hnone
  · obtain ⟨c, hc, σ0, hσ0, heval⟩ := getValue_ok hs hp.1
    simp only [hc, some_bind]
    split
    · rename_i op hcheap
      obtain ⟨hprev, hin⟩ := Option.filter_eq_some_iff.mp hcheap
      obtain ⟨hmem, hle, -⟩ := OrderedMap.le_of_lookupPrevious hprev
      refine ⟨some op, rfl, fun op' h => ?_, by simp⟩
      cases h
      refine ⟨hmem, σ0, hσ0, ?_, ?_⟩
      · rw [heval]
        exact hle
      · rw [heval]
        unfold extent
        have hlt : c.toNat - op.1.address < op.1.size := by simpa using hin
        omega
    · have hdown := resolveOneDown_ok hl hs hp (as.objects.upTo c.toNat).reverse
        (fun op hop => (OrderedMap.mem_upTo.mp (List.mem_reverse.mp hop)).1)
        (List.pairwise_reverse.mpr OrderedMap.sorted_upTo)
      have hup := resolveOneUp_ok hl hs hp (as.objects.above c.toNat)
        (fun op hop => (OrderedMap.mem_above.mp hop).1) OrderedMap.sorted_above
      obtain ⟨r, hrun, hsome, hnone⟩ := hdown
      obtain ⟨r', hrun', hsome', hnone'⟩ := hup
      rw [hrun]
      cases r with
      | some op =>
        obtain ⟨hmem, hmay⟩ := hsome op rfl
        refine ⟨some op, rfl, fun op' h => ?_, by simp⟩
        cases h
        exact ⟨(OrderedMap.mem_upTo.mp (List.mem_reverse.mp hmem)).1, hmay⟩
      | none =>
        refine ⟨r', hrun', fun op h => ?_, fun h op hop => ?_⟩
        · obtain ⟨hmem, hmay⟩ := hsome' op h
          exact ⟨(OrderedMap.mem_above.mp hmem).1, hmay⟩
        · rcases Nat.lt_or_ge c.toNat op.1.address with hlt | hge
          · exact hnone' h op (OrderedMap.mem_above.mpr ⟨hop, hlt⟩)
          · exact hnone rfl op (List.mem_reverse.mpr (OrderedMap.mem_upTo.mpr ⟨hop, hge⟩))

theorem checkPointerInObject_ok (hop : op ∈ as.objects) (rl : List ObjectPair) :
    (¬ MayPoint constraints p op ∧ checkPointerInObject ctx ts constraints p op rl 0 = (.unfinished, rl)) ∨
    MayPoint constraints p op ∧
      (checkPointerInObject ctx ts constraints p op rl 0 = (.unfinished, rl ++ [op]) ∨
        checkPointerInObject ctx ts constraints p op rl 0 = (.complete, rl ++ [op]) ∧
          ∀ op' ∈ as.objects, MayPoint constraints p op' → op' = op) := by
  obtain ⟨may, hmay, hmay_iff⟩ := mayBeTrue_bounds hs hp (hl.fits op hop)
  obtain ⟨must, hmust, hmust_iff⟩ := mustBeTrue_bounds hs hp (hl.fits op hop)
  simp only [checkPointerInObject, hmay, hmust]
  cases may with
  | false => exact .inl ⟨fun h => (by cases hmay_iff.mpr h), rfl⟩
  | true =>
    refine .inr ⟨hmay_iff.mp rfl, ?_⟩
    simp only [List.length_append, List.length_singleton, Nat.succ_ne_zero, if_false]
    split_ifs
    · cases must with
      | true => exact .inr ⟨rfl, fun op' hop' h => hl.eq_of_must hop hop' (hmust_iff.mp rfl) h⟩
      | false => exact .inl rfl
    · exact .inl rfl

omit hl hs hp in
/-- What a loop of `resolve` has done: the list grows by the objects found, and if
it returns there are no others. -/
structure Finds (constraints : List Expr) (p : Expr) (as : AddressSpace) (ops rl : List ObjectPair)
    (result : Option Bool × List ObjectPair) (found : List ObjectPair) : Prop where
  list : result.2 = rl ++ found
  sublist : found.Sublist ops
  mem : ∀ op ∈ ops, MayPoint constraints p op → op ∈ found
  may : ∀ op ∈ found, MayPoint constraints p op
  returns : ∀ b, result.1 = some b → b = false ∧ ∀ op ∈ as.objects, MayPoint constraints p op → op ∈ found

omit hl hs hp in
/-- The loop after an object that may not be pointed to, or is found. -/
theorem Finds.skip {ops rl found : List ObjectPair} {result : Option Bool × List ObjectPair}
    (hnot : ¬ MayPoint constraints p op) (h : Finds constraints p as ops rl result found) :
    Finds constraints p as (op :: ops) rl result found where
  list := h.list
  sublist := h.sublist.trans (List.sublist_cons_self _ _)
  mem op' hop' hmay := by
    rcases List.mem_cons.mp hop' with rfl | hop'
    · exact absurd hmay hnot
    · exact h.mem op' hop' hmay
  may := h.may
  returns := h.returns

omit hl hs hp in
theorem Finds.find {ops rl found : List ObjectPair} {result : Option Bool × List ObjectPair}
    (hmay : MayPoint constraints p op) (h : Finds constraints p as ops (rl ++ [op]) result found) :
    Finds constraints p as (op :: ops) rl result (op :: found) where
  list := by rw [h.list, List.append_assoc]; rfl
  sublist := h.sublist.cons_cons op
  mem op' hop' hmay' := by
    rcases List.mem_cons.mp hop' with rfl | hop'
    · exact List.mem_cons_self
    · exact List.mem_cons_of_mem _ (h.mem op' hop' hmay')
  may := List.forall_mem_cons.mpr ⟨hmay, h.may⟩
  returns b hb := ⟨(h.returns b hb).1, fun op' hop' hmay' => List.mem_cons_of_mem _ ((h.returns b hb).2 op' hop' hmay')⟩

omit hl hs hp in
theorem Finds.stop {ops : List ObjectPair} (rl : List ObjectPair) (hnot : ∀ op ∈ ops, ¬ MayPoint constraints p op) :
    Finds constraints p as ops rl (none, rl) [] where
  list := (List.append_nil rl).symm
  sublist := List.nil_sublist _
  mem op hop hmay := absurd hmay (hnot op hop)
  may := by simp
  returns b hb := by cases hb

omit hl hs hp in
theorem Finds.only {ops : List ObjectPair} (rl : List ObjectPair) (hops : ∀ op ∈ ops, op ∈ as.objects)
    (hmay : MayPoint constraints p op) (honly : ∀ op' ∈ as.objects, MayPoint constraints p op' → op' = op) :
    Finds constraints p as (op :: ops) rl (some false, rl ++ [op]) [op] where
  list := rfl
  sublist := (List.nil_sublist ops).cons_cons op
  mem op' hop' hmay' := by
    rcases List.mem_cons.mp hop' with rfl | hop'
    · exact List.mem_cons_self
    · exact honly op' (hops op' hop') hmay' ▸ List.mem_cons_self
  may := by simpa using hmay
  returns b hb := by
    cases hb
    exact ⟨rfl, fun op' hop' hmay' => honly op' hop' hmay' ▸ List.mem_cons_self⟩

theorem resolveDown_ok (ops : List ObjectPair) (hops : ∀ op ∈ ops, op ∈ as.objects)
    (hsorted : ops.Pairwise fun a b => b.1.address < a.1.address) (rl : List ObjectPair) :
    ∃ found, Finds constraints p as ops rl (resolveDown ctx ts constraints (fun _ => false) p 0 ops rl) found := by
  induction ops generalizing rl with
  | nil => exact ⟨[], .stop rl (by simp)⟩
  | cons op ops ih =>
    obtain ⟨hop, hops⟩ := List.forall_mem_cons.mp hops
    obtain ⟨hlt, hsorted⟩ := List.pairwise_cons.mp hsorted
    obtain ⟨must, hmust, hmust_iff⟩ := mustBeTrue_uge hs hp (hl.fits op hop)
    -- after the check the loop stops, or goes on to lower objects
    have hrest : ∀ rl, ∃ found, Finds constraints p as ops rl (match must with
        | true => (none, rl)
        | false => resolveDown ctx ts constraints (fun _ => false) p 0 ops rl) found := by
      intro rl
      cases must with
      | true =>
        exact ⟨[], .stop rl fun op' hop' =>
          hl.not_mayPoint_of_uge hop (hops op' hop') (hlt op' hop') (hmust_iff.mp rfl)⟩
      | false => exact ih hops hsorted rl
    simp only [resolveDown, Bool.false_eq_true, if_false, hmust]
    rcases checkPointerInObject_ok hl hs hp hop rl with ⟨hnot, hcheck⟩ | ⟨hmay, hcheck | ⟨hcheck, honly⟩⟩
    · obtain ⟨found, hfound⟩ := hrest rl
      rw [hcheck]
      refine ⟨found, ?_⟩
      cases must <;> exact hfound.skip hnot
    · obtain ⟨found, hfound⟩ := hrest (rl ++ [op])
      rw [hcheck]
      refine ⟨op :: found, ?_⟩
      cases must <;> exact hfound.find hmay
    · rw [hcheck]
      exact ⟨[op], .only rl hops hmay honly⟩

theorem resolveUp_ok (ops : List ObjectPair) (hops : ∀ op ∈ ops, op ∈ as.objects)
    (hsorted : ops.Pairwise fun a b => a.1.address < b.1.address) (rl : List ObjectPair) :
    ∃ found, Finds constraints p as ops rl (resolveUp ctx ts constraints (fun _ => false) p 0 ops rl) found := by
  induction ops generalizing rl with
  | nil => exact ⟨[], .stop rl (by simp)⟩
  | cons op ops ih =>
    obtain ⟨hop, hops⟩ := List.forall_mem_cons.mp hops
    obtain ⟨hlt, hsorted⟩ := List.pairwise_cons.mp hsorted
    obtain ⟨must, hmust, hmust_iff⟩ := mustBeTrue_ult hs hp (hl.fits op hop)
    simp only [resolveUp, Bool.false_eq_true, if_false, hmust]
    cases must with
    | true =>
      refine ⟨[], .stop rl fun op' hop' => not_mayPoint_of_ult ?_ (hmust_iff.mp rfl)⟩
      rcases List.mem_cons.mp hop' with rfl | hop'
      · exact le_rfl
      · exact (hlt op' hop').le
    | false =>
      rcases checkPointerInObject_ok hl hs hp hop rl with ⟨hnot, hcheck⟩ | ⟨hmay, hcheck | ⟨hcheck, honly⟩⟩
      · obtain ⟨found, hfound⟩ := ih hops hsorted rl
        rw [hcheck]
        exact ⟨found, hfound.skip hnot⟩
      · obtain ⟨found, hfound⟩ := ih hops hsorted (rl ++ [op])
        rw [hcheck]
        exact ⟨op :: found, hfound.find hmay⟩
      · rw [hcheck]
        exact ⟨[op], .only rl hops hmay honly⟩

theorem resolve_ok :
    ∃ rl, as.resolve ctx ts constraints (fun _ => false) 0 p = (false, rl) ∧ rl.Nodup ∧
      ∀ op, op ∈ rl ↔ op ∈ as.objects ∧ MayPoint constraints p op := by
  unfold resolve
  split
  · rename_i c
    obtain ⟨σ0, hσ0⟩ := hs.solver.satisfiable
    refine ⟨_, rfl, ?_, fun op => ?_⟩
    · cases as.resolveOneConstant c <;> simp
    · rw [Option.mem_toList, resolveOneConstant_eq_some_iff hl c]
      exact and_congr_right fun _ => ⟨fun hin => ⟨σ0, hσ0, hin⟩, fun h => h.elim fun _ h' => h'.2⟩
  · obtain ⟨c, hc, -⟩ := getValue_ok hs hp.1
    rw [hc]
    dsimp only
    obtain ⟨down, hdown⟩ := resolveDown_ok hl hs hp (as.objects.upTo c.toNat).reverse
      (fun op hop => (OrderedMap.mem_upTo.mp (List.mem_reverse.mp hop)).1)
      (List.pairwise_reverse.mpr OrderedMap.sorted_upTo) []
    have hnodup : (as.objects.upTo c.toNat).reverse.Nodup :=
      List.nodup_reverse.mpr (OrderedMap.sorted_upTo.imp fun hlt heq => by rw [heq] at hlt; omega)
    have hmem : ∀ op ∈ down, op ∈ as.objects ∧ op.1.address ≤ c.toNat := fun op hop =>
      OrderedMap.mem_upTo.mp (List.mem_reverse.mp (hdown.sublist.subset hop))
    split
    · rename_i incomplete rl heq
      have hlist : rl = down := (congrArg Prod.snd heq).symm.trans hdown.list
      obtain ⟨hfalse, hall⟩ := hdown.returns incomplete (congrArg Prod.fst heq)
      refine ⟨rl, by rw [hfalse], hlist ▸ hdown.sublist.nodup hnodup, fun op => ?_⟩
      rw [hlist]
      exact ⟨fun hop => ⟨(hmem op hop).1, hdown.may op hop⟩, fun h => hall op h.1 h.2⟩
    · rename_i rl heq
      have hlist : rl = down := (congrArg Prod.snd heq).symm.trans hdown.list
      obtain ⟨up, hup⟩ := resolveUp_ok hl hs hp (as.objects.above c.toNat)
        (fun op hop => (OrderedMap.mem_above.mp hop).1) OrderedMap.sorted_above rl
      have hmem' : ∀ op ∈ up, op ∈ as.objects ∧ c.toNat < op.1.address := fun op hop =>
        OrderedMap.mem_above.mp (hup.sublist.subset hop)
      have hnodup' : (down ++ up).Nodup := by
        refine List.nodup_append.mpr ⟨hdown.sublist.nodup hnodup, hup.sublist.nodup
          (OrderedMap.sorted_above.imp fun hlt heq => by rw [heq] at hlt; omega), fun op hop op' hop' heq => ?_⟩
        have hle := (hmem op hop).2
        have hlt := (hmem' op' hop').2
        rw [heq] at hle
        omega
      have hiff : ∀ op, op ∈ down ++ up ↔ op ∈ as.objects ∧ MayPoint constraints p op := by
        intro op
        rw [List.mem_append]
        constructor
        · rintro (hop | hop)
          · exact ⟨(hmem op hop).1, hdown.may op hop⟩
          · exact ⟨(hmem' op hop).1, hup.may op hop⟩
        · rintro ⟨hop, hmay⟩
          rcases Nat.lt_or_ge c.toNat op.1.address with hlt | hge
          · exact .inr (hup.mem op (OrderedMap.mem_above.mpr ⟨hop, hlt⟩) hmay)
          · exact .inl (hdown.mem op (List.mem_reverse.mpr (OrderedMap.mem_upTo.mpr ⟨hop, hge⟩)) hmay)
      rw [hlist] at hup
      split
      · rename_i incomplete rl' heq'
        have hlist' : rl' = down ++ up := by rw [← hup.list, ← hlist, heq']
        obtain ⟨hfalse, -⟩ := hup.returns incomplete (by rw [← hlist, heq'])
        exact ⟨rl', by rw [hfalse], hlist' ▸ hnodup', fun op => hlist' ▸ hiff op⟩
      · rename_i rl' heq'
        have hlist' : rl' = down ++ up := by rw [← hup.list, ← hlist, heq']
        exact ⟨rl', rfl, hlist' ▸ hnodup', fun op => hlist' ▸ hiff op⟩

end Search

/-- The bounds check of an object on a pointer can be true in a state. -/
def Satisfiable (ctx : Context) (constraints : List Expr) (p : Expr) (op : ObjectPair) : Prop :=
  ∃ σ ∈ Solutions constraints, (op.1.getBoundsCheckPointer ctx p).holds σ

theorem mayPoint_iff_satisfiable (hl : Layout ctx as) (hp : IsPointer ctx p) (hop : op ∈ as.objects) :
    MayPoint constraints p op ↔ Satisfiable ctx constraints p op := by
  simp only [MayPoint, Satisfiable, holds_getBoundsCheckPointer hp (hl.fits op hop)]

/-- Pointer resolution is exact: `resolve` returns each object whose bounds check
can be true once, `resolveOne` at a constant the object that contains the address,
and `resolveOne` an object whose bounds check can be true, if there is one. -/
theorem resolve_exact (hl : Layout ctx as) (hs : ts.Exact constraints) (hp : IsPointer ctx p) :
    (∃ rl, as.resolve ctx ts constraints (fun _ => false) 0 p = (false, rl) ∧ rl.Nodup ∧
      ∀ op, op ∈ rl ↔ op ∈ as.objects ∧ Satisfiable ctx constraints p op) ∧
    (∀ c op, as.resolveOneConstant c = some op ↔ op ∈ as.objects ∧ op.1.Contains c.toNat) ∧
    ∃ r, as.resolveOne ctx ts constraints p = some r ∧
      (r.isSome ↔ ∃ op ∈ as.objects, Satisfiable ctx constraints p op) ∧
      ∀ op, r = some op → op ∈ as.objects ∧ Satisfiable ctx constraints p op := by
  have hiff : ∀ op ∈ as.objects, MayPoint constraints p op ↔ Satisfiable ctx constraints p op :=
    fun op hop => mayPoint_iff_satisfiable hl hp hop
  obtain ⟨rl, hrun, hnodup, hmem⟩ := resolve_ok hl hs hp
  obtain ⟨r, hone, hsome, hnone⟩ := resolveOne_ok hl hs hp
  refine ⟨⟨rl, hrun, hnodup, fun op => (hmem op).trans (and_congr_right fun hop => hiff op hop)⟩,
    fun c op => resolveOneConstant_eq_some_iff hl c, r, hone, ⟨fun h => ?_, fun ⟨op, hop, hsat⟩ => ?_⟩,
    fun op hr => ?_⟩
  · obtain ⟨op, rfl⟩ := Option.isSome_iff_exists.mp h
    obtain ⟨hop, hmay⟩ := hsome op rfl
    exact ⟨op, hop, (hiff op hop).mp hmay⟩
  · cases r with
    | none => exact absurd ((hiff op hop).mpr hsat) (hnone rfl op hop)
    | some op => rfl
  · obtain ⟨hop, hmay⟩ := hsome op hr
    exact ⟨hop, (hiff op hop).mp hmay⟩

def twoObjects : AddressSpace :=
  let first : MemoryMap := OrderedMap.empty.replace (⟨0, 16, 8, 0, MemoryObject.sixteen_lt_address, by decide⟩, 0)
  ⟨1, first.replace (⟨1, 32, 0, 0, by decide, by decide⟩, 1)⟩

theorem mem_twoObjects {op : ObjectPair} : op ∈ twoObjects.objects ↔
    op = (⟨0, 16, 8, 0, by decide, by decide⟩, 0) ∨ op = (⟨1, 32, 0, 0, by decide, by decide⟩, 1) := by
  simp only [twoObjects, OrderedMap.mem_replace]
  constructor
  · rintro (⟨⟨hop, -⟩ | rfl, -⟩ | rfl)
    · cases hop
    · exact .inl rfl
    · exact .inr rfl
  · rintro (rfl | rfl)
    · exact .inl ⟨.inr rfl, by decide⟩
    · exact .inr rfl

theorem layout_twoObjects : Layout ⟨true, 64⟩ twoObjects := by
  refine ⟨fun op hop => ?_, fun op hop op' hop' hne address => ?_⟩
  · rcases mem_twoObjects.mp hop with rfl | rfl <;> exact ⟨by decide, by decide⟩
  · rcases mem_twoObjects.mp hop with rfl | rfl <;> rcases mem_twoObjects.mp hop' with rfl | rfl <;>
      simp_all [Contains, extent] <;> omega

theorem oracle_exact_nil : (⟨SolverImpl.oracle, true, {}⟩ : TimingSolver).Exact [] :=
  ⟨SolverImpl.oracle_exactOn ⟨fun _ _ => 0, fun _ _ _ => rfl, mem_models_nil _⟩, by simp⟩

/-- A pointer with a symbolic byte as its lowest one. -/
theorem resolve_exact_two :
    let ctx : Context := ⟨true, 64⟩
    let first : MemoryMap := OrderedMap.empty.replace (⟨0, 16, 8, 0, MemoryObject.sixteen_lt_address, by decide⟩, 0)
    let as : AddressSpace := ⟨1, first.replace (⟨1, 32, 0, 0, by decide, by decide⟩, 1)⟩
    let p := Expr.cast .zext (Expr.read (.symbolic 0 "x" 1 (by decide)) .null (constant (APInt.ofNat 32 0))) 64
    ∃ rl, as.resolve ctx ⟨SolverImpl.oracle, true, {}⟩ [] (fun _ => false) 0 p = (false, rl) ∧ rl.Nodup ∧
      ∀ op, op ∈ rl ↔ op ∈ as.objects ∧ Satisfiable ctx [] p op :=
  (resolve_exact layout_twoObjects oracle_exact_nil ⟨by decide, rfl⟩).1

end AddressSpace

end Klee
