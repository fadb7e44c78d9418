import DdKlee.Proofs.Resolve

/-! Pointer resolution with a bound on the number of objects. -/

namespace Klee

open Expr

namespace TimingSolver

variable {ts : TimingSolver} {constraints : List Expr} {e : Expr}

/-- The solver may fail, but its answers about the state are right. -/
structure Sound (ts : TimingSolver) (constraints : List Expr) : Prop where
  solver : ∀ e, IsConstraint e → ts.solver.CorrectOn ⟨constraints, e⟩
  constraints : ∀ c ∈ constraints, IsConstraint c

theorem Sound.holds_of_mustBeTrue (h : ts.Sound constraints) (he : IsConstraint e)
    (hmust : ts.mustBeTrue constraints e = some true) : ∀ σ ∈ Solutions constraints, e.holds σ := by
  unfold mustBeTrue at hmust
  split at hmust
  · exact fun σ _ => holds_constant.mpr (Option.some.inj hmust)
  · obtain ⟨r, hrun, hs⟩ := (simplify_ok h.constraints he.1 : ∃ r, ts.simplify constraints _ = some r ∧ _)
    have hr := hs.isConstraint he
    rw [hrun] at hmust
    simp only [some_bind, Solver.mustBeTrue, hr.2, if_true] at hmust
    refine fun σ hσ => (hs.holds_iff hσ.2).mp ?_
    split at hmust
    · exact holds_constant.mpr (Option.some.inj hmust)
    · exact valid_iff_forall.mp (((h.solver r hr).truth true hmust).mp rfl) σ hσ

theorem Sound.not_holds_of_mayBeTrue (h : ts.Sound constraints) (he : IsConstraint e)
    (hmay : ts.mayBeTrue constraints e = some false) : ∀ σ ∈ Solutions constraints, ¬ e.holds σ := by
  obtain ⟨b, hb, hnot⟩ := Option.map_eq_some_iff.mp hmay
  obtain rfl : b = true := by simpa using hnot
  have hall := h.holds_of_mustBeTrue (createIsZero_isConstraint he) hb
  exact fun σ hσ => (holds_createIsZero he).mp (hall σ hσ)

end TimingSolver

namespace AddressSpace

open MemoryObject TimingSolver

variable {ctx : Context} {as : AddressSpace} {op : ObjectPair} {ts : TimingSolver} {constraints : List Expr}
  {p : Expr} {maxResolutions : ℕ}

/-- What a part of the search has done, from the list `rl` to the list `rl'`: the
list stays within the bound, and below it while the search goes on; if it returns
as complete, no object is missing. -/
structure Within (constraints : List Expr) (p : Expr) (as : AddressSpace) (maxResolutions : ℕ) (goesOn complete : Prop)
    (rl rl' : List ObjectPair) : Prop where
  subset : rl ⊆ rl'
  length : rl.length < maxResolutions → rl'.length ≤ maxResolutions ∧ (goesOn → rl'.length < maxResolutions)
  all : complete → ∀ op ∈ as.objects, MayPoint constraints p op → op ∈ rl'

theorem Within.refl {goesOn complete : Prop} (hcomplete : ¬ complete) (rl : List ObjectPair) :
    Within constraints p as maxResolutions goesOn complete rl rl :=
  ⟨List.Subset.refl rl, fun h => ⟨h.le, fun _ => h⟩, fun h => absurd h hcomplete⟩

theorem Within.trans {goesOn goesOn' complete complete' : Prop} {rl rl' rl'' : List ObjectPair}
    (h : Within constraints p as maxResolutions goesOn complete rl rl') (hgoesOn : goesOn)
    (h' : Within constraints p as maxResolutions goesOn' complete' rl' rl'') :
    Within constraints p as maxResolutions goesOn' complete' rl rl'' :=
  ⟨List.Subset.trans h.subset h'.subset, fun hlt => h'.length ((h.length hlt).2 hgoesOn), h'.all⟩

section Search

variable (hl : Layout ctx as) (hs : ts.Sound constraints) (hp : IsPointer ctx p) (hmax : 2 ≤ maxResolutions)

include hl hs hp hmax

theorem checkPointerInObject_within (hop : op ∈ as.objects) (rl : List ObjectPair) :
    ∃ r rl', checkPointerInObject ctx ts constraints p op rl maxResolutions = (r, rl') ∧
      Within constraints p as maxResolutions (r = .unfinished) (r = .complete) rl rl' ∧
      (r = .unfinished → MayPoint constraints p op → op ∈ rl') := by
  have hbounds := getBoundsCheckPointer_isConstraint op.1 hp
  have hholds := fun σ => holds_getBoundsCheckPointer (σ := σ) hp (hl.fits op hop)
  -- the object is added, and the search returns unless the list is below the bound
  have hadd : ∀ r, (r = .complete → ∀ op' ∈ as.objects, MayPoint constraints p op' → op' = op) →
      (r = .unfinished → rl.length < maxResolutions → rl.length + 1 < maxResolutions) →
      Within constraints p as maxResolutions (r = .unfinished) (r = .complete) rl (rl ++ [op]) ∧
        (r = Resolution.unfinished → MayPoint constraints p op → op ∈ rl ++ [op]) := by
    intro r hcomplete hunfinished
    refine ⟨⟨List.subset_append_left _ _, fun hlt => ?_, fun hr op' hop' hmay => ?_⟩, fun _ _ => by simp⟩
    · rw [List.length_append, List.length_singleton]
      exact ⟨hlt, fun hr => hunfinished hr hlt⟩
    · rw [hcomplete hr op' hop' hmay]
      simp
  unfold checkPointerInObject
  dsimp only
  split
  · exact ⟨_, _, rfl, .refl nofun rl, nofun⟩
  · rename_i hmay
    refine ⟨_, _, rfl, .refl nofun rl, ?_⟩
    rintro - ⟨σ, hσ, hin⟩
    exact absurd ((hholds σ).mpr hin) (hs.not_holds_of_mayBeTrue hbounds hmay σ hσ)
  · split_ifs with hone hfull
    · rw [List.length_append, List.length_singleton] at hone
      split
      · exact ⟨_, _, rfl, hadd _ nofun nofun⟩
      · rename_i hmust
        refine ⟨_, _, rfl, hadd _ (fun _ op' hop' hmay => ?_) nofun⟩
        exact hl.eq_of_must hop hop' (fun σ hσ => (hholds σ).mp (hs.holds_of_mustBeTrue hbounds hmust σ hσ)) hmay
      · exact ⟨_, _, rfl, hadd _ nofun fun _ _ => by omega⟩
    · exact ⟨_, _, rfl, hadd _ nofun nofun⟩
    · rw [List.length_append, List.length_singleton] at hfull
      exact ⟨_, _, rfl, hadd _ nofun fun _ _ => by omega⟩

omit hl hs hp hmax in
def LoopWithin (constraints : List Expr) (p : Expr) (as : AddressSpace) (maxResolutions : ℕ)
    (ops rl : List ObjectPair) (result : Option Bool × List ObjectPair) : Prop :=
  Within constraints p as maxResolutions (result.1 = none) (result.1 = some false) rl result.2 ∧
    (result.1 = none → ∀ op ∈ ops, MayPoint constraints p op → op ∈ result.2)

omit hl hs hp hmax in
theorem LoopWithin.fail (ops rl : List ObjectPair) :
    LoopWithin constraints p as maxResolutions ops rl (some true, rl) :=
  ⟨.refl nofun rl, nofun⟩

omit hl hs hp hmax in
theorem LoopWithin.stop {ops : List ObjectPair} (rl : List ObjectPair)
    (hnot : ∀ op ∈ ops, ¬ MayPoint constraints p op) :
    LoopWithin constraints p as maxResolutions ops rl (none, rl) :=
  ⟨.refl nofun rl, fun _ op hop hmay => absurd hmay (hnot op hop)⟩

theorem LoopWithin.check {ops rl : List ObjectPair} (hop : op ∈ as.objects)
    {rest : List ObjectPair → Option Bool × List ObjectPair}
    (hrest : ∀ rl, LoopWithin constraints p as maxResolutions ops rl (rest rl)) :
    LoopWithin constraints p as maxResolutions (op :: ops) rl
      (match checkPointerInObject ctx ts constraints p op rl maxResolutions with
        | (.complete, rl) => (some false, rl)
        | (.incomplete, rl) => (some true, rl)
        | (.unfinished, rl) => rest rl) := by
  obtain ⟨r, rl', hcheck, hwithin, hfound⟩ := checkPointerInObject_within hl hs hp hmax hop rl
  rw [hcheck]
  cases r with
  | complete => exact ⟨⟨hwithin.subset, fun h => ⟨(hwithin.length h).1, nofun⟩, fun _ => hwithin.all rfl⟩, nofun⟩
  | incomplete => exact ⟨⟨hwithin.subset, fun h => ⟨(hwithin.length h).1, nofun⟩, nofun⟩, nofun⟩
  | unfinished =>
    obtain ⟨hwithin', hfound'⟩ := hrest rl'
    refine ⟨hwithin.trans rfl hwithin', fun hnone => List.forall_mem_cons.mpr ⟨fun hmay => ?_, hfound' hnone⟩⟩
    exact hwithin'.subset (hfound rfl hmay)

variable (timedOut : MemoryObject → Bool)

theorem resolveDown_within (ops : List ObjectPair) (hops : ∀ op ∈ ops, op ∈ as.objects)
    (hsorted : ops.Pairwise fun a b => b.1.address < a.1.address) (rl : List ObjectPair) :
    LoopWithin constraints p as maxResolutions ops rl
      (resolveDown ctx ts constraints timedOut p maxResolutions ops rl) := by
  induction ops generalizing rl with
  | nil => exact .stop rl (by simp)
  | cons op ops ih =>
    obtain ⟨hop, hops⟩ := List.forall_mem_cons.mp hops
    obtain ⟨hlt, hsorted⟩ := List.pairwise_cons.mp hsorted
    rw [resolveDown]
    split_ifs
    · exact .fail _ rl
    refine LoopWithin.check hl hs hp hmax hop fun rl => ?_
    have huge : IsConstraint (UgeExpr.create p (op.1.getBaseExpr ctx)) :=
      create_isConstraint (k := .uge) (alloc_typed hp) rfl
    split
    · exact .fail _ rl
    · rename_i hmust
      refine .stop rl fun op' hop' => hl.not_mayPoint_of_uge hop (hops op' hop') (hlt op' hop') fun σ hσ => ?_
      exact (holds_uge_alloc hp (hl.fits op hop).address_lt).mp (hs.holds_of_mustBeTrue huge hmust σ hσ)
    · exact ih hops hsorted rl

theorem resolveUp_within (ops : List ObjectPair) (hops : ∀ op ∈ ops, op ∈ as.objects)
    (hsorted : ops.Pairwise fun a b => a.1.address < b.1.address) (rl : List ObjectPair) :
    LoopWithin constraints p as maxResolutions ops rl
      (resolveUp ctx ts constraints timedOut p maxResolutions ops rl) := by
  induction ops generalizing rl with
  | nil => exact .stop rl (by simp)
  | cons op ops ih =>
    obtain ⟨hop, hops⟩ := List.forall_mem_cons.mp hops
    obtain ⟨hlt, hsorted⟩ := List.pairwise_cons.mp hsorted
    have hult : IsConstraint (UltExpr.create p (op.1.getBaseExpr ctx)) :=
      create_isConstraint (k := .ult) (alloc_typed hp) rfl
    rw [resolveUp]
    split_ifs
    · exact .fail _ rl
    split
    · exact .fail _ rl
    · rename_i hmust
      have hbelow : ∀ σ ∈ Solutions constraints, (p.eval σ).toNat < op.1.address := fun σ hσ =>
        (holds_ult_alloc hp (hl.fits op hop).address_lt).mp (hs.holds_of_mustBeTrue hult hmust σ hσ)
      refine .stop rl fun op' hop' => not_mayPoint_of_ult ?_ hbelow
      rcases List.mem_cons.mp hop' with rfl | hop'
      · exact le_rfl
      · exact (hlt op' hop').le
    · exact LoopWithin.check hl hs hp hmax hop fun rl => ih hops hsorted rl

theorem resolve_within {incomplete : Bool} {rl : List ObjectPair}
    (h : as.resolve ctx ts constraints timedOut maxResolutions p = (incomplete, rl)) :
    rl.length ≤ maxResolutions ∧
      (incomplete = false → ∀ op ∈ as.objects, MayPoint constraints p op → op ∈ rl) := by
  unfold resolve at h
  split at h
  · rename_i c
    obtain ⟨rfl, rfl⟩ := Prod.mk.inj h
    refine ⟨?_, fun _ op hop hmay => ?_⟩
    · have hlen : (as.resolveOneConstant c).toList.length ≤ 1 := by
        cases as.resolveOneConstant c <;> simp
      omega
    · obtain ⟨σ, _, hin⟩ := hmay
      rw [Option.mem_toList]
      exact (resolveOneConstant_eq_some_iff hl c).mpr ⟨hop, hin⟩
  · split at h
    · obtain ⟨rfl, rfl⟩ := Prod.mk.inj h
      exact ⟨Nat.zero_le _, by simp⟩
    · rename_i c _
      dsimp only at h
      obtain ⟨hdown, hfound⟩ := resolveDown_within hl hs hp hmax timedOut (as.objects.upTo c.toNat).reverse
        (fun op hop => (OrderedMap.mem_upTo.mp (List.mem_reverse.mp hop)).1)
        (List.pairwise_reverse.mpr OrderedMap.sorted_upTo) []
      have hempty : ([] : List ObjectPair).length < maxResolutions := by simp; omega
      split at h
      · rename_i b rl' heq
        rw [heq] at hdown
        obtain ⟨rfl, rfl⟩ := Prod.mk.inj h
        exact ⟨(hdown.length hempty).1, fun hb => hdown.all (by rw [hb])⟩
      · rename_i rl' heq
        rw [heq] at hdown hfound
        obtain ⟨hup, hfound'⟩ := resolveUp_within hl hs hp hmax timedOut (as.objects.above c.toNat)
          (fun op hop => (OrderedMap.mem_above.mp hop).1) OrderedMap.sorted_above rl'
        have hboth := hdown.trans rfl hup
        split at h
        · rename_i b rl'' heq'
          rw [heq'] at hboth
          obtain ⟨rfl, rfl⟩ := Prod.mk.inj h
          exact ⟨(hboth.length hempty).1, fun hb => hboth.all (by rw [hb])⟩
        · rename_i rl'' heq'
          rw [heq'] at hboth hup hfound'
          obtain ⟨rfl, rfl⟩ := Prod.mk.inj h
          refine ⟨(hboth.length hempty).1, fun _ op hop hmay => ?_⟩
          rcases Nat.lt_or_ge c.toNat op.1.address with hlt | hge
          · exact hfound' rfl op (OrderedMap.mem_above.mpr ⟨hop, hlt⟩) hmay
          · exact hup.subset (hfound rfl op (List.mem_reverse.mpr (OrderedMap.mem_upTo.mpr ⟨hop, hge⟩)) hmay)

end Search

theorem checkPointerInObject_one (op : ObjectPair) (rl : List ObjectPair) :
    checkPointerInObject ctx ts constraints p op rl 1 = checkPointerInObject ctx ts constraints p op rl 0 := by
  unfold checkPointerInObject
  dsimp only
  split
  · rfl
  · rfl
  · split_ifs with hone hzero
    · rfl
    · simp at hzero
    · rfl

theorem resolveDown_one (timedOut : MemoryObject → Bool) (ops rl : List ObjectPair) :
    resolveDown ctx ts constraints timedOut p 1 ops rl = resolveDown ctx ts constraints timedOut p 0 ops rl := by
  induction ops generalizing rl with
  | nil => rfl
  | cons op ops ih => simp only [resolveDown, checkPointerInObject_one, ih]

theorem resolveUp_one (timedOut : MemoryObject → Bool) (ops rl : List ObjectPair) :
    resolveUp ctx ts constraints timedOut p 1 ops rl = resolveUp ctx ts constraints timedOut p 0 ops rl := by
  induction ops generalizing rl with
  | nil => rfl
  | cons op ops ih => simp only [resolveUp, checkPointerInObject_one, ih]

theorem resolve_one (timedOut : MemoryObject → Bool) :
    as.resolve ctx ts constraints timedOut 1 p = as.resolve ctx ts constraints timedOut 0 p := by
  unfold resolve
  simp only [resolveDown_one, resolveUp_one]

/-- At most so many objects are found, and the resolution is incomplete if an
object is missing that the pointer may point to. -/
def Bounded (ctx : Context) (as : AddressSpace) (ts : TimingSolver) (constraints : List Expr)
    (timedOut : MemoryObject → Bool) (maxResolutions : ℕ) (p : Expr) : Prop :=
  let result := as.resolve ctx ts constraints timedOut maxResolutions p
  result.2.length ≤ maxResolutions ∧
    ((∃ op ∈ as.objects, Satisfiable ctx constraints p op ∧ op ∉ result.2) → result.1 = true)

theorem bounded_of_two_le (hl : Layout ctx as) (hs : ts.Sound constraints) (hp : IsPointer ctx p)
    (hmax : 2 ≤ maxResolutions) (timedOut : MemoryObject → Bool) :
    Bounded ctx as ts constraints timedOut maxResolutions p := by
  obtain ⟨hlen, hall⟩ := resolve_within hl hs hp hmax timedOut rfl
  refine ⟨hlen, fun ⟨op, hop, hsat, hmissing⟩ => ?_⟩
  by_contra hcomplete
  rw [Bool.not_eq_true] at hcomplete
  exact hmissing (hall hcomplete op hop ((mayPoint_iff_satisfiable hl hp hop).mpr hsat))

theorem length_le_one_iff_of_nodup {rl : List ObjectPair} (h : rl.Nodup) :
    rl.length ≤ 1 ↔ ∀ op ∈ rl, ∀ op' ∈ rl, op = op' := by
  rcases rl with _ | ⟨op, _ | ⟨op', rl⟩⟩
  · simp
  · simp
  · refine ⟨fun hlen => absurd hlen (by simp), fun hall => ?_⟩
    have heq := hall op (by simp) op' (by simp)
    exact absurd heq (by simp at h; tauto)

theorem bounded_one_iff (hl : Layout ctx as) (hs : ts.Exact constraints) (hp : IsPointer ctx p) :
    Bounded ctx as ts constraints (fun _ => false) 1 p ↔ ∀ op ∈ as.objects, ∀ op' ∈ as.objects,
      Satisfiable ctx constraints p op → Satisfiable ctx constraints p op' → op = op' := by
  obtain ⟨rl, hrun, hnodup, hmem⟩ := resolve_ok hl hs hp
  have hmem' : ∀ op, op ∈ rl ↔ op ∈ as.objects ∧ Satisfiable ctx constraints p op := fun op =>
    (hmem op).trans (and_congr_right fun hop => mayPoint_iff_satisfiable hl hp hop)
  have hfound : (∃ op ∈ as.objects, Satisfiable ctx constraints p op ∧ op ∉ rl) → false = true :=
    fun ⟨op, hop, hsat, hmissing⟩ => absurd ((hmem' op).mpr ⟨hop, hsat⟩) hmissing
  simp only [Bounded, resolve_one, hrun]
  rw [and_iff_left hfound, length_le_one_iff_of_nodup hnodup]
  simp only [hmem', and_imp]
  exact ⟨fun h op hop op' hop' hsat hsat' => h op hop hsat op' hop' hsat',
    fun h op hop hsat op' hop' hsat' => h op hop op' hop' hsat hsat'⟩

/-- The bound is kept unless it is 1, by a solver that may fail and with a clock.
The bound 1 is kept if there are not two objects to find, and with a solver that
does not fail and no clock only then. -/
theorem resolve_bounded (hl : Layout ctx as) (hs : ts.Sound constraints) (hp : IsPointer ctx p)
    (hmax : maxResolutions ≠ 0) :
    (maxResolutions ≠ 1 → ∀ timedOut, Bounded ctx as ts constraints timedOut maxResolutions p) ∧
    (ts.Exact constraints → (Bounded ctx as ts constraints (fun _ => false) maxResolutions p ↔
      maxResolutions ≠ 1 ∨ ∀ op ∈ as.objects, ∀ op' ∈ as.objects,
        Satisfiable ctx constraints p op → Satisfiable ctx constraints p op' → op = op')) := by
  have hmany : maxResolutions ≠ 1 → ∀ timedOut, Bounded ctx as ts constraints timedOut maxResolutions p :=
    fun hne => bounded_of_two_le hl hs hp (by omega)
  refine ⟨hmany, fun hexact => ?_⟩
  by_cases hone : maxResolutions = 1
  · subst hone
    rw [bounded_one_iff hl hexact hp]
    simp
  · exact ⟨fun _ => .inl hone, fun _ => hmany hone _⟩

theorem oracle_sound_nil : (⟨SolverImpl.oracle, true, {}⟩ : TimingSolver).Sound [] :=
  ⟨fun _ _ => SolverImpl.oracle_correctOn _, by simp⟩

def bytePointer : Expr :=
  .cast .zext (.read (.symbolic 0 "x" 1 Array.one_lt_size) .null (constant (APInt.ofNat 32 0))) 64

theorem bytePointer_isPointer : IsPointer ⟨true, 64⟩ bytePointer := ⟨by decide, rfl⟩

theorem resolve_bounded_two : 2 ≠ 0 ∧ ∀ timedOut,
    Bounded ⟨true, 64⟩ twoObjects ⟨SolverImpl.oracle, true, {}⟩ [] timedOut 2 bytePointer :=
  ⟨by decide, (resolve_bounded layout_twoObjects oracle_sound_nil bytePointer_isPointer (by decide)).1 (by decide)⟩

theorem mayPoint_bytePointer {op : ObjectPair} (v : BitVec 8) (h : op.1.Contains v.toNat) :
    MayPoint [] bytePointer op := by
  refine ⟨fun array i => if i < array.size then v else 0, ⟨fun array i hi => ?_, mem_models_nil _⟩, ?_⟩
  · exact if_neg (Nat.not_lt.mpr hi)
  · have heval : (bytePointer.eval fun array i => if i < array.size then v else 0).toNat = v.toNat := by
      have hzext : ((bytePointer.eval fun array i => if i < array.size then v else 0) : APInt) =
          ⟨64, v.setWidth 64⟩ := rfl
      rw [hzext]
      exact BitVec.toNat_setWidth_of_le (by decide)
    rw [heval]
    exact h

/-- With the bound 1, both objects are found. -/
theorem resolve_beyond_bound : ∃ incomplete rl,
    twoObjects.resolve ⟨true, 64⟩ ⟨SolverImpl.oracle, true, {}⟩ [] (fun _ => false) 1 bytePointer = (incomplete, rl) ∧
      1 < rl.length := by
  obtain ⟨rl, hrun, hnodup, hmem⟩ := resolve_ok layout_twoObjects oracle_exact_nil bytePointer_isPointer
  refine ⟨false, rl, resolve_one _ |>.trans hrun, ?_⟩
  by_contra hlen
  have hall := (length_le_one_iff_of_nodup hnodup).mp (not_lt.mp hlen)
  have hfirst := (hmem _).mpr ⟨mem_twoObjects.mpr (.inl rfl), mayPoint_bytePointer 16#8 ⟨by decide, by decide⟩⟩
  have hsecond := (hmem _).mpr ⟨mem_twoObjects.mpr (.inr rfl), mayPoint_bytePointer 32#8 ⟨by decide, by decide⟩⟩
  exact absurd (hall _ hfirst _ hsecond) (by decide)

end AddressSpace

end Klee
