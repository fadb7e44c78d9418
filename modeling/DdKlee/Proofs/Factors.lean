import DdKlee.Proofs.Independent
import DdKlee.Proofs.Query

/-! The factors of a query: they have its constraints and its negated expression
among them and share no array element, and the answers for the factors, put
together array by array, are an answer for the query. -/

namespace Klee

open Expr

namespace IndependentElementSet

variable {s b : IndependentElementSet} {a : Array} {i : ℕ}

def Apart (s b : IndependentElementSet) : Prop := ∀ a i, ¬ (s.Covers a i ∧ b.Covers a i)

theorem mem_arrays : a ∈ s.arrays ↔ a ∈ s.elements ∨ a ∈ s.wholeObjects := by
  simp [arrays, AList.mem_keys]

theorem mem_arrays_of_covers (h : s.Covers a i) : a ∈ s.arrays := by
  rcases h with h | ⟨dis, hdis, -⟩
  · exact mem_arrays.mpr (.inr h)
  · exact mem_arrays.mpr (.inl (AList.lookup_isSome.mp (Option.isSome_iff_exists.mpr ⟨dis, hdis⟩)))

def Inhabited (s : IndependentElementSet) : Prop := ∀ a, ∀ dis ∈ s.elements.lookup a, dis.Nonempty

theorem Inhabited.exists_covers (h : s.Inhabited) (ha : a ∈ s.arrays) : ∃ i, s.Covers a i := by
  rcases mem_arrays.mp ha with ha | ha
  · obtain ⟨dis, hdis⟩ := Option.isSome_iff_exists.mp (AList.lookup_isSome.mpr ha)
    obtain ⟨i, hi⟩ := h a dis hdis
    exact ⟨i, .inr ⟨dis, hdis, hi⟩⟩
  · exact ⟨0, .inl ha⟩

theorem Inhabited.insert (h : s.Inhabited) {dis : Finset ℕ} (hdis : dis.Nonempty) (array : Array) :
    Inhabited { s with elements := s.elements.insert array dis } := by
  intro a' dis' hdis'
  by_cases ha : a' = array
  · subst ha
    simp only [AList.lookup_insert, Option.mem_def, Option.some.injEq] at hdis'
    exact hdis' ▸ hdis
  · exact h a' dis' (by simpa only [AList.lookup_insert_ne ha] using hdis')

theorem Inhabited.erase (h : s.Inhabited) (array : Array) (whole : List Array) :
    Inhabited { s with elements := s.elements.erase array, wholeObjects := whole } := by
  intro a' dis' hdis'
  by_cases ha : a' = array
  · subst ha
    simp at hdis'
  · exact h a' dis' (by simpa only [AList.lookup_erase_ne ha] using hdis')

theorem addRead_inhabited (h : s.Inhabited) (re : UpdateList × Expr) : (s.addRead re).Inhabited := by
  unfold addRead
  dsimp only
  split_ifs
  · exact h
  · exact h
  · split
    · exact h.insert (Finset.insert_nonempty _ _) _
    · exact h.erase _ _

theorem ofExpr_inhabited (e : Expr) : (ofExpr e).Inhabited := by
  have hfold : ∀ (reads : List (UpdateList × Expr)) (s : IndependentElementSet), s.Inhabited →
      (reads.foldl addRead s).Inhabited := by
    intro reads
    induction reads with
    | nil => exact fun _ h => h
    | cons re reads ih => exact fun s h => ih _ (addRead_inhabited h re)
  exact hfold _ _ fun a dis hdis => by simp at hdis

theorem addWhole_inhabited {acc : IndependentElementSet × Bool} (h : acc.1.Inhabited) (array : Array) :
    (addWhole acc array).1.Inhabited := by
  unfold addWhole
  dsimp only
  split_ifs
  · exact h.erase _ _
  · exact h
  · exact h

theorem addElements_inhabited {acc : IndependentElementSet × Bool} (h : acc.1.Inhabited)
    {p : Sigma fun _ : Array => Finset ℕ} (hp : p.2.Nonempty) : (addElements acc p).1.Inhabited := by
  unfold addElements
  dsimp only
  split_ifs
  · exact h
  · split
    · exact h.insert hp _
    · exact h.insert (hp.mono Finset.subset_union_right) _

theorem add_inhabited (hs : s.Inhabited) (hb : b.Inhabited) : (s.add b).1.Inhabited := by
  have hwhole : ∀ (arrays : List Array) (acc : IndependentElementSet × Bool), acc.1.Inhabited →
      (arrays.foldl addWhole acc).1.Inhabited := by
    intro arrays
    induction arrays with
    | nil => exact fun _ h => h
    | cons array arrays ih => exact fun acc h => ih _ (addWhole_inhabited h array)
  have helements : ∀ (ps : List (Sigma fun _ : Array => Finset ℕ)) (acc : IndependentElementSet × Bool),
      (∀ p ∈ ps, p.2.Nonempty) → acc.1.Inhabited → (ps.foldl addElements acc).1.Inhabited := by
    intro ps
    induction ps with
    | nil => exact fun _ _ h => h
    | cons p ps ih =>
      intro acc hps h
      exact ih _ (fun p' hp' => hps p' (List.mem_cons_of_mem _ hp'))
        (addElements_inhabited h (hps p List.mem_cons_self))
  refine helements _ _ (fun p hp => hb p.1 p.2 (AList.mem_lookup_iff.mpr hp)) (hwhole _ _ ?_)
  exact hs

theorem add_exprs (s b : IndependentElementSet) : (s.add b).1.exprs = s.exprs ++ b.exprs :=
  (add_added s b).exprs

theorem foldl_addRead_exprs (reads : List (UpdateList × Expr)) (s : IndependentElementSet) :
    (reads.foldl addRead s).exprs = s.exprs := by
  induction reads generalizing s with
  | nil => rfl
  | cons re reads ih =>
    rw [List.foldl_cons, ih]
    unfold addRead
    dsimp only
    split_ifs <;> [rfl; rfl; (split <;> rfl)]

@[simp] theorem ofExpr_exprs (e : Expr) : (ofExpr e).exprs = [e] := foldl_addRead_exprs _ _

structure IsFactor (f : IndependentElementSet) : Prop where
  covers : ∀ a i, f.Covers a i ↔ ∃ e ∈ f.exprs, (ofExpr e).Covers a i
  inhabited : f.Inhabited

theorem ofExpr_isFactor (e : Expr) : (ofExpr e).IsFactor := ⟨by simp, ofExpr_inhabited e⟩

theorem IsFactor.add (hs : s.IsFactor) (hb : b.IsFactor) : (s.add b).1.IsFactor where
  covers a i := by
    rw [add_covers, hs.covers, hb.covers, add_exprs]
    simp only [List.mem_append, or_and_right, exists_or]
  inhabited := add_inhabited hs.inhabited hb.inhabited

end IndependentElementSet

namespace getAllIndependentConstraintsSets

open IndependentElementSet

/-- What the inner loop does. If no set grew, what is kept is apart from
`current`. -/
structure AbsorbOk (current : IndependentElementSet) (factors : List IndependentElementSet)
    (r : Absorbed) : Prop where
  perm : (r.current.exprs ++ r.keep.flatMap (·.exprs)).Perm (current.exprs ++ factors.flatMap (·.exprs))
  keep : ∀ f ∈ r.keep, f ∈ factors
  isFactor : current.IsFactor → (∀ f ∈ factors, f.IsFactor) → r.current.IsFactor
  unchanged : r.doneLoop = true → ∀ a i, r.current.Covers a i → current.Covers a i
  apart : r.doneLoop = true → ∀ f ∈ r.keep, current.Apart f
  length : r.keep.length ≤ factors.length
  shrinks : r.doneLoop = false → r.keep.length < factors.length

theorem absorb_ok (factors : List IndependentElementSet) :
    ∀ current, AbsorbOk current factors (absorb current factors) := by
  induction factors with
  | nil =>
    intro current
    exact ⟨by simp [absorb], by simp [absorb], fun h _ => h, fun _ _ _ h => h, by simp [absorb],
      by simp [absorb], by simp [absorb]⟩
  | cons compare factors ih =>
    intro current
    unfold absorb
    split_ifs with hint
    · have hr := ih (current.add compare).1
      refine ⟨?_, fun f hf => List.mem_cons_of_mem _ (hr.keep f hf), fun hc hf => ?_, fun hdone a i h => ?_,
        fun hdone f hf a i h => ?_, hr.length.trans (Nat.le_succ _), fun _ => Nat.lt_succ_of_le hr.length⟩
      · simpa [add_exprs] using hr.perm
      · rw [List.forall_mem_cons] at hf
        exact hr.isFactor (hc.add hf.1) hf.2
      · simp only [Bool.and_eq_true, Bool.not_eq_true'] at hdone
        rcases (add_covers current compare).mp (hr.unchanged hdone.2 a i h) with h | h
        · exact h
        · exact add_unmodified hdone.1 h
      · simp only [Bool.and_eq_true] at hdone
        exact hr.apart hdone.2 f hf a i ⟨(add_covers current compare).mpr (.inl h.1), h.2⟩
    · have hr := ih current
      refine ⟨?_, fun f hf => ?_, fun hc hf => ?_, hr.unchanged, fun hdone f hf => ?_,
        Nat.succ_le_succ hr.length, fun h => Nat.succ_lt_succ (hr.shrinks h)⟩
      · have hperm := hr.perm.append_left compare.exprs
        simp only [List.flatMap_cons]
        refine (List.perm_append_comm_assoc _ _ _).trans (hperm.trans (List.perm_append_comm_assoc _ _ _))
      · rcases List.mem_cons.mp hf with rfl | hf
        · exact List.mem_cons_self
        · exact List.mem_cons_of_mem _ (hr.keep f hf)
      · exact hr.isFactor hc (List.forall_mem_cons.mp hf).2
      · rcases List.mem_cons.mp hf with rfl | hf
        · exact fun a i => disjoint_of_intersects (by simpa using hint)
        · exact hr.apart hdone f hf

/-- What a round does. If no set grew, the factors are apart from each other. -/
structure RoundOk (factors : List IndependentElementSet) (out : List IndependentElementSet × Bool) : Prop where
  perm : (out.1.flatMap (·.exprs)).Perm (factors.flatMap (·.exprs))
  isFactor : (∀ f ∈ factors, f.IsFactor) → ∀ f ∈ out.1, f.IsFactor
  covers : out.2 = true → ∀ f ∈ out.1, ∃ g ∈ factors, ∀ a i, f.Covers a i → g.Covers a i
  apart : out.2 = true → out.1.Pairwise Apart
  length : out.1.length ≤ factors.length
  shrinks : out.2 = false → out.1.length < factors.length

theorem round_ok (n : ℕ) : ∀ factors, factors.length ≤ n → RoundOk factors (round n factors) := by
  induction n with
  | zero =>
    intro factors hn
    obtain rfl : factors = [] := List.eq_nil_of_length_eq_zero (by omega)
    exact ⟨.rfl, by simp [round], by simp [round], by simp [round], le_rfl, by simp [round]⟩
  | succ n ih =>
    intro factors hn
    cases factors with
    | nil => exact ⟨.rfl, by simp [round], by simp [round], by simp [round], le_rfl, by simp [round]⟩
    | cons current factors =>
      have ha := absorb_ok factors current
      have hlen := ha.length
      simp only [List.length_cons] at hn
      have hr := ih (absorb current factors).keep (by omega)
      unfold round
      dsimp only
      refine ⟨?_, fun hf => ?_, fun hdone f hf => ?_, fun hdone => ?_, ?_, fun hdone => ?_⟩
      · simp only [List.flatMap_cons]
        exact (hr.perm.append_left _).trans ha.perm
      · rw [List.forall_mem_cons] at hf ⊢
        exact ⟨ha.isFactor hf.1 hf.2, hr.isFactor fun f hkeep => hf.2 f (ha.keep f hkeep)⟩
      · simp only [Bool.and_eq_true] at hdone
        rcases List.mem_cons.mp hf with rfl | hf
        · exact ⟨current, List.mem_cons_self, ha.unchanged hdone.1⟩
        · obtain ⟨g, hg, hcovers⟩ := hr.covers hdone.2 f hf
          exact ⟨g, List.mem_cons_of_mem _ (ha.keep g hg), hcovers⟩
      · simp only [Bool.and_eq_true] at hdone
        refine List.pairwise_cons.mpr ⟨fun f hf a i h => ?_, hr.apart hdone.2⟩
        obtain ⟨g, hg, hcovers⟩ := hr.covers hdone.2 f hf
        exact ha.apart hdone.1 g hg a i ⟨ha.unchanged hdone.1 a i h.1, hcovers a i h.2⟩
      · have := hr.length
        simp only [List.length_cons]
        omega
      · have := hr.length
        have := ha.shrinks
        have := hr.shrinks
        simp only [List.length_cons]
        rcases Bool.and_eq_false_iff.mp hdone with h | h <;> simp_all <;> omega

theorem loop_ok (n : ℕ) : ∀ factors, factors.length < n → (∀ f ∈ factors, f.IsFactor) →
    ((loop n factors).flatMap (·.exprs)).Perm (factors.flatMap (·.exprs)) ∧
      (∀ f ∈ loop n factors, f.IsFactor) ∧ (loop n factors).Pairwise Apart := by
  induction n with
  | zero => exact fun _ h => absurd h (Nat.not_lt_zero _)
  | succ n ih =>
    intro factors hn hf
    have hr := round_ok factors.length factors le_rfl
    unfold loop
    dsimp only
    split_ifs with hdone
    · exact ⟨hr.perm, hr.isFactor hf, hr.apart hdone⟩
    · have hshrinks := hr.shrinks (by simpa using hdone)
      obtain ⟨hperm, hfactor, hapart⟩ := ih _ (by omega) (hr.isFactor hf)
      exact ⟨hperm.trans hr.perm, hfactor, hapart⟩

end getAllIndependentConstraintsSets

theorem Expr.Folded.sub {x k : Expr} (h : x.Folded) (hk : k ∈ findReads.subs x) : k.Folded := by
  have hupdates : ∀ {head : UpdateNode}, head.Folded → ∀ e ∈ head.exprs, e.Folded := by
    intro head hhead
    induction head with
    | null => simp [UpdateNode.exprs]
    | node next i v ih =>
      simp only [UpdateNode.exprs, List.forall_mem_cons]
      exact ⟨hhead.2.1, hhead.2.2, ih hhead.1⟩
  cases x with
  | notOptimized src => exact h.elim
  | read root head index =>
    rcases List.mem_cons.mp hk with rfl | hk
    · exact h.2.1
    · exact hupdates h.1 k hk
  | _ => simp only [findReads.subs, kids, Expr.Folded] at h hk; aesop

theorem Expr.Folded.exists_sub {x : Expr} (h : x.Folded) (hc : x.isConstant = false)
    (hread : ∀ root head index, x ≠ read root head index) :
    ∃ k ∈ findReads.subs x, k.isConstant = false := by
  cases x with
  | constant v => cases hc
  | notOptimized src => exact h.elim
  | read root head index => exact absurd rfl (hread root head index)
  | _ => simp only [findReads.subs, kids, Expr.Folded] at h ⊢; aesop

theorem exists_covers_of_folded {e : Expr} (hf : e.Folded) (hb : e.ConstantReadsInBounds)
    (hc : e.isConstant = false) : ∃ a i, (IndependentElementSet.ofExpr e).Covers a i := by
  obtain ⟨visited, hv⟩ := findReads_visits e
  have hall : ∀ n, ∀ x : Expr, x.size < n → x.Folded → x.isConstant = false → visited x →
      ∃ a i, (IndependentElementSet.ofExpr e).Covers a i := by
    intro n
    induction n with
    | zero => exact fun x hx => absurd hx (Nat.not_lt_zero _)
    | succ n ih =>
      intro x hx hfx hcx hvx
      have hsub : ∀ k ∈ findReads.subs x, k.isConstant = false →
          ∃ a i, (IndependentElementSet.ofExpr e).Covers a i := fun k hk hck =>
        ih k (by have := size_lt_of_mem_subs hk; omega) (hfx.sub hk) hck (hv.subs hvx hk hck)
      by_cases hread : ∃ root head index, x = read root head index
      · obtain ⟨root, head, index, rfl⟩ := hread
        have hre := hv.reads hvx
        rcases IndependentElementSet.ofExpr_coversRead hre with ⟨hconst, hnull⟩ | ⟨c, -, hcovers⟩ | hwhole
        · -- a constant array without updates is read at some other index
          refine hsub index List.mem_cons_self (isConstant_eq_false fun c hc => ?_)
          have hlt := findReads_allReads hb _ hre
          simp only [hc, Array.constantInBounds, decide_eq_true_eq] at hlt
          exact absurd (hfx.2.2 hconst hnull c hc) (by omega)
        · exact ⟨_, _, hcovers⟩
        · exact ⟨_, 0, hwhole 0⟩
      · obtain ⟨k, hk, hck⟩ := hfx.exists_sub hcx fun root head index h => hread ⟨root, head, index, h⟩
        exact hsub k hk hck
  exact hall (e.size + 1) e (Nat.lt_succ_self _) hf hc (hv.self hc)

section Bytes

variable {array : Array} {values : Option (List (BitVec 8))} (h : ∀ v ∈ values, v.length = array.size)

include h

theorem getD_eq_zero {i : ℕ} (hi : array.size ≤ i) : (values.getD [])[i]?.getD (0 : BitVec 8) = 0 := by
  cases values with
  | none => rfl
  | some v =>
    have := h v rfl
    simp [show v.length ≤ i by omega]

theorem getD_eq_bytes {σ : Bytes} (hσ : ∀ i, σ array i = (values.getD [])[i]?.getD 0) :
    values.getD (List.replicate array.size 0) = array.bytes σ := by
  cases values with
  | none => exact List.ext_getElem (by simp [Array.bytes]) fun i _ _ => by simp [Array.bytes, hσ]
  | some v =>
    have hlen := h v rfl
    refine List.ext_getElem (by simp [Array.bytes, hlen]) fun i h1 h2 => ?_
    simp only [Option.getD_some] at h1
    simp [Array.bytes, hσ, h1]

end Bytes

namespace IndependentSolver

open IndependentElementSet

variable {σ : Bytes} {f g : IndependentElementSet} {m : RetMap} {done : List IndependentElementSet}

def RetMap.bytes (m : RetMap) : Bytes := fun a i => ((m.lookup a).getD [])[i]?.getD 0

theorem getD_bytes (hσ : σ ∈ Assignments) (a : Array) (i : ℕ) : (a.bytes σ)[i]?.getD 0#8 = σ a i := by
  by_cases hi : i < a.size
  · simp [Array.bytes, hi]
  · simp [Array.bytes, hi, hσ a i (by omega)]

theorem length_place {a : Array} {old : Option (List (BitVec 8))} (h : ∀ v ∈ old, v.length = a.size) :
    (place f a (a.bytes σ) old).length = a.size := by
  cases old with
  | none => simp [place, Array.bytes]
  | some v => simpa [place] using h v rfl

theorem getD_place (hσ : σ ∈ Assignments) {a : Array} {old : List (BitVec 8)} (h : old.length = a.size)
    (i : ℕ) : (place f a (a.bytes σ) (some old))[i]?.getD 0#8 =
      if i ∈ (f.elements.lookup a).getD ∅ then σ a i else old[i]?.getD 0#8 := by
  by_cases hi : i < old.length
  · simp [place, hi, getD_bytes hσ]
  · simp [place, hi, hσ a i (by omega)]

theorem lookup_placeAll (f : IndependentElementSet) (values : Array → List (BitVec 8)) (a : Array)
    (arrays : List Array) (hnodup : arrays.Nodup) : ∀ m : RetMap,
    (placeAll f m (arrays.map fun x => (x, values x))).lookup a =
      if a ∈ arrays then some (place f a (values a) (m.lookup a)) else m.lookup a := by
  induction arrays with
  | nil => simp [placeAll]
  | cons x arrays ih =>
    intro m
    obtain ⟨hx, hnodup⟩ := List.nodup_cons.mp hnodup
    have hstep := ih hnodup (m.insert x (place f x (values x) (m.lookup x)))
    rw [List.map_cons, placeAll, List.foldl_cons, ← placeAll, hstep]
    by_cases ha : a = x
    · subst ha
      simp [hx]
    · simp [ha, AList.lookup_insert_ne ha]

structure Solved (done : List IndependentElementSet) (m : RetMap) : Prop where
  keys : ∀ a, a ∈ m ↔ ∃ f ∈ done, a ∈ f.arrays
  length : ∀ a, ∀ v ∈ m.lookup a, v.length = a.size
  holds : ∀ f ∈ done, f.arrays ≠ [] → m.bytes ∈ Models f.exprs

theorem Solved.nil : Solved [] ∅ := ⟨by simp, by simp, by simp⟩

theorem bytes_mem_assignments (h : ∀ a, ∀ v ∈ m.lookup a, v.length = a.size) : m.bytes ∈ Assignments :=
  fun a _ hi => getD_eq_zero (h a) hi

section Place

variable (hm : Solved done m) (hσ : σ ∈ Assignments)

include hm hσ

theorem bytes_placeAll (a : Array) (i : ℕ) :
    (placeAll f m (f.arrays.map fun x => (x, x.bytes σ))).bytes a i =
      if a ∈ f.arrays ∧ (a ∈ m → i ∈ (f.elements.lookup a).getD ∅) then σ a i else m.bytes a i := by
  simp only [RetMap.bytes]
  rw [lookup_placeAll f _ a f.arrays (List.nodup_dedup _)]
  by_cases ha : a ∈ f.arrays
  · rw [if_pos ha]
    rcases hl : m.lookup a with _ | v
    · have hnot : a ∉ m := fun h => by simp [← AList.lookup_isSome, hl] at h
      simp [place, getD_bytes hσ, ha, hnot]
    · have hmem : a ∈ m := AList.lookup_isSome.mp (by simp [hl])
      simp only [Option.getD_some]
      refine (getD_place hσ (hm.length a v hl) i).trans ?_
      simp [ha, hmem]
  · simp [ha]

/-- The elements of the factor get the bytes of its answer. -/
theorem bytes_placeAll_new (hdone : ∀ g ∈ done, g.Inhabited) (hapart : ∀ g ∈ done, g.Apart f) {a : Array}
    {i : ℕ} (h : f.Covers a i) : (placeAll f m (f.arrays.map fun x => (x, x.bytes σ))).bytes a i = σ a i := by
  rw [bytes_placeAll hm hσ, if_pos]
  refine ⟨mem_arrays_of_covers h, fun hmem => ?_⟩
  rcases h with hwhole | ⟨dis, hdis, hi⟩
  · -- an array that another factor reads as well is not read as a whole
    obtain ⟨g, hg, hag⟩ := (hm.keys a).mp hmem
    obtain ⟨j, hj⟩ := (hdone g hg).exists_covers hag
    exact absurd ⟨hj, .inl hwhole⟩ (hapart g hg a j)
  · simp only [Option.mem_def] at hdis
    simpa [hdis] using hi

/-- The elements of the other factors keep their bytes. -/
theorem bytes_placeAll_old (hapart : ∀ g ∈ done, g.Apart f) (hg : g ∈ done) {a : Array} {i : ℕ}
    (h : g.Covers a i) : (placeAll f m (f.arrays.map fun x => (x, x.bytes σ))).bytes a i = m.bytes a i := by
  rw [bytes_placeAll hm hσ, if_neg]
  rintro ⟨-, hi⟩
  have hmem := hi ((hm.keys a).mpr ⟨g, hg, mem_arrays_of_covers h⟩)
  refine hapart g hg a i ⟨h, .inr ?_⟩
  rcases hl : f.elements.lookup a with _ | dis
  · simp [hl] at hmem
  · exact ⟨dis, rfl, by simpa [hl] using hmem⟩

end Place

theorem Solved.step (hm : Solved done m) (hf : f.IsFactor) (hdone : ∀ g ∈ done, g.IsFactor)
    (hapart : ∀ g ∈ done, g.Apart f) (hb : ∀ g ∈ f :: done, ∀ e ∈ g.exprs, e.ConstantReadsInBounds)
    (hσ : σ ∈ Assignments) (hmodels : σ ∈ Models f.exprs) :
    Solved (done ++ [f]) (placeAll f m (f.arrays.map fun x => (x, x.bytes σ))) := by
  rw [List.forall_mem_cons] at hb
  have hlookup := fun a => lookup_placeAll f (fun x => x.bytes σ) a f.arrays (List.nodup_dedup _) m
  have hkeys : ∀ a, a ∈ placeAll f m (f.arrays.map fun x => (x, x.bytes σ)) ↔
      ∃ g ∈ done ++ [f], a ∈ g.arrays := by
    intro a
    rw [← AList.lookup_isSome, hlookup]
    by_cases ha : a ∈ f.arrays
    · simp [ha]
    · simp [ha, AList.lookup_isSome, hm.keys]
  have hlength : ∀ a, ∀ v ∈ (placeAll f m (f.arrays.map fun x => (x, x.bytes σ))).lookup a,
      v.length = a.size := by
    intro a v hv
    rw [hlookup] at hv
    split_ifs at hv
    · rw [← Option.some.inj hv]
      exact length_place (hm.length a)
    · exact hm.length a v hv
  have hassign := bytes_mem_assignments hlength
  refine ⟨hkeys, hlength, fun g hg harrays e he => ?_⟩
  rcases List.mem_append.mp hg with hg | hg
  · refine Eq.trans (eval_congr_of_covers hassign (bytes_mem_assignments hm.length) (hb.2 g hg e he)
      fun a i h => ?_) (hm.holds g hg harrays e he)
    exact bytes_placeAll_old hm hσ hapart hg (((hdone g hg).covers a i).mpr ⟨e, he, h⟩)
  · obtain rfl := List.mem_singleton.mp hg
    refine Eq.trans (eval_congr_of_covers hassign hσ (hb.1 e he) fun a i h => ?_) (hmodels e he)
    exact bytes_placeAll_new hm hσ (fun g' hg' => (hdone g' hg').inhabited) hapart
      ((hf.covers a i).mpr ⟨e, he, h⟩)

theorem Solved.skip (hm : Solved done m) (hf : f.arrays = []) : Solved (done ++ [f]) m := by
  refine ⟨fun a => by simp [hm.keys, hf], hm.length, fun g hg harrays => ?_⟩
  rcases List.mem_append.mp hg with hg | hg
  · exact hm.holds g hg harrays
  · exact absurd (List.mem_singleton.mp hg ▸ hf) harrays

theorem counterexample_factorQuery : (factorQuery f).Counterexample σ ↔ σ ∈ Assignments ∧ σ ∈ Models f.exprs := by
  simp [Query.Counterexample, factorQuery, not_holds_false]

def AnswersFactors (solver : SolverImpl) (factors : List IndependentElementSet) : Prop :=
  ∀ f ∈ factors, solver.CorrectOn (factorQuery f) ∧
    (f.arrays ≠ [] → (solver.computeInitialValues (factorQuery f) f.arrays).isSome)

theorem solveFactors_ok {solver : SolverImpl} (factors : List IndependentElementSet) : ∀ done m,
    Solved done m → (∀ f ∈ done ++ factors, f.IsFactor) → (done ++ factors).Pairwise Apart →
    (∀ f ∈ done ++ factors, ∀ e ∈ f.exprs, e.ConstantReadsInBounds) → AnswersFactors solver factors →
    ∃ out, solveFactors solver factors m = some out ∧
      (out = none → ∃ f ∈ factors, ∀ σ ∈ Assignments, σ ∉ Models f.exprs) ∧
      ∀ m', out = some m' → Solved (done ++ factors) m' := by
  induction factors with
  | nil =>
    intro done m hm _ _ _ _
    exact ⟨some m, rfl, by simp, fun m' h => by cases h; simpa using hm⟩
  | cons f factors ih =>
    intro done m hm hfactor hapart hb hanswers
    obtain ⟨⟨hcorrect, hsome⟩, hanswers⟩ := List.forall_mem_cons.mp hanswers
    have happend : done ++ f :: factors = done ++ [f] ++ factors := by simp
    -- the factors behind `f`, from the answers that `f` leaves
    have hrest : ∀ m', Solved (done ++ [f]) m' → ∃ out, solveFactors solver factors m' = some out ∧
        (out = none → ∃ f' ∈ f :: factors, ∀ σ ∈ Assignments, σ ∉ Models f'.exprs) ∧
        ∀ m', out = some m' → Solved (done ++ f :: factors) m' := by
      intro m' hm'
      rw [happend] at hfactor hapart hb ⊢
      obtain ⟨out, hrun, hnone, hout⟩ := ih _ m' hm' hfactor hapart hb hanswers
      refine ⟨out, hrun, fun h => ?_, hout⟩
      obtain ⟨f', hf', hunsat⟩ := hnone h
      exact ⟨f', List.mem_cons_of_mem _ hf', hunsat⟩
    unfold solveFactors
    split_ifs with harrays
    · exact hrest m (hm.skip harrays)
    · obtain ⟨answer, hanswer⟩ := Option.isSome_iff_exists.mp (hsome harrays)
      rw [hanswer]
      cases answer with
      | none =>
        refine ⟨none, rfl, fun _ => ⟨f, List.mem_cons_self, fun σ hσ hmodels => ?_⟩, by simp⟩
        exact hcorrect.noSolution _ hanswer ⟨σ, counterexample_factorQuery.mpr ⟨hσ, hmodels⟩⟩
      | some tempValues =>
        obtain ⟨σ, hσ, rfl⟩ := hcorrect.solution _ _ hanswer
        obtain ⟨hσ, hmodels⟩ := counterexample_factorQuery.mp hσ
        have hzip : f.arrays.zip (f.arrays.map (·.bytes σ)) = f.arrays.map fun x => (x, x.bytes σ) :=
          List.map_prod_left_eq_zip.symm
        simp only [hzip]
        refine hrest _ (hm.step (hfactor f (by simp)) (fun g hg => hfactor g (List.mem_append_left _ hg))
          (fun g hg => ?_) (fun g hg => ?_) hσ hmodels)
        · exact (List.pairwise_append.mp hapart).2.2 g hg f List.mem_cons_self
        · rcases List.mem_cons.mp hg with rfl | hg
          · exact hb _ (by simp)
          · exact hb g (List.mem_append_left _ hg)

end IndependentSolver

theorem Query.counterexample_iff {q : Query} (h : IsConstraint q.expr)
    (hne : q.expr ≠ constant (APInt.ofBool true)) {σ : Bytes} :
    q.Counterexample σ ↔ σ ∈ Assignments ∧ σ ∈ Models (q.negated ++ q.constraints) := by
  have hmodels : σ ∈ Models (q.negated ++ q.constraints) ↔ σ ∈ Models q.constraints ∧ ¬ q.expr.holds σ := by
    unfold Query.negated
    split_ifs with hc
    · have hfalse : ¬ q.expr.holds σ := by
        rw [isFalse_of_constant h hc hne]
        exact not_holds_false
      simp [hfalse]
    · simp only [Models, Set.mem_ofPred_eq, List.forall_mem_append, List.forall_mem_singleton,
        holds_createIsZero h]
      exact and_comm
  rw [Query.Counterexample, hmodels]

/-- What the factors of a query are: they have its expressions among them, depend
on the elements they track only, and share none. -/
structure Factorization (q : Query) (factors : List IndependentElementSet) : Prop where
  perm : (factors.flatMap (·.exprs)).Perm (q.negated ++ q.constraints)
  mentions : ∀ f ∈ factors, ∀ a i, f.Covers a i ↔
    ∃ e ∈ f.exprs, (IndependentElementSet.ofExpr e).Covers a i
  depends : ∀ f ∈ factors, ∀ e ∈ f.exprs, ∀ σ ∈ Assignments, ∀ τ ∈ Assignments,
    (∀ a i, f.Covers a i → σ a i = τ a i) → e.eval σ = e.eval τ
  apart : factors.Pairwise IndependentElementSet.Apart

/-- An expression built by the `create` functions, of type Bool, whose reads at
constant indices are in bounds. -/
structure IsCreatedConstraint (e : Expr) : Prop where
  created : e.Created
  width : e.getWidth = 1
  inBounds : e.ConstantReadsInBounds

theorem IsCreatedConstraint.isConstraint {e : Expr} (h : IsCreatedConstraint e) : IsConstraint e :=
  ⟨h.created.wellTyped, h.width⟩

namespace IndependentSolver

open IndependentElementSet

section

variable {q : Query} (hq : ∀ e ∈ q.expr :: q.constraints, IsCreatedConstraint e)
  (hexpr : q.expr ≠ constant (APInt.ofBool true))

include hq

theorem constantReadsInBounds {e : Expr} (he : e ∈ q.negated ++ q.constraints) : e.ConstantReadsInBounds := by
  obtain ⟨hcreated, hconstraints⟩ := List.forall_mem_cons.mp hq
  rcases List.mem_append.mp he with he | he
  · unfold Query.negated at he
    split_ifs at he
    · simp at he
    · rw [List.mem_singleton.mp he]
      exact (allReads_closed _).createIsZero hcreated.inBounds
  · exact (hconstraints e he).inBounds

theorem constant_of_no_arrays {e : Expr} (he : e ∈ q.negated ++ q.constraints)
    (hnone : ∀ a i, ¬ (ofExpr e).Covers a i) : e ∈ q.constraints ∧ e.isConstant = true := by
  obtain ⟨hcreated, hconstraints⟩ := List.forall_mem_cons.mp hq
  have hb := constantReadsInBounds hq he
  have hconstant : e.Folded → e.isConstant = true := by
    intro hf
    by_contra hc
    obtain ⟨a, i, h⟩ := exists_covers_of_folded hf hb (by simpa using hc)
    exact hnone a i h
  rcases List.mem_append.mp he with he | he
  · unfold Query.negated at he
    split_ifs at he with hc
    · simp at he
    · obtain rfl := List.mem_singleton.mp he
      have hf := hcreated.created.folded
      have hne := createIsZero_not_constant hf hcreated.created.wellTyped hcreated.width (by simpa using hc)
      rw [hconstant (folded_closed.createIsZero hf)] at hne
      cases hne
  · exact ⟨he, hconstant (hconstraints e he).created.folded⟩

/-- The answers to all factors satisfy every expression: what the skipped factors
have are constraints that are true. -/
theorem Solved.models {factors : List IndependentElementSet} (hm : Solved factors m)
    (hfactor : ∀ f ∈ factors, f.IsFactor) (hfactors : Factorization q factors)
    (hconstraints : constant (APInt.ofBool false) ∉ q.constraints) :
    m.bytes ∈ Models (q.negated ++ q.constraints) := by
  intro e he
  obtain ⟨f, hf, hef⟩ := List.mem_flatMap.mp (hfactors.perm.mem_iff.mpr he)
  by_cases harrays : f.arrays = []
  · obtain ⟨hec, hconst⟩ := constant_of_no_arrays hq he fun a i h => by
      have := mem_arrays_of_covers (((hfactor f hf).covers a i).mpr ⟨e, hef, h⟩)
      simp [harrays] at this
    by_contra hnot
    have hne : e ≠ constant (APInt.ofBool true) := by
      rintro rfl
      exact hnot rfl
    have hfalse := isFalse_of_constant (hq e (List.mem_cons_of_mem _ hec)).isConstraint hconst hne
    exact hconstraints (hfalse ▸ hec)
  · exact hm.holds f hf harrays e hef

include hexpr

theorem exists_factorization : ∃ factors, getAllIndependentConstraintsSets q = some factors ∧
    (∀ f ∈ factors, f.IsFactor) ∧ Factorization q factors := by
  have hassert : ¬ (q.expr.isConstant = true ∧ q.expr.isFalse = false) := by
    rintro ⟨hc, hfalse⟩
    rw [isFalse_of_constant (hq _ List.mem_cons_self).isConstraint hc hexpr] at hfalse
    cases hfalse
  obtain ⟨hperm, hfactor, hapart⟩ := getAllIndependentConstraintsSets.loop_ok
    ((q.negated ++ q.constraints).length + 1) ((q.negated ++ q.constraints).map .ofExpr) (by simp)
    (fun f hf => by obtain ⟨e, -, rfl⟩ := List.mem_map.mp hf; exact ofExpr_isFactor e)
  have hflat : ((q.negated ++ q.constraints).map ofExpr).flatMap (·.exprs) = q.negated ++ q.constraints := by
    rw [List.flatMap_map]
    simp
  rw [hflat] at hperm
  refine ⟨_, by rw [getAllIndependentConstraintsSets, if_neg hassert], hfactor, hperm,
    fun f hf => (hfactor f hf).covers, fun f hf e he σ hσ τ hτ h => ?_, hapart⟩
  refine eval_congr_of_covers hσ hτ (constantReadsInBounds hq ?_) fun a i hc =>
    h a i (((hfactor f hf).covers a i).mpr ⟨e, he, hc⟩)
  exact hperm.subset (List.mem_flatMap.mpr ⟨f, hf, he⟩)

end

def threeFactorsQuery : Query :=
  let x (i : ℕ) := read (.symbolic 0 "X" 4 Array.four_lt_size) .null (ConstantExpr.alloc i 32)
  let y := read (.symbolic 1 "Y" 4 Array.four_lt_size) .null (ConstantExpr.alloc 0 32)
  ⟨[binary .eq (ConstantExpr.alloc 5 8) (x 0), binary .eq (ConstantExpr.alloc 7 8) y],
    binary .eq (ConstantExpr.alloc 8 8) (x 1)⟩

def threeFactorsBytes : Bytes := fun array i =>
  if array.size ≤ i then 0 else if array.id = 0 then 5 else 7

def threeFactorsSolver : SolverImpl where
  computeValidity _ := none
  computeTruth _ := none
  computeValue _ := none
  computeInitialValues _ objects := some (some (objects.map (·.bytes threeFactorsBytes)))

theorem created_byte_eq (id : ℕ) (name : String) (size : ℕ) (h : size < 2 ^ 32) (c i : ℕ) :
    (binary .eq (ConstantExpr.alloc c 8)
      (read (.symbolic id name size h) .null (ConstantExpr.alloc i 32))).Created := by
  have hread : (read (.symbolic id name size h) .null (ConstantExpr.alloc i 32)).Created := by
    refine Eq.mp (congrArg _ ?_)
      (Expr.Created.create (.read ⟨.symbolic id name size h, .null⟩ (ConstantExpr.alloc i 32)) ?_ ?_)
    · simp only [Operation.create, ReadExpr.create, ReadExpr.rollback, ConstantExpr.alloc]
      split_ifs <;> rfl
    · exact ⟨trivial, trivial, rfl⟩
    · simpa [Operation.operands, UpdateNode.exprs] using .constant _
  exact Expr.Created.create (.binary .eq (ConstantExpr.alloc c 8)
    (read (.symbolic id name size h) .null (ConstantExpr.alloc i 32)))
    ⟨trivial, ⟨trivial, trivial, rfl⟩, rfl⟩ (by simpa [Operation.operands] using ⟨.constant _, hread⟩)

def unsatSolver : SolverImpl where
  computeValidity _ := none
  computeTruth _ := none
  computeValue _ := none
  computeInitialValues _ _ := some none

end IndependentSolver

end Klee
