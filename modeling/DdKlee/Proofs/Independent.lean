import DdKlee.Proofs.FindReads
import DdKlee.Spec.Independent
import DdKlee.Spec.Validity

/-! An expression depends only on the elements its set tracks, so assignments can
be put together from assignments for constraints that share no element, and a
query has the same answer under the constraints it depends on as under all. -/

namespace Klee

open Expr

namespace IndependentElementSet

variable {s b : IndependentElementSet} {a array : Array} {i : ℕ}

def Covers (s : IndependentElementSet) (a : Array) (i : ℕ) : Prop :=
  a ∈ s.wholeObjects ∨ ∃ dis ∈ s.elements.lookup a, i ∈ dis

theorem addRead_covers (s : IndependentElementSet) (re : UpdateList × Expr) (h : s.Covers a i) :
    (s.addRead re).Covers a i := by
  unfold addRead
  dsimp only
  split_ifs
  · exact h
  · exact h
  · split
    · rcases h with h | ⟨dis, hdis, hi⟩
      · exact .inl h
      · by_cases ha : a = re.1.root
        · subst ha
          refine .inr ⟨_, AList.lookup_insert _, ?_⟩
          rw [hdis]
          exact Finset.mem_insert_of_mem hi
        · exact .inr ⟨dis, by rw [AList.lookup_insert_ne ha]; exact hdis, hi⟩
    · rcases h with h | ⟨dis, hdis, hi⟩
      · exact .inl (List.mem_cons_of_mem _ h)
      · by_cases ha : a = re.1.root
        · exact .inl (ha ▸ List.mem_cons_self)
        · exact .inr ⟨dis, by rw [AList.lookup_erase_ne ha]; exact hdis, hi⟩

def CoversRead (s : IndependentElementSet) (re : UpdateList × Expr) : Prop :=
  (re.1.root.isConstantArray = true ∧ re.1.head = .null) ∨
    (∃ c, re.2 = constant c ∧ s.Covers re.1.root (c.toNat % 2 ^ 32)) ∨ ∀ i, s.Covers re.1.root i

theorem CoversRead.mono {re : UpdateList × Expr} (h : s.CoversRead re)
    (hb : ∀ a i, s.Covers a i → b.Covers a i) : b.CoversRead re := by
  rcases h with h | ⟨c, hc, h⟩ | h
  · exact .inl h
  · exact .inr (.inl ⟨c, hc, hb _ _ h⟩)
  · exact .inr (.inr fun i => hb _ _ (h i))

theorem addRead_coversRead (s : IndependentElementSet) (re : UpdateList × Expr) :
    (s.addRead re).CoversRead re := by
  unfold addRead
  dsimp only
  split_ifs with hconst hwhole
  · exact .inl hconst
  · exact .inr (.inr fun i => .inl hwhole)
  · split
    · rename_i c hc
      exact .inr (.inl ⟨c, hc, .inr ⟨_, AList.lookup_insert _, Finset.mem_insert_self _ _⟩⟩)
    · exact .inr (.inr fun i => .inl List.mem_cons_self)

theorem addReads_spec (reads : List (UpdateList × Expr)) : ∀ s : IndependentElementSet,
    (∀ a i, s.Covers a i → (reads.foldl addRead s).Covers a i) ∧
      ∀ re ∈ reads, (reads.foldl addRead s).CoversRead re := by
  induction reads with
  | nil => exact fun s => ⟨fun _ _ h => h, fun re hre => absurd hre List.not_mem_nil⟩
  | cons re reads ih =>
    intro s
    obtain ⟨hcovers, hreads⟩ := ih (s.addRead re)
    refine ⟨fun a i h => hcovers a i (addRead_covers s re h), fun re' hre' => ?_⟩
    rcases List.mem_cons.mp hre' with rfl | hre'
    · exact (addRead_coversRead s _).mono hcovers
    · exact hreads re' hre'

theorem ofExpr_coversRead {e : Expr} {re : UpdateList × Expr} (h : re ∈ findReads e true) :
    (ofExpr e).CoversRead re :=
  (addReads_spec _ _).2 re h

end IndependentElementSet

theorem UpdateNode.lookup_congr {σ τ : Bytes} {root : Array} {i : APInt} {head : UpdateNode}
    (hexprs : ∀ e ∈ head.exprs, e.eval σ = e.eval τ)
    (hinit : root.initial σ i.toNat = root.initial τ i.toNat) :
    head.lookup σ root i = head.lookup τ root i := by
  induction head with
  | null => exact hinit
  | node next ui uv ih =>
    simp only [UpdateNode.exprs, List.mem_cons] at hexprs
    rw [UpdateNode.lookup, UpdateNode.lookup, hexprs ui (.inl rfl), hexprs uv (.inr (.inl rfl)),
      ih fun e he => hexprs e (.inr (.inr he))]

theorem Expr.eval_congr_kids {σ τ : Bytes} {e : Expr} (hread : ∀ root head index, e ≠ read root head index)
    (h : ∀ k ∈ e.kids, k.eval σ = k.eval τ) : e.eval σ = e.eval τ := by
  cases e with
  | read root head index => exact absurd rfl (hread root head index)
  | _ => simp_all [Expr.eval, kids]

theorem subs_eq_kids {e : Expr} (hread : ∀ root head index, e ≠ read root head index) :
    findReads.subs e = e.kids := by
  cases e with
  | read root head index => exact absurd rfl (hread root head index)
  | _ => rfl

theorem size_lt_of_mem_subs {e k : Expr} (h : k ∈ findReads.subs e) : k.size < e.size := by
  refine lt_of_le_of_lt ?_ (findReads.totalSize_subs e)
  exact List.single_le_sum (by simp) _ (List.mem_map_of_mem h)

theorem initial_congr {σ τ : Bytes} (hσ : σ ∈ Assignments) (hτ : τ ∈ Assignments) {root : Array} {i : ℕ}
    (h : root.isConstantArray = false → σ root i = τ root i) : root.initial σ i = root.initial τ i := by
  unfold Array.initial
  rcases hv : root.constantValues[i]? with _ | v
  · have heq : σ root i = τ root i := by
      rcases root.constant_size with hnil | hlen
      · exact h (by simp [Array.isConstantArray, Array.isSymbolicArray, hnil])
      · rw [List.getElem?_eq_none_iff, hlen] at hv
        rw [hσ root i hv, hτ root i hv]
    simp only [heq]
  · rfl

theorem eval_congr_of_covers {σ τ : Bytes} (hσ : σ ∈ Assignments) (hτ : τ ∈ Assignments) {e : Expr}
    (hb : e.ConstantReadsInBounds)
    (h : ∀ a i, (IndependentElementSet.ofExpr e).Covers a i → σ a i = τ a i) : e.eval σ = e.eval τ := by
  obtain ⟨visited, hv⟩ := findReads_visits e
  have hall : ∀ n, ∀ x : Expr, x.size < n → (x.isConstant = false → visited x) → x.eval σ = x.eval τ := by
    intro n
    induction n with
    | zero => exact fun x hx => absurd hx (Nat.not_lt_zero _)
    | succ n ih =>
      intro x hx hvx
      by_cases hc : x.isConstant = true
      · cases x <;> first | rfl | cases hc
      · have hsubs : ∀ k ∈ findReads.subs x, k.eval σ = k.eval τ := fun k hk =>
          ih k (by have := size_lt_of_mem_subs hk; omega) (hv.subs (hvx (by simpa using hc)) hk)
        by_cases hread : ∃ root head index, x = read root head index
        · obtain ⟨root, head, index, rfl⟩ := hread
          have hindex := hsubs index List.mem_cons_self
          have hre := hv.reads (hvx rfl)
          rw [Expr.eval, Expr.eval, hindex]
          refine UpdateNode.lookup_congr (fun y hy => hsubs y (List.mem_cons_of_mem _ hy)) ?_
          refine initial_congr hσ hτ fun hsymbolic => ?_
          rcases IndependentElementSet.ofExpr_coversRead hre with hconst | ⟨c, hc, hcovers⟩ | hwhole
          · simp [hsymbolic] at hconst
          · -- the index is a constant below the size
            obtain rfl : index = constant c := hc
            have hlt : c.toNat < root.size := by
              simpa [Array.constantInBounds] using findReads_allReads hb _ hre
            rw [Nat.mod_eq_of_lt (hlt.trans root.size_lt)] at hcovers
            exact h root c.toNat hcovers
          · exact h root _ (hwhole _)
        · have hne : ∀ root head index, x ≠ read root head index := fun root head index h =>
            hread ⟨root, head, index, h⟩
          rw [subs_eq_kids hne] at hsubs
          exact Expr.eval_congr_kids hne hsubs
  exact hall (e.size + 1) e (Nat.lt_succ_self _) hv.self

namespace IndependentElementSet

variable {s b : IndependentElementSet} {a array : Array} {i : ℕ}

theorem disjoint_of_intersects (h : s.intersects b = false) : ¬ (s.Covers a i ∧ b.Covers a i) := by
  simp only [intersects, Bool.or_eq_false_iff, List.any_eq_false, decide_eq_true_eq, not_or,
    not_exists, not_and, not_not] at h
  obtain ⟨hwhole, helements⟩ := h
  rintro ⟨ha | ⟨dis, hdis, hi⟩, hb⟩
  · obtain ⟨hnot, hnone⟩ := hwhole a ha
    rcases hb with hb | ⟨dis', hdis', -⟩
    · exact hnot hb
    · exact hnone (AList.lookup_isSome.mp (Option.isSome_iff_exists.mpr ⟨dis', hdis'⟩))
  · obtain ⟨hnot, hdisjoint⟩ := helements ⟨a, dis⟩ (AList.mem_lookup_iff.mp hdis)
    rcases hb with hb | ⟨dis', hdis', hi'⟩
    · exact hnot hb
    · exact Finset.disjoint_left.mp (hdisjoint dis' hdis') hi hi'

/-- A part of `add`: the elements `T` are added, and if the flag stays down they
were tracked before. -/
structure Added (T : Array → ℕ → Prop) (acc acc' : IndependentElementSet × Bool) : Prop where
  covers : ∀ a i, acc'.1.Covers a i ↔ acc.1.Covers a i ∨ T a i
  flag : acc'.2 = false → acc.2 = false ∧ ∀ a i, T a i → acc.1.Covers a i
  exprs : acc'.1.exprs = acc.1.exprs

theorem Added.trans {T T' : Array → ℕ → Prop} {x y z : IndependentElementSet × Bool} (h : Added T x y)
    (h' : Added T' y z) : Added (fun a i => T a i ∨ T' a i) x z where
  covers a i := by rw [h'.covers, h.covers, or_assoc]
  flag hz := by
    obtain ⟨hy, hT'⟩ := h'.flag hz
    obtain ⟨hx, hT⟩ := h.flag hy
    refine ⟨hx, fun a i ht => ?_⟩
    rcases ht with ht | ht
    · exact hT a i ht
    · rcases (h.covers a i).mp (hT' a i ht) with hc | hc
      · exact hc
      · exact hT a i hc
  exprs := h'.exprs.trans h.exprs

theorem addWhole_added (acc : IndependentElementSet × Bool) (array : Array) :
    Added (fun a _ => a = array) acc (addWhole acc array) := by
  obtain ⟨s, modified⟩ := acc
  unfold addWhole
  dsimp only
  split_ifs with helements hwhole
  · refine ⟨fun a i => ?_, fun h => by simp at h, rfl⟩
    by_cases ha : a = array
    · subst ha
      simp [Covers]
    · simp [Covers, ha, AList.lookup_erase_ne ha]
  · refine ⟨fun a i => ⟨.inl, ?_⟩, fun h => ⟨h, fun a i ha => ha ▸ .inl hwhole⟩, rfl⟩
    rintro (h | rfl)
    · exact h
    · exact .inl hwhole
  · refine ⟨fun a i => ?_, fun h => by simp at h, rfl⟩
    simp only [Covers, List.mem_cons]
    rw [or_comm (a := a = array), or_assoc, or_assoc, or_comm (a := a = array)]

theorem addElements_added (acc : IndependentElementSet × Bool) (p : Sigma fun _ : Array => Finset ℕ) :
    Added (fun a i => a = p.1 ∧ i ∈ p.2) acc (addElements acc p) := by
  obtain ⟨s, modified⟩ := acc
  obtain ⟨array, dis⟩ := p
  unfold addElements
  dsimp only
  split_ifs with hwhole
  · refine ⟨fun a i => ⟨.inl, ?_⟩, fun h => ⟨h, fun a i ha => ha.1 ▸ .inl hwhole⟩, rfl⟩
    rintro (h | ⟨rfl, -⟩)
    · exact h
    · exact .inl hwhole
  · split
    · rename_i hnone
      refine ⟨fun a i => ?_, fun h => by simp at h, rfl⟩
      by_cases ha : a = array
      · subst ha
        simp [Covers, hnone]
      · simp [Covers, ha, AList.lookup_insert_ne ha]
    · rename_i dis' hsome
      refine ⟨fun a i => ?_, fun h => ?_, rfl⟩
      · by_cases ha : a = array
        · subst ha
          simp only [Covers, hsome, AList.lookup_insert, Option.mem_def, Option.some.injEq, exists_eq_left',
            Finset.mem_union, true_and]
          tauto
        · simp [Covers, ha, AList.lookup_insert_ne ha]
      · simp only [Bool.or_eq_false_iff, Bool.not_eq_false', decide_eq_true_eq] at h
        exact ⟨h.1, fun a i ha => ha.1 ▸ .inr ⟨dis', hsome, h.2 ha.2⟩⟩

theorem foldl_added {α : Type} {f : IndependentElementSet × Bool → α → IndependentElementSet × Bool}
    {T : α → Array → ℕ → Prop} (h : ∀ acc x, Added (T x) acc (f acc x)) (xs : List α) : ∀ acc,
    Added (fun a i => ∃ x ∈ xs, T x a i) acc (xs.foldl f acc) := by
  induction xs with
  | nil => exact fun acc => ⟨by simp, fun h => ⟨h, by simp⟩, rfl⟩
  | cons x xs ih =>
    intro acc
    obtain ⟨hcovers, hflag, hexprs⟩ := (h acc x).trans (ih (f acc x))
    exact ⟨by simpa using hcovers, by simpa using hflag, hexprs⟩

theorem add_added (s b : IndependentElementSet) :
    Added b.Covers ({ s with exprs := s.exprs ++ b.exprs }, false) (s.add b) := by
  obtain ⟨hcovers, hflag, hexprs⟩ := (foldl_added addWhole_added b.wholeObjects
    ({ s with exprs := s.exprs ++ b.exprs }, false)).trans (foldl_added addElements_added b.elements.entries _)
  have hT : ∀ a i, ((∃ x ∈ b.wholeObjects, a = x) ∨ ∃ p ∈ b.elements.entries, a = p.1 ∧ i ∈ p.2) ↔
      b.Covers a i := by
    intro a i
    refine or_congr (by simp) ⟨?_, ?_⟩
    · rintro ⟨⟨a', dis⟩, hp, rfl, hi⟩
      exact ⟨dis, AList.mem_lookup_iff.mpr hp, hi⟩
    · rintro ⟨dis, hdis, hi⟩
      exact ⟨⟨a, dis⟩, AList.mem_lookup_iff.mp hdis, rfl, hi⟩
  refine ⟨fun a i => (hcovers a i).trans (or_congr_right (hT a i)), fun h => ⟨rfl, fun a i hb => ?_⟩, hexprs⟩
  exact (hflag h).2 a i ((hT a i).mpr hb)

theorem add_covers (s b : IndependentElementSet) : (s.add b).1.Covers a i ↔ s.Covers a i ∨ b.Covers a i :=
  (add_added s b).covers a i

theorem add_unmodified (h : (s.add b).2 = false) (hb : b.Covers a i) : s.Covers a i :=
  ((add_added s b).flag h).2 a i hb

end IndependentElementSet

namespace getIndependentConstraints

open IndependentElementSet

/-- What a round does: it takes the constraints that share an element with the
closure. If the closure did not grow, the others share none with it. -/
structure RoundOk (c : IndependentElementSet) (worklist : List (Expr × IndependentElementSet))
    (r : Round) : Prop where
  grows : ∀ a i, c.Covers a i → r.eltsClosure.Covers a i
  taken : ∀ p ∈ worklist, (p.1 ∈ r.result ∧ ∀ a i, p.2.Covers a i → r.eltsClosure.Covers a i) ∨
    p ∈ r.newWorklist
  result : ∀ e ∈ r.result, ∃ p ∈ worklist, e = p.1
  rest : ∀ p ∈ r.newWorklist, p ∈ worklist
  unchanged : r.done = true → ∀ a i, r.eltsClosure.Covers a i → c.Covers a i
  apart : r.done = true → ∀ p ∈ r.newWorklist, ∀ a i, ¬ (p.2.Covers a i ∧ c.Covers a i)
  length : r.newWorklist.length ≤ worklist.length
  shrinks : r.done = false → r.newWorklist.length < worklist.length

theorem round_ok (worklist : List (Expr × IndependentElementSet)) :
    ∀ c, RoundOk c worklist (round c worklist) := by
  induction worklist with
  | nil =>
    intro c
    exact ⟨fun _ _ h => h, by simp, by simp [round], by simp [round], fun _ _ _ h => h, by simp [round],
      by simp [round], fun h => by simp [round] at h⟩
  | cons p worklist ih =>
    intro c
    obtain ⟨e, s⟩ := p
    unfold round
    split_ifs with hint
    · -- the constraint is taken
      have hr := ih (c.add s).1
      refine ⟨fun a i h => hr.grows a i ((add_covers c s).mpr (.inl h)), fun p hp => ?_, fun e' he' => ?_,
        fun p hp => List.mem_cons_of_mem _ (hr.rest p hp), fun hdone a i h => ?_, fun hdone p hp a i h => ?_,
        hr.length.trans (Nat.le_succ _), fun _ => Nat.lt_succ_of_le hr.length⟩
      · rcases List.mem_cons.mp hp with rfl | hp
        · exact .inl ⟨List.mem_cons_self, fun a i h => hr.grows a i ((add_covers c s).mpr (.inr h))⟩
        · exact (hr.taken p hp).imp_left fun h => ⟨List.mem_cons_of_mem _ h.1, h.2⟩
      · rcases List.mem_cons.mp he' with rfl | he'
        · exact ⟨_, List.mem_cons_self, rfl⟩
        · obtain ⟨p, hp, heq⟩ := hr.result e' he'
          exact ⟨p, List.mem_cons_of_mem _ hp, heq⟩
      · simp only [Bool.and_eq_true, Bool.not_eq_true'] at hdone
        rcases (add_covers c s).mp (hr.unchanged hdone.2 a i h) with h | h
        · exact h
        · exact add_unmodified hdone.1 h
      · simp only [Bool.and_eq_true, Bool.not_eq_true'] at hdone
        exact hr.apart hdone.2 p hp a i ⟨h.1, (add_covers c s).mpr (.inl h.2)⟩
    · -- the constraint stays on the worklist
      have hr := ih c
      refine ⟨hr.grows, fun p hp => ?_, fun e' he' => ?_, fun p hp => ?_, hr.unchanged,
        fun hdone p hp a i h => ?_, Nat.succ_le_succ hr.length, fun h => Nat.succ_lt_succ (hr.shrinks h)⟩
      · rcases List.mem_cons.mp hp with rfl | hp
        · exact .inr List.mem_cons_self
        · exact (hr.taken p hp).imp_right (List.mem_cons_of_mem _)
      · obtain ⟨p, hp, heq⟩ := hr.result e' he'
        exact ⟨p, List.mem_cons_of_mem _ hp, heq⟩
      · rcases List.mem_cons.mp hp with rfl | hp
        · exact List.mem_cons_self
        · exact List.mem_cons_of_mem _ (hr.rest p hp)
      · rcases List.mem_cons.mp hp with rfl | hp
        · exact disjoint_of_intersects (by simpa using hint) h
        · exact hr.apart hdone p hp a i h

/-- What the loop ends with: every constraint is taken, with its elements, or
shares no element with the closure. -/
structure LoopOk (c : IndependentElementSet) (worklist : List (Expr × IndependentElementSet))
    (out : IndependentElementSet × List Expr) : Prop where
  grows : ∀ a i, c.Covers a i → out.1.Covers a i
  split : ∀ p ∈ worklist, (p.1 ∈ out.2 ∧ ∀ a i, p.2.Covers a i → out.1.Covers a i) ∨
    ∀ a i, ¬ (p.2.Covers a i ∧ out.1.Covers a i)
  result : ∀ e ∈ out.2, ∃ p ∈ worklist, e = p.1

theorem loop_ok (n : ℕ) : ∀ c worklist, worklist.length < n → LoopOk c worklist (loop n c worklist) := by
  induction n with
  | zero => exact fun _ _ h => absurd h (Nat.not_lt_zero _)
  | succ n ih =>
    intro c worklist hn
    have hr := round_ok worklist c
    unfold loop
    dsimp only
    split_ifs with hdone
    · refine ⟨hr.grows, fun p hp => (hr.taken p hp).imp_right fun hrest a i h => ?_, hr.result⟩
      exact hr.apart hdone p hrest a i ⟨h.1, hr.unchanged hdone a i h.2⟩
    · have hshrinks := hr.shrinks (by simpa using hdone)
      have hl := ih (round c worklist).eltsClosure (round c worklist).newWorklist (by omega)
      refine ⟨fun a i h => hl.grows a i (hr.grows a i h), fun p hp => ?_, fun e he => ?_⟩
      · rcases hr.taken p hp with htaken | hrest
        · exact .inl ⟨List.mem_append_left _ htaken.1, fun a i h => hl.grows a i (htaken.2 a i h)⟩
        · exact (hl.split p hrest).imp_left fun h => ⟨List.mem_append_right _ h.1, h.2⟩
      · rcases List.mem_append.mp he with he | he
        · exact hr.result e he
        · obtain ⟨p, hp, heq⟩ := hl.result e he
          exact ⟨p, hr.rest p hp, heq⟩

end getIndependentConstraints

namespace IndependentSolver

theorem sliced_ok (q : Query) : getIndependentConstraints.LoopOk (.ofExpr q.expr)
    (q.constraints.map fun c => (c, .ofExpr c)) (getIndependentConstraints q) :=
  getIndependentConstraints.loop_ok _ _ _ (by simp)

theorem mem_of_mem_sliced {q : Query} {c : Expr} (h : c ∈ (sliced q).constraints) : c ∈ q.constraints := by
  obtain ⟨p, hp, rfl⟩ := (sliced_ok q).result c h
  obtain ⟨c', hc', rfl⟩ := List.mem_map.mp hp
  exact hc'

/-- A solution of the slice, put together with a solution of all constraints on
the elements that the slice does not track. -/
theorem exists_glued {q : Query} (hb : ∀ e ∈ q.expr :: q.constraints, e.ConstantReadsInBounds)
    {σ0 σ1 : Bytes} (hσ0 : σ0 ∈ Assignments) (hσ1 : σ1 ∈ Assignments) (h0 : σ0 ∈ Models q.constraints)
    (h1 : σ1 ∈ Models (sliced q).constraints) :
    ∃ σ ∈ Assignments, σ ∈ Models q.constraints ∧ q.expr.eval σ = q.expr.eval σ1 := by
  classical
  have hok := sliced_ok q
  let σ : Bytes := fun a i => if (getIndependentConstraints q).1.Covers a i then σ1 a i else σ0 a i
  have hσ : σ ∈ Assignments := by
    intro a i hi
    simp only [σ]
    rw [hσ0 a i hi, hσ1 a i hi, ite_self]
  refine ⟨σ, hσ, fun c hc => ?_, ?_⟩
  · have hcb := hb c (List.mem_cons_of_mem _ hc)
    rcases hok.split (c, .ofExpr c) (List.mem_map_of_mem hc) with ⟨hmem, hcovers⟩ | hapart
    · have heq : c.eval σ = c.eval σ1 :=
        eval_congr_of_covers hσ hσ1 hcb fun a i h => if_pos (hcovers a i h)
      exact heq.trans (h1 c hmem)
    · have heq : c.eval σ = c.eval σ0 :=
        eval_congr_of_covers hσ hσ0 hcb fun a i h => if_neg fun hcl => hapart a i ⟨h, hcl⟩
      exact heq.trans (h0 c hc)
  · exact eval_congr_of_covers hσ hσ1 (hb q.expr List.mem_cons_self) fun a i h =>
      if_pos (hok.grows a i h)

theorem sliced_valid_iff {q : Query} (hb : ∀ e ∈ q.expr :: q.constraints, e.ConstantReadsInBounds)
    (hsat : ∃ σ ∈ Assignments, σ ∈ Models q.constraints) : (sliced q).Valid ↔ q.Valid := by
  obtain ⟨σ0, hσ0, h0⟩ := hsat
  constructor
  · exact fun h σ hσ hm => h σ hσ fun c hc => hm c (mem_of_mem_sliced hc)
  · intro h σ1 hσ1 h1
    obtain ⟨σ, hσ, hm, heq⟩ := exists_glued hb hσ0 hσ1 h0 h1
    exact heq.symm.trans (h σ hσ hm)

theorem sliced_refuted_iff {q : Query} (hb : ∀ e ∈ q.expr :: q.constraints, e.ConstantReadsInBounds)
    (hsat : ∃ σ ∈ Assignments, σ ∈ Models q.constraints) : (sliced q).Refuted ↔ q.Refuted := by
  obtain ⟨σ0, hσ0, h0⟩ := hsat
  constructor
  · exact fun h σ hσ hm => h σ hσ fun c hc => hm c (mem_of_mem_sliced hc)
  · intro h σ1 hσ1 h1 hholds
    obtain ⟨σ, hσ, hm, heq⟩ := exists_glued hb hσ0 hσ1 h0 h1
    exact h σ hσ hm (heq.trans hholds)

/-- Slicing preserves validity: the query is valid, or its expression
unsatisfiable, under the constraints it depends on exactly if it is under all of
them, and the answers of `computeTruth` and `computeValidity` are right for the
whole query if those of the solver below are right for the slice. -/
theorem sliced_preserves (q : Query) (hb : ∀ e ∈ q.expr :: q.constraints, e.ConstantReadsInBounds)
    (hsat : ∃ σ ∈ Assignments, σ ∈ Models q.constraints) :
    ((sliced q).Valid ↔ q.Valid) ∧ ((sliced q).Refuted ↔ q.Refuted) ∧
      ∀ solver : SolverImpl, solver.CorrectOn (sliced q) →
        (∀ b, computeTruth solver q = some b → (b = true ↔ q.Valid)) ∧
        ∀ v, computeValidity solver q = some v → q.HasValidity v := by
  have hvalid := sliced_valid_iff hb hsat
  have hrefuted := sliced_refuted_iff hb hsat
  refine ⟨hvalid, hrefuted, fun solver hcorrect => ⟨fun b h => ?_, fun v h => ?_⟩⟩
  · rw [← hvalid]
    exact hcorrect.truth b h
  · have hv := hcorrect.validity v h
    cases v <;> simpa only [Query.HasValidity, hvalid, hrefuted] using hv

def twoArraysQuery : Query :=
  let x := read (.symbolic 0 "X" 4 Array.four_lt_size) .null (ConstantExpr.alloc 0 32)
  let y := read (.symbolic 1 "Y" 4 Array.four_lt_size) .null (ConstantExpr.alloc 0 32)
  ⟨[binary .eq (ConstantExpr.alloc 5 8) x, binary .eq (ConstantExpr.alloc 7 8) y],
    binary .ult x (ConstantExpr.alloc 9 8)⟩

/-- The constraint on `Y` is left out of the slice. -/
theorem sliced_preserves_two_arrays :
    (sliced twoArraysQuery).constraints = twoArraysQuery.constraints.take 1 ∧
      ((sliced twoArraysQuery).Valid ↔ twoArraysQuery.Valid) := by
  have hσ : (fun array i => if array.size ≤ i then 0 else if array.id = 0 then 5 else 7) ∈ Assignments :=
    fun array i hi => if_pos hi
  exact ⟨by decide +kernel,
    (sliced_preserves twoArraysQuery (by decide +kernel) ⟨_, hσ, by decide +kernel⟩).1⟩

/-- A value found under the constraints that the expression depends on is one under all of them. -/
theorem computeValue_attainable (q : Query) (hb : ∀ e ∈ q.expr :: q.constraints, e.ConstantReadsInBounds)
    (hsat : ∃ σ ∈ Assignments, σ ∈ Models q.constraints) {solver : SolverImpl} (hsolver : solver.CorrectOn (sliced q))
    {c : APInt} (h : computeValue solver q = some c) : (Call.value q).Sound (.value c) := by
  obtain ⟨σ0, hσ0, h0⟩ := hsat
  obtain ⟨σ1, hσ1, h1, heval⟩ := hsolver.value c h
  obtain ⟨σ, hσ, hm, heq⟩ := exists_glued hb hσ0 hσ1 h0 h1
  exact ⟨σ, hσ, hm, heq.trans heval⟩

theorem computeValue_attainable_two_arrays : ∃ c, computeValue SolverImpl.oracle twoArraysQuery = some c ∧
    (Call.value twoArraysQuery).Sound (.value c) := by
  have hσ : (fun array i => if array.size ≤ i then 0 else if array.id = 0 then 5 else 7) ∈ Assignments :=
    fun array i hi => if_pos hi
  have hsat : ∃ σ ∈ Assignments, σ ∈ Models twoArraysQuery.constraints := ⟨_, hσ, by decide +kernel⟩
  have hsliced : ∃ σ ∈ Assignments, σ ∈ Models (sliced twoArraysQuery).constraints := ⟨_, hσ, by decide +kernel⟩
  have hvalue : computeValue SolverImpl.oracle twoArraysQuery = _ := dif_pos hsliced
  exact ⟨_, hvalue, computeValue_attainable _ (by decide +kernel) hsat (SolverImpl.oracle_correctOn _) hvalue⟩

end IndependentSolver

end Klee
