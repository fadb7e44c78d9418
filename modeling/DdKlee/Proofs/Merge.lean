import DdKlee.Proofs.MemoryOperation
import DdKlee.Spec.Merge

/-! A merged state stands for both states: its path condition has the solutions of both,
and what it computes under one of them is what the state it came from computes. -/

namespace Klee

open Expr

theorem mem_sortedSet {α : Type} [DecidableEq α] {le : α → α → Bool} {l : List α} {a : α} :
    a ∈ sortedSet le l ↔ a ∈ l := by
  rw [sortedSet, List.mem_mergeSort, List.mem_dedup]

theorem nodup_sortedSet {α : Type} [DecidableEq α] (le : α → α → Bool) (l : List α) : (sortedSet le l).Nodup :=
  (List.mergeSort_perm l.dedup le).nodup_iff.mpr (List.nodup_dedup l)

namespace ExecutionState

theorem conjunction_ok {es : List Expr} (h : ∀ e ∈ es, IsConstraint e) :
    IsConstraint (conjunction es) ∧ ∀ σ, (conjunction es).holds σ ↔ ∀ e ∈ es, e.holds σ := by
  obtain ⟨htyped, hholds⟩ := foldl_AndExpr_create_ok es (ConstantExpr.alloc 1 1) h ⟨trivial, rfl⟩
  refine ⟨htyped, fun σ => (hholds σ).trans (and_iff_right ?_)⟩
  exact holds_constant.mpr (by decide)

theorem holds_or {l r : Expr} (h : IsConstraint (binary .or l r)) {σ : Bytes} :
    (binary .or l r).holds σ ↔ l.holds σ ∨ r.holds σ := by
  obtain ⟨⟨hl, hr, hlr⟩, hw⟩ := h
  have hlw : l.getWidth = 1 := hw
  obtain ⟨p, hp⟩ := Expr.exists_bool σ hl hlw
  obtain ⟨q, hq⟩ := Expr.exists_bool σ hr (hlr ▸ hlw)
  simp only [holds, Expr.eval, hp, hq]
  cases p <;> cases q <;> decide

theorem select_ok {c t f : Expr} (hc : IsConstraint c) (ht : t.WellTyped) (hf : f.WellTyped)
    (hw : t.getWidth = f.getWidth) :
    (SelectExpr.create c t f).WellTyped ∧ (SelectExpr.create c t f).getWidth = t.getWidth ∧
      ∀ σ, (c.holds σ → (SelectExpr.create c t f).eval σ = t.eval σ) ∧
        (¬ c.holds σ → (SelectExpr.create c t f).eval σ = f.eval σ) := by
  have hs := SelectExpr_create_simplifies (P := fun _ => True) (show (select c t f).WellTyped from
    ⟨hc.1, ht, hf, hc.2, hw⟩)
  refine ⟨hs.typed, hs.width, fun σ => ?_⟩
  rw [hs.eval σ trivial, Expr.eval]
  obtain ⟨p, hp⟩ := Expr.exists_bool σ hc.1 hc.2
  rw [holds, hp]
  cases p <;> simp [APInt.ofBool_inj, ConstantExpr.isTrue]

section Memory

variable {ctx : Context} {inA : Expr} {osA osB os other : ObjectState} {heap : Heap} {wos otherOS n : ℕ}

structure MergedUpTo (inA : Expr) (osA osB os : ObjectState) (n : ℕ) : Prop where
  valid : os.Valid
  size : os.size = osA.size
  object : os.object = osA.object
  left : ∀ i < n, ∀ σ v, inA.holds σ → osA.HasByte σ i v → os.HasByte σ i v
  right : ∀ i < n, ∀ σ v, ¬ inA.holds σ → osB.HasByte σ i v → os.HasByte σ i v
  rest : ∀ i, n ≤ i → i < osA.size → ∀ σ v, osA.HasByte σ i v → os.HasByte σ i v

theorem writeAt_byte (ctx : Context) (os : ObjectState) (i : ℕ) {e : Expr} (ht : e.WellTyped) (hw : e.getWidth = 8) :
    os.writeAt ctx i e = os.write8 i e := by
  have hextract : ExtractExpr.create e 0 8 = e := by
    unfold ExtractExpr.create
    simp [hw]
  have hgeneral : ObjectState.writeWith (fun os idx byte => os.write8 (i + idx) byte) ctx os e = os.write8 i e := by
    simp [ObjectState.writeWith, hw, ObjectState.writeBytes, ObjectState.byteIndex_one, hextract]
  unfold ObjectState.writeAt
  split
  · rename_i c
    have hc : c.width = 8 := hw
    rw [if_pos ⟨by omega, by rw [hc]; decide⟩]
    simp [ObjectState.write8, hc]
  · exact hgeneral

theorem MergedUpTo.refl (h : osA.Valid) : MergedUpTo inA osA osB osA 0 :=
  ⟨h, rfl, rfl, fun _ hi => absurd hi (Nat.not_lt_zero _), fun _ hi => absurd hi (Nat.not_lt_zero _),
    fun _ _ _ _ _ hv => hv⟩

theorem MergedUpTo.succ {os₁ os2 : ObjectState} {av bv e : Expr} (h : MergedUpTo inA osA osB os n)
    (hn : n < osA.size) (hkeeps : ObjectState.KeepsBytes os os₁) (hcaches : ObjectState.Caches os₁ os2 n e)
    (hav : ∀ σ v, os.HasByte σ n v → av.eval σ = ⟨8, v⟩) (hbv : ∀ σ v, osB.HasByte σ n v → bv.eval σ = ⟨8, v⟩)
    (he : ∀ σ, (inA.holds σ → e.eval σ = av.eval σ) ∧ (¬ inA.holds σ → e.eval σ = bv.eval σ)) :
    MergedUpTo inA osA osB os2 (n + 1) := by
  have hkept : ∀ i < osA.size, n ≠ i → ∀ σ v, os.HasByte σ i v → os2.HasByte σ i v := fun i hi hne σ v hv =>
    hcaches.hasByte_of_ne hne (hkeeps.hasByte i (h.size.symm ▸ hi) σ v hv)
  refine ⟨hcaches.valid hkeeps.valid, hcaches.size.trans (hkeeps.size.trans h.size),
    hcaches.object.trans (hkeeps.object.trans h.object), fun i hi σ v hσ hv => ?_, fun i hi σ v hσ hv => ?_,
    fun i hi hsize σ v hv => hkept i hsize (by omega) σ v (h.rest i (by omega) hsize σ v hv)⟩
  · rcases Nat.lt_succ_iff_lt_or_eq.mp hi with hlt | rfl
    · exact hkept i (hlt.trans hn) hlt.ne' σ v (h.left i hlt σ v hσ hv)
    · exact hcaches.hasByte (((he σ).1 hσ).trans (hav σ v (h.rest i le_rfl hn σ v hv)))
  · rcases Nat.lt_succ_iff_lt_or_eq.mp hi with hlt | rfl
    · exact hkept i (hlt.trans hn) hlt.ne' σ v (h.right i hlt σ v hσ hv)
    · exact hcaches.hasByte (((he σ).2 hσ).trans (hbv σ v hv))

theorem mergeByte_ok (ctx : Context) (cache : ArrayCache) (hinA : IsConstraint inA) (hne : wos ≠ otherOS)
    (hos : heap[wos]? = some os) (hother : heap[otherOS]? = some other) (h : MergedUpTo inA osA osB os n)
    (hkeeps : ObjectState.KeepsBytes osB other) (hA : n < osA.size) (hB : n < osB.size) :
    ∃ os' other' cache', mergeByte ctx inA wos otherOS (heap, cache) n =
        some ((heap.set wos os').set otherOS other', cache') ∧
      MergedUpTo inA osA osB os' (n + 1) ∧ ObjectState.KeepsBytes osB other' := by
  obtain ⟨av, os₁, cache1, hreadA, hkeepsA, htA, hwA, hav⟩ := ObjectState.read8_keeps h.valid cache (h.size.symm ▸ hA)
  obtain ⟨bv, other', cache', hreadB, hkeepsB, htB, hwB, hbv⟩ :=
    ObjectState.read8_keeps hkeeps.valid cache1 (hkeeps.size.symm ▸ hB)
  obtain ⟨htyped, hwidth, heval⟩ := select_ok hinA htA htB (hwA.trans hwB.symm)
  obtain ⟨os', hwrite, hcaches⟩ := ObjectState.write8_caches os₁ n htyped (hwidth.trans hwA)
  refine ⟨os', other', cache', ?_, h.succ hA hkeepsA hcaches hav
    (fun σ v hv => hbv σ v (hkeeps.hasByte n hB σ v hv)) heval, hkeeps.trans hkeepsB⟩
  have hlt := (List.getElem?_eq_some_iff.mp hos).1
  have hother1 : (heap.set wos os₁)[otherOS]? = some other := by
    rw [List.getElem?_set_ne hne]
    exact hother
  have hos1 : ((heap.set wos os₁).set otherOS other')[wos]? = some os₁ := by
    rw [List.getElem?_set_ne hne.symm, List.getElem?_set_self hlt]
  simp only [mergeByte, hos, hreadA, hother1, hreadB, hos1, writeAt_byte ctx os₁ n htyped (hwidth.trans hwA), hwrite,
    some_bind]
  rw [List.set_comm _ _ hne.symm, List.set_set]

theorem mergeBytes_ok (ctx : Context) (cache : ArrayCache) (hinA : IsConstraint inA) (hne : wos ≠ otherOS)
    (hos : heap[wos]? = some osA) (hother : heap[otherOS]? = some osB) (hA : osA.Valid) (hB : osB.Valid)
    (hsize : osB.size = osA.size) : ∀ n ≤ osA.size,
    ∃ os' other' cache', (List.range n).foldlM (mergeByte ctx inA wos otherOS) (heap, cache) =
        some ((heap.set wos os').set otherOS other', cache') ∧
      MergedUpTo inA osA osB os' n ∧ ObjectState.KeepsBytes osB other' := by
  obtain ⟨hlt, hget⟩ := List.getElem?_eq_some_iff.mp hos
  obtain ⟨hlt', hget'⟩ := List.getElem?_eq_some_iff.mp hother
  intro n
  induction n with
  | zero =>
    intro _
    refine ⟨osA, osB, cache, ?_, .refl hA, .refl hB⟩
    rw [← hget, List.set_getElem_self, ← hget', List.set_getElem_self]
    rfl
  | succ n ih =>
    intro hn
    obtain ⟨os, other, cache1, hrun, hmerged, hkeeps⟩ := ih (by omega)
    have hos1 : ((heap.set wos os).set otherOS other)[wos]? = some os := by
      rw [List.getElem?_set_ne hne.symm, List.getElem?_set_self hlt]
    have hother1 : ((heap.set wos os).set otherOS other)[otherOS]? = some other := by
      rw [List.getElem?_set_self (by rwa [List.length_set])]
    obtain ⟨os', other', cache', hstep, hmerged', hkeeps'⟩ := mergeByte_ok ctx cache1 hinA hne hos1 hother1 hmerged
      hkeeps (by omega) (by omega)
    refine ⟨os', other', cache', ?_, hmerged', hkeeps'⟩
    rw [List.range_succ, List.foldlM_append, hrun]
    simp only [some_bind, List.foldlM_cons, List.foldlM_nil, hstep]
    rw [List.set_comm _ _ hne.symm, List.set_set, List.set_set]
    rfl

open AddressSpace

def Bound (as : AddressSpace) (heap : Heap) : Prop :=
  ∀ op ∈ as.objects, ∃ os, heap[op.2]? = some os ∧ os.object = op.1 ∧ os.size = op.1.size ∧ os.Valid

structure Merging (inA : Expr) (heap : Heap) (a b : AddressSpace) (done : MemoryObject → Prop)
    (memory : MergeMemory) : Prop where
  length : heap.length ≤ memory.heap.length
  binds : ∀ mo, memory.addressSpace.Binds mo ↔ a.Binds mo
  rest : ∀ op ∈ memory.addressSpace.objects, ¬ done op.1 → op ∈ a.objects ∧ memory.heap[op.2]? = heap[op.2]?
  merged : ∀ op ∈ memory.addressSpace.objects, done op.1 → ∃ p q osA osB os, (op.1, p) ∈ a.objects ∧
    (op.1, q) ∈ b.objects ∧ heap[p]? = some osA ∧ heap[q]? = some osB ∧ memory.heap[op.2]? = some os ∧
    MergedUpTo inA osA osB os osA.size
  other : ∀ op ∈ b.objects, ∃ osB osB', heap[op.2]? = some osB ∧ memory.heap[op.2]? = some osB' ∧
    ObjectState.KeepsBytes osB osB'

theorem getWriteable_cases {as : AddressSpace} {mo : MemoryObject} {p : ℕ} (hos : heap[p]? = some os)
    (hop : (mo, p) ∈ as.objects) (hro : os.readOnly = false) :
    ∃ wos heap' as' key, as.getWriteable heap mo p = some (wos, heap', as') ∧
      heap'[wos]? = some { os with copyOnWriteOwner := key } ∧ (wos = p ∨ wos = heap.length) ∧
      heap.length ≤ heap'.length ∧ (∀ r < heap.length, heap'[r]? = heap[r]?) ∧
      ∀ op, op ∈ as'.objects ↔ op ∈ as.objects ∧ op.1 ≠ mo ∨ op = (mo, wos) := by
  have hkey : ∀ op ∈ as.objects, op.1.address = mo.address ↔ op = (mo, p) := fun op hmem =>
    ⟨fun h => OrderedMap.key_inj _ hmem hop h, fun h => by rw [h]⟩
  by_cases hown : as.cowKey = os.copyOnWriteOwner
  · refine ⟨p, heap, as, os.copyOnWriteOwner, by simp [getWriteable, hos, hro, hown], hos, .inl rfl, le_rfl,
      fun _ _ => rfl, fun op => ⟨fun hmem => ?_, ?_⟩⟩
    · by_cases hmo : op.1 = mo
      · exact .inr ((hkey op hmem).mp (by rw [hmo]))
      · exact .inl ⟨hmem, hmo⟩
    · rintro (⟨hmem, -⟩ | rfl)
      · exact hmem
      · exact hop
  · refine ⟨heap.length, heap ++ [{ os with copyOnWriteOwner := as.cowKey }],
      { as with objects := as.objects.replace (mo, heap.length) }, as.cowKey, ?_, by simp, .inr rfl, by simp,
      fun r hr => List.getElem?_append_left hr, fun op => ?_⟩
    · simp [getWriteable, hos, hro, hown, ObjectState.copy]
    · rw [OrderedMap.mem_replace]
      refine or_congr (and_congr_right fun hmem => ?_) Iff.rfl
      rw [not_iff_not, hkey op hmem]
      exact ⟨fun h => by rw [h], fun h => OrderedMap.key_inj _ hmem hop (by simp only [h])⟩

theorem MergedUpTo.congr {osB' : ObjectState} {key : ℕ}
    (h : MergedUpTo inA { osA with copyOnWriteOwner := key } osB' os n) (hn : n ≤ osB.size)
    (hkeeps : ObjectState.KeepsBytes osB osB') : MergedUpTo inA osA osB os n where
  valid := h.valid
  size := h.size
  object := h.object
  left i hi σ v hσ hv := h.left i hi σ v hσ ⟨hv.concrete, hv.known, hv.flushed⟩
  right i hi σ v hσ hv := h.right i hi σ v hσ (hkeeps.hasByte i (hi.trans_le hn) σ v hv)
  rest i hi hsize σ v hv := h.rest i hi hsize σ v ⟨hv.concrete, hv.known, hv.flushed⟩

variable {a b : AddressSpace} {done : MemoryObject → Prop} {memory : MergeMemory} {mo : MemoryObject} {p q : ℕ}

theorem mergeObject_ok (ctx : Context) (hinA : IsConstraint inA) (ha : Bound a heap) (hb : Bound b heap)
    (h : Merging inA heap a b done memory) (hdone : ¬ done mo) (hp : (mo, p) ∈ a.objects) (hq : (mo, q) ∈ b.objects)
    (hne : p ≠ q) :
    (∃ memory', mergeObject ctx inA b memory mo = some memory' ∧
      Merging inA heap a b (fun mo' => done mo' ∨ mo' = mo) memory') ∨
    mergeObject ctx inA b memory mo = none ∧ ∃ os, heap[p]? = some os ∧ os.readOnly = true := by
  obtain ⟨osA, hosA, hobjA, hsizeA, hvalidA⟩ := ha _ hp
  obtain ⟨osB, osB', hosB, hosB', hkeeps⟩ := h.other _ hq
  obtain ⟨osB0, hosB0, hobjB, hsizeB, hvalidB⟩ := hb _ hq
  obtain rfl := Option.some.inj (hosB.symm.trans hosB0)
  obtain ⟨p', hp'⟩ := (h.binds mo).mpr ⟨p, hp⟩
  obtain ⟨hp'', hsame⟩ := h.rest _ hp' hdone
  obtain rfl : p' = p := congrArg Prod.snd (OrderedMap.key_inj _ hp'' hp rfl)
  have hos : memory.heap[p']? = some osA := hsame.trans hosA
  have hfind : memory.addressSpace.findObject mo = some p' := by
    rw [findObject, OrderedMap.lookup_eq_some hp']
    rfl
  have hfindB : b.findObject mo = some q := by
    rw [findObject, OrderedMap.lookup_eq_some hq]
    rfl
  cases hro : osA.readOnly with
  | true =>
    refine .inr ⟨?_, osA, hosA, hro⟩
    simp [mergeObject, hfind, hfindB, getWriteable, hos, hro]
  | false =>
    obtain ⟨wos, heap', as', key, hget, hwos, hplace, hlen, hframe, hobjects⟩ := getWriteable_cases hos hp' hro
    have hqlt : q < memory.heap.length := (List.getElem?_eq_some_iff.mp hosB').1
    have hwq : wos ≠ q := by
      rcases hplace with rfl | rfl
      · exact hne
      · exact hqlt.ne'
    obtain ⟨os', other', cache', hrun, hmerged, hkeeps'⟩ := mergeBytes_ok ctx memory.arrayCache hinA hwq hwos
      ((hframe q hqlt).trans hosB') ⟨⟨hvalidA.known, hvalidA.unflushed⟩, hvalidA.size_lt, hvalidA.known_typed,
        hvalidA.root, hvalidA.writes, hvalidA.inRange⟩ hkeeps.valid (by
          rw [hkeeps.size, hsizeB]
          exact hsizeA.symm) osA.size le_rfl
    have hwlt : wos < heap'.length := (List.getElem?_eq_some_iff.mp hwos).1
    -- the object states of other objects are not touched
    have haway : ∀ (r : ℕ) os, memory.heap[r]? = some os → os.object ≠ mo →
        ((heap'.set wos os').set q other')[r]? = some os := fun r os hr hobj => by
      have hlt := (List.getElem?_eq_some_iff.mp hr).1
      have hrq : r ≠ q := by
        rintro rfl
        obtain rfl := Option.some.inj (hr.symm.trans hosB')
        exact hobj (hkeeps.object.trans hobjB)
      have hrw : r ≠ wos := by
        rintro rfl
        rcases hplace with rfl | rfl
        · obtain rfl := Option.some.inj (hr.symm.trans hos)
          exact hobj hobjA
        · exact lt_irrefl _ hlt
      rw [List.getElem?_set_ne hrq.symm, List.getElem?_set_ne hrw.symm, hframe r hlt, hr]
    refine .inl ⟨⟨(heap'.set wos os').set q other', cache', as'⟩, ?_, ⟨?_, fun mo' => ?_, fun op hop hnot => ?_,
      fun op hop hyes => ?_, fun op hop => ?_⟩⟩
    · simp only [mergeObject, hfind, hfindB, hget, some_bind]
      rw [← hsizeA, hrun]
      rfl
    · simpa using h.length.trans hlen
    · rw [← h.binds]
      constructor
      · rintro ⟨r, hr⟩
        rcases (hobjects _).mp hr with ⟨hmem, -⟩ | heq
        · exact ⟨r, hmem⟩
        · exact ⟨p', (Prod.mk.inj heq).1 ▸ hp'⟩
      · rintro ⟨r, hr⟩
        by_cases hmo : mo' = mo
        · exact ⟨wos, (hobjects _).mpr (.inr (by rw [hmo]))⟩
        · exact ⟨r, (hobjects _).mpr (.inl ⟨hr, hmo⟩)⟩
    · rcases (hobjects op).mp hop with ⟨hmem, hmo⟩ | rfl
      · obtain ⟨hopa, hsame'⟩ := h.rest op hmem fun hd => hnot (.inl hd)
        obtain ⟨os, hos1, hobj, -⟩ := ha op hopa
        exact ⟨hopa, (haway _ os (hsame'.trans hos1) (hobj ▸ hmo)).trans hos1.symm⟩
      · exact absurd (.inr rfl) hnot
    · rcases (hobjects op).mp hop with ⟨hmem, hmo⟩ | rfl
      · obtain ⟨p1, q1, oA, oB, os, hp1, hq1, hoA, hoB, hos1, hm⟩ := h.merged op hmem (hyes.resolve_right hmo)
        obtain ⟨oA', hoA', hobj, -⟩ := ha _ hp1
        obtain rfl := Option.some.inj (hoA.symm.trans hoA')
        exact ⟨p1, q1, oA, oB, os, hp1, hq1, hoA, hoB, haway _ os hos1 (by rw [hm.object, hobj]; exact hmo), hm⟩
      · refine ⟨p', q, osA, osB, os', hp, hq, hosA, hosB, ?_, hmerged.congr (hsizeA.trans hsizeB.symm).le hkeeps⟩
        rw [List.getElem?_set_ne hwq.symm, List.getElem?_set_self hwlt]
    · obtain ⟨oB, oB', hoB, hoB', hk⟩ := h.other op hop
      by_cases hopq : op.2 = q
      · obtain rfl := Option.some.inj ((hopq ▸ hoB).symm.trans hosB)
        refine ⟨oB, other', hoB, ?_, hkeeps.trans hkeeps'⟩
        rw [hopq, List.getElem?_set_self (by rw [List.length_set]; omega)]
      · obtain ⟨oB0, hoB0, hobj, -⟩ := hb op hop
        obtain rfl := Option.some.inj (hoB.symm.trans hoB0)
        have hmo : op.1 ≠ mo := fun hmo => hopq (congrArg Prod.snd (OrderedMap.key_inj _ hop hq (by simp only [hmo])))
        exact ⟨oB, oB', hoB, haway _ oB' hoB' (by rw [hk.object, hobj]; exact hmo), hk⟩

/-- The loop over the objects that were mutated. -/
theorem mergeObjects_ok (ctx : Context) (hinA : IsConstraint inA) (ha : Bound a heap) (hb : Bound b heap)
    (mutated : List MemoryObject) : ∀ {done : MemoryObject → Prop} {memory : MergeMemory},
    Merging inA heap a b done memory → mutated.Nodup → (∀ mo ∈ mutated, ¬ done mo) →
    (∀ mo ∈ mutated, ∃ p q, (mo, p) ∈ a.objects ∧ (mo, q) ∈ b.objects ∧ p ≠ q) →
    (∃ memory', mutated.foldlM (mergeObject ctx inA b) memory = some memory' ∧
      Merging inA heap a b (fun mo => done mo ∨ mo ∈ mutated) memory') ∨
    mutated.foldlM (mergeObject ctx inA b) memory = none ∧
      ∃ p q os mo, (mo, p) ∈ a.objects ∧ (mo, q) ∈ b.objects ∧ p ≠ q ∧ heap[p]? = some os ∧ os.readOnly = true := by
  induction mutated with
  | nil =>
    intro done memory h _ _ _
    exact .inl ⟨memory, rfl, by simpa using h⟩
  | cons mo mutated ih =>
    intro done memory h hnodup hdone hmutated
    obtain ⟨hmo, hnodup⟩ := List.nodup_cons.mp hnodup
    obtain ⟨hnot, hdone⟩ := List.forall_mem_cons.mp hdone
    obtain ⟨⟨p, q, hp, hq, hne⟩, hmutated⟩ := List.forall_mem_cons.mp hmutated
    rw [List.foldlM_cons]
    rcases mergeObject_ok ctx hinA ha hb h hnot hp hq hne with ⟨memory1, hrun, h1⟩ | ⟨hrun, os, hos, hro⟩
    · rw [hrun, some_bind]
      have hdone1 : ∀ mo' ∈ mutated, ¬ (done mo' ∨ mo' = mo) := fun mo' hmem hor =>
        hor.elim (hdone mo' hmem) fun heq => hmo (heq ▸ hmem)
      simpa only [List.mem_cons, ← or_assoc] using ih h1 hnodup hdone1 hmutated
    · rw [hrun]
      exact .inr ⟨rfl, p, q, os, mo, hp, hq, hne, hos, hro⟩

theorem mutatedObjects_ok : ∀ {as bs : List (MemoryObject × ℕ)} {mutated : List MemoryObject},
    mutatedObjects as bs = some mutated → as.map Prod.fst = bs.map Prod.fst ∧
      (∀ mo ∈ mutated, ∃ p q, (mo, p) ∈ as ∧ (mo, q) ∈ bs ∧ p ≠ q) ∧ ∀ op ∈ as, op.1 ∉ mutated → op ∈ bs := by
  intro as bs
  induction as, bs using mutatedObjects.induct with
  | case1 =>
    intro mutated h
    obtain rfl := Option.some.inj h
    exact ⟨rfl, by simp, by simp⟩
  | case2 x as y bs hne => simp [mutatedObjects, hne]
  | case3 x as y bs heq ih =>
    intro mutated h
    simp only [mutatedObjects, if_neg heq, bind_eq_some] at h
    obtain ⟨mutated', hrun, h⟩ := h
    obtain ⟨hkeys, hmem, hrest⟩ := ih hrun
    have heq : x.1 = y.1 := not_not.mp heq
    have hkeys' : (x :: as).map Prod.fst = (y :: bs).map Prod.fst := by
      rw [List.map_cons, List.map_cons, heq, hkeys]
    have hmem' : ∀ mo ∈ mutated', ∃ p q, (mo, p) ∈ x :: as ∧ (mo, q) ∈ y :: bs ∧ p ≠ q := fun mo hmo => by
      obtain ⟨p, q, hp, hq, hne⟩ := hmem mo hmo
      exact ⟨p, q, List.mem_cons_of_mem _ hp, List.mem_cons_of_mem _ hq, hne⟩
    split_ifs at h with hne
    · obtain rfl := Option.some.inj h
      refine ⟨hkeys', List.forall_mem_cons.mpr ⟨⟨x.2, y.2, List.mem_cons_self, heq ▸ List.mem_cons_self, hne⟩, hmem'⟩, ?_⟩
      intro op hop hnot
      rw [List.mem_cons, not_or] at hnot
      rcases List.mem_cons.mp hop with rfl | hop
      · exact absurd rfl hnot.1
      · exact List.mem_cons_of_mem _ (hrest op hop hnot.2)
    · obtain rfl := Option.some.inj h
      refine ⟨hkeys', hmem', fun op hop hnot => ?_⟩
      rcases List.mem_cons.mp hop with rfl | hop
      · rw [show op = y from Prod.ext heq (not_not.mp hne)]
        exact List.mem_cons_self
      · exact List.mem_cons_of_mem _ (hrest op hop hnot)
  | case4 as bs _ _ => simp [mutatedObjects]

theorem Merging.holds {σ : Bytes} {m : MemoryObject → ℕ → BitVec 8} (h : Merging inA heap a b done memory)
    (ha : Bound a heap) (hrest : ∀ op ∈ a.objects, ¬ done op.1 → op ∈ b.objects)
    (hside : inA.holds σ ∧ a.Holds heap σ m ∨ ¬ inA.holds σ ∧ b.Holds heap σ m) :
    memory.addressSpace.Holds memory.heap σ m := by
  intro op hop
  by_cases hd : done op.1
  · obtain ⟨p, q, osA, osB, os, hp, hq, hosA, hosB, hos, hm⟩ := h.merged op hop hd
    obtain ⟨osA', hosA', hobj, hsize, -⟩ := ha _ hp
    obtain rfl := Option.some.inj (hosA.symm.trans hosA')
    refine ⟨os, hos, hm.object.trans hobj, hm.size.trans hsize, hm.valid, ObjectState.represents_iff.mpr fun i hi => ?_⟩
    rw [hm.size] at hi
    rcases hside with ⟨hσ, hholds⟩ | ⟨hσ, hholds⟩
    · obtain ⟨os₁, hos1, -, -, -, hr⟩ := hholds _ hp
      obtain rfl := Option.some.inj (hosA.symm.trans hos1)
      exact hm.left i hi σ _ hσ (ObjectState.represents_iff.mp hr i hi)
    · obtain ⟨os₁, hos1, -, hsize1, -, hr⟩ := hholds _ hq
      obtain rfl := Option.some.inj (hosB.symm.trans hos1)
      exact hm.right i hi σ _ hσ (ObjectState.represents_iff.mp hr i (by rw [hsize1, ← hsize]; exact hi))
  · obtain ⟨hopa, hsame⟩ := h.rest op hop hd
    rw [hsame]
    rcases hside with ⟨-, hholds⟩ | ⟨-, hholds⟩
    · exact hholds op hopa
    · exact hholds op (hrest op hopa hd)

end Memory

theorem addConstraints_ok (opts : ConstraintOptions) (es : List Expr) : ∀ {s : ExecutionState},
    (∀ c ∈ s.constraints, IsConstraint c) → (∀ e ∈ es, IsConstraint e) →
    (∃ σ ∈ Solutions s.constraints, ∀ e ∈ es, e.holds σ) →
    ∃ cs, es.foldlM (fun (s : ExecutionState) => s.addConstraint opts) s = some { s with constraints := cs } ∧
      (∀ c ∈ cs, IsConstraint c) ∧ Solutions cs = {σ ∈ Solutions s.constraints | ∀ e ∈ es, e.holds σ} := by
  induction es with
  | nil => exact fun {s} hs _ _ => ⟨s.constraints, rfl, hs, by simp⟩
  | cons e es ih =>
    rintro s hs hes ⟨σ, hσ, hall⟩
    obtain ⟨he, hes⟩ := List.forall_mem_cons.mp hes
    obtain ⟨hholds, hall⟩ := List.forall_mem_cons.mp hall
    obtain ⟨cs, hrun, hcs, hsol⟩ := s.addConstraint_ok opts hs he ⟨σ, hσ, hholds⟩
    have hσ' : σ ∈ Solutions cs := by
      rw [hsol]
      exact ⟨hσ, hholds⟩
    obtain ⟨cs', hrun', hcs', hsol'⟩ := ih (s := { s with constraints := cs }) hcs.typed hes ⟨σ, hσ', hall⟩
    refine ⟨cs', ?_, hcs', ?_⟩
    · rw [List.foldlM_cons, hrun]
      exact hrun'
    · ext τ
      rw [hsol', hsol]
      simp [and_assoc]

theorem mem_commonConstraints {le : Expr → Expr → Bool} {as bs : List Expr} {c : Expr} :
    c ∈ commonConstraints le as bs ↔ c ∈ as ∧ c ∈ bs := by
  simp [commonConstraints, mem_sortedSet]

theorem mem_suffix {le : Expr → Expr → Bool} {cs common : List Expr} {c : Expr} :
    c ∈ suffix le cs common ↔ c ∈ cs ∧ c ∉ common := by
  simp [suffix, mem_sortedSet]

theorem mem_models_suffix (le : Expr → Expr → Bool) {cs common : List Expr} {σ : Bytes}
    (hsub : ∀ c ∈ common, c ∈ cs) :
    σ ∈ Models cs ↔ (∀ c ∈ common, c.holds σ) ∧ ∀ c ∈ suffix le cs common, c.holds σ := by
  constructor
  · intro h
    exact ⟨fun c hc => h c (hsub c hc), fun c hc => h c (mem_suffix.mp hc).1⟩
  · rintro ⟨hcommon, hsuffix⟩ c hc
    by_cases hmem : c ∈ common
    · exact hcommon c hmem
    · exact hsuffix c (mem_suffix.mpr ⟨hc, hmem⟩)

theorem sameFrames_iff : ∀ {as bs : List StackFrame}, sameFrames as bs = true ↔
    List.Forall₂ (fun af bf => af.caller = bf.caller ∧ af.kf = bf.kf) as bs
  | [], [] => by simp [sameFrames]
  | a :: as, b :: bs => by simp [sameFrames, sameFrames_iff, and_assoc]
  | [], b :: bs => by simp [sameFrames]
  | a :: as, [] => by simp [sameFrames]

variable {heap : Heap} {a b s : ExecutionState}
  {mA mB : Bytes → MemoryObject → ℕ → BitVec 8} {types : KFunction → ℕ → ℕ}

def RegistersTyped (types : KFunction → ℕ → ℕ) (s : ExecutionState) : Prop :=
  ∀ frame ∈ s.stack, ∀ i < frame.kf.numRegisters, ∀ e ∈ frame.locals i,
    e.WellTyped ∧ e.getWidth = types frame.kf i

structure StandsFor (a b s : ExecutionState) (mA mB : Bytes → MemoryObject → ℕ → BitVec 8) (heap : Heap) : Prop where
  solutions : Solutions s.constraints = Solutions a.constraints ∪ Solutions b.constraints
  frames : s.stack.length = a.stack.length ∧ s.stack.length = b.stack.length
  registers : ∀ (k : ℕ) fa fb, a.stack[k]? = some fa → b.stack[k]? = some fb →
    ∃ f, s.stack[k]? = some f ∧ f.kf = fa.kf ∧ f.caller = fa.caller ∧
      ∀ i < fa.kf.numRegisters, ∀ av ∈ fa.locals i, ∀ bv ∈ fb.locals i, ∃ e ∈ f.locals i,
        (∀ σ ∈ Solutions a.constraints, e.eval σ = av.eval σ) ∧ ∀ σ ∈ Solutions b.constraints, e.eval σ = bv.eval σ
  objects : ∀ mo, (s.addressSpace.Binds mo ↔ a.addressSpace.Binds mo) ∧
    (s.addressSpace.Binds mo ↔ b.addressSpace.Binds mo)
  memory : (∀ σ ∈ Solutions a.constraints, s.addressSpace.Holds heap σ (mA σ)) ∧
    ∀ σ ∈ Solutions b.constraints, s.addressSpace.Holds heap σ (mB σ)

theorem conjunction_suffix {le : Expr → Expr → Bool} (hA : Feasible a.constraints)
    (hdisj : Disjoint (Solutions a.constraints) (Solutions b.constraints)) {common : List Expr}
    (hcommon : common = commonConstraints le a.constraints b.constraints) :
    (∀ σ ∈ Solutions a.constraints, (conjunction (suffix le a.constraints common)).holds σ) ∧
      ∀ σ ∈ Solutions b.constraints, ¬ (conjunction (suffix le a.constraints common)).holds σ := by
  have hsub : ∀ c ∈ common, c ∈ a.constraints ∧ c ∈ b.constraints := fun c hc =>
    mem_commonConstraints.mp (hcommon ▸ hc)
  obtain ⟨-, hholds⟩ := conjunction_ok fun c (hc : c ∈ suffix le a.constraints common) => hA.typed c (mem_suffix.mp hc).1
  have hmodels := fun σ => mem_models_suffix le (σ := σ) fun c hc => (hsub c hc).1
  refine ⟨fun σ hσ => (hholds σ).mpr ((hmodels σ).mp hσ.2).2, fun σ hσ hin => ?_⟩
  have hσa : σ ∈ Models a.constraints := (hmodels σ).mpr ⟨fun c hc => hσ.2 c (hsub c hc).2, (hholds σ).mp hin⟩
  exact Set.disjoint_left.mp hdisj ⟨hσ.1, hσa⟩ hσ

theorem mergeConstraints_ok (le : Expr → Expr → Bool) (opts : ConstraintOptions) (hA : Feasible a.constraints)
    (hB : Feasible b.constraints) (hs : s.constraints = []) {common : List Expr}
    (hcommon : common = commonConstraints le a.constraints b.constraints) :
    ∃ cs, (common.foldlM (fun (s : ExecutionState) => s.addConstraint opts) s).bind (fun s => s.addConstraint opts
        (OrExpr.create (conjunction (suffix le a.constraints common)) (conjunction (suffix le b.constraints common)))) =
          some { s with constraints := cs } ∧
      Solutions cs = Solutions a.constraints ∪ Solutions b.constraints := by
  subst hcommon
  have hin := fun c (hc : c ∈ commonConstraints le a.constraints b.constraints) => mem_commonConstraints.mp hc
  obtain ⟨hinA, hholdsA⟩ := conjunction_ok fun c (hc : c ∈ suffix le a.constraints _) => hA.typed c (mem_suffix.mp hc).1
  obtain ⟨hinB, hholdsB⟩ := conjunction_ok fun c (hc : c ∈ suffix le b.constraints _) => hB.typed c (mem_suffix.mp hc).1
  have hor : IsConstraint (binary .or _ _) := ⟨⟨hinA.1, hinB.1, hinA.2.trans hinB.2.symm⟩, hinA.2⟩
  have hcreate := OrExpr_create_simplifies (P := fun _ => True) hor.1
  have hmodels : ∀ σ, σ ∈ Models a.constraints ∨ σ ∈ Models b.constraints ↔
      (∀ c ∈ commonConstraints le a.constraints b.constraints, c.holds σ) ∧ (OrExpr.create _ _).holds σ := fun σ => by
    rw [mem_models_suffix le fun c hc => (hin c hc).1, mem_models_suffix le fun c hc => (hin c hc).2, ← hholdsA, ← hholdsB,
      ← and_or_left, hcreate.holds_iff trivial, holds_or hor]
  obtain ⟨σ, hσ⟩ := hA.satisfiable
  obtain ⟨hσcommon, hσor⟩ := (hmodels σ).mp (.inl hσ.2)
  obtain ⟨cs, hrun, hcs, hsol⟩ := addConstraints_ok opts (commonConstraints le a.constraints b.constraints) (s := s)
    (by simp [hs]) (fun c hc => hA.typed c (hin c hc).1) ⟨σ, ⟨hσ.1, by rw [hs]; exact mem_models_nil σ⟩, hσcommon⟩
  have hσcs : σ ∈ Solutions cs := by
    rw [hsol]
    exact ⟨⟨hσ.1, by rw [hs]; exact mem_models_nil σ⟩, hσcommon⟩
  obtain ⟨cs', hrun', -, hsol'⟩ := addConstraint_ok (s := { s with constraints := cs }) opts hcs
    ⟨hcreate.typed, hcreate.width.trans hor.2⟩ ⟨σ, hσcs, hσor⟩
  refine ⟨cs', by rw [hrun, Option.bind_some, hrun'], ?_⟩
  ext τ
  rw [hsol', hsol, hs]
  simp only [Solutions, Set.mem_ofPred_eq, Set.mem_inter_iff, Set.mem_union, mem_models_nil, and_true, and_assoc]
  rw [← hmodels τ, and_or_left]

theorem mergeFrame_ok {inA : Expr} {fa fb : StackFrame} (hinA : IsConstraint inA) (hkf : fa.kf = fb.kf)
    (ha : ∀ i < fa.kf.numRegisters, ∀ e ∈ fa.locals i, e.WellTyped ∧ e.getWidth = types fa.kf i)
    (hb : ∀ i < fb.kf.numRegisters, ∀ e ∈ fb.locals i, e.WellTyped ∧ e.getWidth = types fb.kf i) {i : ℕ}
    (hi : i < fa.kf.numRegisters) {av bv : Expr} (hav : av ∈ fa.locals i) (hbv : bv ∈ fb.locals i) :
    ∃ e ∈ (mergeFrame inA fa fb).locals i, ∀ σ, (inA.holds σ → e.eval σ = av.eval σ) ∧
      (¬ inA.holds σ → e.eval σ = bv.eval σ) := by
  obtain ⟨hta, hwa⟩ := ha i hi av hav
  obtain ⟨htb, hwb⟩ := hb i (hkf ▸ hi) bv hbv
  obtain ⟨-, -, heval⟩ := select_ok hinA hta htb (by rw [hwa, hwb, hkf])
  refine ⟨SelectExpr.create inA av bv, ?_, heval⟩
  rw [Option.mem_def] at hav hbv ⊢
  simp only [mergeFrame, hav, hbv, if_pos hi]

theorem mergeStack_ok {inA : Expr} (hinA : IsConstraint inA) (hframes : sameFrames a.stack b.stack = true)
    (hregsA : RegistersTyped types a) (hregsB : RegistersTyped types b) {k : ℕ} {fa fb : StackFrame}
    (hfa : a.stack[k]? = some fa) (hfb : b.stack[k]? = some fb) :
    ∃ f, (List.zipWith (mergeFrame inA) a.stack b.stack)[k]? = some f ∧ f.kf = fa.kf ∧ f.caller = fa.caller ∧
      ∀ i < fa.kf.numRegisters, ∀ av ∈ fa.locals i, ∀ bv ∈ fb.locals i, ∃ e ∈ f.locals i,
        ∀ σ, (inA.holds σ → e.eval σ = av.eval σ) ∧ (¬ inA.holds σ → e.eval σ = bv.eval σ) := by
  have hkf : fa.kf = fb.kf := (List.forall₂_iff_zip.mp (sameFrames_iff.mp hframes)).2
    (List.mem_of_getElem? (List.getElem?_zip_eq_some.mpr ⟨hfa, hfb⟩)) |>.2
  exact ⟨mergeFrame inA fa fb, List.getElem?_zipWith_eq_some.mpr ⟨fa, fb, hfa, hfb, rfl⟩, rfl, rfl,
    fun i hi av hav bv hbv => mergeFrame_ok hinA hkf (hregsA fa (List.mem_of_getElem? hfa))
      (hregsB fb (List.mem_of_getElem? hfb)) hi hav hbv⟩

/-- An object that the states have in different versions and that may not be written. -/
def MutatedReadOnly (heap : Heap) (a b : ExecutionState) : Prop :=
  ∃ p q os mo, (mo, p) ∈ a.addressSpace.objects ∧ (mo, q) ∈ b.addressSpace.objects ∧ p ≠ q ∧
    heap[p]? = some os ∧ os.readOnly = true

theorem merge_cases (opts : MergeOptions) (heap : Heap) (cache : ArrayCache) (a b : ExecutionState) :
    a.merge opts heap cache b = some (false, heap, cache, a) ∨
    ∃ mutated, sameFrames a.stack b.stack = true ∧
      mutatedObjects a.addressSpace.objects.entries b.addressSpace.objects.entries = some mutated ∧
      a.merge opts heap cache b = a.mergeStates opts heap cache b mutated := by
  unfold merge
  split_ifs with hpc hsym hframes
  · exact .inl rfl
  · exact .inl rfl
  · exact .inl rfl
  · split
    · exact .inl rfl
    · rename_i mutated hmutated
      exact .inr ⟨mutated, by simpa using hframes, hmutated, rfl⟩

theorem bound_of_holds {m : Bytes → MemoryObject → ℕ → BitVec 8} (hs : Feasible s.constraints)
    (hm : ∀ σ ∈ Solutions s.constraints, s.addressSpace.Holds heap σ (m σ)) : Bound s.addressSpace heap :=
  fun op hop => by
    obtain ⟨σ, hσ⟩ := hs.satisfiable
    obtain ⟨os, hos, hobj, hsize, hvalid, -⟩ := hm σ hσ op hop
    exact ⟨os, hos, hobj, hsize, hvalid⟩

theorem mergeStates_ok (opts : MergeOptions) (cache : ArrayCache) (hA : Feasible a.constraints)
    (hB : Feasible b.constraints) (hdisj : Disjoint (Solutions a.constraints) (Solutions b.constraints))
    (hregsA : RegistersTyped types a) (hregsB : RegistersTyped types b)
    (hmA : ∀ σ ∈ Solutions a.constraints, a.addressSpace.Holds heap σ (mA σ))
    (hmB : ∀ σ ∈ Solutions b.constraints, b.addressSpace.Holds heap σ (mB σ))
    (hframes : sameFrames a.stack b.stack = true) {mutated : List MemoryObject}
    (hmutated : mutatedObjects a.addressSpace.objects.entries b.addressSpace.objects.entries = some mutated) :
    (∃ heap' cache' s, a.mergeStates opts heap cache b mutated = some (true, heap', cache', s) ∧
      StandsFor a b s mA mB heap') ∨
    a.mergeStates opts heap cache b mutated = none ∧ MutatedReadOnly heap a b := by
  have hboundA := bound_of_holds hA hmA
  have hboundB := bound_of_holds hB hmB
  obtain ⟨hkeys, hmem, hrest⟩ := mutatedObjects_ok hmutated
  generalize hcommon : commonConstraints opts.exprLe a.constraints b.constraints = common
  obtain ⟨hinA, -⟩ := conjunction_ok fun c (hc : c ∈ suffix opts.exprLe a.constraints common) =>
    hA.typed c (mem_suffix.mp hc).1
  obtain ⟨hleft, hright⟩ := conjunction_suffix hA hdisj hcommon.symm
  generalize hin : conjunction (suffix opts.exprLe a.constraints common) = inA at hinA hleft hright
  have hstart : Merging inA heap a.addressSpace b.addressSpace (fun _ => False) ⟨heap, cache, a.addressSpace⟩ :=
    ⟨le_rfl, fun _ => Iff.rfl, fun op hop _ => ⟨hop, rfl⟩, fun _ _ h => h.elim, fun op hop => by
      obtain ⟨os, hos, -, -, hvalid⟩ := hboundB op hop
      exact ⟨os, os, hos, hos, .refl hvalid⟩⟩
  rcases mergeObjects_ok opts.ctx hinA hboundA hboundB (sortedSet opts.objectLe mutated) hstart
    (nodup_sortedSet _ _) (fun _ _ h => h) (fun mo hmo => hmem mo (mem_sortedSet.mp hmo)) with
    ⟨memory, hrun, hmerging⟩ | ⟨hrun, hro⟩
  · obtain ⟨cs, hcs, hsolutions⟩ := mergeConstraints_ok opts.exprLe opts.opts hA hB (s := { a with
      stack := List.zipWith (mergeFrame inA) a.stack b.stack
      addressSpace := memory.addressSpace
      constraints := [] }) rfl hcommon.symm
    have hlen : a.stack.length = b.stack.length := (sameFrames_iff.mp hframes).length_eq
    have hunmutated : ∀ op ∈ a.addressSpace.objects, ¬ (False ∨ op.1 ∈ sortedSet opts.objectLe mutated) →
        op ∈ b.addressSpace.objects := fun op hop hnot =>
      hrest op hop fun hmo => hnot (.inr (mem_sortedSet.mpr hmo))
    refine .inl ⟨memory.heap, memory.arrayCache, { a with
      stack := List.zipWith (mergeFrame inA) a.stack b.stack
      addressSpace := memory.addressSpace
      constraints := cs }, ?_, hsolutions, ?_, fun k fa fb hfa hfb => ?_, fun mo => ⟨?_, ?_⟩,
      fun σ hσ => ?_, fun σ hσ => ?_⟩
    · rw [hin] at hcs
      simp only [mergeStates, hcommon, hin, hrun, some_bind]
      exact (Option.bind_assoc ..).symm.trans (congrArg (Option.bind · _) hcs)
    · simp [hlen]
    · obtain ⟨f, hf, hkf, hcaller, hvalues⟩ := mergeStack_ok hinA hframes hregsA hregsB hfa hfb
      refine ⟨f, hf, hkf, hcaller, fun i hi av hav bv hbv => ?_⟩
      obtain ⟨e, he, heval⟩ := hvalues i hi av hav bv hbv
      exact ⟨e, he, fun σ hσ => (heval σ).1 (hleft σ hσ), fun σ hσ => (heval σ).2 (hright σ hσ)⟩
    · exact hmerging.binds mo
    · refine (hmerging.binds mo).trans ?_
      have hmap : mo ∈ a.addressSpace.objects.entries.map Prod.fst ↔ mo ∈ b.addressSpace.objects.entries.map Prod.fst := by
        rw [hkeys]
      simpa [AddressSpace.Binds, OrderedMap.mem_def] using hmap
    · exact hmerging.holds hboundA hunmutated (.inl ⟨hleft σ hσ, hmA σ hσ⟩)
    · exact hmerging.holds hboundA hunmutated (.inr ⟨hright σ hσ, hmB σ hσ⟩)
  · refine .inr ⟨?_, hro⟩
    simp only [mergeStates, hcommon, hin, hrun, Option.bind_eq_bind, Option.bind_none]

/-- Merging is sound. A state that is not merged is unchanged, and a merged one stands for
both. There is a result unless an object that was mutated is read only. -/
theorem merge_sound (opts : MergeOptions) (cache : ArrayCache) (hA : Feasible a.constraints) (hB : Feasible b.constraints)
    (hdisj : Disjoint (Solutions a.constraints) (Solutions b.constraints))
    (hregsA : RegistersTyped types a) (hregsB : RegistersTyped types b)
    (hmA : ∀ σ ∈ Solutions a.constraints, a.addressSpace.Holds heap σ (mA σ))
    (hmB : ∀ σ ∈ Solutions b.constraints, b.addressSpace.Holds heap σ (mB σ)) :
    (∀ heap' cache' s, a.merge opts heap cache b = some (false, heap', cache', s) → s = a ∧ heap' = heap) ∧
    (∀ heap' cache' s, a.merge opts heap cache b = some (true, heap', cache', s) → StandsFor a b s mA mB heap') ∧
    (¬ MutatedReadOnly heap a b → ∃ merged heap' cache' s,
      a.merge opts heap cache b = some (merged, heap', cache', s)) := by
  rcases merge_cases opts heap cache a b with hrun | ⟨mutated, hframes, hmutated, hrun⟩
  · rw [hrun]
    refine ⟨?_, ?_, fun _ => ⟨_, _, _, _, rfl⟩⟩
    · rintro heap' cache' s ⟨⟩
      exact ⟨rfl, rfl⟩
    · rintro heap' cache' s ⟨⟩
  · rw [hrun]
    rcases mergeStates_ok opts cache hA hB hdisj hregsA hregsB hmA hmB hframes hmutated with
      ⟨heap₁, cache₁, s₁, hrun₁, hstands⟩ | ⟨hrun₁, hro⟩
    · rw [hrun₁]
      refine ⟨?_, ?_, fun _ => ⟨_, _, _, _, rfl⟩⟩
      · rintro heap' cache' s ⟨⟩
      · rintro heap' cache' s ⟨⟩
        exact hstands
    · rw [hrun₁]
      refine ⟨?_, ?_, fun hno => absurd hro hno⟩
      · rintro heap' cache' s ⟨⟩
      · rintro heap' cache' s ⟨⟩

/-- The two sides of a branch, with a register and a byte that differ. -/
theorem merge_sound_branch :
    let x := Expr.read (Array.symbolic 0 "x" 1 (by decide)) .null (constant (APInt.ofNat 32 0))
    let c := binary .ult x (constant (APInt.ofNat 8 10))
    let mo : MemoryObject := ⟨0, 64, 1, 0, by decide, by decide⟩
    let object (v : ℕ) : ObjectState := ⟨1, mo, fun _ => .ofNat 8 v, none, none, none, ⟨none, .null⟩, 1, false⟩
    let state (v : ℕ) (c : Expr) : ExecutionState :=
      ⟨0, 0, [⟨none, ⟨0, 1⟩, fun _ => some (constant (APInt.ofNat 8 v))⟩], ⟨2, OrderedMap.replace {} (mo, v)⟩, [c], 1,
        false, [], []⟩
    let opts : MergeOptions := ⟨⟨true, 64⟩, {}, fun _ _ => true, fun _ _ => true⟩
    ∃ heap cache s, (state 0 c).merge opts [object 0, object 1] {} (state 1 c.createIsZero) =
        some (true, heap, cache, s) ∧
      StandsFor (state 0 c) (state 1 c.createIsZero) s (fun _ _ _ => 0) (fun _ _ _ => 1) heap := by
  intro x c mo object state opts
  have hc : IsConstraint c := by decide
  have hσ : ∀ b : BitVec 8, (fun array i => if array.size ≤ i then 0 else b) ∈ Assignments := fun b array i hi =>
    if_pos hi
  have hA : Feasible (state 0 c).constraints :=
    ⟨List.forall_mem_singleton.mpr hc, _, hσ 0, List.forall_mem_singleton.mpr (by decide)⟩
  have hB : Feasible (state 1 c.createIsZero).constraints :=
    ⟨List.forall_mem_singleton.mpr (createIsZero_isConstraint hc), _, hσ 200, List.forall_mem_singleton.mpr (by decide)⟩
  have hdisj : Disjoint (Solutions (state 0 c).constraints) (Solutions (state 1 c.createIsZero).constraints) :=
    Set.disjoint_left.mpr fun σ hσA hσB => (holds_createIsZero hc).mp (List.forall_mem_singleton.mp hσB.2)
      (List.forall_mem_singleton.mp hσA.2)
  have hregs : ∀ v e, RegistersTyped (fun _ _ => 8) (state v e) := by
    intro v e frame hframe i _ r hr
    obtain rfl := List.mem_singleton.mp hframe
    obtain rfl := Option.some.inj hr
    exact ⟨trivial, rfl⟩
  have hmem : ∀ v e op, op ∈ (state v e).addressSpace.objects → op = (mo, v) := fun v e op hop => by
    rcases OrderedMap.mem_replace.mp hop with ⟨hop, -⟩ | rfl
    · cases hop
    · rfl
  have hholds : ∀ v e, v < 2 → ∀ σ, (state v e).addressSpace.Holds [object 0, object 1] σ fun _ _ => .ofNat 8 v := by
    intro v e hv σ op hop
    obtain rfl := hmem v e op hop
    obtain ⟨hvalid, hr⟩ := ObjectState.valid_of_concrete (object v) rfl rfl rfl mo.size_lt (by simp [object])
      (fun _ hw => by cases hw) fun _ _ hw => by cases hw
    exact ⟨object v, by interval_cases v <;> rfl, rfl, rfl, hvalid, hr σ⟩
  have hmerge : (state 0 c).merge opts [object 0, object 1] {} (state 1 c.createIsZero) =
      (state 0 c).mergeStates opts [object 0, object 1] {} (state 1 c.createIsZero) [mo] := rfl
  obtain ⟨-, hstands, -⟩ := merge_sound opts {} hA hB hdisj (hregs 0 c) (hregs 1 _)
    (fun σ _ => hholds 0 c (by decide) σ) fun σ _ => hholds 1 _ (by decide) σ
  rcases mergeStates_ok opts {} hA hB hdisj (hregs 0 c) (hregs 1 _) (fun σ _ => hholds 0 c (by decide) σ)
    (fun σ _ => hholds 1 _ (by decide) σ) rfl rfl with ⟨heap, cache, s, hrun, -⟩ | ⟨-, p, q, os, mo', hp, -, -, hos, hro⟩
  · exact ⟨heap, cache, s, hmerge.trans hrun, hstands heap cache s (hmerge.trans hrun)⟩
  · obtain ⟨-, rfl⟩ := Prod.mk.inj (hmem 0 c _ hp)
    cases hos
    cases hro

end ExecutionState

end Klee
