import DdKlee.Proofs.ReadWrite

/-! `ObjectState` refines the flat byte array: what the operations on flat objects
do under an assignment, the operations on object states do, and the expressions
that they return have the values read. -/

namespace Klee

open Expr

namespace ObjectState

variable {os os' : ObjectState} {σ : Bytes} {bytes : ℕ → BitVec 8}

theorem valid_of_concrete (os : ObjectState) (hmask : os.concreteMask = none) (hflush : os.flushMask = none)
    (hknown : os.knownSymbolics = none) (hsize : os.size < 2 ^ 32)
    (hroot : ∀ r ∈ os.updates.root, r.domain = 32 ∧ r.range = 8)
    (hwrites : ∀ w ∈ writes os.updates.head, ByteWrite w)
    (hin : os.updates.root = none → ∀ w ∈ writes os.updates.head, ∀ c, w.1 = constant c → c.toNat < os.size) :
    os.Valid ∧ ∀ σ, os.Represents σ os.concreteStore := by
  have hconcrete : ∀ i, os.isByteConcrete i = true := fun i => by rw [isByteConcrete, hmask]; rfl
  have hnone : ∀ i, os.knownSymbolic i = none := fun i => by rw [knownSymbolic, hknown]; rfl
  have hunflushed : ∀ i, os.isByteFlushed i = false := fun i => by rw [isByteFlushed, hflush]; rfl
  refine ⟨⟨⟨fun i _ hk => ?_, fun i _ _ => .inl (hconcrete i)⟩, hsize, fun i _ e he => ?_, hroot, hwrites, hin⟩,
    fun σ => ⟨fun _ _ _ => rfl, fun i _ e he => ?_, fun i _ hf => ?_⟩⟩
  · simp [isByteKnownSymbolic, hnone] at hk
  · rw [hnone] at he
    cases he
  · rw [hnone] at he
    cases he
  · exact absurd ((hunflushed i).symm.trans hf) (by decide)

theorem initializeTo_ok (h : os.Valid) (store : ℕ → BitVec 8) :
    Changes os { os.makeConcrete with concreteStore := store } (fun _ => True) fun _ _ => store := by
  obtain ⟨hvalid, hr⟩ := valid_of_concrete { os.makeConcrete with concreteStore := store } rfl rfl rfl
    h.size_lt h.root h.writes h.inRange
  exact ⟨hvalid, rfl, rfl, rfl, rfl, fun σ _ _ _ => hr σ⟩

theorem makeSymbolicByte_ok (os : ObjectState) (i j : ℕ) :
    (os.makeSymbolicByte i).isByteConcrete j = (os.isByteConcrete j && !decide (i = j)) ∧
      (os.makeSymbolicByte i).knownSymbolic j = (if i = j then none else os.knownSymbolic j) ∧
      ((os.isByteFlushed j = true ∨ i = j) → (os.makeSymbolicByte i).isByteFlushed j = true) := by
  refine ⟨isByteConcrete_markByteSymbolic os i j, knownSymbolic_setKnownSymbolic _ i j none, fun hj => ?_⟩
  cases hmask : os.flushMask with
  | none => simp [makeSymbolicByte, isByteFlushed, markByteFlushed, markByteSymbolic, setKnownSymbolic, hmask,
      BitArray.get_ofValue]
  | some mask =>
    refine (isByteFlushed_markByteFlushed ((os.markByteSymbolic i).setKnownSymbolic i none) i j
      (Option.isSome_iff_exists.mpr ⟨mask, hmask⟩)).trans ?_
    rw [Bool.or_eq_true, decide_eq_true_iff]
    exact hj

/-- The loop of `makeSymbolic` after some of its rounds. -/
theorem makeSymbolic_loop (is : List ℕ) : ∀ os : ObjectState, (∀ j, os.knownSymbolic j = none) →
    let os' := is.foldl makeSymbolicByte os
    os'.size = os.size ∧ os'.readOnly = os.readOnly ∧ os'.updates = os.updates ∧
      (∀ j, os'.knownSymbolic j = none) ∧
      ∀ j, os.isByteConcrete j = false ∧ os.isByteFlushed j = true ∨ j ∈ is →
        os'.isByteConcrete j = false ∧ os'.isByteFlushed j = true := by
  induction is with
  | nil => exact fun os hnone => ⟨rfl, rfl, rfl, hnone, fun j hj => hj.resolve_right (by simp)⟩
  | cons i is ih =>
    intro os hnone
    obtain ⟨hsize, hro, hupdates, hnone', hdone⟩ := ih (os.makeSymbolicByte i) fun j => by
      rw [(makeSymbolicByte_ok os i j).2.1, hnone, ite_self]
    refine ⟨hsize, hro, hupdates, hnone', fun j hj => hdone j ?_⟩
    obtain ⟨hconcrete, -, hflushed⟩ := makeSymbolicByte_ok os i j
    rcases hj with ⟨hc, hf⟩ | hj
    · exact .inl ⟨by rw [hconcrete, hc, Bool.false_and], hflushed (.inl hf)⟩
    · rcases List.mem_cons.mp hj with rfl | hj
      · exact .inl ⟨by simp [hconcrete], hflushed (.inr rfl)⟩
      · exact .inr hj

theorem ofArray_ok (mo : MemoryObject) {array : Array} (hdomain : array.domain = 32) (hrange : array.range = 8) :
    (ofArray mo array).Valid ∧ (ofArray mo array).size = mo.size ∧ (ofArray mo array).readOnly = false ∧
      ∀ σ, (ofArray mo array).Represents σ fun i => .ofNat 8 (array.initial σ i).toNat := by
  obtain ⟨hsize, hro, hupdates, hnone, hdone⟩ := makeSymbolic_loop (List.range mo.size)
    ⟨0, mo, fun _ => 0, none, none, none, ⟨some array, .null⟩, mo.size, false⟩ fun _ => rfl
  change (ofArray mo array).size = mo.size at hsize
  change (ofArray mo array).updates = ⟨some array, .null⟩ at hupdates
  change ∀ j, (ofArray mo array).knownSymbolic j = none at hnone
  have hbyte : ∀ i < (ofArray mo array).size, (ofArray mo array).isByteConcrete i = false ∧
      (ofArray mo array).isByteFlushed i = true := fun i hi =>
    hdone i (.inr (List.mem_range.mpr (hsize ▸ hi)))
  refine ⟨⟨⟨fun i _ hk => ?_, fun i hi hf => ?_⟩, hsize ▸ mo.size_lt, fun i _ e he => ?_, fun r hr => ?_,
    fun w hw => ?_, fun hroot => ?_⟩, hsize, hro, fun σ => ⟨fun i hi hc => ?_, fun i _ e he => ?_,
    fun i hi _ root hroot => ?_⟩⟩
  · simp [isByteKnownSymbolic, hnone] at hk
  · exact absurd (hf.symm.trans (hbyte i hi).2) (by decide)
  · rw [hnone] at he
    cases he
  · rw [hupdates] at hr
    cases hr
    exact ⟨hdomain, hrange⟩
  · rw [hupdates] at hw
    cases hw
  · rw [hupdates] at hroot
    cases hroot
  · exact absurd ((hbyte i hi).1.symm.trans hc) (by decide)
  · rw [hnone] at he
    cases he
  · obtain rfl : array = root := hroot.2.2 array (by rw [hupdates]; rfl)
    have hi' : i < 2 ^ 32 := by
      have := mo.size_lt
      omega
    rw [hupdates, UpdateNode.lookup, APInt.toNat_ofNat, Nat.mod_eq_of_lt hi']
    have hw : (array.initial σ i).width = 8 := (array.initial_width σ i).trans hrange
    refine APInt.eq_of_toNat hw ?_
    have hlt := (array.initial σ i).toNat_lt
    rw [hw] at hlt
    exact (Nat.mod_eq_of_lt hlt).symm

theorem createSymbolic_ok (cache : ArrayCache) (name : String) {size : ℕ} (hsize : size < 2 ^ 32) :
    (cache.createSymbolic name size hsize).1.domain = 32 ∧ (cache.createSymbolic name size hsize).1.range = 8 := by
  unfold ArrayCache.createSymbolic
  split
  · rename_i array hfind
    exact cache.isBytes array (List.mem_of_find?_eq_some hfind)
  · exact ⟨rfl, rfl⟩

theorem ofObject_ok (cache : ArrayCache) (useConstantArrays : Bool) (mo : MemoryObject) :
    ∃ os cache', ofObject useConstantArrays cache mo = (os, cache') ∧ os.Valid ∧ os.size = mo.size ∧
      os.readOnly = false ∧ ∀ σ, os.Represents σ fun _ => 0 := by
  have hroot : ∃ root cache', ofObject useConstantArrays cache mo =
      (⟨0, mo, fun _ => 0, none, none, none, ⟨root, .null⟩, mo.size, false⟩, cache') ∧
      ∀ r ∈ root, r.domain = 32 ∧ r.range = 8 := by
    cases useConstantArrays with
    | true => exact ⟨none, cache, rfl, fun _ hr => by cases hr⟩
    | false =>
      refine ⟨_, _, rfl, fun r hr => ?_⟩
      cases hr
      exact createSymbolic_ok cache _ mo.size_lt
  obtain ⟨root, cache', hrun, hbytes⟩ := hroot
  obtain ⟨hvalid, hr⟩ := valid_of_concrete
    ⟨0, mo, fun _ => 0, none, none, none, ⟨root, .null⟩, mo.size, false⟩ rfl rfl rfl mo.size_lt hbytes
    (fun _ hw => by cases hw) fun _ _ hw => by cases hw
  exact ⟨_, cache', hrun, hvalid, rfl, rfl, hr⟩

/-- An object state and the flat object it stands for under an assignment. -/
structure Refines (σ : Bytes) (os : ObjectState) (o : FlatObject) : Prop where
  valid : os.Valid
  writable : os.readOnly = false
  size : os.size = o.size
  represents : os.Represents σ o.bytes

theorem Refines.same {o : FlatObject} (h : Refines σ os o) (hs : SameBytes os os') : Refines σ os' o :=
  ⟨hs.valid, hs.readOnly.trans h.writable, hs.size.trans h.size, hs.represents σ _ h.represents⟩

theorem Refines.changes {o : FlatObject} {bounds : Bytes → Prop} {change : Bytes → (ℕ → BitVec 8) → ℕ → BitVec 8}
    (h : Refines σ os o) (hc : Changes os os' bounds change) (hb : bounds σ) :
    Refines σ os' { o with bytes := change σ o.bytes } :=
  ⟨hc.valid, hc.readOnly.trans h.writable, hc.size.trans h.size, hc.represents σ _ h.represents hb⟩

namespace Objects

def Simulates (σ : Bytes) (s : Objects) (objs : List FlatObject) : Prop := List.Forall₂ (Refines σ) s.objs objs

variable {s : Objects} {objs : List FlatObject} {obj : ℕ} {o : FlatObject} {cache : ArrayCache}

theorem Simulates.get (h : Simulates σ s objs) (ho : objs[obj]? = some o) :
    ∃ os, s.objs[obj]? = some os ∧ Refines σ os o := by
  obtain ⟨hlt, rfl⟩ := List.getElem?_eq_some_iff.mp ho
  have hlt' : obj < s.objs.length := List.Forall₂.length_eq h ▸ hlt
  exact ⟨s.objs[obj], List.getElem?_eq_getElem hlt', (List.forall₂_iff_get.mp h).2 obj hlt' hlt⟩

theorem Simulates.set (h : Simulates σ s objs) (hr : Refines σ os o) :
    Simulates σ ⟨s.objs.set obj os, cache⟩ (objs.set obj o) := by
  refine List.forall₂_iff_get.mpr ⟨by simp [List.Forall₂.length_eq h], fun i hi hi' => ?_⟩
  simp only [List.get_eq_getElem, List.getElem_set]
  split_ifs
  · exact hr
  · exact (List.forall₂_iff_get.mp h).2 i (by simpa using hi) (by simpa using hi')

theorem Simulates.append (h : Simulates σ s objs) (hr : Refines σ os o) :
    Simulates σ ⟨s.objs ++ [os], cache⟩ (objs ++ [o]) :=
  List.rel_append h (.cons hr .nil)

def SameValue (σ : Bytes) (res : Option Expr) (value : Option APInt) : Prop :=
  res.map (Expr.eval σ) = value

theorem Simulates.read (h : Simulates σ s objs) (ho : objs[obj]? = some o)
    {f : ObjectState → ArrayCache → Option (Option Expr × ObjectState × ArrayCache)} {value : APInt}
    (hf : ∀ os, Refines σ os o → ∃ e os' cache', f os s.cache = some (some e, os', cache') ∧ SameBytes os os' ∧
      e.eval σ = value) :
    ∃ res s', s.read obj f = some (res, s') ∧ SameValue σ res (some value) ∧ Simulates σ s' objs := by
  obtain ⟨os, hos, hr⟩ := h.get ho
  obtain ⟨e, os', cache', hrun, hsame, heval⟩ := hf os hr
  refine ⟨some e, ⟨s.objs.set obj os', cache'⟩, ?_, congrArg some heval, ?_⟩
  · simp only [Objects.read, hos, hrun, some_bind]
  · obtain ⟨hlt, rfl⟩ := List.getElem?_eq_some_iff.mp ho
    rw [← List.set_getElem_self hlt]
    exact h.set (hr.same hsame)

theorem Simulates.modify (h : Simulates σ s objs) (ho : objs[obj]? = some o) {f : ObjectState → Option ObjectState}
    {o' : FlatObject} (hf : ∀ os, Refines σ os o → ∃ os', f os = some os' ∧ Refines σ os' o') :
    ∃ res s', s.modify obj f = some (res, s') ∧ SameValue σ res none ∧ Simulates σ s' (objs.set obj o') := by
  obtain ⟨os, hos, hr⟩ := h.get ho
  obtain ⟨os', hrun, hr'⟩ := hf os hr
  refine ⟨none, ⟨s.objs.set obj os', s.cache⟩, ?_, rfl, h.set hr'⟩
  simp only [Objects.modify, hos, hrun, some_bind]

theorem Simulates.copy (h : Simulates σ s objs) (ho : objs[obj]? = some o) :
    ∃ os os', s.objs[obj]? = some os ∧ os.copy = some os' ∧ Refines σ os' o := by
  obtain ⟨os, hos, hr⟩ := h.get ho
  refine ⟨os, { os with copyOnWriteOwner := 0, readOnly := false }, hos, ?_, ?_⟩
  · rw [ObjectState.copy, hr.writable, if_neg (by decide)]
  · exact ⟨⟨⟨hr.valid.known, hr.valid.unflushed⟩, hr.valid.size_lt, hr.valid.known_typed, hr.valid.root,
      hr.valid.writes, hr.valid.inRange⟩, rfl, hr.size, ⟨hr.represents.concrete, hr.represents.known,
      hr.represents.flushed⟩⟩

end Objects

end ObjectState

namespace MemoryOp

/-- The offsets are made by the `create` functions, and the values are well typed. -/
def Ok : MemoryOp → Prop
  | .read _ offset _ => offset.Created
  | .writeAt _ _ value => value.WellTyped
  | .write _ offset value => offset.Created ∧ value.WellTyped
  | _ => True

end MemoryOp

namespace ObjectState.Objects

variable {σ : Bytes} {ctx : Context} {s : Objects} {objs objs' : List FlatObject} {obj : ℕ} {value : Option APInt}

theorem load_cases {offset width : ℕ} (h : FlatMemory.load ctx objs obj offset width = some (value, objs')) :
    ∃ o, objs[obj]? = some o ∧ IsAccessWidth width ∧ o.InBounds offset width ∧
      value = some (o.load ctx offset width) ∧ objs' = objs := by
  unfold FlatMemory.load at h
  simp only [bind_eq_some, Option.ite_none_right_eq_some, Option.some.injEq,
    Prod.mk.injEq] at h
  obtain ⟨o, ho, ⟨hw, hin⟩, rfl, rfl⟩ := h
  exact ⟨o, ho, hw, hin, rfl, rfl⟩

theorem store_cases {offset width v : ℕ} (h : FlatMemory.store ctx objs obj offset width v = some (value, objs')) :
    ∃ o, objs[obj]? = some o ∧ IsAccessWidth width ∧ o.InBounds offset width ∧ value = none ∧
      objs' = objs.set obj (o.store ctx offset width v) := by
  unfold FlatMemory.store at h
  simp only [bind_eq_some, Option.ite_none_right_eq_some, Option.some.injEq,
    Prod.mk.injEq] at h
  obtain ⟨o, ho, ⟨hw, hin⟩, rfl, rfl⟩ := h
  exact ⟨o, ho, hw, hin, rfl, rfl⟩

theorem step_simulates (useConstantArrays : Bool) {op : MemoryOp} (h : Simulates σ s objs) (hok : op.Ok)
    (hstep : FlatMemory.step ctx objs σ op = some (value, objs')) :
    ∃ res s', s.step ctx useConstantArrays op = some (res, s') ∧ SameValue σ res value ∧
      Simulates σ s' objs' := by
  cases op with
  | concrete mo =>
    cases hstep
    obtain ⟨os, cache', hrun, hvalid, hsize, hro, hr⟩ := ofObject_ok s.cache useConstantArrays mo
    exact ⟨none, ⟨s.objs ++ [os], cache'⟩, by simp only [step, hrun], rfl, h.append ⟨hvalid, hro, hsize, hr σ⟩⟩
  | symbolic mo array =>
    simp only [FlatMemory.step, Option.ite_none_right_eq_some, Option.some.injEq, Prod.mk.injEq] at hstep
    obtain ⟨⟨hdomain, hrange⟩, rfl, rfl⟩ := hstep
    obtain ⟨hvalid, hsize, hro, hr⟩ := ofArray_ok mo hdomain hrange
    exact ⟨none, _, rfl, rfl, h.append ⟨hvalid, hro, hsize, hr σ⟩⟩
  | copy obj =>
    simp only [FlatMemory.step, bind_eq_some, Option.some.injEq,
      Prod.mk.injEq] at hstep
    obtain ⟨o, ho, rfl, rfl⟩ := hstep
    obtain ⟨os, os', hos, hcopy, hr⟩ := h.copy ho
    refine ⟨none, ⟨s.objs ++ [os'], s.cache⟩, ?_, rfl, h.append hr⟩
    simp only [step, hos, hcopy, some_bind]
  | initializeToZero obj =>
    simp only [FlatMemory.step, bind_eq_some, Option.some.injEq,
      Prod.mk.injEq] at hstep
    obtain ⟨o, ho, rfl, rfl⟩ := hstep
    exact h.modify ho fun os hr => ⟨_, rfl, hr.changes (initializeTo_ok hr.valid _) trivial⟩
  | initializeToRandom obj =>
    simp only [FlatMemory.step, bind_eq_some, Option.some.injEq,
      Prod.mk.injEq] at hstep
    obtain ⟨o, ho, rfl, rfl⟩ := hstep
    exact h.modify ho fun os hr => ⟨_, rfl, hr.changes (initializeTo_ok hr.valid _) trivial⟩
  | readAt obj offset width =>
    obtain ⟨o, ho, hwidth, hin, rfl, rfl⟩ := load_cases hstep
    dsimp only [step]
    refine h.read ho fun os hr => ?_
    have hin' : offset + numBytes width ≤ os.size := hr.size.symm ▸ hin
    obtain ⟨e, os', cache', hrun, hsame, -, -, heval⟩ := readAt_ok hr.valid ctx s.cache hwidth hin'
    exact ⟨e, os', cache', hrun, hsame, heval σ o.bytes hr.represents⟩
  | read obj offset width =>
    obtain ⟨o, ho, hwidth, hin, rfl, rfl⟩ := load_cases hstep
    dsimp only [step]
    refine h.read ho fun os hr => ?_
    have hin' : (offset.eval σ).toNat + numBytes width ≤ os.size := hr.size.symm ▸ hin
    obtain ⟨e, os', cache', hrun, hsame, -, -, heval⟩ :=
      read_ok hr.valid ctx s.cache hwidth hok.wellTyped hok.folded ⟨σ, hin'⟩
    exact ⟨e, os', cache', hrun, hsame, heval σ o.bytes hr.represents hin'⟩
  | writeAt obj offset v =>
    obtain ⟨o, ho, hwidth, hin, rfl, rfl⟩ := store_cases hstep
    refine h.modify ho fun os hr => ?_
    obtain ⟨os', hrun, hstores⟩ := writeAt_ok hr.valid ctx offset hok hwidth
    exact ⟨os', hrun, hr.changes hstores (hr.size.symm ▸ hin)⟩
  | write obj offset v =>
    obtain ⟨o, ho, hwidth, hin, rfl, rfl⟩ := store_cases hstep
    refine h.modify ho fun os hr => ?_
    obtain ⟨os', hrun, hstores⟩ := write_ok hr.valid ctx hok.1.wellTyped hok.1.folded hok.2 hwidth
    exact ⟨os', hrun, hr.changes hstores (hr.size.symm ▸ hin)⟩

/-- Every run that is in bounds under an assignment is one of the object states.
Its reads return expressions whose values are the bytes written last, and the
cache invariants hold. -/
theorem run_refines (ctx : Context) (useConstantArrays : Bool) (cache : ArrayCache) (ops : List MemoryOp)
    (hok : ∀ op ∈ ops, op.Ok) (σ : Bytes) {values : List (Option APInt)}
    (hrun : Machine.run (fun objs => FlatMemory.step ctx objs σ) [] ops = some (values, objs)) :
    ∃ results s, Machine.run (fun s => step s ctx useConstantArrays) ⟨[], cache⟩ ops = some (results, s) ∧
      List.Forall₂ (SameValue σ) results values ∧ ∀ os ∈ s.objs, os.CacheInv := by
  have hstep : ∀ {s : Objects} {objs : List FlatObject} {op : MemoryOp} {value objs'}, Simulates σ s objs →
      op.Ok → FlatMemory.step ctx objs σ op = some (value, objs') →
      ∃ res s', s.step ctx useConstantArrays op = some (res, s') ∧ SameValue σ res value ∧ Simulates σ s' objs' :=
    step_simulates useConstantArrays
  obtain ⟨results, s, hs, hvalues, hsim⟩ :=
    Machine.run_simulates (fun s => step s ctx useConstantArrays) (fun objs => FlatMemory.step ctx objs σ)
      hstep ops (s := ⟨[], cache⟩) .nil hok hrun
  refine ⟨results, s, hs, hvalues, fun os hos => ?_⟩
  obtain ⟨i, hi, rfl⟩ := List.getElem_of_mem hos
  have hlt : i < objs.length := List.Forall₂.length_eq hsim ▸ hi
  exact ((List.forall₂_iff_get.mp hsim).2 i hi hlt).valid.toCacheInv

/-- A byte written at a symbolic offset, read there and as part of a word. -/
theorem run_refines_symbolic_write :
    let x : Array := .symbolic 0 "x" 1 (by decide)
    let byte := (Operation.read ⟨x, .null⟩ (constant (APInt.ofNat 32 0))).create
    let offset := (Operation.cast .zext byte 32).create
    let ops : List MemoryOp := [.concrete ⟨0, 64, 4, 0, by decide, by decide⟩,
      .write 0 offset (constant (APInt.ofNat 8 7)), .read 0 offset 8, .readAt 0 0 16]
    (∀ op ∈ ops, op.Ok) ∧ ∃ objs,
      Machine.run (fun objs => FlatMemory.step ⟨true, 64⟩ objs fun _ _ => 1) [] ops =
        some ([none, none, some (APInt.ofNat 8 7), some (APInt.ofNat 16 0x0700)], objs) ∧
      ∃ results s, Machine.run (fun s => step s ⟨true, 64⟩ true) ⟨[], {}⟩ ops = some (results, s) ∧
        List.Forall₂ (SameValue fun _ _ => 1) results
          [none, none, some (APInt.ofNat 8 7), some (APInt.ofNat 16 0x0700)] ∧ ∀ os ∈ s.objs, os.CacheInv := by
  intro x byte offset ops
  have hoffset : offset.Created := .create _ (by decide) fun e he => by
    obtain rfl := List.mem_singleton.mp he
    exact .create _ (by decide) fun e he => List.mem_singleton.mp he ▸ .constant _
  have hok : ∀ op ∈ ops, op.Ok := by
    simp only [ops, List.forall_mem_cons, MemoryOp.Ok, List.not_mem_nil, false_implies, implies_true, and_true,
      true_and]
    exact ⟨⟨hoffset, trivial⟩, hoffset⟩
  have hvalues : (Machine.run (fun objs => FlatMemory.step ⟨true, 64⟩ objs fun _ _ => 1) [] ops).map Prod.fst =
      some [none, none, some (APInt.ofNat 8 7), some (APInt.ofNat 16 0x0700)] := by decide +kernel
  obtain ⟨⟨values, objs⟩, hrun, hfst⟩ := Option.map_eq_some_iff.mp hvalues
  obtain rfl : values = _ := hfst
  exact ⟨hok, objs, hrun, run_refines _ _ _ ops hok _ hrun⟩

end ObjectState.Objects

end Klee
