import DdKlee.Proofs.FlatMemory
import DdKlee.Proofs.TimingSolver
import DdKlee.Spec.ConcreteStore

/-! What `flushToConcreteStore` puts into the concrete store: values for the bytes
in the cache of known symbolic values, and for no others. -/

namespace Klee

open Expr

theorem ConstantExpr.toMemory_byte (v : BitVec 8) (memory : ℕ → BitVec 8) (address : ℕ) :
    ConstantExpr.toMemory ⟨8, v⟩ memory address = some (Function.update memory address v) := by
  unfold toMemory
  rw [if_pos (by simp)]
  congr 1
  funext i
  by_cases hi : i = address
  · subst hi
    simp [APInt.toNat]
  · rw [Function.update_of_ne hi, if_neg (by simp; omega)]

namespace ObjectState

variable {os : ObjectState} {solver : TimingSolver} {constraints : List Expr} {i : ℕ}

/-- The concrete store has the value that the solver returns for a byte. -/
def HoldsValue (solver : TimingSolver) (constraints : List Expr) (os : ObjectState) (cache : ArrayCache)
    (concreteStore : ℕ → BitVec 8) (i : ℕ) : Prop :=
  ∃ byte os' cache' ce, os.read8 cache i = some (byte, os', cache') ∧ solver.getValue constraints byte = some ce ∧
    ce = ⟨8, concreteStore i⟩

def withStore (os : ObjectState) (concreteStore : ℕ → BitVec 8) : ObjectState :=
  { os with concreteStore := concreteStore }

theorem getValue_byte (hs : solver.Exact constraints) {e : Expr} (ht : e.WellTyped) (hw : e.getWidth = 8) :
    ∃ v : BitVec 8, solver.getValue constraints e = some ⟨8, v⟩ := by
  obtain ⟨ce, hce, σ, -, heval⟩ := TimingSolver.getValue_ok hs ht
  obtain ⟨v, hv⟩ := Expr.exists_bits σ ht hw
  exact ⟨v, by rw [hce, ← heval, hv]⟩

theorem read8_known (h : os.Valid) (hi : i < os.size) {e : Expr} (he : os.knownSymbolic i = some e)
    (concreteStore : ℕ → BitVec 8) (cache : ArrayCache) :
    (os.withStore concreteStore).read8 cache i = some (e, os.withStore concreteStore, cache) := by
  have hknown : os.isByteKnownSymbolic i = true := by rw [isByteKnownSymbolic, he]; rfl
  have hconcrete : (os.withStore concreteStore).isByteConcrete i = false := h.known i hi hknown
  have hcached : (os.withStore concreteStore).cachedValue i = some e := by
    unfold cachedValue
    rw [hconcrete]
    exact he
  rw [read8, hcached]

/-- The loop after some bytes: the known symbolic ones among them have values. -/
theorem flush_loop (h : os.Valid) (hs : solver.Exact constraints) (cache : ArrayCache) (is : List ℕ)
    (his : ∀ i ∈ is, i < os.size) : ∀ concreteStore, ∃ concreteStore',
    is.foldlM (flushByteToConcreteStore solver constraints) (os.withStore concreteStore, cache) =
      some (os.withStore concreteStore', cache) ∧
    ∀ j, (j ∈ is ∧ os.isByteKnownSymbolic j = true → HoldsValue solver constraints os cache concreteStore' j) ∧
      (¬ (j ∈ is ∧ os.isByteKnownSymbolic j = true) → concreteStore' j = concreteStore j) := by
  induction is with
  | nil => exact fun concreteStore => ⟨concreteStore, rfl, by simp⟩
  | cons i is ih =>
    intro concreteStore
    obtain ⟨hi, his⟩ := List.forall_mem_cons.mp his
    rw [List.foldlM_cons]
    cases he : os.knownSymbolic i with
    | none =>
      have hunknown : os.isByteKnownSymbolic i = false := by rw [isByteKnownSymbolic, he]; rfl
      have hstep : flushByteToConcreteStore solver constraints (os.withStore concreteStore, cache) i =
          some (os.withStore concreteStore, cache) := if_neg (ne_true_of_eq_false hunknown)
      obtain ⟨concreteStore', hrun, hstore⟩ := ih his concreteStore
      refine ⟨concreteStore', by rw [hstep]; exact hrun, fun j => ⟨fun hj => ?_, fun hj => ?_⟩⟩
      · obtain ⟨hj, hknown⟩ := hj
        rcases List.mem_cons.mp hj with rfl | hj
        · rw [hunknown] at hknown
          cases hknown
        · exact (hstore j).1 ⟨hj, hknown⟩
      · exact (hstore j).2 fun h => hj ⟨List.mem_cons_of_mem _ h.1, h.2⟩
    | some e =>
      have hknown : os.isByteKnownSymbolic i = true := by rw [isByteKnownSymbolic, he]; rfl
      obtain ⟨ht, hw⟩ := h.known_typed i hi e he
      obtain ⟨v, hv⟩ := getValue_byte hs ht hw
      have hstep : flushByteToConcreteStore solver constraints (os.withStore concreteStore, cache) i =
          some (os.withStore (Function.update concreteStore i v), cache) := by
        refine (if_pos hknown).trans ?_
        rw [read8_known h hi he]
        simp only [some_bind, hv, ConstantExpr.toMemory_byte]
        rfl
      obtain ⟨concreteStore', hrun, hstore⟩ := ih his (Function.update concreteStore i v)
      refine ⟨concreteStore', by rw [hstep]; exact hrun, fun j => ⟨fun hj => ?_, fun hj => ?_⟩⟩
      · obtain ⟨hj, hknown'⟩ := hj
        by_cases hmem : j ∈ is
        · exact (hstore j).1 ⟨hmem, hknown'⟩
        · obtain rfl : j = i := (List.mem_cons.mp hj).resolve_right hmem
          have hvalue := (hstore j).2 fun h => hmem h.1
          rw [Function.update_self] at hvalue
          exact ⟨e, _, _, _, read8_known h hi he os.concreteStore cache, hv, by rw [hvalue]⟩
      · have hne : j ≠ i := by
          rintro rfl
          exact hj ⟨List.mem_cons_self, hknown⟩
        rw [(hstore j).2 fun h => hj ⟨List.mem_cons_of_mem _ h.1, h.2⟩, Function.update_of_ne hne]

/-- A solver that does not fail gives the known symbolic bytes values and leaves
the others as they are. So every byte that is not concrete has the value that the
solver returns for it exactly if those in no cache had it before. -/
theorem flushToConcreteStore_iff (h : os.Valid) (hs : solver.Exact constraints) (cache : ArrayCache) :
    ∃ os', os.flushToConcreteStore solver constraints cache = some (os', cache) ∧
      (∀ i < os.size, os.isByteConcrete i = true → os'.concreteStore i = os.concreteStore i) ∧
      (∀ i < os.size, os.isByteKnownSymbolic i = true →
        HoldsValue solver constraints os cache os'.concreteStore i) ∧
      ((∀ i < os.size, os.isByteConcrete i = false → HoldsValue solver constraints os cache os'.concreteStore i) ↔
        ∀ i < os.size, os.isByteConcrete i = false → os.isByteKnownSymbolic i = false →
          HoldsValue solver constraints os cache os.concreteStore i) := by
  obtain ⟨concreteStore', hrun, hstore⟩ := flush_loop h hs cache (List.range os.size)
    (fun i hi => List.mem_range.mp hi) os.concreteStore
  have hknown : ∀ i < os.size, os.isByteKnownSymbolic i = true →
      HoldsValue solver constraints os cache concreteStore' i := fun i hi hk =>
    (hstore i).1 ⟨List.mem_range.mpr hi, hk⟩
  have hother : ∀ i, os.isByteKnownSymbolic i = false → concreteStore' i = os.concreteStore i := fun i hk =>
    (hstore i).2 fun ⟨_, hk'⟩ => by rw [hk] at hk'; cases hk'
  refine ⟨os.withStore concreteStore', hrun, fun i hi hc => hother i ?_, hknown, ⟨fun hall i hi hc hk => ?_,
    fun hall i hi hc => ?_⟩⟩
  · by_contra hk
    rw [h.known i hi (by simpa using hk)] at hc
    cases hc
  · obtain ⟨byte, os', cache', ce, hread, hvalue, hce⟩ := hall i hi hc
    exact ⟨byte, os', cache', ce, hread, hvalue, by rw [hce, ← hother i hk]; rfl⟩
  · cases hk : os.isByteKnownSymbolic i with
    | true => exact hknown i hi hk
    | false =>
      obtain ⟨byte, os', cache', ce, hread, hvalue, hce⟩ := hall i hi hc hk
      exact ⟨byte, os', cache', ce, hread, hvalue, by rw [hce, ← hother i hk]; rfl⟩

def oneByte : Array := .symbolic 0 "x" 1 Array.one_lt_size

def oneByteRead : Expr := .read oneByte .null (constant (APInt.ofNat 32 0))

def symbolicByte : ObjectState := ofArray ⟨0, 16, 1, 0, MemoryObject.sixteen_lt_address, Array.one_lt_size⟩ oneByte

theorem symbolicByte_valid : symbolicByte.Valid := (ofArray_ok _ rfl rfl).1

/-- A symbolic byte that is written is in the cache, and gets its value. -/
theorem flushToConcreteStore_iff_written : ∃ os os', symbolicByte.write8 0 oneByteRead = some os ∧
    os.flushToConcreteStore ⟨SolverImpl.oracle, true, {}⟩ [] {} = some (os', {}) ∧
    ∀ i < os.size, os.isByteConcrete i = false →
      HoldsValue ⟨SolverImpl.oracle, true, {}⟩ [] os {} os'.concreteStore i := by
  have heval : ∀ σ, oneByteRead.eval σ = ⟨8, σ oneByte 0⟩ := fun _ => rfl
  obtain ⟨os, hwrite, hchanges⟩ := write8_ok symbolicByte_valid 0 (by decide) rfl heval
  have hsolver : (⟨SolverImpl.oracle, true, {}⟩ : TimingSolver).Exact [] :=
    ⟨SolverImpl.oracle_exactOn ⟨fun _ _ => 0, fun _ _ _ => rfl, mem_models_nil _⟩, by simp⟩
  obtain ⟨os', hrun, -, -, hiff⟩ := flushToConcreteStore_iff hchanges.valid hsolver {}
  refine ⟨os, os', hwrite, hrun, hiff.mpr fun i hi _ hunknown => ?_⟩
  cases hwrite
  obtain rfl : i = 0 := Nat.lt_one_iff.mp hi
  exact absurd hunknown (by decide)

def byteIsFive : Expr := .binary .eq (constant (APInt.ofNat 8 5)) oneByteRead

/-- The solver must return 5 for the byte, and the byte of the store is 0 before and
after. -/
theorem flushToConcreteStore_misses : ∃ os' byte os'' cache'',
    symbolicByte.flushToConcreteStore ⟨SolverImpl.oracle, true, {}⟩ [byteIsFive] {} = some (os', {}) ∧
    symbolicByte.isByteConcrete 0 = false ∧ os'.concreteStore 0 = 0 ∧
    symbolicByte.read8 {} 0 = some (byte, os'', cache'') ∧
    (⟨SolverImpl.oracle, true, {}⟩ : TimingSolver).getValue [byteIsFive] byte = some ⟨8, 5#8⟩ := by
  have hread : symbolicByte.read8 {} 0 = some (oneByteRead, symbolicByte, {}) := rfl
  have hfive : ∀ σ, byteIsFive.holds σ ↔ oneByteRead.eval σ = ⟨8, 5#8⟩ := by
    intro σ
    have heval : oneByteRead.eval σ = ⟨8, σ oneByte 0⟩ := rfl
    rw [Expr.holds, byteIsFive, Expr.eval, heval, BinaryKind.apply, APInt.ofBool_inj, Expr.eval, APInt.ofNat,
      APInt.eq_mk, beq_iff_eq, APInt.mk.injEq, heq_eq_eq, and_iff_right rfl, eq_comm]
  have hsolver : (⟨SolverImpl.oracle, true, {}⟩ : TimingSolver).Exact [byteIsFive] := by
    refine ⟨SolverImpl.oracle_exactOn ⟨fun array i => if i < array.size then 5 else 0, fun array i hi => ?_, ?_⟩, ?_⟩
    · exact if_neg (Nat.not_lt.mpr hi)
    · exact fun c hc => List.mem_singleton.mp hc ▸ (hfive _).mpr rfl
    · exact fun c hc => List.mem_singleton.mp hc ▸ (by decide : IsConstraint byteIsFive)
  obtain ⟨ce, hce, σ, hσ, rfl⟩ := TimingSolver.getValue_ok hsolver (e := oneByteRead) (by decide)
  have hvalue := (hfive σ).mp (hσ.2 byteIsFive List.mem_cons_self)
  obtain ⟨concreteStore', hrun, hstore⟩ := flush_loop symbolicByte_valid hsolver {} (List.range 1)
    (fun i hi => List.mem_range.mp hi) symbolicByte.concreteStore
  refine ⟨_, _, _, _, hrun, by decide, ?_, hread, by rw [hce, hvalue]⟩
  exact (hstore 0).2 fun h => absurd h.2 (by decide)

end ObjectState

end Klee
