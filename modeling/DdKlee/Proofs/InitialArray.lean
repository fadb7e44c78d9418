import DdKlee.Spec.InitialArray

/-! The names that `getInitialArray` gives: distinct arrays have distinct ones
unless a number at the end of one name runs into its counter. -/

namespace Klee

def keptName (name : String) (size : ℕ) : List Char := name.toList.take (nameSpace name (Nat.repr size))

theorem toList_uniqueName (name : String) (size : ℕ) :
    (uniqueName name size).toList = keptName name size ++ Nat.toDigits 10 size := by
  simp [uniqueName, keptName]

/-- The counter `j` ends in the counter `i`, and the name before `i` in the digits
that `j` has in front of it. -/
def NamesClash (name : String) (i : ℕ) (name' : String) (j : ℕ) : Prop :=
  ∃ s, s ≠ [] ∧ Nat.toDigits 10 j = s ++ Nat.toDigits 10 i ∧ keptName name i = keptName name' j ++ s

theorem length_toDigits_mono {i j : ℕ} (h : i ≤ j) : (Nat.toDigits 10 i).length ≤ (Nat.toDigits 10 j).length := by
  rw [Nat.length_toDigits_le_iff (by decide) Nat.length_toDigits_pos]
  exact h.trans_lt ((Nat.length_toDigits_le_iff (by decide) Nat.length_toDigits_pos).mp le_rfl)

theorem uniqueName_eq_iff {name name' : String} {i j : ℕ} (h : i < j) :
    uniqueName name i = uniqueName name' j ↔ NamesClash name i name' j := by
  have hdigits : Nat.toDigits 10 i ≠ Nat.toDigits 10 j := by
    intro heq
    have hread := congrArg (Nat.ofDigitChars 10 · 0) heq
    simp only [Nat.ofDigitChars_ten_toDigits] at hread
    omega
  rw [← String.toList_inj, toList_uniqueName, toList_uniqueName, List.append_eq_append_iff]
  constructor
  · rintro (⟨s, -, hs⟩ | ⟨s, hname, hs⟩)
    · -- the counter of the earlier array is not the longer one
      have hlen := length_toDigits_mono h.le
      rw [hs, List.length_append] at hlen
      obtain rfl : s = [] := List.eq_nil_of_length_eq_zero (by omega)
      exact absurd hs hdigits
    · refine ⟨s, ?_, hs, hname⟩
      rintro rfl
      exact hdigits hs.symm
  · rintro ⟨s, -, hs, hname⟩
    exact .inr ⟨s, hname, hs⟩

theorem not_namesClash_of_length {name name' : String} {i j : ℕ}
    (h : (Nat.toDigits 10 j).length ≤ (Nat.toDigits 10 i).length) : ¬ NamesClash name i name' j := by
  rintro ⟨s, hs, hdigits, -⟩
  rw [hdigits, List.length_append] at h
  exact hs (List.eq_nil_of_length_eq_zero (by omega))

/-- What both builders do with an array that is new to them. -/
structure NamesArrays {S : Type} (hash : S → ArrayExprHash) (getInitialArray : S → Array → ArrayTerm × S) : Prop where
  name : ∀ s root, (hash s).lookupArrayExpr root = none →
    (getInitialArray s root).1.name = uniqueName root.name (hash s).length
  hash : ∀ s root, (hash s).lookupArrayExpr root = none →
    ∃ exp, hash (getInitialArray s root).2 = (hash s).hashArrayExpr root exp

theorem lookupArrayExpr_eq_none {hash : ArrayExprHash} {root : Array} :
    hash.lookupArrayExpr root = none ↔ ∀ p ∈ hash, p.1 ≠ root := by
  simp only [ArrayExprHash.lookupArrayExpr, List.lookup_eq_none_iff, bne_iff_ne, ne_comm]

theorem length_hashArrayExpr {hash : ArrayExprHash} {root : Array} (h : hash.lookupArrayExpr root = none)
    (exp : ArrayTerm) : (hash.hashArrayExpr root exp).length = hash.length + 1 := by
  have hfilter : hash.filter (·.1 ≠ root) = hash := by
    rw [List.filter_eq_self]
    exact fun p hp => decide_eq_true (lookupArrayExpr_eq_none.mp h p hp)
  rw [ArrayExprHash.hashArrayExpr, hfilter, List.length_cons]

theorem lookupArrayExpr_hashArrayExpr {hash : ArrayExprHash} {root other : Array} {exp : ArrayTerm} (hne : other ≠ root)
    (h : hash.lookupArrayExpr other = none) : (hash.hashArrayExpr root exp).lookupArrayExpr other = none := by
  rw [lookupArrayExpr_eq_none] at h ⊢
  intro p hp
  rcases List.mem_cons.mp hp with rfl | hp
  · exact hne.symm
  · exact h p (List.mem_filter.mp hp).1

theorem NamesArrays.names {S : Type} {hash : S → ArrayExprHash} {getInitialArray : S → Array → ArrayTerm × S}
    (hcall : NamesArrays hash getInitialArray) (roots : List Array) : ∀ s, roots.Nodup →
    (∀ root ∈ roots, (hash s).lookupArrayExpr root = none) →
    (initialArrays getInitialArray s roots).map ArrayTerm.name =
      (roots.zipIdx (hash s).length).map fun p => uniqueName p.1.name p.2 := by
  induction roots with
  | nil => exact fun _ _ _ => rfl
  | cons root roots ih =>
    intro s hnodup hnew
    obtain ⟨hroot, hnodup⟩ := List.nodup_cons.mp hnodup
    obtain ⟨hnone, hnew⟩ := List.forall_mem_cons.mp hnew
    obtain ⟨exp, hhash⟩ := hcall.hash s root hnone
    have hlen : (hash (getInitialArray s root).2).length = (hash s).length + 1 := by
      rw [hhash, length_hashArrayExpr hnone]
    have hnext : ∀ other ∈ roots, (hash (getInitialArray s root).2).lookupArrayExpr other = none := by
      intro other hmem
      rw [hhash]
      exact lookupArrayExpr_hashArrayExpr (fun h => hroot (h ▸ hmem)) (hnew other hmem)
    rw [initialArrays, List.map_cons, ih _ hnodup hnext, hlen, hcall.name s root hnone, List.zipIdx_cons, List.map_cons]

theorem NamesArrays.nodup_iff {S : Type} {hash : S → ArrayExprHash} {getInitialArray : S → Array → ArrayTerm × S}
    (hcall : NamesArrays hash getInitialArray) {s : S} (hs : hash s = []) {roots : List Array} (h : roots.Nodup) :
    ((initialArrays getInitialArray s roots).map ArrayTerm.name).Nodup ↔
      ∀ i j (hi : i < roots.length) (hj : j < roots.length), i < j → ¬ NamesClash roots[i].name i roots[j].name j := by
  have hnone : ∀ root ∈ roots, (hash s).lookupArrayExpr root = none := by
    intro root _
    rw [hs]
    rfl
  rw [hcall.names roots s h hnone, hs, List.Nodup, List.pairwise_iff_getElem]
  simp only [List.length_map, List.length_zipIdx, List.length_nil, List.getElem_map, List.getElem_zipIdx, Nat.zero_add]
  refine forall_congr' fun i => forall_congr' fun j => forall_congr' fun hi => forall_congr' fun hj =>
    forall_congr' fun hij => ?_
  rw [ne_eq, uniqueName_eq_iff hij]

theorem STPBuilder.flushConstants_name (root : Array) (arrayExpr : ArrayTerm) :
    (flushConstants root arrayExpr).name = arrayExpr.name := by
  unfold flushConstants
  induction root.constantValues.zipIdx generalizing arrayExpr with
  | nil => rfl
  | cons p ps ih => rw [List.foldl_cons, ih, ArrayTerm.name]

theorem STPBuilder.namesArrays : NamesArrays id STPBuilder.getInitialArray where
  name s root h := by
    simp only [id_eq] at h
    simp only [getInitialArray, h]
    split_ifs
    · rw [flushConstants_name]
      rfl
    · rfl
  hash s root h := by
    simp only [id_eq] at h
    simp only [getInitialArray, h]
    exact ⟨_, rfl⟩

theorem Z3Builder.arrHash_assertConstants (b : Z3Builder) (root : Array) (arrayExpr : ArrayTerm) :
    (b.assertConstants root arrayExpr).arrHash = b.arrHash := by
  unfold assertConstants
  split_ifs <;> rfl

theorem Z3Builder.namesArrays : NamesArrays Z3Builder.arrHash Z3Builder.getInitialArray where
  name b root h := by
    simp only [getInitialArray, h]
    rfl
  hash b root h := by
    simp only [getInitialArray, h, arrHash_assertConstants]
    exact ⟨_, rfl⟩

def byteArray (id : ℕ) (name : String) : Array := Array.symbolic id name 1 Array.one_lt_size

end Klee
