import DdKlee.Spec.FeatureHandler

/-! Every feature marks as many states at the bottom as at the top of its order, and the state
that is chosen has the best score. -/

namespace Klee

namespace Feature

variable {V : Type} [LinearOrder V] {value : ℕ → V} {states : List ℕ} {s t : ℕ}

theorem foldl_insertPair (states : List ℕ) {acc : List (V ×ₗ ℕ)} (hnodup : states.Nodup)
    (hacc : ∀ st ∈ states, toLex (value st, st) ∉ acc) (hsorted : acc.Pairwise (· ≤ ·)) :
    (states.foldl (fun stSet st => insertPair (toLex (value st, st)) stSet) acc).Perm
        (states.map (fun st => toLex (value st, st)) ++ acc) ∧
      (states.foldl (fun stSet st => insertPair (toLex (value st, st)) stSet) acc).Pairwise (· ≤ ·) := by
  induction states generalizing acc with
  | nil => exact ⟨.refl _, hsorted⟩
  | cons st states ih =>
    obtain ⟨hst, hnodup⟩ := List.nodup_cons.mp hnodup
    obtain ⟨hnew, hacc⟩ := List.forall_mem_cons.mp hacc
    have hinsert : insertPair (toLex (value st, st)) acc = acc.orderedInsert (· ≤ ·) (toLex (value st, st)) := if_neg hnew
    rw [List.foldl_cons, hinsert]
    have hperm := List.perm_orderedInsert (· ≤ ·) (toLex (value st, st)) acc
    have hnew' : ∀ st' ∈ states, toLex (value st', st') ∉ acc.orderedInsert (· ≤ ·) (toLex (value st, st)) := by
      intro st' hst' hmem
      rcases List.mem_cons.mp (hperm.mem_iff.mp hmem) with heq | hmem
      · exact hst ((Prod.mk.inj heq).2 ▸ hst')
      · exact hacc st' hst' hmem
    obtain ⟨hp, hs⟩ := ih hnodup hnew' (hsorted.orderedInsert _ _)
    refine ⟨hp.trans ?_, hs⟩
    exact (hperm.append_left _).trans List.perm_middle

theorem valuesOf_perm (value : ℕ → V) (hnodup : states.Nodup) :
    (valuesOf value states).Perm (states.map fun st => toLex (value st, st)) := by
  have h : (valuesOf value states).Perm _ := (foldl_insertPair states hnodup (by simp) .nil).1
  rwa [List.append_nil] at h

def ranking (value : ℕ → V) (states : List ℕ) : List ℕ := (valuesOf value states).map fun p => (ofLex p).2

theorem ranking_perm (value : ℕ → V) (hnodup : states.Nodup) : (ranking value states).Perm states := by
  have h := (valuesOf_perm value hnodup).map fun p => (ofLex p).2
  rw [List.map_map] at h
  exact h.trans (by simp [Function.comp_def])

theorem filter_idxOf_lt {l : List ℕ} (h : l.Nodup) (b : ℕ) : l.filter (fun s => l.idxOf s < b) = l.take b := by
  rw [← congrArg (List.filter _) (List.take_append_drop b l), List.filter_append, List.filter_eq_self.mpr,
    List.filter_eq_nil_iff.mpr, List.append_nil]
  · intro s hs
    obtain ⟨i, hi, rfl⟩ := List.mem_drop_iff_getElem.mp hs
    rw [h.idxOf_getElem]
    simp
  · intro s hs
    obtain ⟨i, hi, rfl⟩ := List.mem_take_iff_getElem.mp hs
    rw [h.idxOf_getElem]
    simp only [decide_eq_true_eq]
    omega

theorem filter_le_idxOf {l : List ℕ} (h : l.Nodup) (b : ℕ) : l.filter (fun s => b ≤ l.idxOf s) = l.drop b := by
  rw [← congrArg (List.filter _) (List.take_append_drop b l), List.filter_append, List.filter_eq_nil_iff.mpr,
    List.filter_eq_self.mpr, List.nil_append]
  · intro s hs
    obtain ⟨i, hi, rfl⟩ := List.mem_drop_iff_getElem.mp hs
    rw [h.idxOf_getElem]
    simp
  · intro s hs
    obtain ⟨i, hi, rfl⟩ := List.mem_take_iff_getElem.mp hs
    rw [h.idxOf_getElem]
    simp only [decide_eq_true_eq]
    omega

def rank (value : ℕ → V) (states : List ℕ) (s : ℕ) : ℕ := (ranking value states).idxOf s

section

variable (hnodup : states.Nodup)

include hnodup

theorem nodup_ranking : (ranking value states).Nodup := (ranking_perm value hnodup).nodup_iff.mpr hnodup

theorem value_le_of_rank_lt (hs : s ∈ states) (ht : t ∈ states) (h : rank value states s < rank value states t) :
    value s ≤ value t := by
  have hsorted : (valuesOf value states).Pairwise (· ≤ ·) := (foldl_insertPair states hnodup (by simp) .nil).2
  have hmem {s} (hs : s ∈ states) : s ∈ ranking value states := (ranking_perm value hnodup).mem_iff.mpr hs
  -- the pair at the place of a state is the one with its value
  have hpair {s} (hs : s ∈ states) (hlt : rank value states s < (valuesOf value states).length) :
      (valuesOf value states)[rank value states s] = toLex (value s, s) := by
    have hget : (ofLex (valuesOf value states)[rank value states s]).2 = s :=
      (List.getElem_map fun p : V ×ₗ ℕ => (ofLex p).2).symm.trans
        (List.getElem_idxOf (List.idxOf_lt_length_of_mem (hmem hs)))
    obtain ⟨st, -, hst⟩ := List.mem_map.mp ((valuesOf_perm value hnodup).mem_iff.mp (List.getElem_mem hlt))
    rw [← hst] at hget ⊢
    obtain rfl : st = s := hget
    rfl
  have hlt {s} (hs : s ∈ states) : rank value states s < (valuesOf value states).length := by
    rw [← List.length_map (fun p : V ×ₗ ℕ => (ofLex p).2)]
    exact List.idxOf_lt_length_of_mem (hmem hs)
  have hle := List.pairwise_iff_getElem.mp hsorted _ _ (hlt hs) (hlt ht) h
  rw [hpair hs, hpair ht, Prod.Lex.toLex_le_toLex] at hle
  rcases hle with hle | ⟨heq, -⟩
  · exact hle.le
  · exact heq.le

theorem length_filter_rank_lt (b : ℕ) (hb : b ≤ states.length) :
    (states.filter fun s => rank value states s < b).length = b := by
  have hperm := ranking_perm value hnodup
  rw [← (hperm.filter _).length_eq]
  have htake : (ranking value states).filter (fun s => rank value states s < b) = (ranking value states).take b :=
    filter_idxOf_lt (nodup_ranking hnodup) b
  rw [htake, List.length_take, hperm.length_eq, min_eq_left hb]

theorem length_filter_le_rank (b : ℕ) :
    (states.filter fun s => b ≤ rank value states s).length = states.length - b := by
  have hperm := ranking_perm value hnodup
  rw [← (hperm.filter _).length_eq]
  have hdrop : (ranking value states).filter (fun s => b ≤ rank value states s) = (ranking value states).drop b :=
    filter_le_idxOf (nodup_ranking hnodup) b
  rw [hdrop, List.length_drop, hperm.length_eq]

end

end Feature

namespace FeatureHandler

open Feature

variable {V : Type} {states : List ℕ} {s t : ℕ} {fvMap : FvMap}

theorem vector_pushBack_self (xs : List ℤ) : vector (pushBack fvMap s xs) s = vector fvMap s ++ xs := by
  have hlookup : (pushBack fvMap s xs).lookup s = some (s, vector fvMap s ++ xs) := OrderedMap.lookup_replace_self
  rw [vector, hlookup]
  rfl

theorem vector_pushBack_ne (xs : List ℤ) (h : t ≠ s) : vector (pushBack fvMap s xs) t = vector fvMap t := by
  have hlookup : (pushBack fvMap s xs).lookup t = fvMap.lookup t := OrderedMap.lookup_replace_ne h
  rw [vector, vector, hlookup]

theorem mem_entries {e : ℕ × List ℤ} (h : e ∈ fvMap.entries) : e = (e.1, vector fvMap e.1) := by
  have hlookup : fvMap.lookup e.1 = some e := OrderedMap.lookup_eq_some h
  rw [vector, hlookup]
  rfl

def Has (fvMap : FvMap) (s : ℕ) : Prop := (s, vector fvMap s) ∈ fvMap.entries

theorem has_pushBack (xs : List ℤ) : Has (pushBack fvMap s xs) t ↔ t = s ∨ Has fvMap t := by
  rw [Has, ← OrderedMap.mem_def, pushBack, OrderedMap.mem_replace, ← pushBack]
  by_cases h : t = s
  · subst h
    rw [vector_pushBack_self]
    simp
  · rw [vector_pushBack_ne xs h]
    simp [h, Has, OrderedMap.mem_def]

section

variable (g : ℕ → List ℤ) (l : List (V ×ₗ ℕ)) (k : ℕ)

theorem has_foldl : Has ((l.zipIdx k).foldl (fun fvMap el => pushBack fvMap (ofLex el.1).2 (g el.2)) fvMap) s ↔
    (s ∈ l.map fun p => (ofLex p).2) ∨ Has fvMap s := by
  induction l generalizing fvMap k with
  | nil => simp
  | cons p l ih =>
    rw [List.zipIdx_cons, List.foldl_cons, ih, has_pushBack, List.map_cons, List.mem_cons, ← or_assoc, or_comm (a := s ∈ _)]

theorem vector_foldl_of_not_mem (h : s ∉ l.map fun p => (ofLex p).2) :
    vector ((l.zipIdx k).foldl (fun fvMap el => pushBack fvMap (ofLex el.1).2 (g el.2)) fvMap) s = vector fvMap s := by
  induction l generalizing fvMap k with
  | nil => rfl
  | cons p l ih =>
    rw [List.map_cons, List.mem_cons, not_or] at h
    rw [List.zipIdx_cons, List.foldl_cons, ih (k + 1) h.2, vector_pushBack_ne _ h.1]

theorem vector_foldl (hnodup : (l.map fun p => (ofLex p).2).Nodup) (h : s ∈ l.map fun p => (ofLex p).2) :
    vector ((l.zipIdx k).foldl (fun fvMap el => pushBack fvMap (ofLex el.1).2 (g el.2)) fvMap) s =
      vector fvMap s ++ g (k + (l.map fun p => (ofLex p).2).idxOf s) := by
  induction l generalizing fvMap k with
  | nil => cases h
  | cons p l ih =>
    rw [List.map_cons, List.nodup_cons] at hnodup
    rw [List.map_cons] at h ⊢
    rw [List.zipIdx_cons, List.foldl_cons]
    by_cases hs : s = (ofLex p).2
    · subst hs
      rw [vector_foldl_of_not_mem g l (k + 1) hnodup.1, vector_pushBack_self, List.idxOf_cons_self, add_zero]
    · rw [ih (k + 1) hnodup.2 ((List.mem_cons.mp h).resolve_left hs), vector_pushBack_ne _ hs,
        List.idxOf_cons_ne _ (Ne.symm hs)]
      congr 2
      omega

end

variable [LinearOrder V]

def marks (value : ℕ → V) (states : List ℕ) (s : ℕ) : List ℤ :=
  entries (groupSize states) (states.length - groupSize states) (rank value states s)

variable {value : Feature → ℕ → V} (hnodup : states.Nodup)

include hnodup

theorem has_extractFeature (f : Feature) : Has (extractFeature (value f) states fvMap) s ↔ s ∈ states ∨ Has fvMap s := by
  rw [extractFeature, has_foldl]
  exact or_congr (ranking_perm (value f) hnodup).mem_iff Iff.rfl

theorem vector_extractFeature (f : Feature) (hs : s ∈ states) :
    vector (extractFeature (value f) states fvMap) s = vector fvMap s ++ marks (value f) states s := by
  rw [extractFeature, vector_foldl _ _ _ (nodup_ranking hnodup) ((ranking_perm (value f) hnodup).mem_iff.mpr hs), zero_add]
  rfl

theorem vector_extractFeatures (hs : s ∈ states) :
    vector (extractFeatures value states) s = features.flatMap fun f => marks (value f) states s := by
  have hfold (fs : List Feature) (fvMap : FvMap) :
      vector (fs.foldl (fun fvMap f => extractFeature (value f) states fvMap) fvMap) s =
        vector fvMap s ++ fs.flatMap fun f => marks (value f) states s := by
    induction fs generalizing fvMap with
    | nil => simp
    | cons f fs ih => rw [List.foldl_cons, ih, vector_extractFeature hnodup f hs, List.flatMap_cons, List.append_assoc]
  exact hfold features {}

theorem has_extractFeatures : Has (extractFeatures value states) s ↔ s ∈ states := by
  have hfold (fs : List Feature) (fvMap : FvMap) (hfs : fs ≠ []) :
      Has (fs.foldl (fun fvMap f => extractFeature (value f) states fvMap) fvMap) s ↔ s ∈ states ∨ Has fvMap s := by
    induction fs generalizing fvMap with
    | nil => exact absurd rfl hfs
    | cons f fs ih =>
      rw [List.foldl_cons]
      cases fs with
      | nil => exact has_extractFeature hnodup f
      | cons f' fs =>
        rw [ih _ (by simp), has_extractFeature hnodup f, ← or_assoc, or_self]
  have h := hfold features {} (by simp [features])
  exact h.trans (or_iff_left (by simp [Has]))

section

omit hnodup

theorem groupSize_eq : groupSize states = states.length / 10 := by
  rw [groupSize, criterion, mul_one_div, Int.floor_toNat]
  have hfloor := Nat.floor_div_eq_div (K := ℚ) states.length 10
  rwa [Nat.cast_ofNat] at hfloor

theorem length_marks (f : Feature) : (marks (value f) states s).length = 2 := by
  unfold marks entries
  split_ifs <;> rfl

theorem getElem_flatMap {g : Feature → List ℤ} (hg : ∀ f, (g f).length = 2) (fs : List Feature) (j : ℕ) {r : ℕ}
    (hr : r < 2) : (fs.flatMap g)[2 * j + r]? = fs[j]?.bind fun f => (g f)[r]? := by
  induction fs generalizing j with
  | nil => simp
  | cons f fs ih =>
    rw [List.flatMap_cons]
    cases j with
    | zero =>
      rw [List.getElem?_append_left (by rw [hg]; omega)]
      simp
    | succ j =>
      rw [List.getElem?_append_right (by rw [hg]; omega), hg, show 2 * (j + 1) + r - 2 = 2 * j + r by omega, ih,
        List.getElem?_cons_succ]

def IsBottom (fvMap : FvMap) (j s : ℕ) : Prop := (vector fvMap s)[2 * j]? = some 1

def IsTop (fvMap : FvMap) (j s : ℕ) : Prop := (vector fvMap s)[2 * j + 1]? = some 1

instance (fvMap : FvMap) (j s : ℕ) : Decidable (IsBottom fvMap j s) := inferInstanceAs (Decidable (_ = _))

instance (fvMap : FvMap) (j s : ℕ) : Decidable (IsTop fvMap j s) := inferInstanceAs (Decidable (_ = _))

end

variable {f : Feature} {j : ℕ} (hf : features[j]? = some f)

include hf

theorem getElem_vector (hs : s ∈ states) {r : ℕ} (hr : r < 2) :
    (vector (extractFeatures value states) s)[2 * j + r]? = (marks (value f) states s)[r]? := by
  rw [vector_extractFeatures hnodup hs, getElem_flatMap (fun f => length_marks f) features j hr, hf]
  rfl

theorem isBottom_iff (hs : s ∈ states) :
    IsBottom (extractFeatures value states) j s ↔ rank (value f) states s < groupSize states := by
  rw [IsBottom, ← add_zero (2 * j), getElem_vector hnodup hf hs Nat.two_pos, marks, entries]
  split_ifs <;> simp_all

theorem isTop_iff (hs : s ∈ states) : IsTop (extractFeatures value states) j s ↔
    states.length - groupSize states ≤ rank (value f) states s := by
  have hgroup : groupSize states = _ := groupSize_eq
  rw [IsTop, getElem_vector hnodup hf hs Nat.one_lt_two, marks, entries]
  split_ifs with hbot htop
  · simp
    omega
  · simp
    omega
  · simp
    omega

omit hf hnodup in
variable (value states) in
/-- A feature marks a tenth of the states at the bottom of its order, and as many at the top. -/
structure Groups (f : Feature) (bottom top : ℕ → Prop) [DecidablePred bottom] [DecidablePred top] : Prop where
  length_bottom : (states.filter (bottom ·)).length = states.length / 10
  length_top : (states.filter (top ·)).length = states.length / 10
  disjoint : ∀ s ∈ states, ¬ (bottom s ∧ top s)
  bottom_le : ∀ s ∈ states, ∀ t ∈ states, bottom s → ¬ bottom t → value f s ≤ value f t
  le_top : ∀ s ∈ states, ∀ t ∈ states, ¬ top s → top t → value f s ≤ value f t

theorem groups : Groups states value f (IsBottom (extractFeatures value states) j)
    (IsTop (extractFeatures value states) j) := by
  have hgroup : groupSize states = _ := groupSize_eq
  have hbottom {s} (hs : s ∈ states) : IsBottom (extractFeatures value states) j s ↔ _ := isBottom_iff hnodup hf hs
  have htop {s} (hs : s ∈ states) : IsTop (extractFeatures value states) j s ↔ _ := isTop_iff hnodup hf hs
  refine ⟨?_, ?_, ?_, ?_, ?_⟩
  · have hlen : (states.filter fun s => rank (value f) states s < groupSize states).length = groupSize states :=
      length_filter_rank_lt hnodup (groupSize states) (by omega)
    rw [← hgroup, ← hlen]
    exact congrArg List.length (List.filter_congr fun s hs => by simp [hbottom hs])
  · have hlen : (states.filter fun s => states.length - groupSize states ≤ rank (value f) states s).length = _ :=
      length_filter_le_rank hnodup (states.length - groupSize states)
    rw [Nat.sub_sub_self (by omega), hgroup] at hlen
    rw [← hlen]
    exact congrArg List.length (List.filter_congr fun s hs => by simp [htop hs, hgroup])
  · intro s hs h
    rw [hbottom hs, htop hs] at h
    omega
  · intro s hs t ht hb hnb
    rw [hbottom hs] at hb
    rw [hbottom ht] at hnb
    exact value_le_of_rank_lt hnodup hs ht (by omega)
  · intro s hs t ht hnt htt
    rw [htop hs] at hnt
    rw [htop ht] at htt
    exact value_le_of_rank_lt hnodup hs ht (by omega)

omit hf hnodup

variable {weights : List ℚ}

theorem foldl_better (weights : List ℚ) (l : List (ℕ × List ℤ)) (top : Option ℕ × ℚ) :
    top.2 ≤ (l.foldl (better weights) top).2 ∧ (∀ e ∈ l, score weights e.2 ≤ (l.foldl (better weights) top).2) ∧
      (l.foldl (better weights) top = top ∨
        ∃ e ∈ l, l.foldl (better weights) top = (some e.1, score weights e.2)) := by
  induction l generalizing top with
  | nil => exact ⟨le_rfl, by simp, .inl rfl⟩
  | cons e l ih =>
    obtain ⟨hle, hall, hcases⟩ := ih (better weights top e)
    have hbetter : top.2 ≤ (better weights top e).2 ∧ score weights e.2 ≤ (better weights top e).2 ∧
        (better weights top e = top ∨ better weights top e = (some e.1, score weights e.2)) := by
      rw [better]
      split_ifs with h
      · exact ⟨h.le, le_rfl, .inr rfl⟩
      · exact ⟨le_rfl, not_lt.mp h, .inl rfl⟩
    obtain ⟨htop, he, heq⟩ := hbetter
    rw [List.foldl_cons]
    refine ⟨htop.trans hle, List.forall_mem_cons.mpr ⟨he.trans hle, hall⟩, ?_⟩
    rcases hcases with hsame | ⟨e', he', hlast⟩
    · rw [hsame]
      exact heq.imp id fun heq => ⟨e, List.mem_cons_self, heq⟩
    · exact .inr ⟨e', List.mem_cons_of_mem _ he', hlast⟩

theorem mem_marks {value : ℕ → V} {x : ℤ} (h : x ∈ marks value states s) : x = 0 ∨ x = 1 := by
  unfold marks entries at h
  split_ifs at h <;> simp at h <;> tauto

theorem le_score (hweights : ∀ w ∈ weights, -10 ≤ w ∧ w ≤ 10) {v : List ℤ} (hv : ∀ x ∈ v, x = 0 ∨ x = 1) :
    -10 * (v.length : ℚ) ≤ score weights v := by
  have hsum (v : List ℤ) (weights : List ℚ) (acc : ℚ) (hv : ∀ x ∈ v, x = 0 ∨ x = 1)
      (hweights : ∀ w ∈ weights, -10 ≤ w ∧ w ≤ 10) :
      acc - 10 * (v.length : ℚ) ≤ (List.zipWith (fun (x : ℤ) (w : ℚ) => x * w) v weights).foldl (· + ·) acc := by
    induction v generalizing weights acc with
    | nil => simp
    | cons x v ih =>
      obtain ⟨hx, hv⟩ := List.forall_mem_cons.mp hv
      cases weights with
      | nil =>
        rw [List.zipWith_nil_right, List.foldl_nil]
        linarith [Nat.cast_nonneg (α := ℚ) (x :: v).length]
      | cons w weights =>
        obtain ⟨hw, hweights⟩ := List.forall_mem_cons.mp hweights
        have hstep := ih weights (acc + x * w) hv hweights
        have hterm : -10 ≤ (x : ℚ) * w := by
          rcases hx with rfl | rfl
          · norm_num
          · rw [Int.cast_one, one_mul]
            exact hw.1
        rw [List.zipWith_cons_cons, List.foldl_cons, List.length_cons, Nat.cast_succ]
        linarith
  have h := hsum v weights 0 hv hweights
  rw [score]
  linarith

theorem length_vector (hnodup : states.Nodup) (hs : s ∈ states) :
    (vector (extractFeatures value states) s).length = 26 := by
  rw [vector_extractFeatures hnodup hs, List.length_flatMap, List.map_congr_left fun f _ => length_marks f]
  rfl

theorem mem_vector (hnodup : states.Nodup) (hs : s ∈ states) {x : ℤ}
    (hx : x ∈ vector (extractFeatures value states) s) : x = 0 ∨ x = 1 := by
  rw [vector_extractFeatures hnodup hs, List.mem_flatMap] at hx
  obtain ⟨f, -, hx⟩ := hx
  exact mem_marks hx

theorem getTop_max (hnodup : states.Nodup) (hweights : ∀ w ∈ weights, -10 ≤ w ∧ w ≤ 10) (hne : states ≠ []) :
    ∃ top ∈ states, getTop weights (extractFeatures value states) = some top ∧
      ∀ s ∈ states, score weights (vector (extractFeatures value states) s) ≤
        score weights (vector (extractFeatures value states) top) := by
  obtain ⟨-, hall, hcases⟩ := foldl_better weights (extractFeatures value states).entries (none, -100000000)
  have hhas {s : ℕ} : Has (extractFeatures value states) s ↔ s ∈ states := has_extractFeatures hnodup
  have hscore {s : ℕ} (hs : s ∈ states) := hall _ (hhas.mpr hs)
  rcases hcases with hnone | ⟨e, he, htop⟩
  · obtain ⟨s, hs⟩ := List.exists_mem_of_ne_nil states hne
    have hlow : _ ≤ score weights (vector (extractFeatures value states) s) :=
      le_score hweights fun x hx => mem_vector hnodup hs hx
    rw [length_vector hnodup hs] at hlow
    have hhigh := hscore hs
    rw [hnone] at hhigh
    norm_num at hlow hhigh
    linarith
  · have hentry := mem_entries he
    rw [hentry] at he
    refine ⟨e.1, hhas.mp he, congrArg Prod.fst htop, fun s hs => ?_⟩
    have hle := hscore hs
    rwa [htop, congrArg Prod.snd hentry] at hle

theorem getTop_extractFeatures (hnodup : states.Nodup) (hlength : weights.length = 26)
    (hweights : ∀ w ∈ weights, -10 ≤ w ∧ w ≤ 10) :
    new weights = some weights ∧
    (∀ s, Has (extractFeatures value states) s ↔ s ∈ states) ∧
    (∀ s ∈ states, (vector (extractFeatures value states) s).length = 26 ∧
      ∀ x ∈ vector (extractFeatures value states) s, x = 0 ∨ x = 1) ∧
    (∀ j f, features[j]? = some f → Groups states value f (IsBottom (extractFeatures value states) j)
      (IsTop (extractFeatures value states) j)) ∧
    (states ≠ [] → ∃ top ∈ states, getTop weights (extractFeatures value states) = some top ∧
      ∀ s ∈ states, score weights (vector (extractFeatures value states) s) ≤
        score weights (vector (extractFeatures value states) top)) := by
  refine ⟨?_, fun s => has_extractFeatures hnodup, fun s hs => ?_, fun j f hf => groups hnodup hf,
    getTop_max hnodup hweights⟩
  · rw [new, hlength]
    rfl
  · exact ⟨length_vector hnodup hs, fun x hx => mem_vector hnodup hs hx⟩

/-- Twelve states, one of which is in each group, and a weight for the top of the first feature. -/
theorem getTop_extractFeatures_twelve :
    ∃ top ∈ List.range 12,
      getTop (0 :: 10 :: List.replicate 24 0) (extractFeatures (fun _ s => s) (List.range 12)) = some top := by
  have hweights : ∀ w ∈ (0 :: 10 :: List.replicate 24 0 : List ℚ), -10 ≤ w ∧ w ≤ 10 := by decide +kernel
  have hnodup : (List.range 12).Nodup := List.nodup_range
  obtain ⟨-, -, -, -, htop⟩ := @getTop_extractFeatures _ _ _ (fun _ s => s) _ hnodup rfl hweights
  obtain ⟨top, hmem, heq, -⟩ := htop (by decide)
  exact ⟨top, hmem, heq⟩

end FeatureHandler

end Klee
