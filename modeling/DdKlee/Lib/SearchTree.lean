import DdKlee.Lib.EntryMap
import DdKlee.Lib.HeightTree

/-! Sorted trees as finite maps. -/

namespace HeightTree

variable {α K : Type} {lt : K → K → Prop} [DecidableRel lt] {key : α → K} {slack : ℕ} {t l r : HeightTree α} {v x : α}
  {k : K}

section

omit [DecidableRel lt]

variable (lt key) in
def Sorted (t : HeightTree α) : Prop := t.toList.Pairwise fun a b => lt (key a) (key b)

theorem mem_toList_node {a : α} : a ∈ (node l v r).toList ↔ a ∈ l.toList ∨ a = v ∨ a ∈ r.toList := by simp [toList]

theorem sorted_balance : (balance slack l v r).Sorted lt key ↔ (node l v r).Sorted lt key := by
  rw [Sorted, toList_balance]
  rfl

variable [IsStrictWeakOrder K lt]

theorem sorted_node : (node l v r).Sorted lt key ↔
    l.Sorted lt key ∧ r.Sorted lt key ∧ (∀ a ∈ l.toList, lt (key a) (key v)) ∧
      ∀ b ∈ r.toList, lt (key v) (key b) := by
  rw [Sorted, toList, List.pairwise_append, List.pairwise_cons]
  constructor
  · rintro ⟨hl, ⟨hv, hr⟩, hcross⟩
    exact ⟨hl, hr, fun a ha => hcross a ha v List.mem_cons_self, hv⟩
  · rintro ⟨hl, hr, hlt, hgt⟩
    refine ⟨hl, ⟨hgt, hr⟩, fun a ha b hb => ?_⟩
    rcases List.mem_cons.mp hb with rfl | hb
    · exact hlt a ha
    · exact trans_of lt (hlt a ha) (hgt b hb)

theorem Sorted.lt_right (h : (node l v r).Sorted lt key) (hk : ¬ lt (key v) k) {b : α} (hb : b ∈ r.toList) :
    lt k (key b) :=
  lt_of_not_lt_of_lt hk ((sorted_node.mp h).2.2.2 b hb)

theorem Sorted.left_lt (h : (node l v r).Sorted lt key) (hk : ¬ lt k (key v)) {a : α} (ha : a ∈ l.toList) :
    lt (key a) k :=
  lt_of_lt_of_not_lt ((sorted_node.mp h).2.2.1 a ha) hk

theorem Sorted.skip_right (h : (node l v r).Sorted lt key) (hk : lt k (key v)) {b : α} (hb : b = v ∨ b ∈ r.toList) :
    lt k (key b) := by
  rcases hb with rfl | hb
  · exact hk
  · exact h.lt_right (asymm_of lt hk) hb

theorem Sorted.skip_left (h : (node l v r).Sorted lt key) (hk : lt (key v) k) {b : α} (hb : b ∈ l.toList ∨ b = v) :
    lt (key b) k := by
  rcases hb with hb | rfl
  · exact h.left_lt (asymm_of lt hk) hb
  · exact hk

end

section

variable [IsStrictWeakOrder K lt] {a : α}

theorem mem_remove (ht : t.Sorted lt key) :
    a ∈ (t.remove lt key slack k).toList ↔ a ∈ t.toList ∧ ¬ IncompRel lt (key a) k := by
  induction t with
  | leaf => simp [remove, toList]
  | node l v r ihl ihr =>
    simp only [remove]
    split
    · rename_i hk
      have hskip : a = v ∨ a ∈ r.toList → ¬ IncompRel lt (key a) k := fun hb hi => hi.2 (ht.skip_right hk hb)
      rw [toList_balance, List.mem_append, List.mem_cons, ihl (sorted_node.mp ht).1, mem_toList_node, or_and_right,
        and_iff_left_of_imp hskip]
    · split
      · rename_i hk
        have hskip : a ∈ l.toList ∨ a = v → ¬ IncompRel lt (key a) k := fun hb hi => hi.1 (ht.skip_left hk hb)
        rw [toList_balance, List.mem_append, List.mem_cons, ihr (sorted_node.mp ht).2.1, mem_toList_node, ← or_assoc,
          ← or_assoc, or_and_right, and_iff_left_of_imp hskip]
      · rename_i hk hk'
        have hleft : a ∈ l.toList → ¬ IncompRel lt (key a) k := fun hb hi => hi.1 (ht.left_lt hk hb)
        have hright : a ∈ r.toList → ¬ IncompRel lt (key a) k := fun hb hi => hi.2 (ht.lt_right hk' hb)
        have hv : ¬ (a = v ∧ ¬ IncompRel lt (key a) k) := fun h => h.2 (h.1 ▸ ⟨hk', hk⟩)
        rw [toList_removeRoot, List.mem_append, mem_toList_node, or_and_right, or_and_right,
          and_iff_left_of_imp hleft, and_iff_left_of_imp hright, or_iff_right hv]

theorem mem_replace (ht : t.Sorted lt key) :
    a ∈ (t.replace lt key slack x).toList ↔ a ∈ t.toList ∧ ¬ IncompRel lt (key a) (key x) ∨ a = x := by
  induction t with
  | leaf => simp [replace, toList]
  | node l v r ihl ihr =>
    simp only [replace]
    split
    · rename_i hk
      have hskip : a = v ∨ a ∈ r.toList → ¬ IncompRel lt (key a) (key x) := fun hb hi => hi.2 (ht.skip_right hk hb)
      rw [toList_balance, List.mem_append, List.mem_cons, ihl (sorted_node.mp ht).1, mem_toList_node, or_and_right,
        and_iff_left_of_imp hskip, or_right_comm]
    · split
      · rename_i hk
        have hskip : a ∈ l.toList ∨ a = v → ¬ IncompRel lt (key a) (key x) := fun hb hi => hi.1 (ht.skip_left hk hb)
        rw [toList_balance, List.mem_append, List.mem_cons, ihr (sorted_node.mp ht).2.1, mem_toList_node, ← or_assoc,
          ← or_assoc, ← or_assoc, or_and_right, and_iff_left_of_imp hskip]
      · rename_i hk hk'
        have hleft : a ∈ l.toList → ¬ IncompRel lt (key a) (key x) := fun hb hi => hi.1 (ht.left_lt hk hb)
        have hright : a ∈ r.toList → ¬ IncompRel lt (key a) (key x) := fun hb hi => hi.2 (ht.lt_right hk' hb)
        have hv : ¬ (a = v ∧ ¬ IncompRel lt (key a) (key x)) := fun h => h.2 (h.1 ▸ ⟨hk', hk⟩)
        rw [mem_toList_node, mem_toList_node, or_and_right, or_and_right, and_iff_left_of_imp hleft,
          and_iff_left_of_imp hright, or_iff_right hv, or_comm (a := a = x), or_assoc]

theorem sorted_remove (ht : t.Sorted lt key) : (t.remove lt key slack k).Sorted lt key := by
  induction t with
  | leaf => exact ht
  | node l v r ihl ihr =>
    obtain ⟨hl, hr, hlt, hgt⟩ := sorted_node.mp ht
    simp only [remove]
    split
    · rw [sorted_balance, sorted_node]
      exact ⟨ihl hl, hr, fun a ha => hlt a ((mem_remove hl).mp ha).1, hgt⟩
    · split
      · rw [sorted_balance, sorted_node]
        exact ⟨hl, ihr hr, hlt, fun b hb => hgt b ((mem_remove hr).mp hb).1⟩
      · rw [Sorted, toList_removeRoot]
        exact ht.sublist (List.Sublist.append (List.Sublist.refl _) (List.sublist_cons_self v _))

theorem sorted_replace (ht : t.Sorted lt key) : (t.replace lt key slack x).Sorted lt key := by
  induction t with
  | leaf => exact List.pairwise_singleton _ x
  | node l v r ihl ihr =>
    obtain ⟨hl, hr, hlt, hgt⟩ := sorted_node.mp ht
    simp only [replace]
    split
    · rename_i hk
      rw [sorted_balance, sorted_node]
      refine ⟨ihl hl, hr, fun a ha => ?_, hgt⟩
      rcases (mem_replace hl).mp ha with ⟨ha, -⟩ | rfl
      · exact hlt a ha
      · exact hk
    · split
      · rename_i hk
        rw [sorted_balance, sorted_node]
        refine ⟨hl, ihr hr, hlt, fun b hb => ?_⟩
        rcases (mem_replace hr).mp hb with ⟨hb, -⟩ | rfl
        · exact hgt b hb
        · exact hk
      · rename_i hk hk'
        rw [sorted_node]
        exact ⟨hl, hr, fun a ha => ht.left_lt hk ha, fun b hb => ht.lt_right hk' hb⟩

theorem toList_insert (ht : t.Sorted lt key) :
    (∃ b ∈ t.toList, IncompRel lt (key b) (key x)) ∧ (t.insert lt key slack x).toList = t.toList ∨
      (∀ b ∈ t.toList, ¬ IncompRel lt (key b) (key x)) ∧
        (t.insert lt key slack x).toList = (t.replace lt key slack x).toList := by
  induction t with
  | leaf => exact .inr ⟨by simp [toList], rfl⟩
  | node l v r ihl ihr =>
    obtain ⟨hl, hr, -, -⟩ := sorted_node.mp ht
    simp only [insert, replace]
    split
    · rename_i hk
      rw [toList_balance, toList_balance]
      refine (ihl hl).imp ?_ ?_
      · rintro ⟨⟨b, hb, hbx⟩, heq⟩
        exact ⟨⟨b, List.mem_append_left _ hb, hbx⟩, by rw [heq]; rfl⟩
      · rintro ⟨hnone, heq⟩
        refine ⟨fun b hb => ?_, by rw [heq]⟩
        rcases mem_toList_node.mp hb with hb | hb
        · exact hnone b hb
        · exact fun hi => hi.2 (ht.skip_right hk hb)
    · split
      · rename_i hk
        rw [toList_balance, toList_balance]
        refine (ihr hr).imp ?_ ?_
        · rintro ⟨⟨b, hb, hbx⟩, heq⟩
          exact ⟨⟨b, List.mem_append_right _ (List.mem_cons_of_mem _ hb), hbx⟩, by rw [heq]; rfl⟩
        · rintro ⟨hnone, heq⟩
          refine ⟨fun b hb => ?_, by rw [heq]⟩
          rcases or_assoc.mpr (mem_toList_node.mp hb) with hb | hb
          · exact fun hi => hi.1 (ht.skip_left hk hb)
          · exact hnone b hb
      · rename_i hk hk'
        exact .inl ⟨⟨v, List.mem_append_right _ List.mem_cons_self, hk', hk⟩, rfl⟩

/-- The elements of a sorted tree are the entries of a map. -/
structure Denotes (t : HeightTree α) (m : EntryMap lt key) : Prop where
  sorted : t.Sorted lt key
  mem : ∀ a, a ∈ t.toList ↔ a ∈ m

variable {m : EntryMap lt key}

omit [DecidableRel lt] [IsStrictWeakOrder K lt] in
theorem denotes_empty : (leaf : HeightTree α).Denotes (.empty : EntryMap lt key) :=
  ⟨List.Pairwise.nil, fun a => by simp [toList]⟩

theorem Denotes.remove (h : t.Denotes m) : (t.remove lt key slack k).Denotes (m.remove k) :=
  ⟨sorted_remove h.sorted, fun a => by rw [mem_remove h.sorted, h.mem, EntryMap.mem_remove]⟩

theorem Denotes.replace (h : t.Denotes m) : (t.replace lt key slack x).Denotes (m.replace x) :=
  ⟨sorted_replace h.sorted, fun a => by rw [mem_replace h.sorted, h.mem, EntryMap.mem_replace]⟩

theorem Denotes.insert (h : t.Denotes m) : (t.insert lt key slack x).Denotes (m.insert x) := by
  obtain ⟨⟨b, hb, hbx⟩, heq⟩ | ⟨hnone, heq⟩ :
    _ ∧ (t.insert lt key slack x).toList = _ ∨ _ := toList_insert h.sorted
  · have hm : m.insert x = m := if_pos ⟨b, (h.mem b).mp hb, hbx⟩
    rw [hm]
    exact ⟨by rw [Sorted, heq]; exact h.sorted, fun a => by rw [heq, h.mem]⟩
  · have hm : m.insert x = m.replace x := if_neg fun ⟨b, hb, hbx⟩ => hnone b ((h.mem b).mpr hb) hbx
    have hreplace : (t.replace lt key slack x).Denotes (m.replace x) := h.replace
    rw [hm]
    exact ⟨by rw [Sorted, heq]; exact hreplace.sorted, fun a => by rw [heq, hreplace.mem]⟩

omit [DecidableRel lt] in
theorem Denotes.head (h : t.Denotes m) : t.toList.head? = some a ↔ m.IsMin a := by
  have hsome : ∀ b, t.toList.head? = some b → m.IsMin b := by
    intro b hb
    obtain ⟨rest, hrest⟩ := List.head?_eq_some_iff.mp hb
    have hsorted := h.sorted
    rw [Sorted, hrest, List.pairwise_cons] at hsorted
    refine ⟨(h.mem b).mp (hrest ▸ List.mem_cons_self), fun c hc => ?_⟩
    have hc' := (h.mem c).mpr hc
    rw [hrest, List.mem_cons] at hc'
    rcases hc' with rfl | hc'
    · exact irrefl_of lt _
    · exact asymm_of lt (hsorted.1 c hc')
  refine ⟨hsome a, fun ha => ?_⟩
  cases hb : t.toList.head? with
  | none =>
    have hmem := (h.mem a).mpr ha.1
    simp [List.head?_eq_none_iff.mp hb] at hmem
  | some b => rw [(hsome b hb).unique ha]

omit [DecidableRel lt] in
theorem Denotes.last (h : t.Denotes m) : t.toList.getLast? = some a ↔ m.IsMax a := by
  have hsome : ∀ b, t.toList.getLast? = some b → m.IsMax b := by
    intro b hb
    obtain ⟨rest, hrest⟩ := List.getLast?_eq_some_iff.mp hb
    have hsorted := h.sorted
    rw [Sorted, hrest, List.pairwise_append] at hsorted
    refine ⟨(h.mem b).mp (hrest ▸ List.mem_append_right _ (List.mem_singleton_self b)), fun c hc => ?_⟩
    have hc' := (h.mem c).mpr hc
    rw [hrest, List.mem_append, List.mem_singleton] at hc'
    rcases hc' with hc' | rfl
    · exact asymm_of lt (hsorted.2.2 c hc' b (List.mem_singleton_self b))
    · exact irrefl_of lt _
  refine ⟨hsome a, fun ha => ?_⟩
  cases hb : t.toList.getLast? with
  | none =>
    have hmem := (h.mem a).mpr ha.1
    simp [List.getLast?_eq_none_iff.mp hb] at hmem
  | some b => rw [(hsome b hb).unique ha]

omit [DecidableRel lt] in
theorem Denotes.popMin (h : t.Denotes m) {t' : HeightTree α} {a : α} (hpop : t.popMin slack = some (a, t')) :
    m.IsMin a ∧ t'.Denotes m.popMin := by
  have hlist := toList_popMin hpop
  have hsorted := h.sorted
  rw [Sorted, hlist, List.pairwise_cons] at hsorted
  have hmem : ∀ b, b ∈ m ↔ b = a ∨ b ∈ t'.toList := fun b => by rw [← h.mem, hlist, List.mem_cons]
  have hmin : m.IsMin a := h.head.mp (by rw [hlist]; rfl)
  refine ⟨hmin, hsorted.2, fun b => ⟨fun hb => ⟨(hmem b).mpr (.inr hb), fun hb' => ?_⟩, fun hb => ?_⟩⟩
  · exact hb'.2 a hmin.1 (hsorted.1 b hb)
  · exact ((hmem b).mp hb.1).resolve_left fun heq => hb.2 (heq ▸ hmin)

omit [DecidableRel lt] in
theorem Denotes.popMax (h : t.Denotes m) {t' : HeightTree α} {a : α} (hpop : t.popMax slack = some (a, t')) :
    m.IsMax a ∧ t'.Denotes m.popMax := by
  have hlist := toList_popMax hpop
  have hsorted := h.sorted
  rw [Sorted, hlist, List.pairwise_append] at hsorted
  obtain ⟨hsorted, -, hlt⟩ := hsorted
  have hmem : ∀ b, b ∈ m ↔ b ∈ t'.toList ∨ b = a := fun b => by
    rw [← h.mem, hlist, List.mem_append, List.mem_singleton]
  have hmax : m.IsMax a := h.last.mp (by rw [hlist, List.getLast?_concat])
  refine ⟨hmax, hsorted, fun b => ⟨fun hb => ⟨(hmem b).mpr (.inl hb), fun hb' => ?_⟩, fun hb => ?_⟩⟩
  · exact hb'.2 a hmax.1 (hlt b hb a (List.mem_singleton_self a))
  · exact ((hmem b).mp hb.1).resolve_right fun heq => hb.2 (heq ▸ hmax)

omit [DecidableRel lt] in
theorem Denotes.size (h : t.Denotes m) : t.size = m.size := by
  classical
  have hnodup : t.toList.Nodup := by
    refine h.sorted.imp fun {a b} hab heq => ?_
    subst heq
    exact irrefl_of lt _ hab
  have hset : m.entries = (t.toList.toFinset : Set α) := Set.ext fun a => by
    rw [Finset.mem_coe, List.mem_toFinset, h.mem]
    rfl
  rw [size_eq, EntryMap.size, hset, Set.ncard_coe_finset, List.toFinset_card_of_nodup hnodup]

theorem Denotes.lookup (h : t.Denotes m) : t.lookup lt key k = some a ↔ m.IsEntry k a := by
  obtain ⟨hsorted, hmem⟩ := h
  rw [EntryMap.IsEntry, ← hmem]
  clear hmem
  induction t with
  | leaf => simp [HeightTree.lookup, toList]
  | node l v r ihl ihr =>
    simp only [HeightTree.lookup]
    split
    · rename_i hk
      rw [ihl (sorted_node.mp hsorted).1, mem_toList_node, or_and_right, iff_comm, or_iff_left]
      exact fun h => h.2.2 (hsorted.skip_right hk h.1)
    · split
      · rename_i hk
        rw [ihr (sorted_node.mp hsorted).2.1, mem_toList_node, ← or_assoc, or_and_right, iff_comm, or_iff_right]
        exact fun h => h.2.1 (hsorted.skip_left hk h.1)
      · rename_i hk hk'
        rw [Option.some.injEq]
        constructor
        · rintro rfl
          exact ⟨mem_toList_node.mpr (.inr (.inl rfl)), hk', hk⟩
        · rintro ⟨hb, hi⟩
          rcases mem_toList_node.mp hb with hb | hb | hb
          · exact absurd (hsorted.left_lt hk hb) hi.1
          · exact hb.symm
          · exact absurd (hsorted.lt_right hk' hb) hi.2

theorem lookupPrevious_none (ht : t.Sorted lt key) (h : t.lookupPrevious lt key k = none) :
    ∀ b ∈ t.toList, lt k (key b) := by
  induction t with
  | leaf => simp [toList]
  | node l v r ihl ihr =>
    simp only [lookupPrevious] at h
    split at h
    · rename_i hk
      intro b hb
      rcases mem_toList_node.mp hb with hb | hb
      · exact ihl (sorted_node.mp ht).1 h b hb
      · exact ht.skip_right hk hb
    · split at h
      · simp at h
      · cases h

theorem lookupPrevious_some (ht : t.Sorted lt key) (h : t.lookupPrevious lt key k = some a) :
    a ∈ t.toList ∧ ¬ lt k (key a) ∧ ∀ b ∈ t.toList, ¬ lt k (key b) → ¬ lt (key a) (key b) := by
  induction t with
  | leaf => cases h
  | node l v r ihl ihr =>
    obtain ⟨hl, hr, hlt, hgt⟩ := sorted_node.mp ht
    simp only [lookupPrevious] at h
    split at h
    · rename_i hk
      obtain ⟨ha, hka, hmax⟩ := ihl hl h
      refine ⟨mem_toList_node.mpr (.inl ha), hka, fun b hb hkb => ?_⟩
      rcases mem_toList_node.mp hb with hb | hb
      · exact hmax b hb hkb
      · exact absurd (ht.skip_right hk hb) hkb
    · split at h
      · rename_i hk
        rcases Option.or_eq_some_iff.mp h with h | ⟨hnone, h⟩
        · obtain ⟨ha, hka, hmax⟩ := ihr hr h
          refine ⟨mem_toList_node.mpr (.inr (.inr ha)), hka, fun b hb hkb => ?_⟩
          rcases mem_toList_node.mp hb with hb | rfl | hb
          · exact asymm_of lt (trans_of lt (hlt b hb) (hgt a ha))
          · exact asymm_of lt (hgt a ha)
          · exact hmax b hb hkb
        · cases h
          refine ⟨mem_toList_node.mpr (.inr (.inl rfl)), asymm_of lt hk, fun b hb hkb => ?_⟩
          rcases mem_toList_node.mp hb with hb | rfl | hb
          · exact asymm_of lt (hlt b hb)
          · exact irrefl_of lt _
          · exact absurd (lookupPrevious_none hr hnone b hb) hkb
      · rename_i hk hk'
        cases h
        refine ⟨mem_toList_node.mpr (.inr (.inl rfl)), hk, fun b hb hkb hab => ?_⟩
        exact hkb (lt_of_not_lt_of_lt hk' hab)

theorem Denotes.lookupPrevious (h : t.Denotes m) : t.lookupPrevious lt key k = some a ↔ m.IsPrevious k a := by
  have hsome : ∀ b, t.lookupPrevious lt key k = some b → m.IsPrevious k b := by
    intro b hb
    obtain ⟨hmem, hk, hmax⟩ := lookupPrevious_some h.sorted hb
    exact ⟨⟨(h.mem b).mp hmem, hk⟩, fun c hc => hmax c ((h.mem c).mpr hc.1) hc.2⟩
  refine ⟨hsome a, fun ha => ?_⟩
  cases hb : t.lookupPrevious lt key k with
  | none => exact absurd (lookupPrevious_none h.sorted hb a ((h.mem a).mpr ha.1.1)) ha.1.2
  | some b => rw [(hsome b hb).unique ha]

end

end HeightTree
