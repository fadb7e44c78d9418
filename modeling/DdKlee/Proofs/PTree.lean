import DdKlee.Spec.PTree

/-! The leaves of the process tree after `attach` and `remove`. -/

namespace Klee.PTree

variable {t t' left right : PTree} {path q : Path} {state x y : Option ℕ} {l r : ℕ}

theorem leafAt_null : leafAt null q = none := by cases q <;> rfl

theorem leafAt_nil : leafAt (node state left right) [] = some x ↔ left = null ∧ right = null ∧ state = x := by
  cases left <;> cases right <;> simp [leafAt]

theorem leafAt_cons (b : Bool) : leafAt (node state left right) (b :: q) = leafAt (child left right b) q := by
  cases left <;> cases right <;> rfl

theorem leafAt_leaf {s : ℕ} : leafAt (leaf s) q = some x ↔ q = [] ∧ x = some s := by
  cases q with
  | nil => simp [leaf, leafAt, eq_comm]
  | cons b q => cases b <;> simp [leaf, leafAt_cons, child, leafAt_null]

theorem leafAt_setChild (b b' : Bool) : leafAt (setChild state left right b t) (b' :: q) =
    if b' = b then leafAt t q else leafAt (child left right b') q := by
  cases b <;> cases b' <;> exact leafAt_cons _

theorem setChild_not_leaf (b : Bool) (ht : t ≠ null) : leafAt (setChild state left right b t) [] = none := by
  rw [Option.eq_none_iff_forall_ne_some]
  intro x hx
  cases b with
  | false => exact ht (leafAt_nil.mp hx).1
  | true => exact ht (leafAt_nil.mp hx).2.1

theorem not_leaf_of_child {b : Bool} (h : leafAt (child left right b) path = some x) :
    leafAt (node state left right) [] = none := by
  rw [Option.eq_none_iff_forall_ne_some]
  intro y hy
  obtain ⟨rfl, rfl, -⟩ := leafAt_nil.mp hy
  cases b <;> cases leafAt_null.symm.trans h

theorem attach_ne_null (h : attach l r t path = some t') : t' ≠ null := by
  rintro rfl
  unfold attach at h
  split at h
  · cases h
  · rename_i b _
    obtain ⟨_, -, h⟩ := Option.map_eq_some_iff.mp h
    cases b <;> cases h
  · cases h

theorem attach_nil : attach l r (node state null null) [] = some (node none (leaf l) (leaf r)) := rfl

theorem attach_cons (b : Bool) : attach l r (node state left right) (b :: path) =
    (attach l r (child left right b) path).map (setChild state left right b) := by
  cases left <;> cases right <;> rfl

/-- Two leaves come in the place of the one that was forked. -/
theorem attach_ok (l r : ℕ) (path : Path) : ∀ {t x}, leafAt t path = some x →
    ∃ t', attach l r t path = some t' ∧ ∀ q y, leafAt t' q = some y ↔
      q = path ++ [false] ∧ y = some l ∨ q = path ++ [true] ∧ y = some r ∨ q ≠ path ∧ leafAt t q = some y := by
  induction path with
  | nil =>
    intro t x h
    cases t with
    | null => cases h
    | node state left right =>
      obtain ⟨rfl, rfl, -⟩ := leafAt_nil.mp h
      refine ⟨_, attach_nil, fun q y => ?_⟩
      cases q with
      | nil => simp [leafAt_nil, leaf]
      | cons b q => cases b <;> simp [leafAt_cons, child, leafAt_leaf, leafAt_null]
  | cons b path ih =>
    intro t x h
    cases t with
    | null => cases h
    | node state left right =>
      rw [leafAt_cons] at h
      obtain ⟨t', hrun, hleaves⟩ := ih h
      refine ⟨_, by rw [attach_cons, hrun]; rfl, fun q y => ?_⟩
      cases q with
      | nil => simp [setChild_not_leaf b (attach_ne_null hrun), not_leaf_of_child h]
      | cons b' q =>
        rw [leafAt_setChild, leafAt_cons]
        by_cases hb : b' = b
        · subst hb
          simp [hleaves]
        · simp [hb]

theorem leafAt_cut : leafAt (cut t) q = some y ↔ q ≠ [] ∧ leafAt t q = some y := by
  cases t with
  | null => simp [cut, leafAt_null]
  | node state left right =>
    unfold cut
    split
    · rename_i heq
      cases heq
      cases q with
      | nil => simp [leafAt_null]
      | cons b q => cases b <;> simp [leafAt_null, leafAt_cons, child]
    · rename_i hne
      cases q with
      | nil =>
        rw [leafAt_nil]
        refine ⟨fun ⟨hl, hr, _⟩ => absurd (by rw [hl, hr]) (hne state), fun h => absurd rfl h.1⟩
      | cons b q => simp

theorem prune_cons (b : Bool) : prune (node state left right) (b :: path) =
    (prune (child left right b) path).map fun t => cut (setChild state left right b t) := by
  cases left <;> cases right <;> rfl

theorem prune_ok (path : Path) : ∀ {t x}, leafAt t path = some x →
    ∃ t', prune t path = some t' ∧ ∀ q y, leafAt t' q = some y ↔ q ≠ path ∧ leafAt t q = some y := by
  induction path with
  | nil =>
    intro t x h
    cases t with
    | null => cases h
    | node state left right =>
      obtain ⟨rfl, rfl, -⟩ := leafAt_nil.mp h
      exact ⟨_, rfl, fun q y => leafAt_cut (t := node state null null)⟩
  | cons b path ih =>
    intro t x h
    cases t with
    | null => cases h
    | node state left right =>
      rw [leafAt_cons] at h
      obtain ⟨t', hrun, hleaves⟩ := ih h
      refine ⟨_, by rw [prune_cons, hrun]; rfl, fun q y => ?_⟩
      rw [leafAt_cut]
      cases q with
      | nil => simp [not_leaf_of_child h]
      | cons b' q =>
        rw [leafAt_setChild, leafAt_cons]
        by_cases hb : b' = b
        · subst hb
          simp [hleaves]
        · simp [hb]

theorem remove_cons (b : Bool) : remove (node state left right) (b :: path) =
    (prune (child left right b) path).map (setChild state left right b) := by
  cases left <;> cases right <;> rfl

/-- Below the root one leaf is removed, and nothing becomes one. -/
theorem remove_ok (h : leafAt t path = some x) (hpath : path ≠ []) :
    ∃ t', remove t path = some t' ∧
      ∀ q ≠ [], ∀ y, leafAt t' q = some y ↔ q ≠ path ∧ leafAt t q = some y := by
  cases t with
  | null => cases leafAt_null.symm.trans h
  | node state left right =>
    cases path with
    | nil => exact absurd rfl hpath
    | cons b path =>
      rw [leafAt_cons] at h
      obtain ⟨t', hrun, hleaves⟩ := prune_ok path h
      refine ⟨_, by rw [remove_cons, hrun]; rfl, fun q hq y => ?_⟩
      cases q with
      | nil => exact absurd rfl hq
      | cons b' q =>
        rw [leafAt_setChild, leafAt_cons]
        by_cases hb : b' = b
        · subst hb
          simp [hleaves]
        · simp [hb]

theorem remove_root (h : leafAt t [] = some x) : remove t [] = some t := by
  cases t with
  | null => cases h
  | node state left right =>
    obtain ⟨rfl, rfl, -⟩ := leafAt_nil.mp h
    rfl

theorem remove_keeps (h : leafAt t path = some x) :
    ∃ t', remove t path = some t' ∧ ∀ q ≠ path, ∀ y, leafAt t q = some y → leafAt t' q = some y := by
  by_cases hpath : path = []
  · subst hpath
    exact ⟨t, remove_root h, fun q _ y hq => hq⟩
  · obtain ⟨t', hrun, hleaves⟩ := remove_ok h hpath
    refine ⟨t', hrun, fun q hq y hy => (hleaves q ?_ y).mpr ⟨hq, hy⟩⟩
    rintro rfl
    cases t with
    | null => cases hy
    | node state left right =>
      obtain ⟨b, path, rfl⟩ := List.exists_cons_of_ne_nil hpath
      rw [leafAt_cons] at h
      cases (not_leaf_of_child h).symm.trans hy

def bare : PTree := node none null null

/-- A node has a state if it has no child, and only then. -/
inductive Full : PTree → Prop
  | leaf (i : ℕ) : Full (leaf i)
  | node {left right : PTree} (b : Bool) (hb : child left right b ≠ null)
      (h : ∀ b, child left right b ≠ null → Full (child left right b)) : Full (node none left right)

theorem Full.not_null (h : Full t) : t ≠ null := by
  rintro rfl
  cases h

theorem leafAt_ne_null (h : leafAt t q = some x) : t ≠ null := by
  rintro rfl
  cases leafAt_null.symm.trans h

theorem full_child {b : Bool} (h : Full (node state left right)) (hb : child left right b ≠ null) :
    state = none ∧ ∀ b, child left right b ≠ null → Full (child left right b) := by
  cases h with
  | leaf i => cases b <;> exact absurd rfl hb
  | node b _ h => exact ⟨rfl, h⟩

theorem full_setChild {b : Bool} (h : ∀ b, child left right b ≠ null → Full (child left right b)) (ht : Full t) :
    Full (setChild none left right b t) := by
  cases b with
  | false =>
    refine .node false ht.not_null fun b hb => ?_
    cases b with
    | false => exact ht
    | true => exact h true hb
  | true =>
    refine .node true ht.not_null fun b hb => ?_
    cases b with
    | false => exact h false hb
    | true => exact ht

theorem setChild_null {b : Bool} (h : ∀ b, child left right b ≠ null → Full (child left right b)) :
    setChild none left right b null = bare ∨ Full (setChild none left right b null) := by
  cases b with
  | false =>
    by_cases hr : right = null
    · exact .inl (by rw [hr]; rfl)
    · refine .inr (.node true hr fun b hb => ?_)
      cases b with
      | false => exact absurd rfl hb
      | true => exact h true hb
  | true =>
    by_cases hl : left = null
    · exact .inl (by rw [hl]; rfl)
    · refine .inr (.node false hl fun b hb => ?_)
      cases b with
      | false => exact h false hb
      | true => exact absurd rfl hb

theorem attach_full (l r : ℕ) (path : Path) : ∀ {t t' x}, Full t → leafAt t path = some x →
    attach l r t path = some t' → Full t' := by
  induction path with
  | nil =>
    intro t t' x ht hx h
    cases t with
    | null => cases hx
    | node state left right =>
      obtain ⟨rfl, rfl, -⟩ := leafAt_nil.mp hx
      cases h
      refine .node true (by intro h; cases h) fun b _ => ?_
      cases b with
      | false => exact .leaf l
      | true => exact .leaf r
  | cons b path ih =>
    intro t t' x ht hx h
    cases t with
    | null => cases hx
    | node state left right =>
      rw [leafAt_cons] at hx
      obtain ⟨rfl, hchild⟩ := full_child ht (leafAt_ne_null hx)
      rw [attach_cons] at h
      obtain ⟨t1, hrun, rfl⟩ := Option.map_eq_some_iff.mp h
      exact full_setChild hchild (ih (hchild b (leafAt_ne_null hx)) hx hrun)

theorem cut_of_full (h : Full t) : cut t = null ∨ Full (cut t) := by
  unfold cut
  split
  · exact .inl rfl
  · exact .inr h

theorem prune_full (path : Path) : ∀ {t t' x}, Full t → leafAt t path = some x →
    prune t path = some t' → t' = null ∨ Full t' := by
  induction path with
  | nil =>
    intro t t' x ht hx h
    cases t with
    | null => cases hx
    | node state left right =>
      obtain ⟨rfl, rfl, -⟩ := leafAt_nil.mp hx
      cases h
      exact .inl rfl
  | cons b path ih =>
    intro t t' x ht hx h
    cases t with
    | null => cases hx
    | node state left right =>
      rw [leafAt_cons] at hx
      obtain ⟨rfl, hchild⟩ := full_child ht (leafAt_ne_null hx)
      rw [prune_cons] at h
      obtain ⟨t1, hrun, rfl⟩ := Option.map_eq_some_iff.mp h
      rcases ih (hchild b (leafAt_ne_null hx)) hx hrun with rfl | ht1
      · rcases setChild_null (b := b) hchild with hbare | hfull
        · exact .inl (by rw [hbare]; rfl)
        · exact cut_of_full hfull
      · exact cut_of_full (full_setChild hchild ht1)

theorem remove_full (ht : Full t) (hx : leafAt t path = some x) (hpath : path ≠ []) :
    ∃ t', remove t path = some t' ∧ (t' = bare ∨ Full t') ∧
      ∀ q i, leafAt t' q = some (some i) ↔ q ≠ path ∧ leafAt t q = some (some i) := by
  obtain ⟨t', hrun, hleaves⟩ := remove_ok hx hpath
  obtain ⟨b, path, rfl⟩ := List.exists_cons_of_ne_nil hpath
  cases t with
  | null => cases hx
  | node state left right =>
    rw [leafAt_cons] at hx
    obtain ⟨rfl, hchild⟩ := full_child ht (leafAt_ne_null hx)
    rw [remove_cons] at hrun
    obtain ⟨t1, hprune, rfl⟩ := Option.map_eq_some_iff.mp hrun
    refine ⟨_, by rw [remove_cons, hprune]; rfl, ?_, fun q i => ?_⟩
    · rcases prune_full path (hchild b (leafAt_ne_null hx)) hx hprune with rfl | ht1
      · exact setChild_null hchild
      · exact .inr (full_setChild hchild ht1)
    · by_cases hq : q = []
      · -- the root has no state
        subst hq
        cases b <;> simp [setChild, leafAt_nil]
      · exact hleaves q hq _

theorem eq_leaf_of_root {i : ℕ} (h : leafAt t [] = some (some i)) : t = leaf i := by
  cases t with
  | null => cases h
  | node state left right =>
    obtain ⟨rfl, rfl, rfl⟩ := leafAt_nil.mp h
    rfl

end Klee.PTree
