import DdKlee.Spec.MapOfSets

/-! What the searches of a map of sets return was inserted: the value found for a
set is that of the set itself, of a subset or of a superset. -/

namespace Klee.MapOfSets

variable {K V : Type} [LinearOrder K] {p : V → Bool} {v : V}

def Children.Mem (k : K) (n : Node K V) : Children K V → Prop
  | .nil => False
  | .cons key child rest => (k = key ∧ n = child) ∨ rest.Mem k n

def Node.Entry (v : V) : List K → Node K V → Prop
  | [], .mk value _ => value = some v
  | element :: set, .mk _ children => ∃ child, children.Mem element child ∧ child.Entry v set

theorem mem_of_find? {k : K} {n : Node K V} {children : Children K V} (h : children.find? k = some n) :
    children.Mem k n := by
  fun_induction Children.find? k children with
  | case1 => cases h
  | case2 child rest => exact .inl ⟨rfl, (Option.some.inj h).symm⟩
  | case3 key child rest hkey ih => exact .inr (ih h)

theorem mem_set {k k' : K} {n n' : Node K V} {children : Children K V} (h : (children.set k n).Mem k' n') :
    (k' = k ∧ n' = n) ∨ children.Mem k' n' := by
  fun_induction Children.set k n children with
  | case1 => exact h.imp_right False.elim
  | case2 => exact h
  | case3 child rest _ => exact h.imp_right .inr
  | case4 key child rest _ _ ih =>
    rcases h with h | h
    · exact .inr (.inl h)
    · exact (ih h).imp_right .inr

omit [LinearOrder K] in
theorem not_entry_empty (set : List K) : ¬ (Node.empty : Node K V).Entry v set := by
  cases set with
  | nil => exact fun h => by cases h
  | cons element set => exact fun ⟨_, h, _⟩ => h

theorem entry_of_lookup (set : List K) : ∀ {n : Node K V}, n.lookup set = some v → n.Entry v set := by
  induction set with
  | nil => exact fun {n} h => by cases n; exact h
  | cons element set ih =>
    rintro ⟨value, children⟩ h
    obtain ⟨child, hfind, hlookup⟩ := Option.bind_eq_some_iff.mp h
    exact ⟨child, mem_of_find? hfind, ih hlookup⟩

theorem entry_of_insert {v' : V} (set : List K) : ∀ {set' : List K} {n : Node K V},
    (n.insert v set).Entry v' set' → (set' = set ∧ v' = v) ∨ n.Entry v' set' := by
  induction set with
  | nil =>
    rintro set' ⟨value, children⟩ h
    cases set' with
    | nil => exact .inl ⟨rfl, (Option.some.inj h).symm⟩
    | cons element set' => exact .inr h
  | cons element set ih =>
    rintro set' ⟨value, children⟩ h
    cases set' with
    | nil => exact .inr h
    | cons element' set' =>
      obtain ⟨child, hmem, hentry⟩ := h
      rcases mem_set hmem with ⟨rfl, rfl⟩ | hmem
      · rcases ih hentry with ⟨rfl, rfl⟩ | hentry
        · exact .inl ⟨rfl, rfl⟩
        · rcases hfind : children.find? element' with _ | child
          · rw [hfind] at hentry
            exact absurd hentry (not_entry_empty set')
          · rw [hfind] at hentry
            exact .inr ⟨child, mem_of_find? hfind, hentry⟩
      · exact .inr ⟨child, hmem, hentry⟩

theorem any_eq_true {value : Option V} (h : value.any p = true) (hv : value = some v) : p v = true := by
  subst hv
  exact h

mutual

theorem Node.entry_of_findSubset : ∀ (n : Node K V) (set : List K), n.findSubset p set = some v →
    p v = true ∧ ∃ sub, n.Entry v sub ∧ sub ⊆ set
  | .mk value children, set, h => by
    unfold Node.findSubset at h
    split_ifs at h with hany hnil
    · exact ⟨any_eq_true hany h, [], h, List.nil_subset _⟩
    · obtain ⟨hp, element, sub, child, hmem, hentry, hsub⟩ := Children.entry_of_findSubset children set h
      exact ⟨hp, element :: sub, ⟨child, hmem, hentry⟩, hsub⟩

theorem Children.entry_of_findSubset : ∀ (children : Children K V) (set : List K),
    children.findSubset p set = some v →
    p v = true ∧ ∃ element sub child, children.Mem element child ∧ child.Entry v sub ∧ element :: sub ⊆ set
  | .nil, set, h => by cases h
  | .cons key child rest, set, h => by
    unfold Children.findSubset at h
    split at h
    · cases h
    · rename_i it set' hdrop
      have hsuffix : it :: set' ⊆ set := hdrop ▸ (List.dropWhile_suffix _).subset
      -- what the loop finds among the children that follow
      have hrest : ∀ set'' ⊆ it :: set', rest.findSubset p set'' = some v →
          p v = true ∧ ∃ element sub n, (Children.cons key child rest).Mem element n ∧ n.Entry v sub ∧
            element :: sub ⊆ set := by
        intro set'' hset'' h
        obtain ⟨hp, element, sub, n, hmem, hentry, hsub⟩ := Children.entry_of_findSubset rest set'' h
        exact ⟨hp, element, sub, n, .inr hmem, hentry, fun x hx => hsuffix (hset'' (hsub hx))⟩
      by_cases hkey : it = key
      · rw [if_pos hkey] at h
        split at h
        · rename_i res hres
          cases h
          obtain ⟨hp, sub, hentry, hsub⟩ := Node.entry_of_findSubset child set' hres
          refine ⟨hp, key, sub, child, .inl ⟨rfl, rfl⟩, hentry, fun x hx => hsuffix ?_⟩
          exact hkey ▸ List.cons_subset_cons _ hsub hx
        · split_ifs at h
          exact hrest set' (List.subset_cons_self _ _) h
      · rw [if_neg hkey] at h
        exact hrest _ (List.Subset.refl _) h

end

mutual

theorem Node.entry_of_findSuperset : ∀ (n : Node K V) (set : List K), n.findSuperset p set = some v →
    p v = true ∧ ∃ sup, n.Entry v sup ∧ set ⊆ sup
  | .mk value children, [], h => by
    unfold Node.findSuperset at h
    split_ifs at h with hany
    · exact ⟨any_eq_true hany h, [], h, List.nil_subset _⟩
    · obtain ⟨hp, element, sup, child, hmem, hentry, -⟩ := Children.entry_of_findSuperset children [] h
      exact ⟨hp, element :: sup, ⟨child, hmem, hentry⟩, List.nil_subset _⟩
  | .mk value children, element :: set, h => by
    unfold Node.findSuperset at h
    split at h
    · rename_i res hres
      cases h
      obtain ⟨hp, element', sup, child, hmem, hentry, hsub⟩ :=
        Children.entry_of_findSuperset children (element :: set) hres
      exact ⟨hp, element' :: sup, ⟨child, hmem, hentry⟩, fun x hx => List.mem_cons_of_mem _ (hsub hx)⟩
    · obtain ⟨hp, sup, child, hmem, hentry, hsub⟩ := Children.entry_of_findSupersetAt children element set h
      exact ⟨hp, element :: sup, ⟨child, hmem, hentry⟩, List.cons_subset_cons _ hsub⟩

theorem Children.entry_of_findSuperset : ∀ (children : Children K V) (set : List K),
    children.findSuperset p set = some v →
    p v = true ∧ ∃ element sup child, children.Mem element child ∧ child.Entry v sup ∧ set ⊆ sup
  | .nil, set, h => by cases h
  | .cons key child rest, set, h => by
    unfold Children.findSuperset at h
    split at h
    · rename_i res hres
      cases h
      obtain ⟨hp, sup, hentry, hsub⟩ := Node.entry_of_findSuperset child set hres
      exact ⟨hp, key, sup, child, .inl ⟨rfl, rfl⟩, hentry, hsub⟩
    · obtain ⟨hp, element, sup, n, hmem, hrest⟩ := Children.entry_of_findSuperset rest set h
      exact ⟨hp, element, sup, n, .inr hmem, hrest⟩

theorem Children.entry_of_findSupersetAt : ∀ (children : Children K V) (element : K) (set : List K),
    children.findSupersetAt p element set = some v →
    p v = true ∧ ∃ sup child, children.Mem element child ∧ child.Entry v sup ∧ set ⊆ sup
  | .nil, element, set, h => by cases h
  | .cons key child rest, element, set, h => by
    unfold Children.findSupersetAt at h
    split_ifs at h with hlt hkey
    · obtain ⟨hp, sup, n, hmem, hrest⟩ := Children.entry_of_findSupersetAt rest element set h
      exact ⟨hp, sup, n, .inr hmem, hrest⟩
    · obtain ⟨hp, sup, hentry, hsub⟩ := Node.entry_of_findSuperset child set h
      exact ⟨hp, sup, child, .inl ⟨hkey.symm, rfl⟩, hentry, hsub⟩

end

def Bound (m : MapOfSets K V) (set : List K) (v : V) : Prop := m.root.Entry v set

variable {m : MapOfSets K V} {set : Finset K}

theorem bound_of_lookup (h : m.lookup set = some v) : m.Bound set.sort v := entry_of_lookup _ h

theorem bound_of_insert {v' : V} {l : List K} (h : (m.insert set v).Bound l v') :
    (l = set.sort ∧ v' = v) ∨ m.Bound l v' :=
  entry_of_insert _ h

theorem bound_of_findSubset (h : m.findSubset set p = some v) :
    p v = true ∧ ∃ sub, m.Bound sub v ∧ ∀ k ∈ sub, k ∈ set := by
  obtain ⟨hp, sub, hentry, hsub⟩ := Node.entry_of_findSubset _ _ h
  exact ⟨hp, sub, hentry, fun k hk => (Finset.mem_sort _).mp (hsub hk)⟩

theorem bound_of_findSuperset (h : m.findSuperset set p = some v) :
    p v = true ∧ ∃ sup, m.Bound sup v ∧ ∀ k ∈ set, k ∈ sup := by
  obtain ⟨hp, sup, hentry, hsub⟩ := Node.entry_of_findSuperset _ _ h
  exact ⟨hp, sup, hentry, fun k hk => hsub ((Finset.mem_sort _).mpr hk)⟩

omit [LinearOrder K] in
theorem not_bound_empty (set : List K) : ¬ ({} : MapOfSets K V).Bound set v := not_entry_empty set

end Klee.MapOfSets
