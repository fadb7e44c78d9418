import DdKlee.Proofs.MapOfSets

/-! A map of sets has the value that was inserted last for each set. Its searches and its
iterators find each set that they should, once. -/

namespace Klee.MapOfSets

variable {K V : Type} [LinearOrder K] {p : V → Bool} {v : V} {k : K} {n : Node K V} {children : Children K V}
  {set path : List K} {accum : Finset K}

theorem find?_set {k' : K} : (children.set k n).find? k' = if k' = k then some n else children.find? k' := by
  fun_induction Children.set k n children with
  | case1 => simp [Children.find?, eq_comm]
  | case2 key child rest hlt => simp [Children.find?, eq_comm]
  | case3 child rest hlt =>
    by_cases h : k = k'
    · simp [Children.find?, h]
    · simp [Children.find?, h, Ne.symm h]
  | case4 key child rest hlt hne ih =>
    rw [Children.find?, ih, Children.find?]
    by_cases h : key = k'
    · subst h
      simp [hne]
    · simp [h]

theorem lookup_empty : (Node.empty : Node K V).lookup path = none := by cases path <;> rfl

theorem lookup_insert (set : List K) : ∀ {path : List K} {n : Node K V},
    (n.insert v set).lookup path = if path = set then some v else n.lookup path := by
  induction set with
  | nil =>
    rintro path ⟨value, children⟩
    cases path <;> simp [Node.insert, Node.lookup]
  | cons element set ih =>
    rintro path ⟨value, children⟩
    cases path with
    | nil => simp [Node.insert, Node.lookup]
    | cons k path =>
      simp only [Node.insert, Node.lookup, find?_set, List.cons.injEq]
      by_cases hk : k = element
      · subst hk
        simp only [if_true, Option.bind_some, ih, true_and]
        cases hfind : children.find? k with
        | none => simp [lookup_empty]
        | some child => simp
      · simp [hk]

def Children.keys : Children K V → List K
  | .nil => []
  | .cons key _ rest => key :: rest.keys

mutual

/-- Keys get larger on the way down, and a set ends below every node. -/
def Node.Ordered : Node K V → Prop
  | .mk _ children => children.Ordered

def Children.Ordered : Children K V → Prop
  | .nil => True
  | .cons key child rest => (∀ k ∈ rest.keys, key < k) ∧ (∀ k ∈ child.children.keys, key < k) ∧
      (child.value.isSome ∨ child.children ≠ .nil) ∧ child.Ordered ∧ rest.Ordered

end

omit [LinearOrder K] in
theorem mem_keys_of_mem (h : children.Mem k n) : k ∈ children.keys := by
  fun_induction Children.Mem k n children with
  | case1 => cases h
  | case2 key child rest ih =>
    obtain ⟨rfl, -⟩ | h := h
    · exact List.mem_cons_self
    · exact List.mem_cons_of_mem _ (ih h)

theorem Children.Ordered.child (hc : children.Ordered) (h : children.Mem k n) :
    n.Ordered ∧ (∀ k' ∈ n.children.keys, k < k') ∧ (n.value.isSome ∨ n.children ≠ .nil) := by
  fun_induction Children.Mem k n children with
  | case1 => cases h
  | case2 key child rest ih =>
    obtain ⟨-, hchild, hfull, hordered, hrest⟩ := hc
    obtain ⟨rfl, rfl⟩ | h := h
    · exact ⟨hordered, hchild, hfull⟩
    · exact ih hrest h

theorem Children.Ordered.find? (hc : children.Ordered) : children.find? k = some n ↔ children.Mem k n := by
  refine ⟨mem_of_find?, fun h => ?_⟩
  fun_induction Children.Mem k n children with
  | case1 => cases h
  | case2 key child rest ih =>
    obtain ⟨hlt, -, -, -, hrest⟩ := hc
    rw [Children.find?]
    obtain ⟨rfl, rfl⟩ | h := h
    · exact if_pos rfl
    · rw [if_neg (hlt k (mem_keys_of_mem h)).ne]
      exact ih hrest h

theorem keys_set {k' : K} (h : k' ∈ (children.set k n).keys) : k' = k ∨ k' ∈ children.keys := by
  fun_induction Children.set k n children with
  | case1 => exact List.mem_cons.mp h
  | case2 => exact List.mem_cons.mp h
  | case3 child rest hlt => exact .inr h
  | case4 key child rest hlt hne ih =>
    obtain rfl | h := List.mem_cons.mp h
    · exact .inr List.mem_cons_self
    · exact (ih h).imp_right (List.mem_cons_of_mem _)

theorem ordered_set (hc : children.Ordered) (hn : n.Ordered) (hkeys : ∀ k' ∈ n.children.keys, k < k')
    (hfull : n.value.isSome ∨ n.children ≠ .nil) : (children.set k n).Ordered := by
  fun_induction Children.set k n children with
  | case1 => exact ⟨fun _ hk => absurd hk List.not_mem_nil, hkeys, hfull, hn, trivial⟩
  | case2 key child rest hlt =>
    refine ⟨fun k' hk' => ?_, hkeys, hfull, hn, hc⟩
    obtain rfl | hk' := List.mem_cons.mp hk'
    · exact hlt
    · exact hlt.trans (hc.1 k' hk')
  | case3 child rest hlt => exact ⟨hc.1, hkeys, hfull, hn, hc.2.2.2.2⟩
  | case4 key child rest hlt hne ih =>
    obtain ⟨hlts, hchild, hchildFull, hordered, hrest⟩ := hc
    refine ⟨fun k' hk' => ?_, hchild, hchildFull, hordered, ih hrest⟩
    obtain rfl | hk' := keys_set hk'
    · exact lt_of_le_of_ne (not_lt.mp hlt) hne
    · exact hlts k' hk'

theorem set_ne_nil : children.set k n ≠ .nil := by
  fun_cases Children.set k n children <;> nofun

theorem full_insert : ((n.insert v set).value.isSome ∨ (n.insert v set).children ≠ .nil) := by
  obtain ⟨value, children⟩ := n
  cases set with
  | nil => exact .inl rfl
  | cons element set => exact .inr set_ne_nil

theorem keys_insert {k' : K} (h : k' ∈ (n.insert v set).children.keys) : k' ∈ set ∨ k' ∈ n.children.keys := by
  obtain ⟨value, children⟩ := n
  cases set with
  | nil => exact .inr h
  | cons element set =>
    obtain rfl | h := keys_set h
    · exact .inl List.mem_cons_self
    · exact .inr h

theorem ordered_insert (set : List K) : ∀ {n : Node K V}, set.Pairwise (· < ·) → n.Ordered →
    (n.insert v set).Ordered := by
  induction set with
  | nil => exact fun {n} _ hn => by cases n; exact hn
  | cons element set ih =>
    rintro ⟨value, children⟩ hset hc
    obtain ⟨hlt, hset⟩ := List.pairwise_cons.mp hset
    -- the child that the set goes on in, which may be new
    have hchild : ((children.find? element).getD .empty).Ordered ∧
        ∀ k ∈ ((children.find? element).getD .empty).children.keys, element < k := by
      cases hfind : children.find? element with
      | none => exact ⟨trivial, nofun⟩
      | some child =>
        obtain ⟨hordered, hkeys, -⟩ := Children.Ordered.child hc (mem_of_find? hfind)
        exact ⟨hordered, hkeys⟩
    refine ordered_set hc (ih hset hchild.1) (fun k hk => ?_) full_insert
    obtain hk | hk := keys_insert hk
    · exact hlt k hk
    · exact hchild.2 k hk

theorem lookup_nil : n.lookup [] = n.value := by cases n; rfl

theorem lookup_cons : n.lookup (k :: path) = (n.children.find? k).bind (Node.lookup path) := by cases n; rfl

theorem lookup_cons_iff (h : n.Ordered) : n.lookup (k :: path) = some v ↔
    ∃ child, n.children.Mem k child ∧ child.lookup path = some v := by
  obtain ⟨value, children⟩ := n
  rw [lookup_cons, Option.bind_eq_some_iff]
  exact exists_congr fun child => and_congr_left' h.find?

theorem sorted_of_lookup (path : List K) : ∀ {n : Node K V}, n.Ordered → n.lookup path = some v →
    path.Pairwise (· < ·) ∧ ∀ k, (∀ k' ∈ n.children.keys, k < k') → ∀ k' ∈ path, k < k' := by
  induction path with
  | nil => exact fun _ _ => ⟨.nil, fun _ _ => nofun⟩
  | cons element path ih =>
    intro n hn h
    obtain ⟨child, hmem, hlookup⟩ := (lookup_cons_iff hn).mp h
    obtain ⟨value, children⟩ := n
    obtain ⟨hordered, hkeys, -⟩ := Children.Ordered.child hn hmem
    obtain ⟨hsorted, hgt⟩ := ih hordered hlookup
    refine ⟨List.pairwise_cons.mpr ⟨hgt element hkeys, hsorted⟩, fun k hk k' hk' => ?_⟩
    have hlt := hk element (mem_keys_of_mem hmem)
    obtain rfl | hk' := List.mem_cons.mp hk'
    · exact hlt
    · exact hlt.trans (hgt element hkeys k' hk')

def Below (set : List K) (n : Node K V) (accum : Finset K) (e : Finset K × V) (path : List K) : Prop :=
  path.Sublist set ∧ n.lookup path = some e.2 ∧ e.1 = accum ∪ path.toFinset

omit [LinearOrder K] in
theorem mem_own {e : Finset K × V} : e ∈ n.own accum ↔ e.1 = accum ∧ n.value = some e.2 := by
  obtain ⟨T, v⟩ := e
  simp only [Node.own, List.mem_map, Option.mem_toList, Prod.mk.injEq]
  constructor
  · rintro ⟨w, hw, rfl, rfl⟩
    exact ⟨rfl, hw⟩
  · rintro ⟨rfl, hw⟩
    exact ⟨v, hw, rfl, rfl⟩

theorem mem_findSubsets_of_loop {e : Finset K × V}
    (h : e ∈ Children.findSubsets set n.children accum ↔ ∃ path ≠ [], Below set n accum e path) :
    e ∈ n.findSubsets accum set ↔ ∃ path, Below set n accum e path := by
  rw [Node.findSubsets, List.mem_append, h, mem_own]
  constructor
  · rintro (⟨hT, hv⟩ | ⟨path, -, hpath⟩)
    · exact ⟨[], List.nil_sublist _, lookup_nil.trans hv, by simp [hT]⟩
    · exact ⟨path, hpath⟩
  · rintro ⟨path, hpath⟩
    by_cases hnil : path = []
    · subst hnil
      exact .inl ⟨by simpa using hpath.2.2, lookup_nil.symm.trans hpath.2.1⟩
    · exact .inr ⟨path, hnil, hpath⟩

theorem findSubsets_cons {elt : K} : Children.findSubsets (elt :: set) children accum =
    ((children.find? elt).toList.flatMap fun child => child.findSubsets (Insert.insert elt accum) set) ++
      Children.findSubsets set children accum := by
  rw [Children.findSubsets]
  cases children.find? elt <;> simp [Node.findSubsets]

theorem mem_loop (set : List K) : ∀ {n : Node K V} {accum : Finset K} {e : Finset K × V},
    e ∈ Children.findSubsets set n.children accum ↔ ∃ path ≠ [], Below set n accum e path := by
  induction set with
  | nil =>
    intro n accum e
    refine ⟨nofun, ?_⟩
    rintro ⟨path, hne, hsub, -⟩
    exact absurd (List.sublist_nil.mp hsub) hne
  | cons elt set ih =>
    intro n accum e
    rw [findSubsets_cons, List.mem_append, ih]
    -- the sets with the element are below its child
    have hchild : (e ∈ (n.children.find? elt).toList.flatMap fun child => child.findSubsets (Insert.insert elt accum) set) ↔
        ∃ path, path.Sublist set ∧ n.lookup (elt :: path) = some e.2 ∧ e.1 = accum ∪ (elt :: path).toFinset := by
      cases hfind : n.children.find? elt with
      | none => simp [lookup_cons, hfind]
      | some child =>
        rw [Option.toList_some, List.flatMap_singleton]
        refine (mem_findSubsets_of_loop ih).trans (exists_congr fun path => ?_)
        rw [Below, lookup_cons, hfind, Option.bind_some, List.toFinset_cons, Finset.insert_union, Finset.union_insert]
    rw [hchild]
    constructor
    · rintro (⟨path, hsub, hpath⟩ | ⟨path, hne, hsub, hpath⟩)
      · exact ⟨elt :: path, nofun, hsub.cons_cons elt, hpath⟩
      · exact ⟨path, hne, hsub.cons elt, hpath⟩
    · rintro ⟨path, hne, hsub, hpath⟩
      obtain hsub' | ⟨path', rfl, hsub'⟩ := List.sublist_cons_iff.mp hsub
      · exact .inr ⟨path, hne, hsub', hpath⟩
      · exact .inl ⟨path', hsub', hpath⟩

theorem mem_findSubsets {e : Finset K × V} : e ∈ n.findSubsets accum set ↔ ∃ path, Below set n accum e path :=
  mem_findSubsets_of_loop (mem_loop set)

omit [LinearOrder K] in
theorem nodup_own : ((n.own accum).map Prod.fst).Nodup := by
  obtain ⟨value, children⟩ := n
  cases value <;> simp [Node.own, Node.value]

theorem nodup_findSubsets_of_loop (h : ((Children.findSubsets set n.children accum).map Prod.fst).Nodup)
    (hset : ∀ k ∈ set, k ∉ accum) : ((n.findSubsets accum set).map Prod.fst).Nodup := by
  rw [Node.findSubsets, List.map_append]
  refine List.nodup_append'.mpr ⟨nodup_own, h, ?_⟩
  -- what the loop finds has one more element at least
  rintro T hown hloop
  obtain ⟨e, he, rfl⟩ := List.mem_map.mp hown
  obtain ⟨e', he', heq⟩ := List.mem_map.mp hloop
  obtain ⟨path, hne, hsub, -, hT⟩ := (mem_loop set).mp he'
  obtain ⟨k, path, rfl⟩ := List.exists_cons_of_ne_nil hne
  refine hset k (hsub.subset List.mem_cons_self) ?_
  rw [← (mem_own.mp he).1, ← heq, hT]
  simp

omit [LinearOrder K] in
theorem nodup_append_of_mem (key : K) {s s' : List (Finset K × V)} (hs : (s.map Prod.fst).Nodup)
    (hs' : (s'.map Prod.fst).Nodup) (hkey : ∀ e ∈ s, key ∈ e.1) (hrest : ∀ e ∈ s', key ∉ e.1) :
    ((s ++ s').map Prod.fst).Nodup := by
  rw [List.map_append]
  refine List.nodup_append'.mpr ⟨hs, hs', ?_⟩
  rintro T hT hT'
  obtain ⟨e, he, rfl⟩ := List.mem_map.mp hT
  obtain ⟨e', he', heq⟩ := List.mem_map.mp hT'
  exact hrest e' he' (heq ▸ hkey e he)

theorem nodup_loop (set : List K) : ∀ {n : Node K V} {accum : Finset K}, set.Nodup → (∀ k ∈ set, k ∉ accum) →
    ((Children.findSubsets set n.children accum).map Prod.fst).Nodup := by
  induction set with
  | nil => exact fun _ _ => .nil
  | cons elt set ih =>
    intro n accum hnodup hset
    obtain ⟨helt, hnodup⟩ := List.nodup_cons.mp hnodup
    obtain ⟨hacc, hset⟩ := List.forall_mem_cons.mp hset
    have hset' : ∀ k ∈ set, k ∉ Insert.insert elt accum := by
      intro k hk
      rw [Finset.mem_insert, not_or]
      exact ⟨fun heq => helt (heq ▸ hk), hset k hk⟩
    rw [findSubsets_cons]
    refine nodup_append_of_mem elt ?_ (ih hnodup hset) (fun e he => ?_) fun e he => ?_
    · cases n.children.find? elt with
      | none => exact .nil
      | some child =>
        rw [Option.toList_some, List.flatMap_singleton]
        exact nodup_findSubsets_of_loop (ih hnodup hset') hset'
    · obtain ⟨child, -, he⟩ := List.mem_flatMap.mp he
      obtain ⟨path, -, -, hT⟩ := mem_findSubsets.mp he
      rw [hT]
      simp
    · obtain ⟨path, -, hsub, -, hT⟩ := (mem_loop set).mp he
      rw [hT, Finset.mem_union, List.mem_toFinset, not_or]
      exact ⟨hacc, fun hmem => helt (hsub.subset hmem)⟩

def Above (set : List K) (n : Node K V) (accum : Finset K) (e : Finset K × V) (path : List K) : Prop :=
  set.Sublist path ∧ n.lookup path = some e.2 ∧ e.1 = accum ∪ path.toFinset

def AboveChild (set : List K) (children : Children K V) (accum : Finset K) (e : Finset K × V) : Prop :=
  ∃ k child path, children.Mem k child ∧ set.Sublist (k :: path) ∧ child.lookup path = some e.2 ∧
    e.1 = accum ∪ (k :: path).toFinset

theorem aboveChild_cons {key : K} {child : Node K V} {rest : Children K V} {e : Finset K × V} :
    AboveChild set (.cons key child rest) accum e ↔
      (∃ path, set.Sublist (key :: path) ∧ child.lookup path = some e.2 ∧ e.1 = accum ∪ (key :: path).toFinset) ∨
      AboveChild set rest accum e := by
  constructor
  · rintro ⟨k, n, path, ⟨rfl, rfl⟩ | hmem, h⟩
    · exact .inl ⟨path, h⟩
    · exact .inr ⟨k, n, path, hmem, h⟩
  · rintro (⟨path, h⟩ | ⟨k, n, path, hmem, h⟩)
    · exact ⟨key, child, path, .inl ⟨rfl, rfl⟩, h⟩
    · exact ⟨k, n, path, .inr hmem, h⟩

theorem exists_above {value : Option V} (hc : children.Ordered) {e : Finset K × V} :
    (∃ path, Above set (.mk value children) accum e path) ↔
      (set = [] ∧ value = some e.2 ∧ e.1 = accum) ∨ AboveChild set children accum e := by
  constructor
  · rintro ⟨path, hsub, hlookup, hT⟩
    cases path with
    | nil => exact .inl ⟨List.sublist_nil.mp hsub, hlookup, by simpa using hT⟩
    | cons k path =>
      obtain ⟨child, hmem, hlookup⟩ := (lookup_cons_iff (n := .mk value children) hc).mp hlookup
      exact .inr ⟨k, child, path, hmem, hsub, hlookup, hT⟩
  · rintro (⟨rfl, hv, hT⟩ | ⟨k, child, path, hmem, hsub, hlookup, hT⟩)
    · exact ⟨[], List.nil_sublist _, hv, by simpa using hT⟩
    · exact ⟨k :: path, hsub, (lookup_cons_iff (n := .mk value children) hc).mpr ⟨child, hmem, hlookup⟩, hT⟩

theorem not_aboveChild {elt : K} {e : Finset K × V} (hc : children.Ordered) (hkeys : ∀ k ∈ children.keys, elt < k) :
    ¬ AboveChild (elt :: set) children accum e := by
  rintro ⟨k, child, path, hmem, hsub, hlookup, -⟩
  have hlt := hkeys k (mem_keys_of_mem hmem)
  obtain ⟨hordered, hchild, -⟩ := hc.child hmem
  obtain rfl | helt := List.mem_cons.mp (hsub.subset List.mem_cons_self)
  · exact lt_irrefl _ hlt
  · exact lt_asymm hlt ((sorted_of_lookup path hordered hlookup).2 k hchild elt helt)

mutual

theorem Node.mem_findSupersets : ∀ (n : Node K V) (set : List K) {accum : Finset K} {e : Finset K × V}, n.Ordered →
    (e ∈ n.findSupersets accum set ↔ ∃ path, Above set n accum e path)
  | .mk value children, [], accum, e, h => by
    rw [Node.findSupersets, List.mem_append, Children.mem_findSupersets children [] h, exists_above h]
    refine or_congr_left ((mem_own (n := .mk value children)).trans ?_)
    rw [eq_self, true_and, and_comm]
    rfl
  | .mk value children, elt :: set, accum, e, h => by
    rw [Node.findSupersets, Children.mem_findSupersets children (elt :: set) h, exists_above h]
    simp

theorem Children.mem_findSupersets : ∀ (children : Children K V) (set : List K) {accum : Finset K} {e : Finset K × V},
    children.Ordered → (e ∈ children.findSupersets accum set ↔ AboveChild set children accum e)
  | .nil, set, accum, e, h => by
    rw [Children.findSupersets]
    exact ⟨nofun, fun ⟨_, _, _, hmem, _⟩ => hmem.elim⟩
  | .cons key child rest, [], accum, e, ⟨hlt, hkeys, hfull, hchild, hrest⟩ => by
    rw [Children.findSupersets, List.mem_append, Node.mem_findSupersets child [] hchild,
      Children.mem_findSupersets rest [] hrest, aboveChild_cons]
    refine or_congr_left (exists_congr fun path => ?_)
    simp [Above]
  | .cons key child rest, elt :: set, accum, e, ⟨hlt, hkeys, hfull, hchild, hrest⟩ => by
    rw [Children.findSupersets]
    split_ifs with heq hkey
    · rw [List.mem_append, Node.mem_findSupersets child set hchild, Children.mem_findSupersets rest (elt :: set) hrest,
        aboveChild_cons]
      refine or_congr_left (exists_congr fun path => ?_)
      subst heq
      simp [Above]
    · rw [List.mem_append, Node.mem_findSupersets child (elt :: set) hchild,
        Children.mem_findSupersets rest (elt :: set) hrest, aboveChild_cons]
      refine or_congr_left (exists_congr fun path => ?_)
      have hsub : (elt :: set).Sublist (key :: path) ↔ (elt :: set).Sublist path := by
        refine ⟨fun h => ?_, fun h => h.cons key⟩
        obtain h' | ⟨_, h', -⟩ := List.sublist_cons_iff.mp h
        · exact h'
        · exact absurd (List.cons.inj h').1 heq
      simp [Above, hsub]
    · have hless : elt < key := lt_of_le_of_ne (not_lt.mp hkey) heq
      have hc : (Children.cons key child rest).Ordered := ⟨hlt, hkeys, hfull, hchild, hrest⟩
      refine ⟨nofun, fun h => absurd h (not_aboveChild hc fun k hk => ?_)⟩
      obtain rfl | hk := List.mem_cons.mp hk
      · exact hless
      · exact hless.trans (hlt k hk)

end

theorem notMem_of_aboveChild {key : K} {e : Finset K × V} (hc : children.Ordered) (hkeys : ∀ k ∈ children.keys, key < k)
    (hacc : key ∉ accum) (h : AboveChild set children accum e) : key ∉ e.1 := by
  obtain ⟨k, child, path, hmem, -, hlookup, hT⟩ := h
  have hlt := hkeys k (mem_keys_of_mem hmem)
  obtain ⟨hordered, hchild, -⟩ := hc.child hmem
  rw [hT, Finset.mem_union, List.mem_toFinset, List.mem_cons, not_or, not_or]
  refine ⟨hacc, hlt.ne, fun hkey => ?_⟩
  exact lt_asymm hlt ((sorted_of_lookup path hordered hlookup).2 k hchild key hkey)

mutual

theorem Node.nodup_findSupersets : ∀ (n : Node K V) (set : List K) {accum : Finset K}, n.Ordered →
    (∀ a ∈ accum, ∀ k ∈ n.children.keys, a < k) → ((n.findSupersets accum set).map Prod.fst).Nodup
  | .mk value children, [], accum, h, hacc => by
    have hchildren := Children.nodup_findSupersets children [] h hacc
    rw [Node.findSupersets, List.map_append]
    refine List.nodup_append'.mpr ⟨nodup_own (n := .mk value children), hchildren, ?_⟩
    -- the sets of the children have more elements
    rintro T hown hT
    obtain ⟨e, he, rfl⟩ := List.mem_map.mp hown
    obtain ⟨e', he', heq⟩ := List.mem_map.mp hT
    obtain ⟨k, child, path, hmem, -, -, hT⟩ := (Children.mem_findSupersets children [] h).mp he'
    have hk : k ∈ accum := by
      rw [← (mem_own (n := .mk value children).mp he).1, ← heq, hT]
      simp
    exact lt_irrefl k (hacc k hk k (mem_keys_of_mem hmem))
  | .mk value children, elt :: set, accum, h, hacc => by
    rw [Node.findSupersets]
    exact Children.nodup_findSupersets children (elt :: set) h hacc

theorem Children.nodup_findSupersets : ∀ (children : Children K V) (set : List K) {accum : Finset K}, children.Ordered →
    (∀ a ∈ accum, ∀ k ∈ children.keys, a < k) → ((children.findSupersets accum set).map Prod.fst).Nodup
  | .nil, set, accum, h, hacc => by
    rw [Children.findSupersets]
    exact .nil
  | .cons key child rest, set, accum, ⟨hlt, hkeys, hfull, hchild, hrest⟩, hacc => by
    have hkey : key ∉ accum := fun h => lt_irrefl key (hacc key h key List.mem_cons_self)
    have haccChild : ∀ a ∈ Insert.insert key accum, ∀ k ∈ child.children.keys, a < k := by
      intro a ha k hk
      obtain rfl | ha := Finset.mem_insert.mp ha
      · exact hkeys k hk
      · exact (hacc a ha key List.mem_cons_self).trans (hkeys k hk)
    -- each loop round, whatever is left of the set
    have hround : ∀ set set', (((child.findSupersets (Insert.insert key accum) set) ++
        (rest.findSupersets accum set')).map Prod.fst).Nodup := by
      intro set set'
      refine nodup_append_of_mem key (Node.nodup_findSupersets child set hchild haccChild)
        (Children.nodup_findSupersets rest set' hrest fun a ha k hk => hacc a ha k (List.mem_cons_of_mem _ hk)) ?_ ?_
      · intro e he
        obtain ⟨path, -, -, hT⟩ := (Node.mem_findSupersets child set hchild).mp he
        rw [hT]
        simp
      · intro e he
        exact notMem_of_aboveChild hrest hlt hkey ((Children.mem_findSupersets rest set' hrest).mp he)
    cases set with
    | nil =>
      rw [Children.findSupersets]
      exact hround [] []
    | cons elt set =>
      rw [Children.findSupersets]
      split_ifs
      · exact hround set (elt :: set)
      · exact hround (elt :: set) (elt :: set)
      · exact .nil

end

omit [LinearOrder K] in
theorem eq_false_of_any {value : Option V} (h : ¬ value.any p = true) (hv : value = some v) : p v = false := by
  subst hv
  simpa using h

mutual

theorem Node.not_of_findSubset : ∀ (n : Node K V) (set : List K), n.Ordered → set.Pairwise (· < ·) →
    n.findSubset p set = none → ∀ {path v}, path.Sublist set → n.lookup path = some v → p v = false
  | .mk value children, set, h, hset, hnone, path, v, hsub, hlookup => by
    rw [Node.findSubset] at hnone
    split_ifs at hnone with hany hnil
    · rw [hnone] at hany
      cases hany
    · subst hnil
      obtain rfl := List.sublist_nil.mp hsub
      exact eq_false_of_any hany hlookup
    · cases path with
      | nil => exact eq_false_of_any hany hlookup
      | cons k path =>
        obtain ⟨child, hmem, hlookup⟩ := (lookup_cons_iff (n := .mk value children) h).mp hlookup
        exact Children.not_of_findSubset children set h hset hnone hmem hsub hlookup

theorem Children.not_of_findSubset : ∀ (children : Children K V) (set : List K), children.Ordered →
    set.Pairwise (· < ·) → children.findSubset p set = none → ∀ {k child path v}, children.Mem k child →
      (k :: path).Sublist set → child.lookup path = some v → p v = false
  | .nil, set, _, _, _, _, _, _, _, hmem, _, _ => hmem.elim
  | .cons key child rest, set, ⟨hlt, hkeys, hfull, hchild, hrest⟩, hset, hnone, k, n, path, v, hmem, hsub, hlookup => by
    have hge : key ≤ k := by
      obtain ⟨rfl, -⟩ | hmem := hmem
      · exact le_rfl
      · exact (hlt k (mem_keys_of_mem hmem)).le
    -- nothing of the way is in what the loop skips
    replace hsub : (k :: path).Sublist (set.dropWhile (· < key)) := by
      rw [← List.takeWhile_append_dropWhile (p := (· < key)) (l := set)] at hsub
      obtain ⟨l, l', heq, hl, hl'⟩ := List.sublist_append_iff.mp hsub
      cases l with
      | nil => exact heq ▸ hl'
      | cons k' l =>
        obtain ⟨rfl, -⟩ := List.cons.inj heq
        have hk := List.mem_takeWhile_imp (hl.subset List.mem_cons_self)
        exact absurd hge (not_le.mpr (by simpa using hk))
    replace hset : (set.dropWhile (· < key)).Pairwise (· < ·) := hset.sublist (List.dropWhile_sublist _)
    rw [Children.findSubset] at hnone
    split at hnone
    · rename_i hdrop
      rw [hdrop] at hsub
      cases hsub
    · rename_i it set' hdrop
      rw [hdrop] at hsub hset
      obtain ⟨hit, hset'⟩ := List.pairwise_cons.mp hset
      -- a way from a later child does not start with the key
      have hlater : k ≠ it → (k :: path).Sublist set' := by
        intro hne
        obtain h | ⟨l, heq, -⟩ := List.sublist_cons_iff.mp hsub
        · exact h
        · exact absurd (List.cons.inj heq).1 hne
      by_cases hkey : it = key
      · subst hkey
        rw [if_pos rfl] at hnone
        split at hnone
        · cases hnone
        · rename_i hfind
          obtain ⟨rfl, rfl⟩ | hmem := hmem
          · exact Node.not_of_findSubset n set' hchild hset' hfind (List.cons_sublist_cons.mp hsub) hlookup
          · replace hsub := hlater (hlt k (mem_keys_of_mem hmem)).ne'
            rw [if_neg fun hnil => by rw [hnil] at hsub; cases hsub] at hnone
            exact Children.not_of_findSubset rest set' hrest hset' hnone hmem hsub hlookup
      · rw [if_neg hkey] at hnone
        obtain ⟨rfl, rfl⟩ | hmem := hmem
        · have hlt' := hit k ((hlater (Ne.symm hkey)).subset List.mem_cons_self)
          have hskip := List.head?_dropWhile_not (· < k) set
          rw [hdrop] at hskip
          exact absurd hlt' (by simpa using hskip)
        · exact Children.not_of_findSubset rest (it :: set') hrest hset hnone hmem hsub hlookup

end

mutual

theorem Node.not_of_findSuperset : ∀ (n : Node K V) (set : List K), n.Ordered → n.findSuperset p set = none →
    ∀ {path v}, set.Sublist path → n.lookup path = some v → p v = false
  | .mk value children, [], h, hnone, path, v, hsub, hlookup => by
    rw [Node.findSuperset] at hnone
    split_ifs at hnone with hany
    · rw [hnone] at hany
      cases hany
    · cases path with
      | nil => exact eq_false_of_any hany hlookup
      | cons k path =>
        obtain ⟨child, hmem, hlookup⟩ := (lookup_cons_iff (n := .mk value children) h).mp hlookup
        exact Children.not_of_findSuperset children [] h hnone hmem (List.nil_sublist _) hlookup
  | .mk value children, element :: set, h, hnone, path, v, hsub, hlookup => by
    rw [Node.findSuperset] at hnone
    split at hnone
    · cases hnone
    · rename_i hloop
      cases path with
      | nil => cases hsub
      | cons k path =>
        obtain ⟨child, hmem, hchild⟩ := (lookup_cons_iff (n := .mk value children) h).mp hlookup
        obtain hsub | ⟨set', heq, hsub⟩ := List.sublist_cons_iff.mp hsub
        · exact Children.not_of_findSuperset children (element :: set) h hloop hmem hsub hchild
        · obtain ⟨rfl, rfl⟩ := List.cons.inj heq
          exact Children.not_of_findSupersetAt children element set h hnone hmem hsub hchild

theorem Children.not_of_findSuperset : ∀ (children : Children K V) (set : List K), children.Ordered →
    children.findSuperset p set = none → ∀ {k child path v}, children.Mem k child → set.Sublist path →
      child.lookup path = some v → p v = false
  | .nil, _, _, _, _, _, _, _, hmem, _, _ => hmem.elim
  | .cons key child rest, set, ⟨_, _, _, hchild, hrest⟩, hnone, k, n, path, v, hmem, hsub, hlookup => by
    rw [Children.findSuperset] at hnone
    split at hnone
    · cases hnone
    · rename_i hfind
      obtain ⟨rfl, rfl⟩ | hmem := hmem
      · exact Node.not_of_findSuperset n set hchild hfind hsub hlookup
      · exact Children.not_of_findSuperset rest set hrest hnone hmem hsub hlookup

theorem Children.not_of_findSupersetAt : ∀ (children : Children K V) (element : K) (set : List K), children.Ordered →
    children.findSupersetAt p element set = none → ∀ {child path v}, children.Mem element child → set.Sublist path →
      child.lookup path = some v → p v = false
  | .nil, _, _, _, _, _, _, _, hmem, _, _ => hmem.elim
  | .cons key child rest, element, set, ⟨hlt, _, _, hchild, hrest⟩, hnone, n, path, v, hmem, hsub, hlookup => by
    rw [Children.findSupersetAt] at hnone
    obtain ⟨rfl, rfl⟩ | hmem := hmem
    · rw [if_neg (lt_irrefl _), if_pos rfl] at hnone
      exact Node.not_of_findSuperset n set hchild hnone hsub hlookup
    · rw [if_pos (hlt element (mem_keys_of_mem hmem))] at hnone
      exact Children.not_of_findSupersetAt rest element set hrest hnone hmem hsub hlookup

end

def accumOf (stack : List (Cursor K V)) : Finset K := (stack.map Cursor.key).toFinset

/-- What comes after the node that the stack is at, and all below it. -/
def pending : List (Cursor K V) → List (Finset K × V)
  | [] => []
  | cursor :: stack => cursor.rest.findSupersets (accumOf stack) [] ++ pending stack

def Node.all (n : Node K V) (accum : Finset K) : List (Finset K × V) := n.findSupersets accum []

def StackOk (stack : List (Cursor K V)) : Prop := ∀ cursor ∈ stack, cursor.child.Ordered ∧ cursor.rest.Ordered

structure AtEntry (root : Node K V) (it : Iterator K V) (entries : List (Finset K × V)) : Prop where
  onEntry : it.onEntry = true
  value : (it.node root).value.isSome
  ok : StackOk it.stack
  entries : entries = (it.node root).all (accumOf it.stack) ++ pending it.stack

theorem all_eq : n.all accum = n.own accum ++ n.children.findSupersets accum [] := by
  obtain ⟨value, children⟩ := n
  rfl

theorem all_child {key : K} {child : Node K V} {rest : Children K V} {stack : List (Cursor K V)} :
    (Children.cons key child rest).findSupersets (accumOf stack) [] ++ pending stack =
      child.all (accumOf (⟨key, child, rest⟩ :: stack)) ++ pending (⟨key, child, rest⟩ :: stack) := by
  rw [Children.findSupersets, List.append_assoc, pending, Node.all, accumOf, accumOf, List.map_cons, List.toFinset_cons]

omit [LinearOrder K] in
theorem own_of_none (h : n.value.isSome = false) : n.own accum = [] := by
  rw [Option.isSome_eq_false_iff, Option.isNone_iff_eq_none] at h
  rw [Node.own, h]
  rfl

theorem Node.enter_spec : ∀ (n root : Node K V) {stack : List (Cursor K V)}, n.Ordered → StackOk stack →
    n.children ≠ .nil → ∃ stack', n.enter stack = (true, stack') ∧
      AtEntry root { onEntry := true, stack := stack' } (n.children.findSupersets (accumOf stack) [] ++ pending stack)
  | .mk value .nil, root, stack, h, hstack, hne => absurd rfl hne
  | .mk value (.cons key child rest), root, stack, ⟨hlt, hkeys, hfull, hchild, hrest⟩, hstack, hne => by
    have hstack' : StackOk (⟨key, child, rest⟩ :: stack) := List.forall_mem_cons.mpr ⟨⟨hchild, hrest⟩, hstack⟩
    rw [Node.enter]
    cases hvalue : child.value.isSome with
    | true => exact ⟨_, rfl, rfl, hvalue, hstack', all_child⟩
    | false =>
      have hchildren : child.children ≠ .nil := hfull.resolve_left (by simp [hvalue])
      obtain ⟨stack', henter, hentry⟩ := Node.enter_spec child root hchild hstack' hchildren
      refine ⟨stack', henter, ?_⟩
      rw [Node.children, all_child, all_eq, own_of_none hvalue, List.nil_append]
      exact hentry

theorem Node.descend_spec : ∀ (n root : Node K V) {key : K} {rest : Children K V} {stack : List (Cursor K V)},
    StackOk (⟨key, n, rest⟩ :: stack) → (n.value.isSome ∨ n.children ≠ .nil) →
    ∃ stack', n.descend (⟨key, n, rest⟩ :: stack) = some stack' ∧ AtEntry root { onEntry := true, stack := stack' }
      (n.all (accumOf (⟨key, n, rest⟩ :: stack)) ++ pending (⟨key, n, rest⟩ :: stack))
  | .mk (some v) children, root, key, rest, stack, hstack, hfull => ⟨_, rfl, rfl, rfl, hstack, rfl⟩
  | .mk none .nil, root, key, rest, stack, hstack, hfull => by simp [Node.value, Node.children] at hfull
  | .mk none (.cons key' child rest'), root, key, rest, stack, hstack, hfull => by
    obtain ⟨hordered, -⟩ := hstack _ List.mem_cons_self
    obtain ⟨hlt, hkeys, hfull', hchild, hrest⟩ := hordered
    have hstack' : StackOk (⟨key', child, rest'⟩ :: ⟨key, .mk none (.cons key' child rest'), rest⟩ :: stack) :=
      List.forall_mem_cons.mpr ⟨⟨hchild, hrest⟩, hstack⟩
    obtain ⟨stack', hdescend, hentry⟩ := Node.descend_spec child root hstack' hfull'
    refine ⟨stack', hdescend, ?_⟩
    rw [all_eq, own_of_none rfl, List.nil_append, Node.children, all_child]
    exact hentry

def Left (root : Node K V) (it : Iterator K V) (entries : List (Finset K × V)) : Prop :=
  (it = {} ∧ entries = []) ∨ AtEntry root it entries

theorem leave_spec (root : Node K V) (stack : List (Cursor K V)) (h : StackOk stack) :
    ∃ it, Iterator.leave stack = some it ∧ Left root it (pending stack) := by
  induction stack with
  | nil => exact ⟨{}, rfl, .inl ⟨rfl, rfl⟩⟩
  | cons cursor stack ih =>
    obtain ⟨key, n, rest⟩ := cursor
    obtain ⟨⟨hn, hrest⟩, hstack⟩ := List.forall_mem_cons.mp h
    cases rest with
    | nil => exact ih hstack
    | cons key' child rest =>
      obtain ⟨-, -, hfull, hchild, hrest⟩ := hrest
      have hstack' : StackOk (⟨key', child, rest⟩ :: stack) := List.forall_mem_cons.mpr ⟨⟨hchild, hrest⟩, hstack⟩
      obtain ⟨stack', hdescend, hentry⟩ := Node.descend_spec child root hstack' hfull
      refine ⟨_, ?_, .inr (?_ : AtEntry root { onEntry := true, stack := stack' } _)⟩
      · rw [Iterator.leave, hdescend]
        rfl
      · rw [pending, all_child]
        exact hentry

/-- A step from an entry goes to what is below it or after it. -/
theorem step_spec {root : Node K V} (it : Iterator K V) (hroot : root.Ordered) (hentry : it.onEntry = true)
    (hstack : StackOk it.stack) : ∃ it', it.step root = some it' ∧
      Left root it' ((it.node root).children.findSupersets (accumOf it.stack) [] ++ pending it.stack) := by
  have hordered : (it.node root).Ordered := by
    obtain ⟨onEntry, stack⟩ := it
    cases stack with
    | nil => exact hroot
    | cons cursor stack => exact (hstack cursor List.mem_cons_self).1
  rw [Iterator.step, if_pos hentry]
  by_cases hne : (it.node root).children = .nil
  · obtain ⟨it', hleave, hleft⟩ := leave_spec root it.stack hstack
    have henter : (it.node root).enter it.stack = (false, it.stack) := by
      cases hnode : it.node root with
      | mk value children =>
        rw [hnode, Node.children] at hne
        rw [hne, Node.enter]
    rw [henter, hne]
    exact ⟨it', hleave, hleft⟩
  · obtain ⟨stack', henter, hentry'⟩ := Node.enter_spec (it.node root) root hordered hstack hne
    rw [henter]
    exact ⟨_, rfl, .inr hentry'⟩

theorem AtEntry.eq_cons {root : Node K V} {it : Iterator K V} {entries : List (Finset K × V)} (h : AtEntry root it entries) :
    ∃ entry, it.deref root = some entry ∧
      entries = entry :: ((it.node root).children.findSupersets (accumOf it.stack) [] ++ pending it.stack) := by
  obtain ⟨value, hvalue⟩ := Option.isSome_iff_exists.mp h.value
  have hown : (it.node root).own (accumOf it.stack) = [(accumOf it.stack, value)] := by
    rw [Node.own, hvalue]
    rfl
  refine ⟨(accumOf it.stack, value), ?_, ?_⟩
  · rw [Iterator.deref, h.onEntry, hvalue]
    rfl
  · rw [h.entries, all_eq, hown, List.append_assoc]
    rfl

theorem collect_spec {m : MapOfSets K V} (hroot : m.root.Ordered) (rounds : ℕ) : ∀ {it : Iterator K V}
    {entries : List (Finset K × V)}, Left m.root it entries → entries.length ≤ rounds →
      m.collect rounds it = some entries := by
  induction rounds with
  | zero =>
    rintro it entries (⟨rfl, rfl⟩ | h) hle
    · rfl
    · obtain ⟨entry, -, rfl⟩ := h.eq_cons
      cases hle
  | succ rounds ih =>
    rintro it entries (⟨rfl, rfl⟩ | h) hle
    · rfl
    · obtain ⟨entry, hderef, rfl⟩ := h.eq_cons
      obtain ⟨it', hstep, hleft⟩ := step_spec it hroot h.onEntry h.ok
      have hend : it.atEnd = false := by rw [Iterator.atEnd, h.onEntry]; rfl
      rw [collect, hend, hderef, hstep]
      simp [ih hleft (Nat.le_of_succ_le_succ hle)]

def build (calls : List (Finset K × V)) : MapOfSets K V := calls.foldl (fun m call => m.insert call.1 call.2) {}

def stored (calls : List (Finset K × V)) : Finset K → Option V :=
  calls.foldl (fun f call => Function.update f call.1 (some call.2)) fun _ => none

structure Stores (m : MapOfSets K V) (f : Finset K → Option V) : Prop where
  ordered : m.root.Ordered
  lookup : ∀ path v, m.root.lookup path = some v ↔ ∃ S : Finset K, path = S.sort ∧ f S = some v

variable {m : MapOfSets K V} {f : Finset K → Option V} {S T : Finset K}

theorem sort_inj : S.sort = T.sort ↔ S = T := by
  refine ⟨fun h => ?_, fun h => h ▸ rfl⟩
  rw [← S.sort_toFinset (· ≤ ·), h, Finset.sort_toFinset]

theorem sort_sublist : (S.sort).Sublist T.sort ↔ S ⊆ T := by
  constructor
  · intro h k hk
    exact (Finset.mem_sort _).mp (h.subset ((Finset.mem_sort _).mpr hk))
  · intro h
    have hsub : S.sort ⊆ T.sort := fun k hk => (Finset.mem_sort _).mpr (h ((Finset.mem_sort _).mp hk))
    exact List.sublist_of_subperm_of_pairwise ((S.sort_nodup _).subperm hsub) (S.pairwise_sort _) (T.pairwise_sort _)

theorem Stores.insert (h : Stores m f) : Stores (m.insert S v) (Function.update f S (some v)) where
  ordered := ordered_insert _ S.sortedLT_sort.pairwise h.ordered
  lookup path w := by
    rw [MapOfSets.insert, lookup_insert]
    split_ifs with heq
    · subst heq
      constructor
      · intro hv
        exact ⟨S, rfl, by rw [Function.update_self, hv]⟩
      · rintro ⟨T, hT, hf⟩
        rw [sort_inj] at hT
        rw [← hT, Function.update_self] at hf
        exact hf
    · rw [h.lookup]
      refine exists_congr fun T => and_congr_right fun hT => ?_
      have hne : T ≠ S := fun hTS => heq (hTS ▸ hT)
      rw [Function.update_of_ne hne]

theorem stores_build (calls : List (Finset K × V)) : Stores (build calls) (stored calls) := by
  suffices h : ∀ {m : MapOfSets K V} {f}, Stores m f → Stores (calls.foldl (fun m call => m.insert call.1 call.2) m)
      (calls.foldl (fun f call => Function.update f call.1 (some call.2)) f) by
    refine h ⟨trivial, fun path v => ?_⟩
    change (Node.empty : Node K V).lookup path = some v ↔ _
    rw [lookup_empty]
    simp
  induction calls with
  | nil => exact id
  | cons call calls ih => exact fun h => ih h.insert

theorem Stores.lookup_eq (h : Stores m f) : m.lookup S = f S := by
  refine Option.ext fun v => ?_
  rw [MapOfSets.lookup, h.lookup]
  constructor
  · rintro ⟨T, hT, hf⟩
    rwa [sort_inj.mp hT]
  · exact fun hf => ⟨S, rfl, hf⟩

theorem lookup_of_entry (path : List K) : ∀ {n : Node K V}, n.Ordered → n.Entry v path → n.lookup path = some v := by
  induction path with
  | nil => exact fun {n} _ h => by cases n; exact h
  | cons k path ih =>
    rintro ⟨value, children⟩ hn ⟨child, hmem, hentry⟩
    obtain ⟨hchild, -⟩ := Children.Ordered.child hn hmem
    exact (lookup_cons_iff (n := .mk value children) hn).mpr ⟨child, hmem, ih hchild hentry⟩

theorem Stores.bound (h : Stores m f) {path : List K} (hb : m.Bound path v) : ∃ T : Finset K, path = T.sort ∧ f T = some v :=
  (h.lookup path v).mp (lookup_of_entry path h.ordered hb)

theorem Stores.findSubset (h : Stores m f) : ((m.findSubset S p).isSome ↔ ∃ T v, T ⊆ S ∧ f T = some v ∧ p v) ∧
    ∀ v, m.findSubset S p = some v → p v ∧ ∃ T, T ⊆ S ∧ f T = some v := by
  have hfound : ∀ v, m.findSubset S p = some v → p v ∧ ∃ T, T ⊆ S ∧ f T = some v := by
    intro v hv
    obtain ⟨hp, sub, hbound, hsub⟩ := bound_of_findSubset hv
    obtain ⟨T, rfl, hf⟩ := h.bound hbound
    exact ⟨hp, T, fun k hk => hsub k ((Finset.mem_sort _).mpr hk), hf⟩
  refine ⟨⟨fun hsome => ?_, ?_⟩, hfound⟩
  · obtain ⟨v, hv⟩ := Option.isSome_iff_exists.mp hsome
    obtain ⟨hp, T, hT, hf⟩ := hfound v hv
    exact ⟨T, v, hT, hf, hp⟩
  · rintro ⟨T, v, hT, hf, hp⟩
    by_contra hsome
    have hnone : m.root.findSubset p S.sort = none := by simpa [MapOfSets.findSubset] using hsome
    have hfalse := Node.not_of_findSubset m.root S.sort h.ordered S.sortedLT_sort.pairwise hnone
      (sort_sublist.mpr hT) ((h.lookup _ v).mpr ⟨T, rfl, hf⟩)
    rw [hp] at hfalse
    cases hfalse

theorem Stores.findSuperset (h : Stores m f) : ((m.findSuperset S p).isSome ↔ ∃ T v, S ⊆ T ∧ f T = some v ∧ p v) ∧
    ∀ v, m.findSuperset S p = some v → p v ∧ ∃ T, S ⊆ T ∧ f T = some v := by
  have hfound : ∀ v, m.findSuperset S p = some v → p v ∧ ∃ T, S ⊆ T ∧ f T = some v := by
    intro v hv
    obtain ⟨hp, sup, hbound, hsub⟩ := bound_of_findSuperset hv
    obtain ⟨T, rfl, hf⟩ := h.bound hbound
    exact ⟨hp, T, fun k hk => (Finset.mem_sort _).mp (hsub k hk), hf⟩
  refine ⟨⟨fun hsome => ?_, ?_⟩, hfound⟩
  · obtain ⟨v, hv⟩ := Option.isSome_iff_exists.mp hsome
    obtain ⟨hp, T, hT, hf⟩ := hfound v hv
    exact ⟨T, v, hT, hf, hp⟩
  · rintro ⟨T, v, hT, hf, hp⟩
    by_contra hsome
    have hnone : m.root.findSuperset p S.sort = none := by simpa [MapOfSets.findSuperset] using hsome
    have hfalse := Node.not_of_findSuperset m.root S.sort h.ordered hnone (sort_sublist.mpr hT)
      ((h.lookup _ v).mpr ⟨T, rfl, hf⟩)
    rw [hp] at hfalse
    cases hfalse

theorem Stores.subsets (h : Stores m f) : ((m.subsets S).map Prod.fst).Nodup ∧
    ∀ T v, (T, v) ∈ m.subsets S ↔ T ⊆ S ∧ f T = some v := by
  refine ⟨nodup_findSubsets_of_loop (nodup_loop _ (S.sort_nodup _) fun _ _ => Finset.notMem_empty _) fun _ _ =>
    Finset.notMem_empty _, fun T v => ?_⟩
  rw [MapOfSets.subsets, mem_findSubsets]
  constructor
  · rintro ⟨path, hsub, hlookup, hT⟩
    obtain ⟨U, rfl, hf⟩ := (h.lookup _ _).mp hlookup
    rw [Finset.empty_union, Finset.sort_toFinset] at hT
    subst hT
    exact ⟨sort_sublist.mp hsub, hf⟩
  · rintro ⟨hT, hf⟩
    refine ⟨T.sort, sort_sublist.mpr hT, (h.lookup _ _).mpr ⟨T, rfl, hf⟩, ?_⟩
    rw [Finset.empty_union, Finset.sort_toFinset]

theorem Stores.supersets (h : Stores m f) : ((m.supersets S).map Prod.fst).Nodup ∧
    ∀ T v, (T, v) ∈ m.supersets S ↔ S ⊆ T ∧ f T = some v := by
  refine ⟨Node.nodup_findSupersets _ _ h.ordered fun _ ha => absurd ha (Finset.notMem_empty _), fun T v => ?_⟩
  rw [MapOfSets.supersets, Node.mem_findSupersets _ _ h.ordered]
  constructor
  · rintro ⟨path, hsub, hlookup, hT⟩
    obtain ⟨U, rfl, hf⟩ := (h.lookup _ _).mp hlookup
    rw [Finset.empty_union, Finset.sort_toFinset] at hT
    subst hT
    exact ⟨sort_sublist.mp hsub, hf⟩
  · rintro ⟨hT, hf⟩
    refine ⟨T.sort, sort_sublist.mpr hT, (h.lookup _ _).mpr ⟨T, rfl, hf⟩, ?_⟩
    rw [Finset.empty_union, Finset.sort_toFinset]

theorem Stores.iterate (h : Stores m f) : ∃ it, m.begin = some it ∧
    ∀ rounds, (m.supersets ∅).length ≤ rounds → m.collect rounds it = some (m.supersets ∅) := by
  have hall : m.supersets ∅ =
      m.root.own ∅ ++ (m.root.children.findSupersets (accumOf ([] : List (Cursor K V))) [] ++ pending []) := by
    rw [MapOfSets.supersets, Finset.sort_empty, pending, List.append_nil]
    exact all_eq
  suffices hbegin : ∃ it, m.begin = some it ∧ Left m.root it (m.supersets ∅) by
    obtain ⟨it, hit, hleft⟩ := hbegin
    exact ⟨it, hit, fun rounds hle => collect_spec h.ordered rounds hleft hle⟩
  rw [begin]
  cases hvalue : m.root.value.isSome with
  | true =>
    refine ⟨_, rfl, .inr ⟨rfl, hvalue, nofun, ?_⟩⟩
    rw [hall, ← List.append_assoc]
    exact congrArg (· ++ pending []) all_eq.symm
  | false =>
    obtain ⟨it, hstep, hleft⟩ := step_spec { onEntry := true, stack := [] } h.ordered rfl nofun
    rw [hall, own_of_none hvalue]
    exact ⟨it, hstep, hleft⟩

/-- A map of sets answers as the map from each set to what was inserted last for it. -/
theorem build_exact (calls : List (Finset K × V)) :
    (∀ S, (build calls).lookup S = stored calls S) ∧
    (∀ S p, (((build calls).findSubset S p).isSome ↔ ∃ T v, T ⊆ S ∧ stored calls T = some v ∧ p v) ∧
      ∀ v, (build calls).findSubset S p = some v → p v ∧ ∃ T, T ⊆ S ∧ stored calls T = some v) ∧
    (∀ S p, (((build calls).findSuperset S p).isSome ↔ ∃ T v, S ⊆ T ∧ stored calls T = some v ∧ p v) ∧
      ∀ v, (build calls).findSuperset S p = some v → p v ∧ ∃ T, S ⊆ T ∧ stored calls T = some v) ∧
    (∀ S, (((build calls).subsets S).map Prod.fst).Nodup ∧
      ∀ T v, (T, v) ∈ (build calls).subsets S ↔ T ⊆ S ∧ stored calls T = some v) ∧
    (∀ S, (((build calls).supersets S).map Prod.fst).Nodup ∧
      ∀ T v, (T, v) ∈ (build calls).supersets S ↔ S ⊆ T ∧ stored calls T = some v) ∧
    ∃ it entries, (build calls).begin = some it ∧
      (∀ rounds, entries.length ≤ rounds → (build calls).collect rounds it = some entries) ∧
      (entries.map Prod.fst).Nodup ∧ ∀ T v, (T, v) ∈ entries ↔ stored calls T = some v := by
  have h := stores_build calls
  refine ⟨fun S => h.lookup_eq, fun S p => h.findSubset, fun S p => h.findSuperset, fun S => h.subsets,
    fun S => h.supersets, ?_⟩
  obtain ⟨it, hbegin, hcollect⟩ := h.iterate
  obtain ⟨hnodup, hmem⟩ := h.supersets (S := ∅)
  refine ⟨it, _, hbegin, hcollect, hnodup, fun T v => ?_⟩
  rw [hmem]
  exact and_iff_right (Finset.empty_subset T)

end Klee.MapOfSets
