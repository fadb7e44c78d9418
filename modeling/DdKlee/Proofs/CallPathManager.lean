import DdKlee.Lib.Machine
import DdKlee.Lib.ParentTree
import DdKlee.Spec.CallPathManager

/-! No pair of a call site and a function comes twice on a path from the root, so the summary
statistics count every node once. -/

namespace Klee.CallPathManager

open ParentTree

variable {C F : Type} {m m' : CallPathManager C F} {i p q a : ℕ} {n : CallPathNode C F}

def parentOf (m : CallPathManager C F) (i : ℕ) : Option ℕ := m.nodes[i]?.bind CallPathNode.parent

def keyOf (m : CallPathManager C F) (i : ℕ) : CallKey C F := (m.nodes[i]?.map CallPathNode.key).getD (none, none)

def childOf (m : CallPathManager C F) (i : ℕ) (key : CallKey C F) : Option ℕ :=
  m.nodes[i]?.bind fun n => n.children key

theorem parentOf_eq (h : m.nodes[i]? = some n) : m.parentOf i = n.parent := by rw [parentOf, h]; rfl

theorem keyOf_eq (h : m.nodes[i]? = some n) : m.keyOf i = n.key := by rw [keyOf, h]; rfl

theorem childOf_eq (h : m.nodes[i]? = some n) (key : CallKey C F) : m.childOf i key = n.children key := by
  rw [childOf, h]
  rfl

/-- Every node has its parent before it and another key than those above it. -/
structure Tree (m : CallPathManager C F) : Prop where
  nonempty : 0 < m.nodes.length
  root : m.parentOf 0 = none ∧ m.keyOf 0 = (none, none)
  parent : ∀ i, 0 < i → i < m.nodes.length → ∃ p < i, m.parentOf i = some p
  distinct : ∀ a q, Above m.parentOf a q → q < m.nodes.length → m.keyOf a = m.keyOf q → a = q

/-- The maps of children lead to nodes, and every node is in the map of its parent. -/
structure Valid (m : CallPathManager C F) : Prop extends Tree m where
  children : ∀ i key c, m.childOf i key = some c → c < m.nodes.length
  listed : ∀ c p, m.parentOf c = some p → m.childOf p (m.keyOf c) = some c

namespace Tree

variable (h : Tree m)

include h

theorem parent_lt {q p : ℕ} (hp : m.parentOf q = some p) : p < q := by
  obtain ⟨n, hn, -⟩ := Option.bind_eq_some_iff.mp hp
  rcases Nat.eq_zero_or_pos q with rfl | hq
  · rw [h.root.1] at hp
    cases hp
  · obtain ⟨p', hlt, hp'⟩ := h.parent q hq (List.getElem?_eq_some_iff.mp hn).1
    cases hp'.symm.trans hp
    exact hlt

theorem lt_length (hp : m.parentOf q = some p) : p < m.nodes.length := by
  obtain ⟨n, hn, -⟩ := Option.bind_eq_some_iff.mp hp
  exact (h.parent_lt hp).trans (List.getElem?_eq_some_iff.mp hn).1

end Tree

section

variable [DecidableEq C] [DecidableEq F] {key : CallKey C F} {c : ℕ}

def Found (m : CallPathManager C F) (key : CallKey C F) (p : ℕ) : Option ℕ → Prop
  | some a => Above m.parentOf a p ∧ m.keyOf a = key
  | none => ∀ a, Above m.parentOf a p → m.keyOf a ≠ key

theorem findAbove_ok (h : Tree m) (key : CallKey C F) (fuel : ℕ) (hp : p < m.nodes.length) (hfuel : p < fuel) :
    ∃ r, m.findAbove key fuel p = some r ∧ Found m key p r := by
  induction fuel generalizing p with
  | zero => cases hfuel
  | succ fuel ih =>
    have hn := List.getElem?_eq_getElem hp
    generalize m.nodes[p] = n at hn
    have hparent := parentOf_eq hn
    have hkey := keyOf_eq hn
    simp only [findAbove, hn, some_bind]
    split_ifs with heq
    · exact ⟨some p, rfl, .refl, hkey.trans heq.symm⟩
    · cases hnp : n.parent with
      | none =>
        refine ⟨none, rfl, fun a ha => ?_⟩
        rcases above_iff_parent.mp ha with rfl | ⟨q, hq, -⟩
        · exact fun hak => heq (hak.symm.trans hkey)
        · rw [hparent, hnp] at hq
          cases hq
      | some q =>
        have hq : m.parentOf p = some q := hparent.trans hnp
        obtain ⟨r, hr, hfound⟩ := ih (h.lt_length hq) (lt_of_lt_of_le (h.parent_lt hq) (Nat.le_of_lt_succ hfuel))
        refine ⟨r, hr, ?_⟩
        cases r with
        | some a => exact ⟨hfound.1.step hq, hfound.2⟩
        | none =>
          intro a ha
          rcases above_iff_parent.mp ha with rfl | ⟨q', hq', ha⟩
          · exact fun hak => heq (hak.symm.trans hkey)
          · cases hq.symm.trans hq'
            exact hfound a ha

end

structure SameTree (m m' : CallPathManager C F) : Prop where
  length : m'.nodes.length = m.nodes.length
  parentOf : m'.parentOf = m.parentOf
  keyOf : m'.keyOf = m.keyOf

theorem Tree.congr (h : Tree m) (hs : SameTree m m') : Tree m' where
  nonempty := by rw [hs.length]; exact h.nonempty
  root := by rw [hs.parentOf, hs.keyOf]; exact h.root
  parent := by rw [hs.length, hs.parentOf]; exact h.parent
  distinct := by rw [hs.length, hs.parentOf, hs.keyOf]; exact h.distinct

theorem Valid.congr (h : Valid m) (hs : SameTree m m') (hc : m'.childOf = m.childOf) : Valid m' where
  toTree := h.toTree.congr hs
  children := by rw [hs.length, hc]; exact h.children
  listed := by rw [hs.parentOf, hs.keyOf, hc]; exact h.listed

theorem sameTree_modify {f : CallPathNode C F → CallPathNode C F} (hparent : ∀ n, (f n).parent = n.parent)
    (hkey : ∀ n, (f n).key = n.key) : SameTree m ⟨m.nodes.modify p f⟩ := by
  refine ⟨List.length_modify .., funext fun i => ?_, funext fun i => ?_⟩
  · simp only [CallPathManager.parentOf, List.getElem?_modify]
    cases m.nodes[i]? with
    | none => rfl
    | some n =>
      simp only [Option.map_eq_map, Option.map_some, Option.bind_some]
      split_ifs
      · exact hparent n
      · rfl
  · simp only [CallPathManager.keyOf, List.getElem?_modify]
    cases m.nodes[i]? with
    | none => rfl
    | some n =>
      simp only [Option.map_eq_map, Option.map_some, Option.getD_some]
      split_ifs
      · exact hkey n
      · rfl

theorem childOf_modify {f : CallPathNode C F → CallPathNode C F} (hchildren : ∀ n, (f n).children = n.children) :
    CallPathManager.childOf ⟨m.nodes.modify p f⟩ = m.childOf := by
  funext i key
  simp only [childOf, List.getElem?_modify]
  cases m.nodes[i]? with
  | none => rfl
  | some n =>
    simp only [Option.map_eq_map, Option.map_some, Option.bind_some]
    split_ifs
    · rw [hchildren]
    · rfl

section

variable [DecidableEq C] [DecidableEq F] {key : CallKey C F} {c : ℕ}

theorem childOf_insertChild (hp : p < m.nodes.length) :
    (m.insertChild p key c).childOf i = if i = p then Function.update (m.childOf i) key (some c) else m.childOf i := by
  funext k
  simp only [childOf, insertChild, List.getElem?_modify]
  by_cases hi : i = p
  · subst hi
    rw [List.getElem?_eq_getElem hp, if_pos rfl]
    by_cases hk : k = key
    · subst hk
      simp
    · rw [Function.update_of_ne hk, childOf, List.getElem?_eq_getElem hp]
      simp [hk]
  · rw [if_neg hi]
    cases h : m.nodes[i]? with
    | none => rw [childOf, h]; rfl
    | some n =>
      rw [childOf, h]
      simp [Ne.symm hi]

theorem Tree.insertChild (h : Tree m) (hp : p < m.nodes.length) (hc : c < m.nodes.length)
    (hchildren : ∀ i key c, m.childOf i key = some c → c < m.nodes.length)
    (hlisted : ∀ c' p', m.parentOf c' = some p' → m.childOf p' (m.keyOf c') = some c' ∨ c' = c ∧ p' = p ∧ m.keyOf c = key)
    (hfree : m.childOf p key = none) : Valid (m.insertChild p key c) := by
  have hs : SameTree m (m.insertChild p key c) := sameTree_modify (fun _ => rfl) fun _ => rfl
  refine ⟨h.congr hs, fun i k c' hc' => ?_, fun c' p' hp' => ?_⟩
  · rw [hs.length]
    rw [childOf_insertChild hp] at hc'
    split_ifs at hc' with hi
    · rw [Function.update_apply] at hc'
      split_ifs at hc' with hk
      · cases hc'
        exact hc
      · exact hchildren i k c' hc'
    · exact hchildren i k c' hc'
  · rw [hs.parentOf] at hp'
    rw [hs.keyOf, childOf_insertChild hp]
    rcases hlisted c' p' hp' with hold | ⟨rfl, rfl, rfl⟩
    · split_ifs with hi
      · subst hi
        rw [Function.update_of_ne, hold]
        rintro rfl
        rw [hold] at hfree
        cases hfree
      · exact hold
    · rw [if_pos rfl, Function.update_self]

def addNode (m : CallPathManager C F) (p : ℕ) (key : CallKey C F) : CallPathManager C F :=
  ⟨m.nodes ++ [{ parent := some p, callSite := key.1, function := key.2 }]⟩

section

variable (m p key)

omit [DecidableEq C] [DecidableEq F]

theorem length_addNode : (m.addNode p key).nodes.length = m.nodes.length + 1 := List.length_append ..

theorem parentOf_addNode : (m.addNode p key).parentOf = Function.update m.parentOf m.nodes.length (some p) := by
  funext i
  rw [Function.update_apply, parentOf, addNode, List.getElem?_append]
  split_ifs with hlt heq heq
  · omega
  · rfl
  · subst heq
    simp
  · rw [List.getElem?_eq_none (by simp; omega), parentOf, List.getElem?_eq_none (by omega)]

theorem keyOf_addNode : (m.addNode p key).keyOf = Function.update m.keyOf m.nodes.length key := by
  funext i
  rw [Function.update_apply, keyOf, addNode, List.getElem?_append]
  split_ifs with hlt heq heq
  · omega
  · rfl
  · subst heq
    simp [CallPathNode.key]
  · rw [List.getElem?_eq_none (by simp; omega), keyOf, List.getElem?_eq_none (by omega)]

theorem childOf_addNode : (m.addNode p key).childOf = m.childOf := by
  funext i k
  rw [childOf, childOf, addNode, List.getElem?_append]
  split_ifs with hlt
  · rfl
  · rw [List.getElem?_eq_none (not_lt.mp hlt)]
    cases h : i - m.nodes.length with
    | zero => rfl
    | succ j => rfl

end

omit [DecidableEq C] [DecidableEq F] in
theorem Tree.addNode (h : Tree m) (hp : p < m.nodes.length) (hkey : Found m key p none) : Tree (m.addNode p key) := by
  have hparent := parentOf_addNode m p key
  have hkeys := keyOf_addNode m p key
  have hlt {q p'} (hq : (m.addNode p key).parentOf q = some p') : p' < q := by
    rw [hparent, Function.update_apply] at hq
    split_ifs at hq with hlen
    · cases hq
      exact hlen ▸ hp
    · exact h.parent_lt hq
  refine ⟨by rw [length_addNode]; omega, ?_, fun i hpos hi => ?_, fun a q ha hq heq => ?_⟩
  · rw [hparent, hkeys, Function.update_of_ne h.nonempty.ne, Function.update_of_ne h.nonempty.ne]
    exact h.root
  · rw [length_addNode] at hi
    rw [hparent, Function.update_apply]
    split_ifs with hlen
    · exact ⟨p, hlen ▸ hp, rfl⟩
    · exact h.parent i hpos (by omega)
  · rw [length_addNode] at hq
    -- what is above a node that was there already is what was above it
    have hold {a q} (hq : q < m.nodes.length) (ha : Above (m.addNode p key).parentOf a q) : Above m.parentOf a q :=
      ha.congr hlt fun i hi => by rw [hparent, Function.update_of_ne (by omega)]
    have hkeyOld {i} (hi : i < m.nodes.length) : (m.addNode p key).keyOf i = m.keyOf i := by
      rw [hkeys, Function.update_of_ne (by omega)]
    rcases Nat.lt_succ_iff_lt_or_eq.mp hq with hq | rfl
    · have hle := ha.le hlt
      rw [hkeyOld hq, hkeyOld (by omega)] at heq
      exact h.distinct a q (hold hq ha) hq heq
    · rcases above_iff_parent.mp ha with rfl | ⟨p', hp', ha⟩
      · rfl
      · rw [hparent, Function.update_self] at hp'
        cases hp'
        have hle := ha.le hlt
        rw [hkeyOld (by omega), hkeys, Function.update_self] at heq
        exact absurd heq (hkey a (hold hp ha))

theorem Valid.getCallPath (h : Valid m) {parent : Option ℕ} (hp : parent.getD 0 < m.nodes.length) (cs : Option C)
    (f : Option F) : ∃ cp m', m.getCallPath parent cs f = some (cp, m') ∧ Valid m' ∧ cp < m'.nodes.length ∧
      m.nodes.length ≤ m'.nodes.length ∧ ∀ i, m'.keyOf i = m.keyOf i ∨ m'.keyOf i = (cs, f) := by
  have hn := List.getElem?_eq_getElem hp
  generalize m.nodes[parent.getD 0] = n at hn
  have hchild := childOf_eq hn (cs, f)
  simp only [CallPathManager.getCallPath, hn, some_bind]
  cases hnc : n.children (cs, f) with
  | some cp =>
    exact ⟨cp, m, rfl, h, h.children _ _ _ (hchild.trans hnc), le_rfl, fun _ => .inl rfl⟩
  | none =>
    have hfree := hchild.trans hnc
    obtain ⟨r, hr, hfound⟩ := findAbove_ok h.toTree (cs, f) m.nodes.length hp hp
    simp only [computeCallPath, hr, some_bind]
    cases r with
    | some a =>
      have ha : a < m.nodes.length := (hfound.1.le h.parent_lt).trans_lt hp
      have hvalid : Valid (m.insertChild (parent.getD 0) (cs, f) a) :=
        h.toTree.insertChild hp ha h.children (fun c' p' hp' => .inl (h.listed c' p' hp')) hfree
      have hs : SameTree m (m.insertChild (parent.getD 0) (cs, f) a) := sameTree_modify (fun _ => rfl) fun _ => rfl
      exact ⟨a, m.insertChild (parent.getD 0) (cs, f) a, rfl, hvalid, hs.length ▸ ha, hs.length.ge,
        fun i => .inl (by rw [hs.keyOf])⟩
    | none =>
      have htree := h.toTree.addNode hp hfound
      have hlen := length_addNode m (parent.getD 0) (cs, f)
      have hkeys := keyOf_addNode m (parent.getD 0) (cs, f)
      have hvalid : Valid ((m.addNode (parent.getD 0) (cs, f)).insertChild (parent.getD 0) (cs, f) m.nodes.length) := by
        refine htree.insertChild (by omega) (by omega) (fun i key c hc => ?_) (fun c' p' hp' => ?_) ?_
        · rw [childOf_addNode] at hc
          have := h.children i key c hc
          omega
        · rw [parentOf_addNode, Function.update_apply] at hp'
          rw [childOf_addNode, hkeys]
          split_ifs at hp' with hc'
          · cases hp'
            exact .inr ⟨hc', rfl, Function.update_self ..⟩
          · rw [Function.update_of_ne hc']
            exact .inl (h.listed c' p' hp')
        · rw [childOf_addNode]
          exact hfree
      have hs : SameTree _ ((m.addNode (parent.getD 0) (cs, f)).insertChild (parent.getD 0) (cs, f) m.nodes.length) :=
        sameTree_modify (fun _ => rfl) fun _ => rfl
      have hlen' := hs.length
      refine ⟨m.nodes.length, (m.addNode (parent.getD 0) (cs, f)).insertChild (parent.getD 0) (cs, f) m.nodes.length, rfl,
        hvalid, by omega, by omega, fun i => ?_⟩
      rw [hs.keyOf, hkeys, Function.update_apply]
      split_ifs
      · exact .inr rfl
      · exact .inl rfl

end

section

open Classical Finset

variable {M : Type} [AddCommMonoid M]

noncomputable def sumFrom (m : CallPathManager C F) (P : ℕ → Prop) (f : ℕ → M) (k : ℕ) : M :=
  ∑ d ∈ range m.nodes.length with P d ∧ k ≤ d, f d

theorem sumFrom_eq_zero {P : ℕ → Prop} {k : ℕ} (h : ∀ d < m.nodes.length, ¬ (P d ∧ k ≤ d)) (f : ℕ → M) :
    m.sumFrom P f k = 0 := by
  rw [sumFrom, filter_false_of_mem, sum_empty]
  exact fun d hd => h d (mem_range.mp hd)

theorem sumFrom_eq_sum {P : ℕ → Prop} {k : ℕ} (h : ∀ d < m.nodes.length, P d → k ≤ d) (f : ℕ → M) :
    m.sumFrom P f k = ∑ d ∈ range m.nodes.length with P d, f d :=
  sum_congr (filter_congr fun d hd => and_iff_left_of_imp (h d (mem_range.mp hd))) fun _ _ => rfl

theorem sumFrom_eq (P : ℕ → Prop) (f : ℕ → M) {k : ℕ} (hk : k < m.nodes.length) :
    m.sumFrom P f k = m.sumFrom P f (k + 1) + if P k then f k else 0 := by
  have hsplit : (range m.nodes.length).filter (fun d => P d ∧ k ≤ d) =
      if P k then insert k ((range m.nodes.length).filter fun d => P d ∧ k + 1 ≤ d)
      else (range m.nodes.length).filter fun d => P d ∧ k + 1 ≤ d := by
    ext d
    split_ifs with hP
    · simp only [mem_insert, mem_filter, mem_range]
      grind
    · simp only [mem_filter]
      grind
  rw [sumFrom, hsplit]
  split_ifs with hP
  · rw [sum_insert (by simp), add_comm]
    rfl
  · rw [add_zero]
    rfl

def own (m : CallPathManager C F) (i : ℕ) : StatisticRecord := (m.nodes[i]?.map CallPathNode.statistics).getD 0

def countOf (m : CallPathManager C F) (i : ℕ) : BitVec 32 := (m.nodes[i]?.map CallPathNode.count).getD 0

noncomputable def nodesFrom (m : CallPathManager C F) (k : ℕ) : List (CallPathNode C F) :=
  m.nodes.mapIdx fun i n => { n with
    summaryStatistics := (if i = 0 then n.summaryStatistics else n.statistics) +
      m.sumFrom (fun d => m.parentOf d = some i) (subtree m.parentOf m.own m.nodes.length) k }

noncomputable def tableFrom (m : CallPathManager C F) (k : ℕ) : CallSiteSummaryTable C F := fun key =>
  if ∃ d < m.nodes.length, m.keyOf d = key ∧ k ≤ d then
    some ⟨m.sumFrom (fun d => m.keyOf d = key) m.countOf k,
      m.sumFrom (fun d => m.keyOf d = key) (subtree m.parentOf m.own m.nodes.length) k⟩
  else none

theorem tableFrom_getD (k : ℕ) (key : CallKey C F) : (m.tableFrom k key).getD {} =
    ⟨m.sumFrom (fun d => m.keyOf d = key) m.countOf k,
      m.sumFrom (fun d => m.keyOf d = key) (subtree m.parentOf m.own m.nodes.length) k⟩ := by
  rw [tableFrom]
  split_ifs with h
  · rfl
  · have hempty : ∀ d < m.nodes.length, ¬ (m.keyOf d = key ∧ k ≤ d) := fun d hd hP => h ⟨d, hd, hP⟩
    rw [sumFrom_eq_zero hempty, sumFrom_eq_zero hempty]
    rfl

variable {k : ℕ}

theorem Tree.subtree_eq (h : Tree m) (hn : m.nodes[k]? = some n) :
    n.statistics + m.sumFrom (fun d => m.parentOf d = some k) (subtree m.parentOf m.own m.nodes.length) (k + 1) =
      subtree m.parentOf m.own m.nodes.length k := by
  have hown : m.own k = n.statistics := by rw [own, hn]; rfl
  have hchildren : m.sumFrom (fun d => m.parentOf d = some k) _ (k + 1) = _ :=
    sumFrom_eq_sum (fun d _ hd => h.parent_lt hd) (subtree m.parentOf m.own m.nodes.length)
  rw [hchildren, ← hown]
  convert (ParentTree.subtree_eq h.parent_lt (List.getElem?_eq_some_iff.mp hn).1).symm

theorem nodesFrom_eq (hk : k < m.nodes.length) (hp : m.parentOf k = some p) :
    ((m.nodesFrom (k + 1)).modify p fun n => { n with
      summaryStatistics := n.summaryStatistics + subtree m.parentOf m.own m.nodes.length k }) = m.nodesFrom k := by
  refine List.ext_getElem? fun i => ?_
  rw [List.getElem?_modify, nodesFrom, nodesFrom, List.getElem?_mapIdx, List.getElem?_mapIdx]
  cases m.nodes[i]? with
  | none => rfl
  | some n =>
    simp only [Option.map_eq_map, Option.map_some, sumFrom_eq _ _ hk, hp, Option.some.injEq]
    by_cases hi : p = i
    · rw [if_pos hi, if_pos hi, ← add_assoc]
    · rw [if_neg hi, if_neg hi, add_zero]

theorem nodesFrom_length : m.nodesFrom m.nodes.length = resetSummaries m.nodes := by
  have hzero (i : ℕ) : m.sumFrom (fun d => m.parentOf d = some i) (subtree m.parentOf m.own m.nodes.length)
      m.nodes.length = 0 := sumFrom_eq_zero (fun d hd hP => absurd hd (not_lt.mpr hP.2)) _
  refine List.ext_getElem? fun i => ?_
  simp only [nodesFrom, List.getElem?_mapIdx, hzero, add_zero]
  cases m.nodes with
  | nil => rfl
  | cons root paths =>
    cases i with
    | zero => rfl
    | succ i => simp [resetSummaries]

theorem tableFrom_length : m.tableFrom m.nodes.length = fun _ => none := by
  funext key
  rw [tableFrom, if_neg]
  rintro ⟨d, hd, -, hle⟩
  omega

variable [DecidableEq C] [DecidableEq F]

theorem tableFrom_eq (hn : m.nodes[k]? = some n) : Function.update (m.tableFrom (k + 1)) n.key
    (some ⟨((m.tableFrom (k + 1) n.key).getD {}).count + n.count,
      ((m.tableFrom (k + 1) n.key).getD {}).statistics + subtree m.parentOf m.own m.nodes.length k⟩) =
        m.tableFrom k := by
  have hk := (List.getElem?_eq_some_iff.mp hn).1
  have hkey := keyOf_eq hn
  have hcount : m.countOf k = n.count := by rw [countOf, hn]; rfl
  funext key
  rw [Function.update_apply, tableFrom_getD]
  split_ifs with heq
  · subst heq
    rw [tableFrom, if_pos ⟨k, hk, hkey, le_rfl⟩, sumFrom_eq _ _ hk, sumFrom_eq _ _ hk, if_pos hkey, if_pos hkey, hcount]
  · have hne : m.keyOf k ≠ key := fun h => heq (h.symm.trans hkey)
    have hiff : (∃ d < m.nodes.length, m.keyOf d = key ∧ k ≤ d) ↔ ∃ d < m.nodes.length, m.keyOf d = key ∧ k + 1 ≤ d := by
      refine exists_congr fun d => and_congr_right fun _ => and_congr_right fun hd => ?_
      have hdk : d ≠ k := fun h => hne (h ▸ hd)
      omega
    rw [tableFrom, tableFrom, sumFrom_eq _ _ hk, sumFrom_eq _ _ hk, if_neg hne, if_neg hne, add_zero, add_zero]
    by_cases hex : ∃ d < m.nodes.length, m.keyOf d = key ∧ k + 1 ≤ d
    · rw [if_pos hex, if_pos (hiff.mpr hex)]
    · rw [if_neg hex, if_neg fun h => hex (hiff.mp h)]

theorem Tree.summaryStep_eq (h : Tree m) (hpos : 0 < k) (hk : k < m.nodes.length) :
    summaryStep (m.nodesFrom (k + 1), m.tableFrom (k + 1)) k = some (m.nodesFrom k, m.tableFrom k) := by
  have hn := List.getElem?_eq_getElem hk
  generalize m.nodes[k] = n at hn
  obtain ⟨p, -, hp⟩ := h.parent k hpos hk
  have hnode : (m.nodesFrom (k + 1))[k]? =
      some { n with summaryStatistics := subtree m.parentOf m.own m.nodes.length k } := by
    rw [nodesFrom, List.getElem?_mapIdx, hn, Option.map_some, if_neg hpos.ne', h.subtree_eq hn]
  have hparent : n.parent = some p := (parentOf_eq hn).symm.trans hp
  refine Option.bind_eq_some_iff.mpr ⟨_, hnode, Option.bind_eq_some_iff.mpr ⟨p, hparent, ?_⟩⟩
  have htable := tableFrom_eq hn
  rw [nodesFrom_eq hk hp]
  exact congrArg (fun table => some (m.nodesFrom k, table)) htable

theorem Tree.summaryLoop_eq (h : Tree m) (j : ℕ) (hpos : 0 < k)
    (hk : k + j = m.nodes.length) :
    (List.range' k j).reverse.foldlM summaryStep (m.nodesFrom m.nodes.length, m.tableFrom m.nodes.length) =
      some (m.nodesFrom k, m.tableFrom k) := by
  induction j generalizing k with
  | zero =>
    obtain rfl : k = m.nodes.length := hk
    rfl
  | succ j ih =>
    rw [List.range'_succ, List.reverse_cons, List.foldlM_append, ih (Nat.succ_pos k) (by omega)]
    exact (bind_pure _).trans (h.summaryStep_eq hpos (by omega))

theorem Tree.getSummaryStatistics_eq (h : Tree m) :
    m.getSummaryStatistics = some (m.tableFrom 1, ⟨m.nodesFrom 1⟩) := by
  have hloop := h.summaryLoop_eq (m.nodes.length - 1) Nat.one_pos (Nat.add_sub_cancel' h.nonempty)
  rw [nodesFrom_length, tableFrom_length] at hloop
  rw [getSummaryStatistics, hloop]
  rfl

section

omit [DecidableEq C] [DecidableEq F]

theorem sameTree_nodesFrom (k : ℕ) : SameTree m ⟨m.nodesFrom k⟩ := by
  refine ⟨List.length_mapIdx, funext fun i => ?_, funext fun i => ?_⟩
  · rw [parentOf, parentOf, nodesFrom, List.getElem?_mapIdx]
    cases m.nodes[i]? <;> rfl
  · rw [keyOf, keyOf, nodesFrom, List.getElem?_mapIdx]
    cases m.nodes[i]? <;> rfl

theorem childOf_nodesFrom (k : ℕ) : CallPathManager.childOf ⟨m.nodesFrom k⟩ = m.childOf := by
  funext i key
  rw [childOf, childOf, nodesFrom, List.getElem?_mapIdx]
  cases m.nodes[i]? <;> rfl

end

/-- The entry for a call site and a function: its nodes, and what was counted in them and below
them, each node once. -/
noncomputable def summary (m : CallPathManager C F) : CallSiteSummaryTable C F := fun key =>
  if ∃ a, 0 < a ∧ a < m.nodes.length ∧ m.keyOf a = key then
    some ⟨∑ a ∈ range m.nodes.length with 0 < a ∧ m.keyOf a = key, m.countOf a,
      ∑ q ∈ range m.nodes.length with ∃ a, 0 < a ∧ m.keyOf a = key ∧ Above m.parentOf a q, m.own q⟩
  else none

theorem Valid.tableFrom_one (h : Valid m) : m.tableFrom 1 = m.summary := by
  funext key
  have hcount : m.sumFrom (fun d => m.keyOf d = key) m.countOf 1 =
      ∑ a ∈ range m.nodes.length with 0 < a ∧ m.keyOf a = key, m.countOf a := by
    refine sum_congr (Finset.ext fun a => ?_) fun _ _ => rfl
    simp only [mem_filter]
    exact and_congr_right fun _ => and_comm
  have hstatistics : m.sumFrom (fun d => m.keyOf d = key) (subtree m.parentOf m.own m.nodes.length) 1 =
      ∑ q ∈ range m.nodes.length with ∃ a, 0 < a ∧ m.keyOf a = key ∧ Above m.parentOf a q, m.own q := by
    rw [sumFrom, sum_subtree]
    · refine sum_congr (filter_congr fun q hq => ?_) fun _ _ => rfl
      simp only [mem_filter, mem_range]
      constructor
      · rintro ⟨a, ⟨-, hkey, hpos⟩, ha⟩
        exact ⟨a, hpos, hkey, ha⟩
      · rintro ⟨a, hpos, hkey, ha⟩
        exact ⟨a, ⟨(ha.le h.parent_lt).trans_lt (mem_range.mp hq), hkey, hpos⟩, ha⟩
    · -- a node and one above it have different keys
      intro a ha b hb q haq hbq
      simp only [mem_filter, mem_range] at ha hb
      have hkey : m.keyOf a = m.keyOf b := ha.2.1.trans hb.2.1.symm
      rcases haq.total hbq with hab | hba
      · exact h.distinct a b hab hb.1 hkey
      · exact (h.distinct b a hba ha.1 hkey.symm).symm
  have hiff : (∃ d < m.nodes.length, m.keyOf d = key ∧ 1 ≤ d) ↔ ∃ a, 0 < a ∧ a < m.nodes.length ∧ m.keyOf a = key :=
    exists_congr fun a => ⟨fun ⟨hlt, hkey, hpos⟩ => ⟨hpos, hlt, hkey⟩, fun ⟨hpos, hlt, hkey⟩ => ⟨hlt, hkey, hpos⟩⟩
  rw [tableFrom, summary, hcount, hstatistics]
  by_cases hex : ∃ a, 0 < a ∧ a < m.nodes.length ∧ m.keyOf a = key
  · rw [if_pos hex, if_pos (hiff.mpr hex)]
  · rw [if_neg hex, if_neg fun h => hex (hiff.mp h)]

/-- What a step keeps: the tree stays valid, what it returns is a node, and a new node has the
key that was asked for. -/
structure StepKeeps (m : CallPathManager C F) (op : Op C F) (out : Option ℕ) (m' : CallPathManager C F) : Prop where
  valid : Valid m'
  length_le : m.nodes.length ≤ m'.nodes.length
  out_lt : ∀ p, out = some p → p < m'.nodes.length
  keyOf : ∀ i, m'.keyOf i = m.keyOf i ∨ ∃ parent cs f, op = .getCallPath parent cs f ∧ m'.keyOf i = (cs, f)

omit [DecidableEq C] [DecidableEq F] in
theorem Valid.stepKeeps (h : Valid m) {op : Op C F} (hs : SameTree m m') (hc : m'.childOf = m.childOf) :
    StepKeeps m op none m' where
  valid := h.congr hs hc
  length_le := hs.length.ge
  out_lt := by simp
  keyOf i := .inl (by rw [hs.keyOf])

theorem Valid.step (h : Valid m) {op : Op C F} {out : Option ℕ} (hstep : m.step op = some (out, m')) :
    StepKeeps m op out m' := by
  cases op with
  | getCallPath parent cs f =>
    obtain ⟨⟨cp, m₁⟩, hcall, hout⟩ := Option.map_eq_some_iff.mp hstep
    cases hout
    have hp : parent.getD 0 < m.nodes.length := by
      obtain ⟨n, hn, -⟩ := Option.bind_eq_some_iff.mp hcall
      exact (List.getElem?_eq_some_iff.mp hn).1
    obtain ⟨cp', m2, hcall', hvalid, hcp, hlen, hkeys⟩ := h.getCallPath hp cs f
    cases hcall.symm.trans hcall'
    exact ⟨hvalid, hlen, fun p hp => Option.some.inj hp ▸ hcp, fun i => (hkeys i).imp id fun hk => ⟨_, _, _, rfl, hk⟩⟩
  | incrementCount node =>
    rw [CallPathManager.step] at hstep
    split_ifs at hstep
    cases hstep
    exact h.stepKeeps (sameTree_modify (fun _ => rfl) fun _ => rfl) (childOf_modify fun _ => rfl)
  | incrementValue node s addend =>
    rw [CallPathManager.step] at hstep
    split_ifs at hstep
    cases hstep
    exact h.stepKeeps (sameTree_modify (fun _ => rfl) fun _ => rfl) (childOf_modify fun _ => rfl)
  | getSummaryStatistics =>
    rw [CallPathManager.step, h.getSummaryStatistics_eq] at hstep
    cases hstep
    exact h.stepKeeps (sameTree_nodesFrom 1) (childOf_nodesFrom 1)

theorem Valid.run (ops : List (Op C F)) {outs : List (Option ℕ)} (h : Valid m)
    (hrun : Machine.run CallPathManager.step m ops = some (outs, m')) :
    Valid m' ∧ m.nodes.length ≤ m'.nodes.length ∧ (∀ p, some p ∈ outs → p < m'.nodes.length) ∧
      ∀ i, m'.keyOf i = m.keyOf i ∨ ∃ parent cs f, .getCallPath parent cs f ∈ ops ∧ m'.keyOf i = (cs, f) := by
  induction ops generalizing m outs with
  | nil =>
    cases hrun
    exact ⟨h, le_rfl, by simp, fun _ => .inl rfl⟩
  | cons op ops ih =>
    obtain ⟨o, m₁, os, hstep, hrun', rfl⟩ := Machine.run_cons.mp hrun
    have hkeeps := h.step hstep
    obtain ⟨hvalid, hlen, hout, hkeys⟩ := ih hkeeps.valid hrun'
    refine ⟨hvalid, hkeeps.length_le.trans hlen, fun p hp => ?_, fun i => ?_⟩
    · rcases List.mem_cons.mp hp with rfl | hp
      · exact (hkeeps.out_lt p rfl).trans_le hlen
      · exact hout p hp
    · rcases hkeys i with hi | ⟨parent, cs, f, hop, hi⟩
      · rw [hi]
        exact (hkeeps.keyOf i).imp id fun ⟨parent, cs, f, hop, hi⟩ => ⟨parent, cs, f, hop ▸ List.mem_cons_self, hi⟩
      · exact .inr ⟨parent, cs, f, List.mem_cons_of_mem _ hop, hi⟩

omit [DecidableEq C] [DecidableEq F] in
theorem valid_start : Valid ({} : CallPathManager C F) := by
  refine ⟨⟨Nat.one_pos, ⟨rfl, rfl⟩, fun i hpos hi => ?_, fun a q ha hq _ => ?_⟩, fun i key c hc => ?_, fun c p hp => ?_⟩
  · exact absurd hpos (not_lt.mpr (Nat.lt_one_iff.mp hi).le)
  · obtain rfl : q = 0 := Nat.lt_one_iff.mp hq
    rcases above_iff_parent.mp ha with rfl | ⟨p, hp, -⟩
    · rfl
    · cases hp
  · cases i <;> cases hc
  · cases c <;> cases hp

omit [DecidableEq C] [DecidableEq F] in
theorem Tree.root_unique (h : Tree m) {q q' : ℕ} (hq : q < m.nodes.length) (hq' : q' < m.nodes.length)
    (hnone : m.parentOf q = none) (hnone' : m.parentOf q' = none) : q = q' := by
  have hzero {q} (hq : q < m.nodes.length) (hnone : m.parentOf q = none) : q = 0 := by
    by_contra hne
    obtain ⟨p, -, hp⟩ := h.parent q (Nat.pos_of_ne_zero hne) hq
    rw [hnone] at hp
    cases hp
  rw [hzero hq hnone, hzero hq' hnone']

omit [DecidableEq C] [DecidableEq F] in
theorem Valid.sibling_unique (h : Valid m) {q q' p : ℕ} (hq : m.parentOf q = some p) (hq' : m.parentOf q' = some p)
    (hkey : m.keyOf q = m.keyOf q') : q = q' := by
  have hlisted := h.listed q p hq
  rw [hkey, h.listed q' p hq'] at hlisted
  exact (Option.some.inj hlisted).symm

/-- Whatever was done, calls with parents that were returned do not fail, no pair of a call site
and a function comes twice on a path from the root, and the summary counts every node once. The
number of nodes is bounded by the pairs that were asked for. -/
theorem run_summary (ops : List (Op C F)) {outs : List (Option ℕ)}
    (hrun : Machine.run CallPathManager.step {} ops = some (outs, m)) :
    (∀ parent, parent = none ∨ parent ∈ outs → ∀ cs f, ∃ cp m', m.getCallPath parent cs f = some (cp, m')) ∧
    (∀ a q, Above m.parentOf a q → q < m.nodes.length → m.keyOf a = m.keyOf q → a = q) ∧
    (∀ keys : Finset (CallKey C F), (∀ parent cs f, .getCallPath parent cs f ∈ ops → (cs, f) ∈ keys) →
      m.nodes.length ≤ ((insert (none, none) keys).powerset.biUnion fun t => t.val.lists.toFinset).card) ∧
    ∃ m', m.getSummaryStatistics = some (m.summary, m') := by
  obtain ⟨h, -, hout, hkeys⟩ := valid_start.run ops hrun
  refine ⟨fun parent hparent cs f => ?_, h.distinct, fun keys hops => ?_,
    ⟨⟨m.nodesFrom 1⟩, by rw [h.getSummaryStatistics_eq, h.tableFrom_one]⟩⟩
  · have hp : parent.getD 0 < m.nodes.length := by
      rcases hparent with rfl | hparent
      · exact h.nonempty
      · cases parent with
        | none => exact h.nonempty
        | some p => exact hout p hparent
    obtain ⟨cp, m', hcall, -⟩ := h.getCallPath hp cs f
    exact ⟨cp, m', hcall⟩
  · have hbound := card_le h.parent_lt h.root_unique h.sibling_unique (fun ha => h.distinct _ _ ha)
      (insert (none, none) keys) fun q _ => ?_
    · convert hbound
    · rcases hkeys q with hq | ⟨parent, cs, f, hop, hq⟩
      · have hnone : keyOf ({} : CallPathManager C F) q = (none, none) := by cases q <;> rfl
        rw [hq, hnone]
        exact mem_insert_self ..
      · rw [hq]
        exact mem_insert_of_mem (hops parent cs f hop)

end

/-- A call that recurs is folded onto the node of the first one. -/
theorem run_summary_recursive : ∃ m, Machine.run step ({} : CallPathManager ℕ ℕ)
      [.getCallPath none none (some 0), .getCallPath (some 1) (some 7) (some 1),
        .getCallPath (some 2) (some 7) (some 1), .incrementCount 2] = some ([some 1, some 2, some 2, none], m) ∧
    ∃ m', m.getSummaryStatistics = some (m.summary, m') := by
  obtain ⟨m, hrun⟩ : ∃ m, Machine.run step ({} : CallPathManager ℕ ℕ)
      [.getCallPath none none (some 0), .getCallPath (some 1) (some 7) (some 1),
        .getCallPath (some 2) (some 7) (some 1), .incrementCount 2] = some ([some 1, some 2, some 2, none], m) := ⟨_, rfl⟩
  exact ⟨m, hrun, (run_summary _ hrun).2.2.2⟩

end Klee.CallPathManager
