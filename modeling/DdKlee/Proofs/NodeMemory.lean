import DdKlee.Lib.HeightTree
import DdKlee.Spec.ImmutableTree

/-! The references that nodes count. What is reached from the roots that are held is never
deleted or changed, apart from its counts. -/

namespace Klee.ImmutableTree

variable {V : Type} {mem mem' mem'' : Memory V} {r : Ref} {i : ℕ} {n : Node V} {t tl tr : HeightTree V} {v : V}
  {L L' : Multiset (Ref × HeightTree V)}

/-- The tree of a node. The heights that are stored are exact. -/
inductive Represents (mem : Memory V) : Ref → HeightTree V → Prop
  | leaf : Represents mem none .leaf
  | node {i : ℕ} {n : Node V} {l r : HeightTree V} (get : mem.nodes.get i = some n) (left : Represents mem n.left l)
      (right : Represents mem n.right r) (height : n.height = (HeightTree.node l n.value r).height) :
      Represents mem (some i) (.node l n.value r)

def Memory.parents (mem : Memory V) (r : Ref) : ℕ := mem.nodes.sum fun n => [n.left, n.right].count r

/-- The nodes count the references to them, those from the roots and those from nodes. -/
structure Holds (mem : Memory V) (L : Multiset (Ref × HeightTree V)) : Prop where
  roots : ∀ p ∈ L, Represents mem p.1 p.2
  nodes : ∀ i n, mem.nodes.get i = some n → ∃ t, Represents mem (some i) t
  counts : ∀ i n, mem.nodes.get i = some n →
    n.references = (L.map Prod.fst).count (some i) + mem.parents (some i) ∧ 0 < n.references
  terminator : mem.terminator = (L.map Prod.fst).count none + mem.parents none + 3

inductive Reaches (mem : Memory V) (L : Multiset (Ref × HeightTree V)) : Ref → Prop
  | root {p : Ref × HeightTree V} (h : p ∈ L) : Reaches mem L p.1
  | left {i : ℕ} {n : Node V} (h : Reaches mem L (some i)) (get : mem.nodes.get i = some n) : Reaches mem L n.left
  | right {i : ℕ} {n : Node V} (h : Reaches mem L (some i)) (get : mem.nodes.get i = some n) : Reaches mem L n.right

def Kept (mem' : Memory V) (i : ℕ) (n : Node V) : Prop :=
  ∃ references, mem'.nodes.get i = some { n with references }

def Keeps (L : Multiset (Ref × HeightTree V)) (mem mem' : Memory V) : Prop :=
  ∀ i n, Reaches mem L (some i) → mem.nodes.get i = some n → Kept mem' i n

theorem Reaches.mono (hle : L ≤ L') (h : Reaches mem L r) : Reaches mem L' r := by
  induction h with
  | root h => exact .root (Multiset.mem_of_le hle h)
  | left h get ih => exact .left ih get
  | right h get ih => exact .right ih get

theorem Keeps.mono (hle : L ≤ L') (h : Keeps L' mem mem') : Keeps L mem mem' :=
  fun i n hreach hget => h i n (hreach.mono hle) hget

theorem Keeps.reaches (h : Keeps L mem mem') (hr : Reaches mem L r) : Reaches mem' L r := by
  induction hr with
  | root h => exact .root h
  | @left i n hreach get ih =>
    obtain ⟨k, hk⟩ := h i n hreach get
    exact .left (n := { n with references := k }) ih hk
  | @right i n hreach get ih =>
    obtain ⟨k, hk⟩ := h i n hreach get
    exact .right (n := { n with references := k }) ih hk

theorem Keeps.trans (h : Keeps L mem mem') (h' : Keeps L mem' mem'') : Keeps L mem mem'' := by
  intro i n hreach hget
  obtain ⟨k, hk⟩ := h i n hreach hget
  exact h' i { n with references := k } (h.reaches hreach) hk

theorem Keeps.represents (h : Keeps L mem mem') (hr : Reaches mem L r) (ht : Represents mem r t) :
    Represents mem' r t := by
  induction ht with
  | leaf => exact .leaf
  | @node i n _ _ get _ _ height ihl ihr =>
    obtain ⟨k, hk⟩ := h i n hr get
    exact .node (n := { n with references := k }) hk (ihl (.left hr get)) (ihr (.right hr get)) height

def Borrowed (mem : Memory V) (L : Multiset (Ref × HeightTree V)) (r : Ref) (t : HeightTree V) : Prop :=
  Reaches mem L r ∧ Represents mem r t

theorem Keeps.borrowed (h : Keeps L mem mem') (hr : Borrowed mem L r t) : Borrowed mem' L r t :=
  ⟨h.reaches hr.1, h.represents hr.1 hr.2⟩

theorem Borrowed.mono (hle : L ≤ L') (h : Borrowed mem L r t) : Borrowed mem L' r t := ⟨h.1.mono hle, h.2⟩

theorem Holds.borrowed (h : Holds mem L) (hmem : (r, t) ∈ L) : Borrowed mem L r t := ⟨.root hmem, h.roots _ hmem⟩

theorem Represents.cases_node (h : Represents mem r (.node tl v tr)) :
    ∃ i n, r = some i ∧ mem.nodes.get i = some n ∧ n.value = v ∧ n.height = (HeightTree.node tl v tr).height ∧
      Represents mem n.left tl ∧ Represents mem n.right tr := by
  cases h with
  | node get left right height => exact ⟨_, _, rfl, get, rfl, height, left, right⟩

theorem Represents.live (h : Represents mem (some i) t) : ∃ n, mem.nodes.get i = some n := by
  cases h with
  | node get => exact ⟨_, get⟩

theorem Represents.none_iff (h : Represents mem r t) : r = none ↔ t = .leaf := by
  cases h <;> simp

theorem Represents.of_kept (hkept : ∀ i n, mem.nodes.get i = some n → Kept mem' i n) (h : Represents mem r t) :
    Represents mem' r t := by
  induction h with
  | leaf => exact .leaf
  | @node i n _ _ get _ _ height ihl ihr =>
    obtain ⟨k, hk⟩ := hkept i n get
    exact .node (n := { n with references := k }) hk ihl ihr height

theorem Holds.live_left (h : Holds mem L) (hget : mem.nodes.get i = some n) (tl : Ref) (hl : tl = n.left ∨ tl = n.right) :
    ∃ t, Represents mem tl t := by
  obtain ⟨t, ht⟩ := h.nodes i n hget
  cases ht with
  | node get left right =>
    cases hget.symm.trans get
    rcases hl with rfl | rfl
    · exact ⟨_, left⟩
    · exact ⟨_, right⟩

theorem Holds.no_parents (h : Holds mem L) (hnone : mem.nodes.get i = none) : mem.parents (some i) = 0 := by
  refine Store.sum_eq_zero fun j n hn => List.count_eq_zero.mpr fun hmem => ?_
  obtain ⟨t, ht⟩ := h.live_left hn (some i) (by simpa using hmem)
  obtain ⟨n', hn'⟩ := ht.live
  rw [hnone] at hn'
  cases hn'

theorem Holds.no_root (h : Holds mem L) (hnone : mem.nodes.get i = none) : (L.map Prod.fst).count (some i) = 0 := by
  refine Multiset.count_eq_zero.mpr fun hmem => ?_
  obtain ⟨p, hp, hfst⟩ := Multiset.mem_map.mp hmem
  have hp' := h.roots p hp
  rw [hfst] at hp'
  obtain ⟨n', hn'⟩ := hp'.live
  rw [hnone] at hn'
  cases hn'

theorem parents_pos (hget : mem.nodes.get i = some n) (hr : r = n.left ∨ r = n.right) : 0 < mem.parents r := by
  have hcount : 0 < [n.left, n.right].count r := List.count_pos_iff.mpr (by simpa using hr)
  exact Nat.lt_of_lt_of_le hcount (Store.le_sum (f := fun n => [n.left, n.right].count r) hget)

theorem not_reaches (hroot : (L.map Prod.fst).count (some i) = 0) (hparent : mem.parents (some i) = 0) :
    ¬ Reaches mem L (some i) := by
  intro h
  generalize hr : some i = r at h
  cases h with
  | root hmem => exact Multiset.count_eq_zero.mp hroot (hr ▸ Multiset.mem_map_of_mem Prod.fst hmem)
  | left h get => exact Nat.ne_of_gt (parents_pos get (.inl hr)) hparent
  | right h get => exact Nat.ne_of_gt (parents_pos get (.inr hr)) hparent

def Grows (mem mem' : Memory V) : Prop := ∀ i n, mem.nodes.get i = some n → Kept mem' i n

theorem Grows.trans (h : Grows mem mem') (h' : Grows mem' mem'') : Grows mem mem'' := by
  intro i n hget
  obtain ⟨k, hk⟩ := h i n hget
  exact h' i { n with references := k } hk

theorem Grows.keeps (h : Grows mem mem') : Keeps L mem mem' := fun i n _ hget => h i n hget

def Memory.setReferences (mem : Memory V) (i : ℕ) (n : Node V) (k : ℕ) : Memory V :=
  { mem with nodes := mem.nodes.set i { n with references := k } }

theorem setReferences_grows {k : ℕ} (hget : mem.nodes.get i = some n) : Grows mem (mem.setReferences i n k) := by
  intro j m hm
  by_cases hj : j = i
  · subst hj
    cases hget.symm.trans hm
    exact ⟨k, Store.get_set_self hget⟩
  · exact ⟨m.references, (Store.get_set_ne hj).trans hm⟩

theorem setReferences_parents {k : ℕ} (hget : mem.nodes.get i = some n) (r : Ref) :
    (mem.setReferences i n k).parents r = mem.parents r :=
  Nat.add_right_cancel (Store.sum_set (f := fun n => [n.left, n.right].count r) (a := { n with references := k }) hget)

theorem Holds.setReferences (h : Holds mem L) {k : ℕ} (hget : mem.nodes.get i = some n)
    (hroots : ∀ p ∈ L', Represents mem p.1 p.2)
    (hcount : ∀ r, r ≠ some i → (L'.map Prod.fst).count r = (L.map Prod.fst).count r)
    (hk : k = (L'.map Prod.fst).count (some i) + mem.parents (some i)) (hpos : 0 < k) :
    Holds (mem.setReferences i n k) L' where
  roots p hp := (hroots p hp).of_kept (setReferences_grows hget)
  nodes j m hm := by
    by_cases hj : j = i
    · subst hj
      obtain ⟨t, ht⟩ := h.nodes j n hget
      exact ⟨t, ht.of_kept (setReferences_grows hget)⟩
    · obtain ⟨t, ht⟩ := h.nodes j m ((Store.get_set_ne hj).symm.trans hm)
      exact ⟨t, ht.of_kept (setReferences_grows hget)⟩
  counts j m hm := by
    rw [setReferences_parents hget]
    by_cases hj : j = i
    · subst hj
      cases (Store.get_set_self hget).symm.trans hm
      exact ⟨hk, hpos⟩
    · rw [hcount _ (by simpa using hj)]
      exact h.counts j m ((Store.get_set_ne hj).symm.trans hm)
  terminator := by
    rw [setReferences_parents hget, hcount none (by simp)]
    exact h.terminator

theorem setTerminator_grows (mem : Memory V) (k : ℕ) : Grows mem { mem with terminator := k } :=
  fun _ n hn => ⟨n.references, hn⟩

theorem Holds.setTerminator (h : Holds mem L) {k : ℕ} (hroots : ∀ p ∈ L', Represents mem p.1 p.2)
    (hcount : ∀ r, r ≠ none → (L'.map Prod.fst).count r = (L.map Prod.fst).count r)
    (hk : k = (L'.map Prod.fst).count none + mem.parents none + 3) : Holds { mem with terminator := k } L' where
  roots p hp := (hroots p hp).of_kept (setTerminator_grows mem k)
  nodes j m hm := by
    obtain ⟨t, ht⟩ := h.nodes j m hm
    exact ⟨t, ht.of_kept (setTerminator_grows mem k)⟩
  counts j m hm := by
    rw [hcount _ (by simp)]
    exact h.counts j m hm
  terminator := hk

open Prog

variable {R : Ref → Memory V → Prop}

theorem get_eq (hget : mem.nodes.get i = some n) : Node.get i mem = some (n, mem) := by rw [Node.get, hget]; rfl

theorem getHeight_eq (h : Represents mem r t) : Node.getHeight r mem = some (t.height, mem) := by
  cases h with
  | leaf => rfl
  | node get _ _ height =>
    rw [← height]
    exact Option.bind_eq_some_iff.mpr ⟨_, get_eq get, rfl⟩

theorem count_cons_self : (((r, t) ::ₘ L).map Prod.fst).count r = (L.map Prod.fst).count r + 1 := by
  rw [Multiset.map_cons, Multiset.count_cons_self]

theorem count_cons_ne {r' : Ref} (hne : r' ≠ r) :
    (((r, t) ::ₘ L).map Prod.fst).count r' = (L.map Prod.fst).count r' := by
  rw [Multiset.map_cons, Multiset.count_cons_of_ne hne]

theorem incref_ends (h : Holds mem L) (hr : Represents mem r t) :
    Ends (Node.incref r) mem fun a mem' => a = r ∧ Holds mem' ((r, t) ::ₘ L) ∧ Grows mem mem' := by
  have hroots : ∀ p ∈ (r, t) ::ₘ L, Represents mem p.1 p.2 := Multiset.forall_mem_cons.mpr ⟨hr, h.roots⟩
  cases r with
  | none =>
    refine ⟨_, _, rfl, rfl, h.setTerminator hroots (fun _ => count_cons_ne) ?_, setTerminator_grows mem _⟩
    rw [count_cons_self, h.terminator]
    omega
  | some i =>
    obtain ⟨n, hget⟩ := hr.live
    refine Ends.step (get_eq hget) ⟨_, _, rfl, rfl, ?_, setReferences_grows hget⟩
    refine h.setReferences hget hroots (fun _ => count_cons_ne) ?_ (Nat.succ_pos _)
    rw [count_cons_self, (h.counts i n hget).1]
    omega

theorem incref_then {β : Type} {x : Ref → Prog (Memory V) β} {Q : β → Memory V → Prop} (h : Holds mem L)
    (hr : Represents mem r t) (hx : ∀ m, Holds m ((r, t) ::ₘ L) → Grows mem m → Ends (x r) m Q) :
    Ends (Node.incref r >>= x) mem Q := by
  refine (incref_ends h hr).andThen fun _ m ⟨heq, h1, hg⟩ => ?_
  subst heq
  exact hx m h1 hg

theorem count_cons_cons {l r r' : Ref} :
    (((l, tl) ::ₘ (r, tr) ::ₘ L).map Prod.fst).count r' = (L.map Prod.fst).count r' + [l, r].count r' := by
  simp only [Multiset.map_cons, Multiset.count_cons, List.count_cons, List.count_nil, beq_iff_eq, eq_comm (a := r')]
  omega

/-- A new node takes over the references to its children. -/
theorem Holds.alloc {l r : Ref} (h : Holds mem ((l, tl) ::ₘ (r, tr) ::ₘ L)) {i : ℕ} {nodes : Store (Node V)}
    (hn : n = ⟨l, r, v, (HeightTree.node tl v tr).height, 1⟩) (halloc : mem.nodes.alloc n = (i, nodes)) :
    Holds { mem with nodes } ((some i, .node tl v tr) ::ₘ L) ∧ Grows mem { mem with nodes } := by
  obtain rfl : (mem.nodes.alloc n).1 = i := by rw [halloc]
  obtain rfl : (mem.nodes.alloc n).2 = nodes := by rw [halloc]
  have hgrows : Grows mem { mem with nodes := (mem.nodes.alloc n).2 } :=
    fun j m hm => ⟨m.references, (Store.get_alloc (Store.ne_alloc hm)).trans hm⟩
  have hparents : ∀ r', Memory.parents { mem with nodes := (mem.nodes.alloc n).2 } r' =
      mem.parents r' + [l, r].count r' := fun r' => by rw [Memory.parents, Store.sum_alloc, hn]; rfl
  have hnew : Represents { mem with nodes := (mem.nodes.alloc n).2 } (some (mem.nodes.alloc n).1) (.node tl v tr) := by
    have hl := h.roots _ (Multiset.mem_cons_self ..)
    have hr := h.roots _ (Multiset.mem_cons_of_mem (Multiset.mem_cons_self ..))
    subst hn
    exact .node (n := ⟨l, r, v, _, 1⟩) Store.get_alloc_self (hl.of_kept hgrows) (hr.of_kept hgrows) rfl
  refine ⟨⟨?_, fun j m hm => ?_, fun j m hm => ?_, ?_⟩, hgrows⟩
  · refine Multiset.forall_mem_cons.mpr ⟨hnew, fun p hp => ?_⟩
    exact (h.roots p (Multiset.mem_cons_of_mem (Multiset.mem_cons_of_mem hp))).of_kept hgrows
  · by_cases hj : j = (mem.nodes.alloc n).1
    · exact ⟨_, hj ▸ hnew⟩
    · obtain ⟨t, ht⟩ := h.nodes j m ((Store.get_alloc hj).symm.trans hm)
      exact ⟨t, ht.of_kept hgrows⟩
  · rw [hparents]
    by_cases hj : j = (mem.nodes.alloc n).1
    · subst hj
      cases Store.get_alloc_self.symm.trans hm
      have hroot := h.no_root (Store.get_alloc_fst (a := n))
      have hparent := h.no_parents (Store.get_alloc_fst (a := n))
      have hone : n.references = 1 := by rw [hn]
      rw [count_cons_cons] at hroot
      rw [count_cons_self]
      omega
    · have hcount := h.counts j m ((Store.get_alloc hj).symm.trans hm)
      rw [count_cons_cons] at hcount
      rw [count_cons_ne (by simpa using hj)]
      omega
  · have hterminator := h.terminator
    rw [count_cons_cons] at hterminator
    rw [hparents, count_cons_ne (by simp)]
    change mem.terminator = _
    omega

theorem new_ends {l r : Ref} (h : Holds mem ((l, tl) ::ₘ (r, tr) ::ₘ L)) (v : V) :
    Ends (Node.new l r v) mem fun a mem' => Holds mem' ((a, .node tl v tr) ::ₘ L) ∧ Grows mem mem' := by
  have hl := h.roots _ (Multiset.mem_cons_self ..)
  have hr := h.roots _ (Multiset.mem_cons_of_mem (Multiset.mem_cons_self ..))
  refine Ends.step (getHeight_eq hl) (Ends.step (getHeight_eq hr) ?_)
  exact ⟨_, _, rfl, h.alloc rfl rfl⟩

theorem Represents.free (hparent : mem.parents (some i) = 0) (h : Represents mem r t) (hr : r ≠ some i) :
    Represents { mem with nodes := mem.nodes.free i } r t := by
  induction h with
  | leaf => exact .leaf
  | @node j n _ _ get _ _ height ihl ihr =>
    have hget : (mem.nodes.free i).get j = some n := (Store.get_free_ne fun hj => hr (by rw [hj])).trans get
    refine .node hget (ihl fun hl => ?_) (ihr fun hr => ?_) height
    · exact Nat.ne_of_gt (parents_pos get (.inl hl.symm)) hparent
    · exact Nat.ne_of_gt (parents_pos get (.inr hr.symm)) hparent

theorem Holds.free (h : Holds mem ((some i, t) ::ₘ L)) (hget : mem.nodes.get i = some n) (hone : n.references = 1)
    (hl : Represents mem n.left tl) (hr : Represents mem n.right tr) :
    Holds { mem with nodes := mem.nodes.free i } ((n.left, tl) ::ₘ (n.right, tr) ::ₘ L) ∧
      Keeps L mem { mem with nodes := mem.nodes.free i } := by
  have hcount := h.counts i n hget
  rw [count_cons_self, hone] at hcount
  have hroot : (L.map Prod.fst).count (some i) = 0 := by omega
  have hparent : mem.parents (some i) = 0 := by omega
  have hparents : ∀ r', Memory.parents { mem with nodes := mem.nodes.free i } r' + [n.left, n.right].count r' =
      mem.parents r' := fun r' => Store.sum_free (f := fun n : Node V => [n.left, n.right].count r') hget
  have hleft : n.left ≠ some i := fun heq => Nat.ne_of_gt (parents_pos hget (.inl heq.symm)) hparent
  have hright : n.right ≠ some i := fun heq => Nat.ne_of_gt (parents_pos hget (.inr heq.symm)) hparent
  have hother : ∀ {j m}, (mem.nodes.free i).get j = some m → j ≠ i ∧ mem.nodes.get j = some m := by
    intro j m hm
    have hj : j ≠ i := by
      rintro rfl
      cases Store.get_free_self.symm.trans hm
    exact ⟨hj, (Store.get_free_ne hj).symm.trans hm⟩
  refine ⟨⟨?_, fun j m hm => ?_, fun j m hm => ?_, ?_⟩, fun j m hreach hm => ?_⟩
  · refine Multiset.forall_mem_cons.mpr ⟨hl.free hparent hleft, Multiset.forall_mem_cons.mpr
      ⟨hr.free hparent hright, fun p hp => ?_⟩⟩
    refine (h.roots p (Multiset.mem_cons_of_mem hp)).free hparent fun hfst => ?_
    exact Multiset.count_eq_zero.mp hroot (hfst ▸ Multiset.mem_map_of_mem Prod.fst hp)
  · obtain ⟨hj, hm⟩ := hother hm
    obtain ⟨u, hu⟩ := h.nodes j m hm
    exact ⟨u, hu.free hparent (by simpa using hj)⟩
  · obtain ⟨hj, hm⟩ := hother hm
    have hcounts := h.counts j m hm
    have hsum := hparents (some j)
    rw [count_cons_ne (by simpa using hj)] at hcounts
    rw [count_cons_cons]
    omega
  · have hterminator := h.terminator
    have hsum := hparents none
    rw [count_cons_ne (by simp)] at hterminator
    rw [count_cons_cons]
    change mem.terminator = _
    omega
  · have hj : j ≠ i := by
      rintro rfl
      exact not_reaches hroot hparent hreach
    exact ⟨m.references, (Store.get_free_ne hj).trans hm⟩

theorem decref_terminator (fuel : ℕ) (h : Holds mem ((none, t) ::ₘ L)) :
    Ends (Node.decrefFrom fuel none) mem fun _ mem' => Holds mem' L ∧ Keeps L mem mem' := by
  have hterminator := h.terminator
  rw [count_cons_self] at hterminator
  have hroots : ∀ p ∈ L, Represents mem p.1 p.2 := fun p hp => h.roots p (Multiset.mem_cons_of_mem hp)
  refine ⟨(), { mem with terminator := mem.terminator - 1 }, ?_, ?_, (setTerminator_grows mem _).keeps⟩
  · rw [Node.decrefFrom]
    exact if_neg (by omega)
  · exact h.setTerminator hroots (fun _ hne => (count_cons_ne hne).symm) (by omega)

theorem decrefFrom_ends (fuel : ℕ) (h : Holds mem ((r, t) ::ₘ L)) (hfuel : t.height ≤ fuel) :
    Ends (Node.decrefFrom fuel r) mem fun _ mem' => Holds mem' L ∧ Keeps L mem mem' := by
  induction t generalizing fuel mem r L with
  | leaf =>
    obtain rfl := (h.roots _ (Multiset.mem_cons_self ..)).none_iff.mpr rfl
    exact decref_terminator fuel h
  | node tl v tr ihl ihr =>
    obtain ⟨i, n, rfl, hget, rfl, -, hl, hr⟩ := (h.roots _ (Multiset.mem_cons_self ..)).cases_node
    obtain ⟨fuel, rfl, hlf, hrf⟩ := HeightTree.height_le hfuel
    unfold Node.decrefFrom
    refine Ends.step (get_eq hget) ?_
    split_ifs with hone
    · obtain ⟨h1, hkeeps1⟩ := h.free hget hone hl hr
      refine Ends.step rfl ?_
      refine (ihl _ h1 hlf).andThen fun _ mem2 ⟨h2, hkeeps2⟩ => ?_
      refine (ihr _ h2 hrf).imp fun _ mem3 ⟨h3, hkeeps3⟩ => ⟨h3, ?_⟩
      exact (hkeeps1.trans (hkeeps2.mono (Multiset.le_cons_self ..))).trans hkeeps3
    · refine ⟨_, _, rfl, ?_, (setReferences_grows hget).keeps⟩
      have hcount := h.counts i n hget
      rw [count_cons_self] at hcount
      have hroots : ∀ p ∈ L, Represents mem p.1 p.2 := fun p hp => h.roots p (Multiset.mem_cons_of_mem hp)
      exact h.setReferences hget hroots (fun _ hne => (count_cons_ne hne).symm) (by omega) (by omega)

theorem decref_ends (h : Holds mem ((r, t) ::ₘ L)) :
    Ends (Node.decref r) mem fun _ mem' => Holds mem' L ∧ Keeps L mem mem' :=
  Ends.step (getHeight_eq (h.roots _ (Multiset.mem_cons_self ..))) (decrefFrom_ends _ h (Nat.le_refl _))

end Klee.ImmutableTree
