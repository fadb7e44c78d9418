import DdKlee.Lib.Machine
import DdKlee.Proofs.Rebalance

/-! Items are found, added, taken out and chosen where they are in the order. -/

namespace Klee.DiscretePDF

open Prog Linked BinaryTree

variable {T : Type} {mem mem' m : Memory T} {i j n p : ℕ} {q : Option ℕ} {a b : NodeData T}
  {t t' x y z l r : Linked (NodeData T)} {c : Context (NodeData T)} {f g : Frame (NodeData T)} {d e : Side}
  {rest : ℕ → Option (Node T)} {s : List (T × ℚ)}

theorem setSum_ends (h : Holds mem (plug c (join (i, a) x y d)) rest) :
    Ends (setSum i) mem fun _ mem' =>
      Holds mem' (plug c (join (i, { a with sumWeights := a.weight + sumOf x + sumOf y }) x y d)) rest := by
  obtain ⟨-, hx, hy⟩ := lays_join.mp h.place
  refine Ends.step (get_join h) ?_
  cases d with
  | left =>
    refine Ends.step (getSum_eq hx) (Ends.step (getSum_eq hy) ?_)
    exact setData_ends h fun a => { a with sumWeights := a.weight + sumOf x + sumOf y }
  | right =>
    refine Ends.step (getSum_eq hy) (Ends.step (getSum_eq hx) ?_)
    rw [add_right_comm]
    exact setData_ends h fun a => { a with sumWeights := a.weight + sumOf y + sumOf x }

structure Valid (mem : Memory T) (rest : ℕ → Option (Node T)) (s : List (T × ℚ)) (t : Linked (NodeData T)) : Prop where
  holds : Holds mem t rest
  items : items t = s
  black : topMark t = false
  summed : Summed t

theorem propogateSumsUpFrom_ends (fuel : ℕ) : ∀ {mem c t}, Place mem rest s c t → Summed t → c.length ≤ fuel →
    Ends (propogateSumsUpFrom fuel (parentOf c)) mem fun _ mem' => ∃ t', Valid mem' rest s t' := by
  induction fuel with
  | zero =>
    intro mem c t h ht hfuel
    obtain rfl := List.length_eq_zero_iff.mp (Nat.le_zero.mp hfuel)
    exact Ends.pure ⟨t, h.holds, h.items, h.black, ht⟩
  | succ fuel ih =>
    intro mem c t h ht hfuel
    cases c with
    | nil => exact Ends.pure ⟨t, h.holds, h.items, h.black, ht⟩
    | cons f c =>
      obtain ⟨hf, hsides⟩ := List.forall_mem_cons.mp h.sides
      have hp : Holds mem (plug c (join (f.id, f.data) t f.other f.side)) rest := h.holds
      refine (setSum_ends hp).andThen fun _ m h1 => ?_
      refine Ends.step (get_join h1) ?_
      rw [LinkedNode.parent_join]
      refine ih ⟨h1, ?_, ?_, hsides⟩ (summed_join ht hf) (Nat.le_of_succ_le_succ hfuel)
      · exact h.items ▸ items_plug_congr (c := c) (items_join_congr rfl rfl rfl rfl)
      · exact topMark_plug (c := c) h.black fun hc => by
          subst hc
          have hblack : f.data.mark = false := topMark_join.symm.trans h.black
          exact topMark_join.trans hblack

theorem propogateSumsUp_ends (h : Place mem rest s c t) (ht : Summed t) :
    Ends (propogateSumsUp (parentOf c)) mem fun _ mem' => ∃ t', Valid mem' rest s t' := by
  have hlength := (numNodes_plug c t).trans h.holds.numNodes_le
  exact Ends.step rfl (propogateSumsUpFrom_ends _ h ht (by omega))

theorem Valid.place (h : Valid mem rest s (plug c t)) : Place mem rest s c t ∧ Summed t := by
  suffices hsum : ∀ {c t}, Summed (plug c t) → (∀ f ∈ c, Summed f.other) ∧ Summed t by
    obtain ⟨hsides, ht⟩ := hsum h.summed
    exact ⟨⟨h.holds, h.items, h.black, hsides⟩, ht⟩
  intro c
  induction c with
  | nil => exact fun ht => ⟨nofun, ht⟩
  | cons f c ih =>
    intro t ht
    obtain ⟨hsides, hfill⟩ := ih ht
    obtain ⟨ht, hother⟩ := summed_of_join hfill
    exact ⟨List.forall_mem_cons.mpr ⟨hother, hsides⟩, ht⟩

def slotOf : Context (NodeData T) → Slot
  | [] => .root
  | f :: _ => .child f.id f.side

theorem read_eq (h : Holds mem (plug c t) rest) : (slotOf c).read mem = some (addr t, mem) := by
  cases c with
  | nil => exact congrArg (fun p => some (p, mem)) h.root
  | cons f c =>
    have hp : Holds mem (plug c (join (f.id, f.data) t f.other f.side)) rest := h
    rw [slotOf, Slot.read, bind_eq (get_join hp), LinkedNode.child_join]
    rfl

variable [LinearOrder T] {item : T}

def Fits (item : T) (c : Context (NodeData T)) : Prop :=
  (∀ k ∈ keys (before c), k < item) ∧ ∀ k ∈ keys (after c), item < k

def Ordered (t : Linked (NodeData T)) : Prop := (keys t.inorder).Pairwise (· < ·)

theorem Ordered.children (h : Ordered (plug c (node (i, a) l r))) :
    (∀ k ∈ keys l.inorder, k < a.key) ∧ ∀ k ∈ keys r.inorder, a.key < k := by
  rw [Ordered, inorder_plug] at h
  simp only [keys, inorder, List.map_append, List.map_cons, List.pairwise_append, List.pairwise_cons, List.mem_cons] at h
  exact ⟨fun k hk => h.1.2.1.2.2 k hk _ (.inl rfl), h.1.2.1.2.1.1⟩

theorem Fits.down (h : Fits item c) (hordered : Ordered (plug c (join (i, a) x y (side item a.key)))) (hne : a.key ≠ item) :
    Fits item (⟨side item a.key, i, a, y⟩ :: c) := by
  by_cases hlt : item < a.key
  · have hside : side item a.key = .left := if_pos hlt
    rw [hside] at hordered ⊢
    refine ⟨h.1, fun k hk => ?_⟩
    simp only [keys, after, List.map_append, List.map_cons, List.mem_append, List.mem_cons] at hk
    obtain (rfl | hk) | hk := hk
    · exact hlt
    · exact hlt.trans (hordered.children.2 k hk)
    · exact h.2 k hk
  · have hgt : a.key < item := lt_of_le_of_ne (not_lt.mp hlt) hne
    have hside : side item a.key = .right := if_neg hlt
    rw [hside] at hordered ⊢
    refine ⟨fun k hk => ?_, h.2⟩
    simp only [keys, before, List.map_append, List.map_cons, List.map_nil, List.mem_append, List.mem_singleton] at hk
    obtain hk | hk | rfl := hk
    · exact h.1 k hk
    · exact (hordered.children.1 k hk).trans hgt
    · exact hgt

theorem Fits.side_eq (h : Fits item (f :: c)) : side item f.data.key = f.side := by
  obtain ⟨d, p, b, y⟩ := f
  cases d with
  | left => exact if_pos (h.2 _ (by simp [keys, after]))
  | right => exact if_neg (h.1 _ (by simp [keys, before])).not_gt

theorem Fits.notMem (h : Fits item c) : item ∉ keys (plug c nil).inorder := by
  intro hmem
  rw [inorder_plug] at hmem
  simp only [keys, inorder, List.append_nil, List.map_append, List.mem_append] at hmem
  obtain hmem | hmem := hmem
  · exact lt_irrefl _ (h.1 _ hmem)
  · exact lt_irrefl _ (h.2 _ hmem)

/-- `lookup` ends at the item, or in the place where it is missing. -/
theorem lookupFrom_ends (fuel : ℕ) : ∀ {c t}, Holds mem (plug c t) rest → Ordered (plug c t) → Fits item c →
    t.numNodes ≤ fuel → Ends (lookupFrom item fuel (slotOf c)) mem fun np mem' => mem' = mem ∧
      ∃ c' t', np = slotOf c' ∧ plug c' t' = plug c t ∧
        (t' = nil ∧ Fits item c' ∨ ∃ i a l r, t' = node (i, a) l r ∧ a.key = item) := by
  induction fuel with
  | zero =>
    intro c t h hordered hfits hfuel
    obtain rfl : t = nil := by cases t <;> simp_all [numNodes]
    unfold lookupFrom
    exact Ends.step (read_eq h) (Ends.pure ⟨rfl, c, nil, rfl, rfl, .inl ⟨rfl, hfits⟩⟩)
  | succ fuel ih =>
    intro c t h hordered hfits hfuel
    unfold lookupFrom
    refine Ends.step (read_eq h) ?_
    cases t with
    | nil => exact Ends.pure ⟨rfl, c, nil, rfl, rfl, .inl ⟨rfl, hfits⟩⟩
    | node a l r =>
      obtain ⟨i, a⟩ := a
      refine Ends.step (get_eq h.get) ?_
      by_cases hkey : a.key = item
      · rw [if_pos hkey]
        exact Ends.pure ⟨rfl, c, _, rfl, rfl, .inr ⟨i, a, l, r, rfl, hkey⟩⟩
      · rw [if_neg hkey]
        obtain ⟨x, y, hnode⟩ := exists_join (i, a) l r (side item a.key)
        rw [hnode, numNodes_join] at hfuel
        have hnum : x.numNodes ≤ fuel := by omega
        rw [hnode] at h hordered ⊢
        exact ih (c := ⟨side item a.key, i, a, y⟩ :: c) h hordered (hfits.down hordered hkey) hnum

omit [LinearOrder T] in
theorem keys_inorder (t : Linked (NodeData T)) : keys t.inorder = (items t).map Prod.fst := by
  rw [keys, items, List.map_map]
  rfl

theorem Place.ordered (h : Place mem rest s c t) (hs : (s.map Prod.fst).Pairwise (· < ·)) : Ordered (plug c t) := by
  rw [Ordered, keys_inorder, h.items]
  exact hs

omit [LinearOrder T] in
theorem Place.numNodes_le (h : Place mem rest s c t) : t.numNodes ≤ s.length := by
  have hlength : s.length = (plug c t).numNodes := by rw [← h.items, DiscretePDF.items, List.length_map, length_inorder]
  rw [hlength]
  exact le_trans (Nat.le_add_left _ _) (numNodes_plug c t)

theorem Fits.mono {c' : Context (NodeData T)} (h : Fits item c) (hb : keys (before c') ⊆ keys (before c))
    (ha : keys (after c') ⊆ keys (after c)) : Fits item c' :=
  ⟨fun k hk => h.1 k (hb hk), fun k hk => h.2 k (ha hk)⟩

theorem splitFull_ends (h : Place mem rest s c (node (i, a) l r)) (hl : Summed l) (hr : Summed r) (hfits : Fits item c) :
    Ends (splitFull i) mem fun _ mem' => ∃ c' a' l' r', Place mem' rest s c' (node (i, a') l' r') ∧
      Summed l' ∧ Summed r' ∧ Fits item c' ∧
      (reds (plug c' (node (i, a') l' r')) < reds (plug c (node (i, a) l r)) ∨
        reds (plug c' (node (i, a') l' r')) = reds (plug c (node (i, a) l r)) ∧ l' = l ∧ r' = r) := by
  refine Ends.step (leftIsBlack_eq h.holds) (Ends.step (rightIsBlack_eq h.holds) ?_)
  rw [Bool.not_not, Bool.not_not]
  cases hmarks : topMark l && topMark r with
  | false => exact Ends.pure ⟨c, a, l, r, h, hl, hr, hfits, .inr ⟨rfl, rfl, rfl⟩⟩
  | true =>
    rw [Bool.and_eq_true] at hmarks
    refine (split_ends h hl hr le_rfl).imp fun _ mem' h' => ?_
    obtain ⟨c', a', l', r', hplace, hl', hr', hk, hb, ha⟩ := h'
    refine ⟨c', a', l', r', hplace, hl', hr', hfits.mono hb ha, .inl (lt_of_le_of_lt hk (reds_plug_lt ?_))⟩
    have hnode := reds_join (i := i) (a := a) (x := l) (y := r) (d := .left)
    have hred := reds_join (i := i) (a := { a with mark := true }) (x := remark false l) (y := remark false r) (d := .left)
    have hleft := reds_remark (t := l)
    have hright := reds_remark (t := r)
    rw [hmarks.1] at hleft
    rw [hmarks.2] at hright
    simp only [join, Bool.toNat_true] at hnode hred hleft hright
    omega

theorem insertFrom_ends (hs : (s.map Prod.fst).Pairwise (· < ·)) (hitem : item ∉ s.map Prod.fst) (fuel : ℕ) :
    ∀ {mem c t}, Place mem rest s c t → Summed t → Fits item c →
      reds (plug c t) * (s.length + 1) + t.numNodes < fuel →
      Ends (insertFrom item fuel (parentOf c) (addr t)) mem fun p mem' => ∃ c', p = parentOf c' ∧
        Place mem' rest s c' nil ∧ Fits item c' := by
  induction fuel with
  | zero => intro mem c t h ht hfits hfuel; omega
  | succ fuel ih =>
    intro mem c t h ht hfits hfuel
    cases t with
    | nil => exact Ends.pure ⟨c, rfl, h, hfits⟩
    | node a l r =>
      obtain ⟨i, a⟩ := a
      refine (splitFull_ends h ht.2.1 ht.2.2 hfits).andThen fun _ m h1 => ?_
      obtain ⟨c', a', l', r', h1, hl', hr', hfits', hreds⟩ := h1
      refine Ends.step (get_eq h1.holds.get) ?_
      have hkey : a'.key ≠ item := by
        rintro rfl
        apply hitem
        rw [← h1.items, ← keys_inorder, inorder_plug]
        simp [keys, inorder]
      rw [if_neg hkey]
      have hordered := h1.ordered hs
      obtain ⟨x, y, hnode, hx, hy⟩ := node_eq_join (i := i) (a := a') (side item a'.key) hl' hr'
      have hchild : (⟨parentOf c', addr l', addr r', a'⟩ : Node T).child (side item a'.key) = addr x := by
        cases hside : side item a'.key <;> rw [hside] at hnode <;> cases hnode <;> rfl
      have hmeasure : reds (plug c' (node (i, a') l' r')) * (s.length + 1) + x.numNodes < fuel := by
        have hcount := congrArg numNodes hnode
        rw [numNodes_join, numNodes] at hcount
        have hle := h1.numNodes_le
        obtain hlt | ⟨heq, rfl, rfl⟩ := hreds
        · have hmul := Nat.mul_le_mul_right (s.length + 1) (Nat.succ_le_of_lt hlt)
          rw [Nat.succ_mul] at hmul
          rw [numNodes] at hle
          omega
        · rw [numNodes] at hfuel
          rw [heq]
          omega
      rw [hnode] at h1 hordered hmeasure
      change Ends (insertFrom item fuel (some i) _) m _
      rw [hchild]
      exact ih (c := ⟨side item a'.key, i, a', y⟩ :: c') (h1.down hy) hx (hfits'.down hordered hkey) hmeasure

structure Between (item : T) (s pre suf : List (T × ℚ)) : Prop where
  eq : s = pre ++ suf
  lt : ∀ e ∈ pre, e.1 < item
  gt : ∀ e ∈ suf, item < e.1

theorem Fits.between (h : Fits item c) :
    Between item (items (plug c nil)) ((before c).map entry) ((after c).map entry) where
  eq := by
    rw [items, inorder_plug, inorder, List.append_nil, List.map_append]
  lt e he := by
    obtain ⟨n, hn, rfl⟩ := List.mem_map.mp he
    exact h.1 _ (List.mem_map_of_mem hn)
  gt e he := by
    obtain ⟨n, hn, rfl⟩ := List.mem_map.mp he
    exact h.2 _ (List.mem_map_of_mem hn)

theorem linkNew_ends (h : Place mem rest s c nil) (hfits : Fits item c) {weight : ℚ} {nodes : Store (Node T)}
    (halloc : mem.nodes.alloc ⟨parentOf c, none, none, ⟨false, item, weight, 0⟩⟩ = (i, nodes)) :
    Ends (linkNew item i (parentOf c)) { mem with nodes } fun _ mem' => ∃ c' a l r,
      Place mem' rest ((before c).map entry ++ (item, weight) :: (after c).map entry) c' (node (i, a) l r) ∧
      Summed l ∧ Summed r := by
  have hlink := h.holds.link halloc
  have hplace : Place (relink { mem with nodes } (some i) c) rest ((before c).map entry ++ (item, weight) :: (after c).map entry) c
      (node (i, ⟨false, item, weight, 0⟩) nil nil) := by
    refine ⟨hlink, ?_, topMark_plug h.black fun _ => rfl, h.sides⟩
    rw [items, inorder_plug]
    simp [inorder, entry]
  cases c with
  | nil => exact ⟨(), _, rfl, [], _, nil, nil, hplace, trivial, trivial⟩
  | cons f c =>
    have hf := (lays_join.mp (Holds.place (c := c) h.holds)).1
    have hget : nodes.get f.id = mem.nodes.get f.id := by
      have hnodes : (mem.nodes.alloc _).2 = nodes := congrArg Prod.snd halloc
      rw [← hnodes]
      exact Store.get_alloc (Store.ne_alloc hf)
    refine Ends.step (get_eq (hget.trans hf)) ?_
    rw [LinkedNode.data_join, hfits.side_eq]
    refine Ends.step (modify_eq (hget.trans hf) _) ?_
    refine (split_ends hplace trivial trivial le_rfl).imp fun _ mem' h' => ?_
    obtain ⟨c', a, l, r, hplace', hl, hr, -⟩ := h'
    exact ⟨c', a, l, r, hplace', hl, hr⟩

theorem insert_ends (h : Valid mem rest s t) (hs : (s.map Prod.fst).Pairwise (· < ·)) (hitem : item ∉ s.map Prod.fst)
    (weight : ℚ) : Ends (insert item weight) mem fun _ mem' => ∃ pre suf t', Between item s pre suf ∧
      Valid mem' rest (pre ++ (item, weight) :: suf) t' := by
  have hplace : Place mem rest s [] t := ⟨h.holds, h.items, h.black, by simp⟩
  have hfits : Fits item ([] : Context (NodeData T)) := by simp [Fits, before, after, keys]
  have hlength : s.length = t.numNodes := by rw [← h.items, items, List.length_map, length_inorder]
  have hreds : reds t ≤ s.length := by
    rw [hlength, ← length_inorder]
    exact List.countP_le_length
  refine Ends.step rfl (Ends.step rfl ?_)
  rw [h.holds.root]
  have hmeasure : reds t * (s.length + 1) + t.numNodes < (mem.nodes.cells.length + 1) * (mem.nodes.cells.length + 1) := by
    have hle := h.holds.numNodes_le
    rw [← hlength] at hle ⊢
    calc
      _ ≤ s.length * (s.length + 1) + s.length := Nat.add_le_add_right (Nat.mul_le_mul_right _ hreds) _
      _ < (s.length + 1) * (s.length + 1) := by rw [Nat.succ_mul]; omega
      _ ≤ _ := Nat.mul_le_mul (Nat.succ_le_succ hle) (Nat.succ_le_succ hle)
  refine (insertFrom_ends hs hitem _ hplace h.summed hfits hmeasure).andThen fun p m h1 => ?_
  obtain ⟨c, rfl, h1, hfits⟩ := h1
  refine Ends.step rfl ?_
  refine (linkNew_ends h1 hfits rfl).andThen fun _ m2 h2 => ?_
  obtain ⟨c', a, l, r, h2, hl, hr⟩ := h2
  have hdown : Place m2 rest _ (⟨.left, _, a, r⟩ :: c') l := Place.down (d := .left) h2 hr
  refine (propogateSumsUp_ends hdown hl).imp fun _ mem' h' => ?_
  obtain ⟨t', h'⟩ := h'
  exact ⟨_, _, t', h1.items ▸ hfits.between, h'⟩

theorem lookup_ends (h : Valid mem rest s t) (hs : (s.map Prod.fst).Pairwise (· < ·)) (hitem : item ∈ s.map Prod.fst) :
    Ends (lookup item) mem fun np mem' => mem' = mem ∧ ∃ c i a l r, np = slotOf c ∧ t = plug c (node (i, a) l r) ∧
      a.key = item := by
  have hordered : Ordered t := by
    rw [Ordered, keys_inorder, h.items]
    exact hs
  refine Ends.step rfl ?_
  refine (lookupFrom_ends (c := []) _ h.holds hordered ⟨nofun, nofun⟩ h.holds.numNodes_le).imp fun np mem' h' => ?_
  obtain ⟨rfl, c, t', rfl, heq, ⟨rfl, hfits⟩ | ⟨i, a, l, r, rfl, hkey⟩⟩ := h'
  · have hnot := hfits.notMem
    rw [heq, keys_inorder, plug, h.items] at hnot
    exact absurd hitem hnot
  · exact ⟨rfl, c, i, a, l, r, rfl, heq.symm, hkey⟩

omit [LinearOrder T] in
theorem items_plug_node : items (plug c (node (i, a) l r)) =
    (before c).map entry ++ items l ++ (a.key, a.weight) :: (items r ++ (after c).map entry) := by
  rw [items, inorder_plug]
  simp [inorder, entry, items]

theorem update_ends (h : Valid mem rest s t) (hs : (s.map Prod.fst).Pairwise (· < ·)) (hitem : item ∈ s.map Prod.fst)
    (weight : ℚ) : Ends (update item weight) mem fun _ mem' => ∃ pre w suf t', s = pre ++ (item, w) :: suf ∧
      Valid mem' rest (pre ++ (item, weight) :: suf) t' := by
  refine (lookup_ends h hs hitem).andThen fun np m h1 => ?_
  obtain ⟨rfl, c, i, a, l, r, rfl, rfl, rfl⟩ := h1
  refine Ends.step (read_eq h.holds) (Ends.step rfl ?_)
  refine (setData_ends (d := .left) h.holds fun a => { a with weight }).andThen fun _ m₁ h1 => ?_
  obtain ⟨hplace, hl, hr⟩ := h.place
  have hdown : Place m₁ rest ((before c).map entry ++ items l ++ (a.key, weight) :: (items r ++ (after c).map entry))
      (⟨.left, i, { a with weight }, r⟩ :: c) l := by
    refine ⟨h1, items_plug_node (c := c), topMark_plug (c := c) h.black fun hc => ?_,
      List.forall_mem_cons.mpr ⟨hr.2, hplace.sides⟩⟩
    subst hc
    exact h.black
  refine (propogateSumsUp_ends hdown hr.1).imp fun _ mem' h' => ?_
  obtain ⟨t', h'⟩ := h'
  refine ⟨_, a.weight, _, t', ?_, h'⟩
  rw [← h.items, items_plug_node]

omit [LinearOrder T] in
theorem lengthen_ends (h : Place mem rest s c (join (i, a) x y e)) :
    Ends (lengthen i) mem fun _ mem' => Lengthened mem' rest s (parentOf c) i a x y e := by
  have hlength := (numNodes_plug c (join (i, a) x y e)).trans h.holds.numNodes_le
  exact Ends.step rfl (lengthenFrom_ends _ h (.inl (by omega)))

omit [LinearOrder T] in
theorem lengthen_root (h : Holds mem (join (i, a) x y e) rest) :
    Ends (lengthen i) mem fun _ mem' => Holds mem' (join (i, { a with mark := false }) x y e) rest := by
  refine Ends.step rfl (Ends.step (get_join (c := []) h) ?_)
  rw [LinkedNode.data_join, LinkedNode.parent_join]
  cases ha : a.mark with
  | true => exact setData_ends (c := []) h fun a => { a with mark := false }
  | false =>
    have heq : { a with mark := false } = a := by rw [← ha]
    rw [heq]
    exact Ends.pure h

omit [LinearOrder T] in
theorem write_eq (h : Holds mem (plug c t) rest) (p : Option ℕ) : (slotOf c).write p mem = some ((), relink mem p c) := by
  cases c with
  | nil => rfl
  | cons f c => exact modify_eq (lays_join.mp (Holds.place (c := c) h)).1 _

omit [LinearOrder T] in
theorem relinkChild_ends (h : Holds mem (plug c (join (i, a) x nil d)) rest) (hitems : items (plug c x) = s)
    (hblack : topMark (plug c (join (i, a) x nil d)) = false) (hsides : ∀ f ∈ c, Summed f.other) (hx : Summed x)
    {nd : Node T} (hnd : nd.parent = parentOf c) (hmark : nd.data.mark = a.mark) :
    Ends (relinkChild nd (addr x)) (relink mem (addr x) c) fun _ mem' => ∃ c' x',
      Place mem' (Function.update rest i (mem.nodes.get i)) s c' x' ∧ Summed x' ∧ parentOf c' = parentOf c := by
  cases x with
  | nil =>
    have hholds : Holds (relink mem none c) (plug c nil) (Function.update rest i (mem.nodes.get i)) :=
      h.unlink rfl nofun fun _ _ => rfl
    exact Ends.pure ⟨c, nil, ⟨hholds, hitems, topMark_plug hblack fun _ => rfl, hsides⟩, trivial, rfl⟩
  | node k l r =>
    obtain ⟨k, b⟩ := k
    have hkc : k ∉ contextIds c := notMem_context h (ids_join.mem_iff.mpr (by simp [ids_node]))
    have hhead : ∀ f ∈ c.head?, f.id ≠ k := fun f hf heq => hkc (heq ▸ head_mem_contextIds hf)
    have hget : (relink mem (some k) c).nodes.get k = mem.nodes.get k := get_relink_ne hhead
    obtain ⟨kd, hkd⟩ := (lays_join.mp h.place).2.1.get_addr (i := k) rfl
    refine Ends.step (modify_eq (hget.trans hkd) _) ?_
    generalize hm : upd (relink mem (some k) c) k _ = m
    have hholds : Holds m (plug c (node (k, b) l r)) (Function.update rest i (mem.nodes.get i)) := by
      refine h.unlink (by rw [← hm]; rfl) (fun j hj => ?_) fun j hj => ?_
      · cases hj
        rw [← hm, get_upd, if_pos rfl, hget, hnd]
      · rw [← hm, get_upd, if_neg fun heq : j = k => hj (heq ▸ rfl)]
        rfl
    rw [hmark]
    cases ha : a.mark with
    | true =>
      refine Ends.pure ⟨c, _, ⟨hholds, hitems, topMark_plug hblack fun hc => ?_, hsides⟩, hx, rfl⟩
      subst hc
      cases ha.symm.trans (topMark_join.symm.trans hblack)
    | false =>
      cases c with
      | nil =>
        refine (lengthen_root (e := .left) hholds).imp fun _ mem' h' => ?_
        exact ⟨[], remark false (node (k, b) l r), ⟨h', items_remark.trans hitems, rfl, nofun⟩, hx.remark, rfl⟩
      | cons f c =>
        have hplace : Place m _ s (f :: c) (join (k, b) l r .left) := ⟨hholds, hitems, topMark_plug hblack nofun, hsides⟩
        refine (lengthen_ends hplace).imp fun _ mem' h' => ?_
        obtain ⟨c', mark, h', hp⟩ := h'
        exact ⟨c', remark mark (node (k, b) l r), h', hx.remark, hp⟩

omit [LinearOrder T] in
theorem unlink_ends (h : Holds mem (plug c (node (i, a) l r)) rest) (hnode : node (i, a) l r = join (i, a) x nil d)
    (hitems : items (plug c x) = s) (hblack : topMark (plug c (node (i, a) l r)) = false)
    (hsides : ∀ f ∈ c, Summed f.other) (hx : Summed x) :
    Ends (unlink (slotOf c) i) mem fun _ mem' => ∃ t', Valid mem' rest s t' := by
  have hchild : (if addr l = none then addr r else addr l) = addr x := by
    cases d <;> cases hnode
    · cases x <;> rfl
    · rfl
  have hget := h.get
  have hi : rest i = none := h.apart i (ids_plug.mem_iff.mpr (List.mem_append_left _ (by simp [ids_node])))
  refine Ends.step (get_eq hget) ?_
  rw [hchild]
  refine Ends.step (write_eq h _) ?_
  rw [hnode] at h hblack
  refine (relinkChild_ends h hitems hblack hsides hx rfl rfl).andThen fun _ m h1 => ?_
  obtain ⟨c', x', hplace, hx', hparent⟩ := h1
  rw [hget] at hplace
  refine Ends.step (get_eq (hplace.holds.get_rest (Function.update_self _ _ _))) ?_
  rw [← hparent]
  refine (propogateSumsUp_ends hplace hx').andThen fun _ m2 h2 => ?_
  obtain ⟨t', h2⟩ := h2
  exact ⟨(), _, rfl, t', h2.holds.free hi, h2.items, h2.black, h2.summed⟩

omit [LinearOrder T] in
theorem leftMaxFrom_ends (fuel : ℕ) : ∀ {c t}, Holds mem (plug c t) rest → t ≠ nil → t.numNodes ≤ fuel →
    Ends (leftMaxFrom fuel (slotOf c)) mem fun np mem' => mem' = mem ∧ ∃ c' k b l, np = slotOf (c' ++ c) ∧
      t = plug c' (node (k, b) l nil) ∧ after c' = [] := by
  induction fuel with
  | zero =>
    intro c t h ht hfuel
    cases t with
    | nil => exact absurd rfl ht
    | node a l r => cases hfuel
  | succ fuel ih =>
    intro c t h ht hfuel
    cases t with
    | nil => exact absurd rfl ht
    | node a l r =>
      obtain ⟨i, a⟩ := a
      refine Ends.step (read_eq h) (Ends.step rfl (Ends.step (get_eq h.get) ?_))
      cases r with
      | nil => exact Ends.pure ⟨rfl, [], i, a, l, rfl, rfl, rfl⟩
      | node b r1 r2 =>
        have hdown : Holds mem (plug (⟨.right, i, a, l⟩ :: c) (node b r1 r2)) rest := h
        simp only [numNodes] at hfuel
        refine (ih hdown nofun (by simp only [numNodes]; omega)).imp fun np mem' h' => ?_
        obtain ⟨rfl, c', k, o, l', rfl, heq, hafter⟩ := h'
        refine ⟨rfl, c' ++ [⟨.right, i, a, l⟩], k, o, l', by rw [List.append_assoc]; rfl, ?_, ?_⟩
        · rw [plug_append, ← heq]
          rfl
        · rw [after_append, hafter]
          rfl

theorem remove_ends (h : Valid mem rest s t) (hs : (s.map Prod.fst).Pairwise (· < ·)) (hitem : item ∈ s.map Prod.fst) :
    Ends (remove item) mem fun _ mem' => ∃ pre w suf t', s = pre ++ (item, w) :: suf ∧ Valid mem' rest (pre ++ suf) t' := by
  refine (lookup_ends h hs hitem).andThen fun np m h1 => ?_
  obtain ⟨rfl, c, i, a, l, r, rfl, rfl, rfl⟩ := h1
  obtain ⟨hplace, -, hl, hr⟩ := h.place
  refine Ends.step (read_eq h.holds) (Ends.step rfl (Ends.step (get_eq h.holds.get) ?_))
  suffices hvalid : Ends _ m fun _ mem' => ∃ t', Valid mem' rest
      ((before c).map entry ++ items l ++ (items r ++ (after c).map entry)) t' by
    refine hvalid.imp fun _ mem' h' => ?_
    obtain ⟨t', h'⟩ := h'
    exact ⟨_, a.weight, _, t', by rw [← h.items, items_plug_node], h'⟩
  cases l with
  | nil =>
    refine unlink_ends (d := .right) h.holds rfl ?_ h.black hplace.sides hr
    rw [items, inorder_plug]
    simp [items, inorder]
  | node b l1 l2 =>
    have hdown : Holds m (plug (⟨.left, i, a, r⟩ :: c) (node b l1 l2)) rest := h.holds
    have hbound : (node b l1 l2).numNodes ≤ m.nodes.cells.length := by
      refine le_trans ?_ h.holds.numNodes_le
      exact le_trans (Nat.le_add_left _ _) (numNodes_plug (⟨.left, i, a, r⟩ :: c) _)
    refine Ends.step rfl ((leftMaxFrom_ends _ hdown (by simp) hbound).andThen fun np m₁ h1 => ?_)
    obtain ⟨rfl, c', k, o, l', rfl, hleft, hafter⟩ := h1
    have hmax : Valid m₁ rest s (plug (c' ++ ⟨.left, i, a, r⟩ :: c) (node (k, o) l' nil)) := by
      rw [plug_append, ← hleft]
      exact h
    obtain ⟨hsides, -, hl', -⟩ := hmax.place
    refine Ends.step (read_eq hmax.holds) (Ends.step rfl (Ends.step (get_eq hmax.holds.get) ?_))
    refine (setData_ends (d := .left) h.holds fun a => { a with key := o.key, weight := o.weight }).andThen fun _ m2 h2 => ?_
    have hslot : slotOf (c' ++ ⟨.left, i, a, r⟩ :: c) =
        slotOf (c' ++ ⟨.left, i, { a with key := o.key, weight := o.weight }, r⟩ :: c) := by
      cases c' <;> rfl
    rw [hslot]
    refine unlink_ends (a := o) (d := .left) ?_ rfl ?_ ?_ ?_ hl'
    · rw [plug_append, ← hleft]
      exact h2
    · rw [plug_append, hleft, plug, Frame.fill, join, items_plug_node]
      simp [items, inorder_plug, hafter, inorder, entry]
    · rw [plug_append, ← hleft]
      refine topMark_plug (c := c) h.black fun hc => ?_
      subst hc
      exact h.black
    · have hall := hsides.sides
      simp only [List.forall_mem_append, List.forall_mem_cons] at hall ⊢
      exact hall

omit [LinearOrder T] in
theorem total_append {s s' : List (T × ℚ)} : total (s ++ s') = total s + total s' := by simp [total]

omit [LinearOrder T] in
theorem total_cons {k : T} {w : ℚ} : total ((k, w) :: s) = w + total s := by simp [total]

/-- The item at `w` when the weights are put one after another. -/
def Chosen (s : List (T × ℚ)) (w : ℚ) (k : T) : Prop :=
  ∃ pre weight suf, s = pre ++ (k, weight) :: suf ∧ total pre ≤ w ∧ w < total pre + weight

omit [LinearOrder T] in
theorem chooseFrom_ends (fuel : ℕ) : ∀ {q i a l r w}, Lays mem q (node (i, a) l r) → Summed (node (i, a) l r) →
    (node (i, a) l r).numNodes ≤ fuel → 0 ≤ w → w < total (items (node (i, a) l r)) →
    Ends (chooseFrom fuel w i) mem fun k mem' => mem' = mem ∧ Chosen (items (node (i, a) l r)) w k := by
  induction fuel with
  | zero => intro q i a l r w _ _ hfuel; cases hfuel
  | succ fuel ih =>
    intro q i a l r w ⟨hget, hlayl, hlayr⟩ ⟨_, hl, hr⟩ hfuel hw hlt
    refine Ends.step (get_eq hget) (Ends.step (getSum_eq hlayl) ?_)
    simp only [numNodes] at hfuel
    rw [items_node, total_append, total_cons] at hlt
    rw [sumOf_eq hl, items_node]
    by_cases hleft : addr l ≠ none ∧ w < total (items l)
    · rw [if_pos hleft]
      cases l with
      | nil => exact absurd rfl hleft.1
      | node b l1 l2 =>
        obtain ⟨j, b⟩ := b
        refine Ends.step rfl ((ih hlayl hl (by omega) hw hleft.2).imp fun k mem' h' => ?_)
        obtain ⟨rfl, pre, weight, suf, heq, hle, hlt'⟩ := h'
        refine ⟨rfl, pre, weight, suf ++ (a.key, a.weight) :: items r, ?_, hle, hlt'⟩
        rw [heq, List.append_assoc, List.cons_append]
    · rw [if_neg hleft]
      have hge : total (items l) ≤ w := by
        cases l with
        | nil => exact hw
        | node b l1 l2 => exact not_lt.mp fun h => hleft ⟨nofun, h⟩
      by_cases hhere : w - total (items l) < a.weight ∨ addr r = none
      · rw [if_pos hhere]
        refine Ends.pure ⟨rfl, items l, a.weight, items r, rfl, hge, ?_⟩
        cases r with
        | nil =>
          simp only [items, inorder, List.map_nil, total, List.sum_nil] at hlt ⊢
          linarith
        | node b r1 r2 =>
          have hlt' := hhere.resolve_right nofun
          linarith
      · rw [if_neg hhere]
        rw [not_or, not_lt] at hhere
        cases r with
        | nil => exact absurd rfl hhere.2
        | node b r1 r2 =>
          obtain ⟨j, b⟩ := b
          refine Ends.step rfl ((ih hlayr hr (by omega) (by linarith) (by linarith)).imp
            fun k mem' h' => ?_)
          obtain ⟨rfl, pre, weight, suf, heq, hle, hlt'⟩ := h'
          refine ⟨rfl, items l ++ (a.key, a.weight) :: pre, weight, suf, ?_, ?_, ?_⟩
          · rw [heq, List.append_assoc, List.cons_append]
          · rw [total_append, total_cons]
            linarith
          · rw [total_append, total_cons]
            linarith

omit [LinearOrder T] in
theorem choose_ends (h : Valid mem rest s t) {p : ℚ} (hp : 0 ≤ p) (hp' : p < 1) (htotal : 0 < total s) :
    Ends (choose p) mem fun k mem' => mem' = mem ∧ Chosen s (p * total s) k := by
  obtain ⟨hholds, rfl, -, hsum⟩ := h
  unfold choose
  rw [if_neg (not_or.mpr ⟨not_lt.mpr hp, not_le.mpr hp'⟩)]
  refine Ends.step rfl ?_
  rw [hholds.root]
  cases t with
  | nil => exact absurd htotal (lt_irrefl _)
  | node a l r =>
    refine Ends.step rfl (Ends.step (get_eq hholds.lays.1) (Ends.step rfl ?_))
    rw [hsum.1, mul_comm]
    refine chooseFrom_ends _ hholds.lays hsum hholds.numNodes_le (mul_nonneg hp htotal.le) ?_
    exact mul_lt_of_lt_one_left htotal hp'

def Sorted (s : List (T × ℚ)) : Prop := s.Pairwise fun e e' => e.1 < e'.1

variable {pre suf : List (T × ℚ)} {w : ℚ}

theorem Sorted.insert (h : Sorted s) (hb : Between item s pre suf) : Sorted (pre ++ (item, w) :: suf) := by
  obtain ⟨rfl, hlt, hgt⟩ := hb
  obtain ⟨hpre, hsuf, hcross⟩ := List.pairwise_append.mp h
  refine List.pairwise_append.mpr ⟨hpre, List.pairwise_cons.mpr ⟨hgt, hsuf⟩, fun e he e' he' => ?_⟩
  obtain rfl | he' := List.mem_cons.mp he'
  · exact hlt e he
  · exact hcross e he e' he'

theorem Sorted.split (h : Sorted (pre ++ (item, w) :: suf)) : Sorted (pre ++ suf) ∧ Between item (pre ++ suf) pre suf := by
  obtain ⟨hpre, hcons, hcross⟩ := List.pairwise_append.mp h
  obtain ⟨hgt, hsuf⟩ := List.pairwise_cons.mp hcons
  refine ⟨List.pairwise_append.mpr ⟨hpre, hsuf, fun e he e' he' => ?_⟩, rfl, fun e he => ?_, hgt⟩
  · exact hcross e he e' (List.mem_cons_of_mem _ he')
  · exact hcross e he _ List.mem_cons_self

def Represents (mem : Memory T) (s : List (T × ℚ)) : Prop :=
  ∃ s' t, Valid mem (fun _ => none) s' t ∧ Sorted s' ∧ s'.Perm s

theorem exec_represents {op : Op T} {s s' : List (T × ℚ)} {out : Unit} (h : Represents mem s) (_ : True)
    (hop : change s op = some (out, s')) : ∃ out' mem', exec mem op = some (out', mem') ∧ out' = out ∧ Represents mem' s' := by
  obtain ⟨l, t, hvalid, hsorted, hperm⟩ := h
  have hmem : ∀ item, item ∈ s.map Prod.fst ↔ item ∈ l.map Prod.fst := fun item => ((hperm.map _).mem_iff).symm
  cases op with
  | insert item weight =>
    rw [change] at hop
    split_ifs at hop with hitem
    cases hop
    rw [hmem] at hitem
    obtain ⟨⟨⟩, mem', hrun, pre, suf, t', hb, hvalid'⟩ := insert_ends hvalid (List.pairwise_map.mpr hsorted) hitem weight
    refine ⟨(), mem', hrun, rfl, _, t', hvalid', hsorted.insert hb, List.perm_middle.trans (List.Perm.cons _ ?_)⟩
    rw [← hb.eq]
    exact hperm
  | remove item =>
    rw [change] at hop
    split_ifs at hop with hitem
    cases hop
    rw [hmem] at hitem
    obtain ⟨⟨⟩, mem', hrun, pre, w, suf, t', rfl, hvalid'⟩ := remove_ends hvalid (List.pairwise_map.mpr hsorted) hitem
    obtain ⟨hsorted', hb⟩ := hsorted.split
    refine ⟨(), mem', hrun, rfl, _, t', hvalid', hsorted', List.Perm.trans (List.Perm.of_eq ?_) (hperm.filter _)⟩
    rw [List.filter_append, List.filter_cons_of_neg (by simp)]
    rw [List.filter_eq_self.mpr fun e he => by simpa using (hb.lt e he).ne,
      List.filter_eq_self.mpr fun e he => by simpa using (hb.gt e he).ne']
  | update item weight =>
    rw [change] at hop
    split_ifs at hop with hitem
    cases hop
    rw [hmem] at hitem
    obtain ⟨⟨⟩, mem', hrun, pre, w, suf, t', rfl, hvalid'⟩ := update_ends hvalid (List.pairwise_map.mpr hsorted) hitem weight
    obtain ⟨hsorted', hb⟩ := hsorted.split
    refine ⟨(), mem', hrun, rfl, _, t', hvalid', hsorted'.insert hb, List.Perm.trans (List.Perm.of_eq ?_) (hperm.map _)⟩
    rw [List.map_append, List.map_cons, if_pos rfl]
    rw [List.map_congr_left fun e he => if_neg (hb.lt e he).ne, List.map_congr_left fun e he => if_neg (hb.gt e he).ne',
      List.map_id', List.map_id']

theorem represents_start : Represents ({} : Memory T) [] :=
  ⟨[], nil, ⟨⟨rfl, trivial, .nil, nofun, fun _ _ => rfl⟩, rfl, rfl, trivial⟩, .nil, .nil⟩

theorem Chosen.of_perm {s' : List (T × ℚ)} {k : T} (h : Chosen s w k) (hs : Sorted s) (hperm : s.Perm s') :
    ∃ weight, (k, weight) ∈ s' ∧ below s' k ≤ w ∧ w < below s' k + weight := by
  obtain ⟨pre, weight, suf, rfl, hle, hlt⟩ := h
  obtain ⟨-, hb⟩ := hs.split
  have hbelow : below s' k = total pre := by
    have hfilter : ((pre ++ (k, weight) :: suf).filter fun e => e.1 < k) = pre := by
      rw [List.filter_append, List.filter_cons_of_neg (by simp)]
      rw [List.filter_eq_self.mpr fun e he => by simpa using hb.lt e he,
        List.filter_eq_nil_iff.mpr fun e he => by simpa using (hb.gt e he).le, List.append_nil]
    rw [below, total, ← ((hperm.filter _).map _).sum_eq, hfilter, total]
  rw [hbelow]
  exact ⟨weight, hperm.mem_iff.mp (by simp), hle, hlt⟩

/-- Whatever is done with the items, the tree is in order and has all its sums, and an item is
chosen by its weight. -/
theorem run_chooses (ops : List (Op T)) {out : List Unit} {s : List (T × ℚ)}
    (hrun : Machine.run change [] ops = some (out, s)) :
    ∃ mem t, Machine.run exec {} ops = some (out, mem) ∧ Holds mem t (fun _ => none) ∧ Ordered t ∧ (items t).Perm s ∧
      topMark t = false ∧ Summed t ∧ ∀ p : ℚ, 0 ≤ p → p < 1 → 0 < total s →
        ∃ k weight, choose p mem = some (k, mem) ∧ (k, weight) ∈ s ∧ below s k ≤ p * total s ∧
          p * total s < below s k + weight := by
  obtain ⟨outs, mem, hmem, hout, l, t, hvalid, hsorted, hperm⟩ :=
    Machine.run_simulates exec change exec_represents ops represents_start (fun _ _ => trivial) hrun
  rw [List.forall₂_eq_eq_eq] at hout
  subst hout
  have htotal : total l = total s := (hperm.map _).sum_eq
  refine ⟨mem, t, hmem, hvalid.holds, ?_, hvalid.items ▸ hperm, hvalid.black, hvalid.summed, fun p hp hp' hpos => ?_⟩
  · rw [Ordered, keys_inorder, hvalid.items]
    exact List.pairwise_map.mpr hsorted
  · rw [← htotal] at hpos ⊢
    obtain ⟨k, mem', hchoose, rfl, hchosen⟩ := choose_ends hvalid hp hp' hpos
    obtain ⟨weight, hmem, hle, hlt⟩ := hchosen.of_perm hsorted hperm
    exact ⟨k, weight, hchoose, hmem, hle, hlt⟩

/-- An item that was added after another one, and stays when that is gone. -/
theorem run_chooses_last :
    ∃ mem, Machine.run exec ({} : Memory ℕ) [.insert 3 2, .insert 5 1, .update 5 4, .remove 3] = some ([(), (), (), ()], mem) ∧
      choose (1 / 2) mem = some (5, mem) := by
  obtain ⟨mem, -, hrun, -, -, -, -, -, hchoose⟩ :=
    run_chooses (T := ℕ) [.insert 3 2, .insert 5 1, .update 5 4, .remove 3] rfl
  obtain ⟨k, weight, hk, hmem, -⟩ := hchoose (1 / 2) (by norm_num) (by norm_num) (by norm_num [total])
  obtain ⟨rfl, -⟩ := Prod.mk.inj (List.mem_singleton.mp hmem)
  exact ⟨mem, hrun, hk⟩

end Klee.DiscretePDF
