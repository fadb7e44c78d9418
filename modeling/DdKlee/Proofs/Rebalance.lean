import DdKlee.Proofs.Rotation

/-! How `split` and `lengthen` move a node in the tree. Rotations may leave sums wrong, but
only in the nodes above the place where the tree changes. -/

namespace Klee.DiscretePDF

open Prog Linked BinaryTree

variable {T : Type} {mem mem' m : Memory T} {i j n p : ℕ} {q : Option ℕ} {a b : NodeData T}
  {t t' x y z l r : Linked (NodeData T)} {c : Context (NodeData T)} {f g : Frame (NodeData T)} {d e : Side}
  {rest : ℕ → Option (Node T)}

def entry (n : ℕ × NodeData T) : T × ℚ := (n.2.key, n.2.weight)

def items (t : Linked (NodeData T)) : List (T × ℚ) := t.inorder.map entry

def Summed : Linked (NodeData T) → Prop
  | nil => True
  | node a l r => a.2.sumWeights = total (items (node a l r)) ∧ Summed l ∧ Summed r

def topMark : Linked (NodeData T) → Bool
  | nil => false
  | node a _ _ => a.2.mark

def reds (t : Linked (NodeData T)) : ℕ := t.inorder.countP fun n => n.2.mark

def remark (mark : Bool) : Linked (NodeData T) → Linked (NodeData T)
  | nil => nil
  | node a l r => node (a.1, { a.2 with mark }) l r

theorem items_node {a : ℕ × NodeData T} : items (node a l r) = items l ++ (a.2.key, a.2.weight) :: items r := by
  simp [items, inorder, entry]

theorem items_plug_congr (h : items t' = items t) : items (plug c t') = items (plug c t) := by
  unfold items at *
  rw [inorder_plug, inorder_plug, List.map_append, List.map_append, List.map_append, List.map_append, h]

theorem sumOf_eq (h : Summed t) : sumOf t = total (items t) := by
  cases t with
  | nil => rfl
  | node a l r => exact h.1

theorem summed_join (hx : Summed x) (hy : Summed y) :
    Summed (join (i, { a with sumWeights := a.weight + sumOf x + sumOf y }) x y d) := by
  rw [sumOf_eq hx, sumOf_eq hy]
  cases d with
  | left =>
    refine ⟨?_, hx, hy⟩
    simp only [items_node, total, List.map_append, List.map_cons, List.sum_append, List.sum_cons]
    ring
  | right =>
    refine ⟨?_, hy, hx⟩
    simp only [items_node, total, List.map_append, List.map_cons, List.sum_append, List.sum_cons]
    ring

theorem items_remark {mark : Bool} : items (remark mark t) = items t := by
  cases t with
  | nil => rfl
  | node a l r => rw [remark, items_node, items_node]

theorem Summed.remark (h : Summed t) {mark : Bool} : Summed (remark mark t) := by
  cases t with
  | nil => trivial
  | node a l r => exact ⟨h.1.trans (by rw [items_node, items_node]), h.2⟩

theorem items_join_congr {a' : NodeData T} {x' y' : Linked (NodeData T)} (hkey : a'.key = a.key)
    (hweight : a'.weight = a.weight) (hx : items x' = items x) (hy : items y' = items y) :
    items (join (j, a') x' y' d) = items (join (i, a) x y d) := by
  cases d <;> simp only [join, items_node, hx, hy, hkey, hweight]

theorem items_rotate {a' b' : NodeData T} (hakey : a'.key = a.key) (haweight : a'.weight = a.weight)
    (hbkey : b'.key = b.key) (hbweight : b'.weight = b.weight) :
    items (join (n, b') x (join (p, a') y z d) d) = items (join (p, a) (join (n, b) x y d) z d) := by
  cases d <;> simp [join, items_node, hakey, haweight, hbkey, hbweight]

theorem topMark_join : topMark (join (i, a) x y d) = a.mark := by cases d <;> rfl

theorem topMark_plug (h : topMark (plug c t) = false) (ht : c = [] → topMark t' = false) :
    topMark (plug c t') = false := by
  induction c generalizing t t' with
  | nil => exact ht rfl
  | cons f c ih =>
    refine ih h fun hc => ?_
    subst hc
    rw [plug, plug, Frame.fill, topMark_join] at h
    rw [Frame.fill, topMark_join, h]

theorem reds_join : reds (join (i, a) x y d) = a.mark.toNat + reds x + reds y := by
  cases d <;> simp [join, reds, inorder, List.countP_cons] <;> cases a.mark <;> simp <;> omega

theorem reds_plug_lt (h : reds t' < reds t) : reds (plug c t') < reds (plug c t) := by
  unfold reds at *
  simp only [inorder_plug, List.countP_append]
  omega

theorem reds_plug_le {k : ℕ} (h : reds t' ≤ reds t + k) : reds (plug c t') ≤ reds (plug c t) + k := by
  unfold reds at *
  simp only [inorder_plug, List.countP_append]
  omega

theorem reds_remark : reds (remark false t) + (topMark t).toNat = reds t := by
  cases t with
  | nil => rfl
  | node a l r =>
    obtain ⟨i, a⟩ := a
    have h := reds_join (i := i) (a := a) (x := l) (y := r) (d := .left)
    have h' := reds_join (i := i) (a := { a with mark := false }) (x := l) (y := r) (d := .left)
    simp only [join, Bool.toNat_false] at h h'
    simp only [remark, topMark, h, h']
    omega

theorem join_other {a : ℕ × NodeData T} : join a x y d.other = join a y x d := by cases d <;> rfl

theorem setData_ends (h : Holds mem (plug c (join (i, a) x y d)) rest) (u : NodeData T → NodeData T) :
    Ends (setData i u) mem fun _ mem' => Holds mem' (plug c (join (i, u a) x y d)) rest := by
  cases d with
  | left => exact ⟨(), _, modify_eq h.get _, h.setData u⟩
  | right => exact ⟨(), _, modify_eq h.get _, h.setData u⟩

theorem markChildBlack_ends (h : Holds mem (plug c (join (i, a) x y d)) rest) :
    Ends (markChildBlack (addr x)) mem fun _ mem' => Holds mem' (plug c (join (i, a) (remark false x) y d)) rest := by
  cases x with
  | nil => exact ⟨(), mem, rfl, h⟩
  | node k l r =>
    obtain ⟨k, b⟩ := k
    have hdown : Holds mem (plug (⟨d, i, a, y⟩ :: c) (join (k, b) l r .left)) rest := h
    exact setData_ends hdown fun b => { b with mark := false }

theorem get_join (h : Holds mem (plug c (join (i, a) x y d)) rest) :
    get i mem = some (.join (parentOf c) (addr x) (addr y) a d, mem) := get_eq (lays_join.mp h.place).1

theorem isBlack_ends (h : Holds mem (plug c (join (i, a) x y d)) rest) : isBlack i mem = some (!a.mark, mem) := by
  rw [isBlack, bind_eq (get_join h), LinkedNode.data_join]
  rfl

structure Place (mem : Memory T) (rest : ℕ → Option (Node T)) (s : List (T × ℚ)) (c : Context (NodeData T))
    (t : Linked (NodeData T)) : Prop where
  holds : Holds mem (plug c t) rest
  items : items (plug c t) = s
  black : topMark (plug c t) = false
  sides : ∀ f ∈ c, Summed f.other

def keys (ns : List (ℕ × NodeData T)) : List T := ns.map fun n => n.2.key

/-- The node moved, with no more than some number of red nodes in the tree, and no other keys
before it or after it than before. -/
def Raised (mem : Memory T) (rest : ℕ → Option (Node T)) (s : List (T × ℚ)) (i : ℕ) (c : Context (NodeData T))
    (k : ℕ) : Prop :=
  ∃ c' a l r, Place mem rest s c' (node (i, a) l r) ∧ Summed l ∧ Summed r ∧ reds (plug c' (node (i, a) l r)) ≤ k ∧
    keys (before c') ⊆ keys (before c) ∧ keys (after c') ⊆ keys (after c)

variable {s : List (T × ℚ)}

theorem getParent_join (h : Holds mem (plug (g :: c) (join (i, a) x y d)) rest) : getParent i mem = some (g.id, mem) := by
  rw [getParent, bind_eq (get_join h), LinkedNode.parent_join]
  rfl

variable {pp k : ℕ} {o : NodeData T}

theorem splitRed_outer {c0 : Context (NodeData T)} (hc0 : c0 = ⟨d, p, b, y⟩ :: ⟨d, pp, o, z⟩ :: c)
    (h : Holds mem (plug c0 (node (i, a) l r)) rest) (hitems : items (plug c0 (node (i, a) l r)) = s)
    (hblack : topMark (plug c t) = false) (hsides : ∀ f ∈ c0, Summed f.other) (hl : Summed l) (hr : Summed r)
    (hb : b.mark = true) (hk : reds (plug c0 (node (i, a) l r)) ≤ k + 1) :
    Ends (do rotate p; markBlack p) mem fun _ mem' => Raised mem' rest s i c0 k := by
  subst hc0
  simp only [List.forall_mem_cons] at hsides
  obtain ⟨hy, hz, hc⟩ := hsides
  have h : Holds mem (plug c (join (pp, o) (join (p, b) (node (i, a) l r) y d) z d)) rest := h
  refine (rotate_ends h).andThen fun _ m h1 => ?_
  obtain ⟨w, h1⟩ := h1
  refine (setData_ends h1 fun a => { a with mark := false }).imp fun _ mem' h2 => ?_
  refine ⟨⟨d, p, { b with mark := false, sumWeights := w },
    join (pp, { o with sumWeights := o.weight + sumOf y + sumOf z }) y z d⟩ :: c, a, l, r,
    ⟨h2, ?_, topMark_plug (c := c) hblack fun _ => topMark_join, ?_⟩, hl, hr, ?_, ?_, ?_⟩
  · rw [← hitems]
    exact items_plug_congr (c := c) (items_rotate rfl rfl rfl rfl)
  · rw [List.forall_mem_cons]
    exact ⟨summed_join hy hz, hc⟩
  · refine Nat.le_of_lt_succ (lt_of_lt_of_le (reds_plug_lt (c := c) ?_) hk)
    simp only [Frame.fill, reds_join, hb, Bool.toNat_true, Bool.toNat_false]
    omega
  · cases d <;> simp [before, keys, join, inorder]
  · cases d <;> simp [after, keys, join, inorder]

theorem node_eq_join (d : Side) (hl : Summed l) (hr : Summed r) :
    ∃ x y, node (i, a) l r = join (i, a) x y d ∧ Summed x ∧ Summed y := by
  cases d with
  | left => exact ⟨l, r, rfl, hl, hr⟩
  | right => exact ⟨r, l, rfl, hr, hl⟩

theorem join_eq_node (d : Side) (hx : Summed x) (hy : Summed y) :
    ∃ l r, join (i, a) x y d = node (i, a) l r ∧ Summed l ∧ Summed r := by
  cases d with
  | left => exact ⟨x, y, rfl, hx, hy⟩
  | right => exact ⟨y, x, rfl, hy, hx⟩

theorem splitRed_inner {c0 : Context (NodeData T)} (hc0 : c0 = ⟨d, p, b, y⟩ :: ⟨d.other, pp, o, z⟩ :: c)
    (h : Holds mem (plug c0 (node (i, a) l r)) rest) (hitems : items (plug c0 (node (i, a) l r)) = s)
    (hblack : topMark (plug c t) = false) (hsides : ∀ f ∈ c0, Summed f.other) (hl : Summed l) (hr : Summed r)
    (ha : a.mark = true) (hk : reds (plug c0 (node (i, a) l r)) ≤ k + 1) :
    Ends (do rotate i; rotate i; markBlack i) mem fun _ mem' => Raised mem' rest s i c0 k := by
  subst hc0
  simp only [List.forall_mem_cons] at hsides
  obtain ⟨hy, hz, hc⟩ := hsides
  obtain ⟨x1, x2, hnode, hx1, hx2⟩ := node_eq_join (i := i) (a := a) d hl hr
  rw [hnode] at h hitems hk
  have h : Holds mem (plug (⟨d.other, pp, o, z⟩ :: c) (join (p, b) (join (i, a) x1 x2 d) y d)) rest := h
  refine (rotate_ends h).andThen fun _ m h1 => ?_
  obtain ⟨w, h1⟩ := h1
  rw [← join_other] at h1
  refine (rotate_ends h1).andThen fun _ m h2 => ?_
  obtain ⟨w', h2⟩ := h2
  refine (setData_ends h2 fun a => { a with mark := false }).imp fun _ mem' h3 => ?_
  have hp : Summed (join (p, { b with sumWeights := b.weight + sumOf x2 + sumOf y }) x2 y d) := summed_join hx2 hy
  have hpp : Summed (join (pp, { o with sumWeights := o.weight + sumOf x1 + sumOf z }) x1 z d.other) := summed_join hx1 hz
  obtain ⟨l', r', hnode', hl', hr'⟩ := join_eq_node (i := i) (a := { a with mark := false, sumWeights := w' }) d.other hp hpp
  refine ⟨c, { a with mark := false, sumWeights := w' }, l', r', ?_, hl', hr', ?_, ?_, ?_⟩
  · rw [← hnode']
    refine ⟨h3, ?_, topMark_plug hblack fun _ => topMark_join, hc⟩
    rw [← hitems]
    refine items_plug_congr (c := c) ?_
    cases d <;> simp [Frame.fill, Side.other, join, items_node]
  · rw [← hnode']
    refine Nat.le_of_lt_succ (lt_of_lt_of_le (reds_plug_lt (c := c) ?_) hk)
    simp only [Frame.fill, reds_join, ha, Bool.toNat_true, Bool.toNat_false]
    omega
  · cases d <;> simp [before, keys, Side.other]
  · cases d <;> simp [after, keys, Side.other]

theorem Raised.mono {c0 : Context (NodeData T)} (h : Raised mem rest s i c k) (hb : keys (before c) ⊆ keys (before c0))
    (ha : keys (after c) ⊆ keys (after c0)) : Raised mem rest s i c0 k := by
  obtain ⟨c', a, l, r, hplace, hl, hr, hk, hb', ha'⟩ := h
  exact ⟨c', a, l, r, hplace, hl, hr, hk, List.Subset.trans hb' hb, List.Subset.trans ha' ha⟩

theorem splitRed_ends (h : Place mem rest s (f :: g :: c) (node (i, a) l r)) (hl : Summed l) (hr : Summed r)
    (ha : a.mark = true) (hf : f.data.mark = true) (hk : reds (plug (f :: g :: c) (node (i, a) l r)) ≤ k) :
    Ends (splitRed i f.id) mem fun _ mem' => Raised mem' rest s i (f :: g :: c) k := by
  obtain ⟨d, p, b, y⟩ := f
  obtain ⟨e, pp, o, z⟩ := g
  have hp : Holds mem (plug (⟨e, pp, o, z⟩ :: c) (join (p, b) (node (i, a) l r) y d)) rest := h.holds
  have hpp : Holds mem (plug c (join (pp, o) (join (p, b) (node (i, a) l r) y d) z e)) rest := h.holds
  refine Ends.step (getParent_join hp) ?_
  refine (setData_ends hpp fun a => { a with mark := true }).andThen fun _ m h1 => ?_
  have hp1 : Holds m (plug (⟨e, pp, { o with mark := true }, z⟩ :: c) (join (p, b) (node (i, a) l r) y d)) rest := h1
  have hyi : addr y ≠ some i := other_ne (f := ⟨d, p, b, y⟩) h.holds rfl
  have hzp : addr z ≠ some p := other_ne (f := ⟨e, pp, o, z⟩) hp addr_join
  refine Ends.step (get_join hp1) (Ends.step (get_join h1) ?_)
  rw [addr_join]
  have hitems : items (plug (⟨e, pp, { o with mark := true }, z⟩ :: c) (join (p, b) (node (i, a) l r) y d)) = s := by
    rw [← h.items]
    exact items_plug_congr (c := c) (items_join_congr rfl rfl rfl rfl)
  have hblack : topMark (plug c (join (pp, o) (join (p, b) (node (i, a) l r) y d) z e)) = false := h.black
  have hsides : ∀ f ∈ ⟨d, p, b, y⟩ :: ⟨e, pp, { o with mark := true }, z⟩ :: c, Summed f.other := by
    simpa only [List.forall_mem_cons] using h.sides
  have hk1 : reds (plug (⟨d, p, b, y⟩ :: ⟨e, pp, { o with mark := true }, z⟩ :: c) (node (i, a) l r)) ≤ k + 1 := by
    refine le_trans (reds_plug_le (c := c) (k := 1) ?_) (Nat.add_le_add_right hk 1)
    simp only [Frame.fill, reds_join, Bool.toNat_true]
    omega
  have hkeys : ∀ {mem'}, Raised mem' rest s i (⟨d, p, b, y⟩ :: ⟨e, pp, { o with mark := true }, z⟩ :: c) k →
      Raised mem' rest s i (⟨d, p, b, y⟩ :: ⟨e, pp, o, z⟩ :: c) k := by
    intro mem' h'
    refine h'.mono ?_ ?_
    · cases d <;> cases e <;> simp [before, keys]
    · cases d <;> cases e <;> simp [after, keys]
  by_cases hde : e = d
  · subst hde
    rw [if_pos ?_]
    · exact (splitRed_outer rfl h1 hitems hblack hsides hl hr hf hk1).imp fun _ _ => hkeys
    · rw [addr, LinkedNode.eq_left_join hyi, LinkedNode.eq_left_join hzp, LinkedNode.eq_right_join hyi,
        LinkedNode.eq_right_join hzp]
      cases e <;> simp
  · have he : e = d.other := by cases d <;> cases e <;> simp_all [Side.other]
    subst he
    rw [if_neg ?_]
    · exact (splitRed_inner rfl h1 hitems hblack hsides hl hr ha hk1).imp fun _ _ => hkeys
    · rw [addr, LinkedNode.eq_left_join hyi, LinkedNode.eq_left_join hzp, LinkedNode.eq_right_join hyi,
        LinkedNode.eq_right_join hzp]
      cases d <;> simp [Side.other]

theorem split_ends (h : Place mem rest s c (node (i, a) l r)) (hl : Summed l) (hr : Summed r)
    (hk : reds (plug c (node (i, { a with mark := true }) (remark false l) (remark false r))) ≤ k) :
    Ends (split i) mem fun _ mem' => Raised mem' rest s i c k := by
  refine Ends.step (get_eq h.holds.get) ?_
  refine (markChildBlack_ends (d := .left) h.holds).andThen fun _ m₁ h1 => ?_
  refine (markChildBlack_ends (d := .right) h1).andThen fun _ m2 h2 => ?_
  have hitems : ∀ mark, items (plug c (node (i, { a with mark }) (remark false l) (remark false r))) = s := by
    intro mark
    rw [← h.items]
    refine items_plug_congr ?_
    rw [items_node, items_node, items_remark, items_remark]
  cases c with
  | nil =>
    refine Ends.pure ⟨[], a, remark false l, remark false r, ⟨h2, hitems _, h.black, by simp⟩, hl.remark, hr.remark, ?_,
      List.Subset.refl _, List.Subset.refl _⟩
    refine le_trans (reds_plug_le (k := 0) ?_) hk
    have hle := reds_join (i := i) (a := a) (x := remark false l) (y := remark false r) (d := .left)
    have hred := reds_join (i := i) (a := { a with mark := true }) (x := remark false l) (y := remark false r) (d := .left)
    simp only [join, Bool.toNat_true] at hle hred
    have hmark := Bool.toNat_le a.mark
    omega
  | cons f c =>
    refine (setData_ends (d := .left) h2 fun a => { a with mark := true }).andThen fun _ m3 h3 => ?_
    have hplace : Place m3 rest s (f :: c) (node (i, { a with mark := true }) (remark false l) (remark false r)) :=
      ⟨h3, hitems true, topMark_plug h.black (by simp), h.sides⟩
    have hp : Holds m3 (plug c (join (f.id, f.data) _ f.other f.side)) rest := h3
    refine Ends.step (isBlack_ends hp) ?_
    cases hf : f.data.mark with
    | false =>
      exact Ends.pure ⟨f :: c, _, _, _, hplace, hl.remark, hr.remark, hk, List.Subset.refl _, List.Subset.refl _⟩
    | true =>
      cases c with
      | nil =>
        have hblack := h.black
        rw [plug, plug, Frame.fill, topMark_join, hf] at hblack
        cases hblack
      | cons g c => exact splitRed_ends hplace hl.remark hr.remark rfl hf hk

theorem sibling_join (h : Holds mem (plug c (join (p, b) (join (i, a) x y e) z d)) rest) :
    sibling i mem = some (addr z, mem) := by
  have hi : Holds mem (plug (⟨d, p, b, z⟩ :: c) (join (i, a) x y e)) rest := h
  have hz : addr z ≠ some i := other_ne hi addr_join
  rw [sibling, bind_eq (getParent_join hi), bind_eq (get_join h), addr_join]
  cases d with
  | left =>
    rw [if_pos ((LinkedNode.eq_left_join hz).mpr rfl)]
    rfl
  | right =>
    rw [if_neg fun heq => by cases (LinkedNode.eq_left_join hz).mp heq]
    rfl

theorem rotate_other (h : Holds mem (plug c (join (p, b) t (join (n, a) x y d) d)) rest) :
    Ends (rotate n) mem fun _ mem' => ∃ w, Holds mem' (plug c (join (n, { a with sumWeights := w })
      (join (p, { b with sumWeights := b.weight + sumOf x + sumOf t }) t x d) y d)) rest := by
  rw [← join_other (a := (p, b)), ← join_other (a := (n, a))] at h
  refine (rotate_ends h).imp fun _ mem' h' => ?_
  obtain ⟨w, h'⟩ := h'
  rw [join_other, join_other] at h'
  exact ⟨w, h'⟩

variable {near far : Linked (NodeData T)} {k : ℕ} {o : NodeData T}

theorem inheritMark_ends (h : Holds mem (plug c (join (k, o) (join (p, b) x y e) z d)) rest) :
    Ends (inheritMark p k) mem fun _ mem' =>
      Holds mem' (plug c (join (k, { o with mark := o.mark || b.mark }) (join (p, b) x y e) z d)) rest := by
  have hp : Holds mem (plug (⟨d, k, o, z⟩ :: c) (join (p, b) x y e)) rest := h
  refine Ends.step (isBlack_ends hp) ?_
  cases hb : b.mark with
  | false =>
    rw [Bool.or_false]
    exact Ends.pure h
  | true =>
    rw [Bool.or_true]
    exact setData_ends h fun o => { o with mark := true }

theorem remark_join {mark : Bool} : remark mark (join (i, a) x y d) = join (i, { a with mark }) x y d := by
  cases d <;> rfl

theorem markChildren_ends (h : Holds mem (plug c (node (k, o) l r)) rest) (hl : addr l = some i) (hr : addr r = some j) :
    Ends (do let n ← get k; markBlack (← deref n.left); markBlack (← deref n.right)) mem fun _ mem' =>
      Holds mem' (plug c (node (k, o) (remark false l) (remark false r))) rest := by
  refine Ends.step (get_eq h.get) ?_
  rw [hl, hr]
  have hleft := markChildBlack_ends (d := .left) h
  rw [hl] at hleft
  refine Ends.step rfl (hleft.andThen fun _ m h1 => ?_)
  have hright := markChildBlack_ends (d := .right) h1
  rw [hr] at hright
  exact Ends.step rfl hright

theorem raiseSibling_ends (h : Holds mem (plug c (join (p, b) (join (i, a) x y e) (join (k, o) near far d) d)) rest)
    (hfar : addr far = some j) :
    Ends (raiseSibling i k) mem fun _ mem' => ∃ w w', Holds mem'
      (plug c (join (k, { o with mark := o.mark || b.mark, sumWeights := w })
        (join (p, { b with mark := false, sumWeights := w' }) (join (i, a) x y e) near d) (remark false far) d)) rest := by
  refine (rotate_other h).andThen fun _ m₁ h1 => ?_
  obtain ⟨w, h1⟩ := h1
  have hi : Holds m₁ (plug (⟨d, p, { b with sumWeights := b.weight + sumOf near + sumOf (join (i, a) x y e) }, near⟩ ::
    ⟨d, k, { o with sumWeights := w }, far⟩ :: c) (join (i, a) x y e)) rest := h1
  refine Ends.step (getParent_join hi) ?_
  refine (inheritMark_ends h1).andThen fun _ m2 h2 => ?_
  cases d with
  | left =>
    refine (markChildren_ends h2 addr_join hfar).imp fun _ mem' h3 => ?_
    rw [remark_join] at h3
    exact ⟨w, _, h3⟩
  | right =>
    refine (markChildren_ends h2 hfar addr_join).imp fun _ mem' h3 => ?_
    rw [remark_join] at h3
    exact ⟨w, _, h3⟩

theorem turn_ends (h : Holds mem (plug c (join (k, o) (join (n, a) x y d) far d)) rest) :
    Ends (turn k d) mem fun n' mem' => n' = n ∧ ∃ w, Holds mem' (plug c (join (n, { a with mark := false, sumWeights := w }) x
      (join (k, { o with mark := true, sumWeights := o.weight + sumOf y + sumOf far }) y far d) d)) rest := by
  refine Ends.step (get_join h) ?_
  rw [LinkedNode.child_join, addr_join]
  refine Ends.step rfl ?_
  refine (rotate_ends h).andThen fun _ m₁ h1 => ?_
  obtain ⟨w, h1⟩ := h1
  rw [← join_other (a := (n, _))] at h1
  have hk : Holds m₁ (plug (⟨d.other, n, { a with sumWeights := w }, x⟩ :: c)
    (join (k, { o with sumWeights := o.weight + sumOf y + sumOf far }) y far d)) rest := h1
  refine (setData_ends hk fun o => { o with mark := true }).andThen fun _ m2 h2 => ?_
  refine Ends.step (getParent_join h2) ?_
  have hn : Holds m2 (plug c (join (n, { a with sumWeights := w }) _ x d.other)) rest := h2
  refine (setData_ends hn fun a => { a with mark := false }).andThen fun _ m3 h3 => ?_
  rw [join_other] at h3
  exact Ends.pure ⟨rfl, w, h3⟩

theorem childIsBlack_eq (h : Lays mem q t) : childIsBlack (addr t) mem = some (!topMark t, mem) := by
  cases t with
  | nil => rfl
  | node a l r =>
    rw [addr, childIsBlack, isBlack, bind_eq (get_eq h.1)]
    rfl

theorem leftIsBlack_eq (h : Holds mem (plug c (node (i, a) l r)) rest) : leftIsBlack i mem = some (!topMark l, mem) := by
  rw [leftIsBlack, bind_eq (get_eq h.get)]
  exact childIsBlack_eq h.place.2.1

theorem rightIsBlack_eq (h : Holds mem (plug c (node (i, a) l r)) rest) : rightIsBlack i mem = some (!topMark r, mem) := by
  rw [rightIsBlack, bind_eq (get_eq h.get)]
  exact childIsBlack_eq h.place.2.2

theorem exists_join_of_topMark (h : topMark t = true) (ht : Summed t) (d : Side) :
    ∃ i a x y, t = join (i, a) x y d ∧ Summed x ∧ Summed y := by
  cases t with
  | nil => cases h
  | node a l r =>
    obtain ⟨x, y, heq, hx, hy⟩ := node_eq_join (i := a.1) (a := a.2) d ht.2.1 ht.2.2
    exact ⟨a.1, a.2, x, y, heq, hx, hy⟩

def FarChild (mem : Memory T) (rest : ℕ → Option (Node T)) (c : Context (NodeData T)) (p : ℕ) (b : NodeData T)
    (t : Linked (NodeData T)) (d : Side) (s : List (T × ℚ)) (mark : Bool) (k : ℕ) : Prop :=
  ∃ o near far j, Holds mem (plug c (join (p, b) t (join (k, o) near far d) d)) rest ∧
    items (join (k, o) near far d) = s ∧ Summed near ∧ Summed far ∧ addr far = some j ∧ (mark = false → o.mark = false)

theorem turnSibling_ends (h : Holds mem (plug c (join (p, b) (join (i, a) x y e) (join (k, o) near far d) d)) rest)
    (hnear : Summed near) (hfar : Summed far) (hred : topMark far = false → topMark near = true) :
    Ends (turnSibling i k) mem fun k' mem' =>
      FarChild mem' rest c p b (join (i, a) x y e) d (items (join (k, o) near far d)) o.mark k' := by
  have hi : Holds mem (plug (⟨d, p, b, join (k, o) near far d⟩ :: c) (join (i, a) x y e)) rest := h
  have hk : Holds mem (plug (⟨d.other, p, b, join (i, a) x y e⟩ :: c) (join (k, o) near far d)) rest := by
    rw [← join_other] at h
    exact h
  have hki : addr (join (k, o) near far d) ≠ some i := other_ne hi addr_join
  have hturn : topMark far = false → Ends (turn k d) mem fun k' mem' =>
      FarChild mem' rest c p b (join (i, a) x y e) d (items (join (k, o) near far d)) o.mark k' := fun hblack => by
    obtain ⟨n, v, x', y', rfl, hx', hy'⟩ := exists_join_of_topMark (hred hblack) hnear d
    refine (turn_ends hk).imp fun k' mem' h' => ?_
    obtain ⟨rfl, w, h'⟩ := h'
    have h' : Holds mem' (plug c (join (p, b) (join (k', _) x' _ d) (join (i, a) x y e) d.other)) rest := h'
    rw [join_other] at h'
    exact ⟨_, _, _, k, h', items_rotate rfl rfl rfl rfl, hx',
      summed_join (a := { o with mark := true }) hy' hfar, addr_join, fun _ => rfl⟩
  have hstay : topMark far = true → FarChild mem rest c p b (join (i, a) x y e) d (items (join (k, o) near far d)) o.mark k := by
    intro hmark
    obtain ⟨j, v, x', y', rfl, -⟩ := exists_join_of_topMark hmark hfar d
    exact ⟨o, near, _, j, h, rfl, hnear, hfar, addr_join, id⟩
  refine Ends.step (getParent_join hi) (Ends.step (get_join h) ?_)
  rw [addr_join (i := i)]
  simp only [LinkedNode.eq_left_join hki, LinkedNode.eq_right_join hki]
  cases d with
  | left =>
    refine Ends.step (leftIsBlack_eq hk) (Ends.step (rightIsBlack_eq hk) ?_)
    cases hmark : topMark far with
    | false => exact hturn hmark
    | true => exact Ends.pure (hstay hmark)
  | right =>
    refine Ends.step (leftIsBlack_eq hk) (Ends.step (rightIsBlack_eq hk) ?_)
    cases hmark : topMark far with
    | false => exact hturn hmark
    | true => exact Ends.pure (hstay hmark)

def Lengthened (mem : Memory T) (rest : ℕ → Option (Node T)) (s : List (T × ℚ)) (q : Option ℕ) (i : ℕ) (a : NodeData T)
    (x y : Linked (NodeData T)) (e : Side) : Prop :=
  ∃ c mark, Place mem rest s c (join (i, { a with mark }) x y e) ∧ parentOf c = q

theorem Place.down (h : Place mem rest s c (join (p, b) t z d)) (hz : Summed z) : Place mem rest s (⟨d, p, b, z⟩ :: c) t :=
  ⟨h.holds, h.items, h.black, List.forall_mem_cons.mpr ⟨hz, h.sides⟩⟩

theorem summed_of_join (h : Summed (join (i, a) x y d)) : Summed x ∧ Summed y := by
  cases d with
  | left => exact h.2
  | right => exact h.2.symm

theorem Place.sibling (h : Place mem rest s (⟨d, p, b, join (k, o) near far e⟩ :: c) t) :
    Holds mem (plug (⟨d.other, p, b, t⟩ :: c) (join (k, o) near far e)) rest := by
  have hh : Holds mem (plug c (join (p, b) t (join (k, o) near far e) d)) rest := h.holds
  rw [← join_other] at hh
  exact hh

theorem lengthenRed_ends (h : Place mem rest s (⟨d, p, b, join (k, o) near far d⟩ :: c) (join (i, a) x y e))
    (hred : topMark far = false → topMark near = true) (ho : o.mark = false ∨ b.mark = true) :
    Ends (lengthenRed i k) mem fun _ mem' => Lengthened mem' rest s (some p) i a x y e := by
  obtain ⟨hsibling, hsides⟩ := List.forall_mem_cons.mp h.sides
  obtain ⟨hnear, hfar⟩ := summed_of_join hsibling
  refine (turnSibling_ends (c := c) h.holds hnear hfar hred).andThen fun k' m₁ h1 => ?_
  obtain ⟨o', near', far', j, h1, hitems, hnear', hfar', hj, ho'⟩ := h1
  refine (raiseSibling_ends h1 hj).imp fun _ mem' h2 => ?_
  obtain ⟨w, w', h2⟩ := h2
  refine ⟨⟨d, p, { b with mark := false, sumWeights := w' }, near'⟩ ::
    ⟨d, k', { o' with mark := o'.mark || b.mark, sumWeights := w }, remark false far'⟩ :: c, a.mark,
    ⟨h2, ?_, topMark_plug (c := c) h.black fun hc => ?_, ?_⟩, rfl⟩
  · rw [← h.items]
    refine items_plug_congr (c := c) ?_
    have hmarks : items (join (k', { o' with mark := o'.mark || b.mark, sumWeights := w })
        (join (p, { b with mark := false, sumWeights := w' }) (join (i, a) x y e) near' d) (remark false far') d) =
        items (join (k', o') (join (p, b) (join (i, a) x y e) near' d) far' d) :=
      items_join_congr rfl rfl (items_join_congr rfl rfl rfl rfl) items_remark
    refine hmarks.trans ?_
    calc
      _ = items (join (p, b) (join (i, a) x y e) (join (k', o') near' far' d) d) := by
        cases d <;> simp [join, items_node]
      _ = items (join (p, b) (join (i, a) x y e) (join (k, o) near far d) d) := items_join_congr rfl rfl rfl hitems
  · subst hc
    have hblack : b.mark = false := topMark_join.symm.trans h.black
    rw [Frame.fill, topMark_join, hblack, Bool.or_false]
    exact ho' (ho.resolve_right (by simp [hblack]))
  · simp only [List.forall_mem_cons]
    exact ⟨hnear', hfar'.remark, hsides⟩

theorem Place.markRed_sibling (h : Place mem rest s (⟨d, p, b, node (k, o) l r⟩ :: c) t) :
    Ends (markRed k) mem fun _ mem' =>
      Place mem' rest s (⟨d, p, b, node (k, { o with mark := true }) l r⟩ :: c) t := by
  refine (setData_ends (d := .left) (Place.sibling (e := .left) h) fun o => { o with mark := true }).imp fun _ mem' h' => ?_
  have hp : Holds mem' (plug c (join (p, b) (node (k, { o with mark := true }) l r) t d.other)) rest := h'
  rw [join_other] at hp
  obtain ⟨hsum, hsides⟩ := List.forall_mem_cons.mp h.sides
  refine ⟨hp, h.items ▸ items_plug_congr (c := c) (items_join_congr rfl rfl rfl ?_), ?_,
    List.forall_mem_cons.mpr ⟨hsum.remark, hsides⟩⟩
  · rw [items_node, items_node]
  · exact topMark_plug (c := c) h.black fun hc => by subst hc; exact topMark_join.trans (topMark_join.symm.trans h.black)

theorem lengthenBlack_ends {up : ℕ → Prog (Memory T) Unit} (h : Place mem rest s (⟨d, p, b, z⟩ :: c) (join (i, a) x y e))
    (hz : topMark z = false ∨ b.mark = true)
    (hup : ∀ {m z'}, Place m rest s c (join (p, b) (join (i, a) x y e) z' d) →
      Ends (up p) m fun _ mem' => Lengthened mem' rest s (parentOf c) p b (join (i, a) x y e) z' d) :
    Ends (lengthenBlack up i (addr z)) mem fun _ mem' => Lengthened mem' rest s (some p) i a x y e := by
  obtain ⟨hsum, hsides⟩ := List.forall_mem_cons.mp h.sides
  have hcall : ∀ {m z'}, Summed z' → Place m rest s c (join (p, b) (join (i, a) x y e) z' d) →
      Ends (up p) m fun _ mem' => Lengthened mem' rest s (some p) i a x y e := by
    intro m z' hz' hplace
    refine (hup hplace).imp fun _ mem' h' => ?_
    obtain ⟨c', mark, h', -⟩ := h'
    exact ⟨_, a.mark, h'.down hz', rfl⟩
  cases z with
  | nil =>
    refine Ends.step (getParent_join h.holds) ?_
    exact hcall hsum ⟨h.holds, h.items, h.black, hsides⟩
  | node k zl zr =>
    obtain ⟨k, o⟩ := k
    have hk := Place.sibling (e := .left) h
    refine Ends.step (leftIsBlack_eq hk) (Ends.step (rightIsBlack_eq hk) ?_)
    have hp : Holds mem (plug c (join (p, b) (join (i, a) x y e) (node (k, o) zl zr) d)) rest := h.holds
    cases hmarks : !topMark zl && !topMark zr with
    | true =>
      refine Ends.step (getParent_join h.holds) (Ends.step (isBlack_ends hp) ?_)
      cases hb : b.mark with
      | false =>
        refine h.markRed_sibling.andThen fun _ m h1 => ?_
        refine Ends.step (getParent_join h1.holds) ?_
        exact hcall (h1.sides _ List.mem_cons_self) ⟨h1.holds, h1.items, h1.black, hsides⟩
      | true =>
        refine h.markRed_sibling.andThen fun _ m h1 => ?_
        refine Ends.step (getParent_join h1.holds) ?_
        have hp1 : Holds m (plug c (join (p, b) (join (i, a) x y e) _ d)) rest := h1.holds
        refine (setData_ends hp1 fun b => { b with mark := false }).imp fun _ mem' h2 => ?_
        have hplace : Place mem' rest s c (join (p, { b with mark := false }) (join (i, a) x y e) _ d) :=
          ⟨h2, h1.items ▸ items_plug_congr (c := c) (items_join_congr rfl rfl rfl rfl),
            topMark_plug (c := c) h.black fun _ => topMark_join, hsides⟩
        exact ⟨_, a.mark, hplace.down (h1.sides _ List.mem_cons_self), rfl⟩
    | false =>
      obtain ⟨near, far, hnode, -, -⟩ := node_eq_join (i := k) (a := o) d hsum.2.1 hsum.2.2
      have hmark : topMark far = false → topMark near = true := by
        intro hfar
        cases d <;> cases hnode <;> simp_all
      rw [hnode] at h
      exact lengthenRed_ends h hmark hz

theorem blackSibling_ends (h : Place mem rest s (⟨d, p, b, z⟩ :: c) (join (i, a) x y e)) :
    Ends (blackSibling i p) mem fun sib mem' => ∃ b' z' c', sib = addr z' ∧
      Place mem' rest s (⟨d, p, b', z'⟩ :: c') (join (i, a) x y e) ∧
      (topMark z' = false ∧ c' = c ∨ b'.mark = true) := by
  refine Ends.step (sibling_join h.holds) ?_
  cases z with
  | nil => exact Ends.pure ⟨b, nil, c, rfl, h, .inl ⟨rfl, rfl⟩⟩
  | node k zl zr =>
    obtain ⟨k, o⟩ := k
    have hk := Place.sibling (e := .left) h
    refine Ends.step (isBlack_ends hk) ?_
    cases ho : o.mark with
    | false => exact Ends.pure ⟨b, _, c, rfl, h, .inl ⟨ho, rfl⟩⟩
    | true =>
      obtain ⟨hsum, hsides⟩ := List.forall_mem_cons.mp h.sides
      obtain ⟨near, far, hnode, hnear, hfar⟩ := node_eq_join (i := k) (a := o) d hsum.2.1 hsum.2.2
      rw [hnode] at h
      have hp : Holds mem (plug c (join (p, b) (join (i, a) x y e) (join (k, o) near far d) d)) rest := h.holds
      refine (setData_ends hp fun b => { b with mark := true }).andThen fun _ m₁ h1 => ?_
      rw [← join_other] at h1
      have hk1 : Holds m₁ (plug (⟨d.other, p, { b with mark := true }, _⟩ :: c) (join (k, o) near far d)) rest := h1
      refine (setData_ends hk1 fun o => { o with mark := false }).andThen fun _ m2 h2 => ?_
      have hp2 : Holds m2 (plug c (join (p, { b with mark := true }) _ (join (i, a) x y e) d.other)) rest := h2
      rw [join_other] at hp2
      refine (rotate_other hp2).andThen fun _ m3 h3 => ?_
      obtain ⟨w, h3⟩ := h3
      obtain ⟨w', h3⟩ : ∃ w', Holds m3 (plug (⟨d, k, { o with mark := false, sumWeights := w }, far⟩ :: c)
        (join (p, { b with mark := true, sumWeights := w' }) (join (i, a) x y e) near d)) rest := ⟨_, h3⟩
      refine ⟨addr near, m3, sibling_join h3, { b with mark := true, sumWeights := w' }, near,
        ⟨d, k, { o with mark := false, sumWeights := w }, far⟩ :: c, rfl, ⟨h3, ?_, ?_, ?_⟩, .inr rfl⟩
      · rw [← h.items]
        refine items_plug_congr (c := c) ?_
        cases d <;> simp [Frame.fill, join, items_node]
      · exact topMark_plug (c := c) h.black fun _ => topMark_join
      · simp only [List.forall_mem_cons]
        exact ⟨hnear, hfar, hsides⟩

theorem lengthenFrom_ends (fuel : ℕ) : ∀ {mem i a x y e c}, Place mem rest s c (join (i, a) x y e) →
    c.length < fuel ∨ a.mark = true ∧ 0 < fuel →
    Ends (lengthenFrom fuel i) mem fun _ mem' => Lengthened mem' rest s (parentOf c) i a x y e := by
  induction fuel with
  | zero => intro mem i a x y e c h hfuel; omega
  | succ fuel ih =>
    intro mem i a x y e c h hfuel
    refine Ends.step (get_join h.holds) ?_
    rw [LinkedNode.data_join, LinkedNode.parent_join]
    cases ha : a.mark with
    | true =>
      refine (setData_ends h.holds fun a => { a with mark := false }).imp fun _ mem' h' => ?_
      exact ⟨c, false, ⟨h', h.items ▸ items_plug_congr (items_join_congr rfl rfl rfl rfl),
        topMark_plug h.black fun _ => topMark_join, h.sides⟩, rfl⟩
    | false =>
      cases c with
      | nil => exact Ends.pure ⟨[], a.mark, h, rfl⟩
      | cons f c =>
        refine (blackSibling_ends h).andThen fun sib m h1 => ?_
        obtain ⟨b, z, c', rfl, h1, hred⟩ := h1
        refine lengthenBlack_ends h1 (hred.imp_left And.left) fun hplace => ih hplace ?_
        rw [List.length_cons, ha] at hfuel
        obtain ⟨-, rfl⟩ | hb := hred
        · exact .inl (by simp at hfuel; omega)
        · exact .inr ⟨hb, by simp at hfuel; omega⟩

end Klee.DiscretePDF
