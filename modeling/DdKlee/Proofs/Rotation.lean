import DdKlee.Spec.DiscretePDF

/-! Rotations of the tree, after which all sums are right but that of the node on top. -/

namespace Klee.DiscretePDF

open Prog Linked BinaryTree

variable {T : Type} {mem mem' m : Memory T} {i j n p : ℕ} {q : Option ℕ} {a b : NodeData T}
  {t x y z l r : Linked (NodeData T)} {c : Context (NodeData T)} {d : Side} {rest : ℕ → Option (Node T)}

def upd (mem : Memory T) (i : ℕ) (f : Node T → Node T) : Memory T := { mem with nodes := mem.nodes.modify i f }

theorem get_upd {f : Node T → Node T} :
    (upd mem i f).nodes.get j = if j = i then (mem.nodes.get i).map f else mem.nodes.get j := Store.get_modify

theorem get_eq {nd : Node T} (h : mem.nodes.get i = some nd) : get i mem = some (nd, mem) := by
  rw [get, h]
  rfl

theorem modify_eq {nd : Node T} (h : mem.nodes.get i = some nd) (f : Node T → Node T) :
    modify i f mem = some ((), upd mem i f) := by
  rw [modify, if_pos (by rw [h]; rfl)]
  rfl

def sumOf : Linked (NodeData T) → ℚ
  | nil => 0
  | node a _ _ => a.2.sumWeights

theorem getSum_eq (h : Lays mem q t) : getSum (addr t) mem = some (sumOf t, mem) := by
  cases t with
  | nil => rfl
  | node a l r =>
    rw [addr, getSum, bind_eq (get_eq h.1)]
    rfl

/-- The pointers as they are in a rotation of `n` over `p`, before the one to `p` is changed. -/
structure Turned (mem m : Memory T) (c : Context (NodeData T)) (n p : ℕ) (b a : NodeData T) (d : Side)
    (x y z : Linked (NodeData T)) : Prop where
  child : m.nodes.get n = some (.join (parentOf c) (addr x) (some p) b d)
  parent : m.nodes.get p = some (.join (some n) (addr y) (addr z) a d)
  inner : ∀ k, addr y = some k → m.nodes.get k = (mem.nodes.get k).map fun nd => { nd with parent := some p }
  other : ∀ k, k ≠ p → k ≠ n → addr y ≠ some k → m.nodes.get k = mem.nodes.get k
  root : m.root = mem.root

theorem Turned.setData_child (h : Turned mem m c n p b a d x y z) (hne : p ≠ n) (hy : addr y ≠ some n)
    (g : NodeData T → NodeData T) :
    Turned mem (upd m n fun nd => { nd with data := g nd.data }) c n p (g b) a d x y z where
  child := by rw [get_upd, if_pos rfl, h.child, Option.map_some, LinkedNode.data_join, LinkedNode.setData_join]
  parent := by rw [get_upd, if_neg hne, h.parent]
  inner k hk := by rw [get_upd, if_neg (by rintro rfl; exact hy hk), h.inner k hk]
  other k hp hn hk := by rw [get_upd, if_neg hn, h.other k hp hn hk]
  root := h.root

theorem Turned.setData_parent (h : Turned mem m c n p b a d x y z) (hne : p ≠ n) (hy : addr y ≠ some p)
    (g : NodeData T → NodeData T) :
    Turned mem (upd m p fun nd => { nd with data := g nd.data }) c n p b (g a) d x y z where
  child := by rw [get_upd, if_neg hne.symm, h.child]
  parent := by rw [get_upd, if_pos rfl, h.parent, Option.map_some, LinkedNode.data_join, LinkedNode.setData_join]
  inner k hk := by rw [get_upd, if_neg (by rintro rfl; exact hy hk), h.inner k hk]
  other k hp hn hk := by rw [get_upd, if_neg hp, h.other k hp hn hk]
  root := h.root

theorem other_ne {f : Frame (NodeData T)} (h : Holds mem (plug (f :: c) t) rest) (ht : addr t = some i) :
    addr f.other ≠ some i := by
  intro hf
  have hdisjoint := List.disjoint_of_nodup_append h.nodup_place
  refine hdisjoint (mem_ids_of_addr ht) (contextIds_cons.mem_iff.mpr ?_)
  exact List.mem_cons_of_mem _ (List.mem_append_left _ (mem_ids_of_addr hf))

theorem notMem_context (h : Holds mem (plug c t) rest) (hi : i ∈ ids t) : i ∉ contextIds c :=
  fun hc => List.disjoint_of_nodup_append h.nodup_place hi hc

theorem Turned.relink (h : Turned mem m c n p b a d x y z) {a0 b0 : NodeData T}
    (hholds : Holds mem (plug c (join (p, a0) (join (n, b0) x y d) z d)) rest) :
    Ends (replaceChild p n (parentOf c)) m fun _ mem' =>
      Holds mem' (plug c (join (n, b) x (join (p, a) y z d) d)) rest := by
  obtain ⟨-, hne, hdisjoint, -, -⟩ := nodup_join_join hholds.nodup_place
  have hctx := hholds.context
  rw [addr_join] at hctx
  have hsame : ∀ k ∈ contextIds c, m.nodes.get k = mem.nodes.get k := fun k hk =>
    h.other k (hne k (.inr (.inr (.inr hk)))).1 (hne k (.inr (.inr (.inr hk)))).2
      fun hy => (hdisjoint k (mem_ids_of_addr hy)).2.2 hk
  cases c with
  | nil =>
    refine ⟨(), { m with root := some n }, rfl, ?_⟩
    exact hholds.rotate h.child h.parent h.inner rfl hsame fun k hp hn hk _ => h.other k hp hn hk
  | cons f c =>
    have hf : f.id ∈ contextIds (f :: c) := contextIds_cons.mem_iff.mpr List.mem_cons_self
    have hget : m.nodes.get f.id = _ := (hsame f.id hf).trans hctx.1
    refine Ends.step (get_eq hget) ?_
    rw [LinkedNode.side_join (other_ne hholds addr_join)]
    refine ⟨(), _, modify_eq hget _, ?_⟩
    have hfne := hne f.id (.inr (.inr (.inr hf)))
    refine hholds.rotate ?_ ?_ (fun k hk => ?_) h.root (fun k hk => ?_) fun k hp hn hk hkc => ?_
    · rw [get_upd, if_neg hfne.2.symm, h.child]
    · rw [get_upd, if_neg hfne.1.symm, h.parent]
    · have hkf : k ≠ f.id := fun heq => (hdisjoint k (mem_ids_of_addr hk)).2.2 (heq ▸ hf)
      rw [get_upd, if_neg hkf, h.inner k hk]
    · rw [get_upd, Linked.relink, Store.get_modify, hsame f.id hf, hsame k hk]
    · have hkf : k ≠ f.id := fun heq => hkc (heq ▸ hf)
      rw [get_upd, if_neg hkf, h.other k hp hn hk]

theorem Turned.lays (h : Turned mem m c n p b a d x y z) {a0 b0 : NodeData T}
    (hholds : Holds mem (plug c (join (p, a0) (join (n, b0) x y d) z d)) rest) :
    Lays m (some n) x ∧ Lays m (some p) y ∧ Lays m (some p) z := by
  obtain ⟨-, hne, hdisjoint, hynodup, -⟩ := nodup_join_join hholds.nodup_place
  have hplace := hholds.place
  rw [lays_join, lays_join] at hplace
  obtain ⟨-, ⟨-, hx, hy⟩, hz⟩ := hplace
  refine ⟨hx.frame fun k hk => ?_, hy.reparent hynodup h.inner fun k hk hky => ?_, hz.frame fun k hk => ?_⟩
  · obtain ⟨hkp, hkn⟩ := hne k (.inl hk)
    exact h.other k hkp hkn fun hky => (hdisjoint k (mem_ids_of_addr hky)).1 hk
  · obtain ⟨hkp, hkn⟩ := hne k (.inr (.inl hk))
    exact h.other k hkp hkn hky
  · obtain ⟨hkp, hkn⟩ := hne k (.inr (.inr (.inl hk)))
    exact h.other k hkp hkn fun hky => (hdisjoint k (mem_ids_of_addr hky)).2.1 hk

theorem getParent_eq {nd : Node T} (h : mem.nodes.get i = some nd) (hp : nd.parent = some p) :
    getParent i mem = some (p, mem) := by
  rw [getParent, bind_eq (get_eq h), hp]
  rfl

theorem Turned.setSum_child (h : Turned mem m c n p b a d x y z) (hpn : p ≠ n) (hy : addr y ≠ some n)
    (hx : Lays m (some n) x) :
    Ends (setSum n) m fun _ m' => ∃ s, Turned mem m' c n p { b with sumWeights := s } a d x y z := by
  have hp : getSum (some p) m = some (a.sumWeights, m) := by
    rw [getSum, bind_eq (get_eq h.parent), LinkedNode.data_join]
    rfl
  have hset : ∀ s : ℚ → ℚ, Ends (setData n fun b => { b with sumWeights := s b.weight }) m fun _ m' =>
      ∃ s, Turned mem m' c n p { b with sumWeights := s } a d x y z := fun s =>
    ⟨(), _, modify_eq h.child _, s b.weight, h.setData_child hpn hy fun b => { b with sumWeights := s b.weight }⟩
  cases d with
  | left =>
    refine Ends.step (get_eq h.child) (Ends.step (getSum_eq hx) (Ends.step hp ?_))
    exact hset fun w => w + sumOf x + a.sumWeights
  | right =>
    refine Ends.step (get_eq h.child) (Ends.step hp (Ends.step (getSum_eq hx) ?_))
    exact hset fun w => w + a.sumWeights + sumOf x

theorem Turned.setSum_parent (h : Turned mem m c n p b a d x y z) (hpn : p ≠ n) (hy : addr y ≠ some p)
    (hly : Lays m (some p) y) (hlz : Lays m (some p) z) :
    Ends (setSum p) m fun _ m' =>
      Turned mem m' c n p b { a with sumWeights := a.weight + sumOf y + sumOf z } d x y z := by
  have hset : ∀ s : ℚ → ℚ, s a.weight = a.weight + sumOf y + sumOf z →
      Ends (setData p fun a => { a with sumWeights := s a.weight }) m fun _ m' =>
        Turned mem m' c n p b { a with sumWeights := a.weight + sumOf y + sumOf z } d x y z := by
    intro s hs
    rw [← hs]
    exact ⟨(), _, modify_eq h.parent _, h.setData_parent hpn hy fun a => { a with sumWeights := s a.weight }⟩
  cases d with
  | left =>
    refine Ends.step (get_eq h.parent) (Ends.step (getSum_eq hly) (Ends.step (getSum_eq hlz) ?_))
    exact hset (fun w => w + sumOf y + sumOf z) rfl
  | right =>
    refine Ends.step (get_eq h.parent) (Ends.step (getSum_eq hlz) (Ends.step (getSum_eq hly) ?_))
    exact hset (fun w => w + sumOf z + sumOf y) (add_right_comm _ _ _)

theorem rotate_ends (h : Holds mem (plug c (join (p, a) (join (n, b) x y d) z d)) rest) :
    Ends (rotate n) mem fun _ mem' => ∃ s, Holds mem' (plug c (join (n, { b with sumWeights := s }) x
      (join (p, { a with sumWeights := a.weight + sumOf y + sumOf z }) y z d) d)) rest := by
  obtain ⟨hpn, hne, hdisjoint, hynodup, -⟩ := nodup_join_join h.nodup_place
  have hplace := h.place
  rw [lays_join, lays_join, addr_join] at hplace
  obtain ⟨hp, ⟨hn, hx, hy⟩, hz⟩ := hplace
  have hyne : ∀ {k}, addr y = some k → k ≠ p ∧ k ≠ n := fun hk => hne _ (.inr (.inl (mem_ids_of_addr hk)))
  have hzn : addr z ≠ some n := fun hk => (hne n (.inr (.inr (.inl (mem_ids_of_addr hk))))).2 rfl
  unfold rotate
  refine Ends.step (getParent_eq hn LinkedNode.parent_join) (Ends.step (get_eq hp) ?_)
  rw [LinkedNode.parent_join]
  refine Ends.step (modify_eq hn _) ?_
  generalize hm1 : upd mem n _ = m₁
  have hp1 : m₁.nodes.get p = some (.join (parentOf c) (some n) (addr z) a d) := by rw [← hm1, get_upd, if_neg hpn, hp]
  refine Ends.step (modify_eq hp1 _) ?_
  generalize hm2 : upd m₁ p _ = m2
  have hp2 : m2.nodes.get p = some (.join (some n) (some n) (addr z) a d) := by
    rw [← hm2, get_upd, if_pos rfl, hp1, Option.map_some, LinkedNode.setParent_join]
  have hn2 : m2.nodes.get n = some (.join (parentOf c) (addr x) (addr y) b d) := by
    rw [← hm2, get_upd, if_neg hpn.symm, ← hm1, get_upd, if_pos rfl, hn, Option.map_some, LinkedNode.setParent_join]
  refine Ends.step (get_eq hp2) ?_
  rw [LinkedNode.side_join hzn]
  refine Ends.step (get_eq hn2) ?_
  rw [LinkedNode.child_join_other]
  refine Ends.step (modify_eq hp2 _) ?_
  generalize hm3 : upd m2 p _ = m3
  have hn3 : m3.nodes.get n = some (.join (parentOf c) (addr x) (addr y) b d) := by
    rw [← hm3, get_upd, if_neg hpn.symm, hn2]
  refine Ends.step (modify_eq hn3 _) ?_
  generalize hm4 : upd m3 n _ = m4
  have hn4 : m4.nodes.get n = some (.join (parentOf c) (addr x) (some p) b d) := by
    rw [← hm4, get_upd, if_pos rfl, hn3, Option.map_some, LinkedNode.setChild_join_other]
  have hp4 : m4.nodes.get p = some (.join (some n) (addr y) (addr z) a d) := by
    rw [← hm4, get_upd, if_neg hpn, ← hm3, get_upd, if_pos rfl, hp2, Option.map_some, LinkedNode.setChild_join]
  have hk4 : ∀ k, k ≠ p → k ≠ n → m4.nodes.get k = mem.nodes.get k := by
    intro k hkp hkn
    rw [← hm4, get_upd, if_neg hkn, ← hm3, get_upd, if_neg hkp, ← hm2, get_upd, if_neg hkp, ← hm1, get_upd, if_neg hkn]
  have hroot4 : m4.root = mem.root := by rw [← hm4, ← hm3, ← hm2, ← hm1]; rfl
  have hturned : Ends (setChildParent p (addr y)) m4 fun _ m => Turned mem m c n p b a d x y z := by
    cases hk : addr y with
    | none =>
      refine ⟨(), m4, rfl, hn4, hp4, fun k hky => ?_, fun k hkp hkn _ => hk4 k hkp hkn, hroot4⟩
      cases hk.symm.trans hky
    | some k =>
      obtain ⟨hkp, hkn⟩ := hyne hk
      obtain ⟨nd, hnd⟩ := hy.get_addr hk
      have hget : m4.nodes.get k = some nd := (hk4 k hkp hkn).trans hnd
      refine ⟨(), _, modify_eq hget _, ?_, ?_, fun j hj => ?_, fun j hjp hjn hj => ?_, hroot4⟩
      · rw [get_upd, if_neg hkn.symm, hn4]
      · rw [get_upd, if_neg hkp.symm, hp4]
      · cases hk.symm.trans hj
        rw [get_upd, if_pos rfl, hget, hnd]
      · rw [get_upd, if_neg fun heq : j = k => hj (heq ▸ hk), hk4 j hjp hjn]
  have hyn : addr y ≠ some n := fun hk => (hyne hk).2 rfl
  have hyp : addr y ≠ some p := fun hk => (hyne hk).1 rfl
  refine hturned.andThen fun _ m5 h5 => ?_
  refine (h5.setSum_child hpn hyn (h5.lays h).1).andThen fun _ m6 h6 => ?_
  obtain ⟨s, h6⟩ := h6
  refine (h6.setSum_parent hpn hyp (h6.lays h).2.1 (h6.lays h).2.2).andThen fun _ m7 h7 => ?_
  exact (h7.relink h).imp fun _ mem' h' => ⟨s, h'⟩

end Klee.DiscretePDF
