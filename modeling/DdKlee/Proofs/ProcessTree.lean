import DdKlee.Spec.ProcessTree

/-! The process tree mirrors the live states: its leaves are the nodes of the live states, and
every walk from the root ends at one of them. -/

namespace Klee.ProcessTree

open Prog Linked BinaryTree

variable {mem mem' : Memory} {i j s : ℕ} {a : Option ℕ} {t x y l r : Linked (Option ℕ)} {c : Linked.Context (Option ℕ)}
  {f : Frame (Option ℕ)} {d : Side} {rest : ℕ → Option PTreeNode} {live : Finset ℕ}

theorem get_eq {n : PTreeNode} (h : mem.nodes.get i = some n) : get i mem = some (n, mem) := by
  rw [get, h]
  rfl

theorem modify_eq {n : PTreeNode} (h : mem.nodes.get i = some n) (g : PTreeNode → PTreeNode) :
    modify i g mem = some ((), { mem with nodes := mem.nodes.modify i g }) := by
  rw [modify, h]
  rfl

theorem delete_eq {n : PTreeNode} (h : mem.nodes.get i = some n) :
    delete i mem = some ((), { mem with nodes := mem.nodes.free i }) := by
  rw [delete, h]
  rfl

theorem assert_eq {b : Bool} (h : b = true) : assert b mem = some ((), mem) := by
  rw [assert, if_pos h]
  rfl

theorem get_frame (h : Holds mem.toLinkedTree (plug (f :: c) t) rest) :
    mem.nodes.get f.id = some (.join (parentOf c) (addr t) (addr f.other) f.data f.side) := h.context.1

def Full : Linked (Option ℕ) → Prop
  | nil => True
  | node a l r => (a.2 = none ↔ ¬ (l = nil ∧ r = nil)) ∧ Full l ∧ Full r

theorem full_join : Full (join (i, a) x y d) ↔ (a = none ↔ ¬ (x = nil ∧ y = nil)) ∧ Full x ∧ Full y := by
  cases d with
  | left => rfl
  | right =>
    rw [and_comm (a := x = nil), and_comm (a := Full x)]
    rfl

theorem fill_ne_nil : f.fill t ≠ nil := by
  obtain ⟨d, i, a, y⟩ := f
  cases d <;> nofun

theorem full_plug (ht : t ≠ nil) : Full (plug c t) ↔ (∀ f ∈ c, f.data = none ∧ Full f.other) ∧ Full t := by
  induction c generalizing t with
  | nil => simp [plug]
  | cons f c ih =>
    rw [plug, ih fill_ne_nil, Frame.fill, full_join, List.forall_mem_cons]
    simp only [ht, false_and, not_false_eq_true, iff_true]
    tauto

theorem mem_around {p : ℕ × Option ℕ} :
    p ∈ before c ++ after c ↔ ∃ f ∈ c, p = (f.id, f.data) ∨ p ∈ f.other.inorder := by
  induction c with
  | nil => simp [before, after]
  | cons f c ih =>
    rw [List.exists_mem_cons_iff, ← ih]
    obtain ⟨d, i, a, y⟩ := f
    cases d with
    | left =>
      simp only [before, after, List.mem_append, List.mem_cons]
      tauto
    | right =>
      simp only [before, after, List.mem_append, List.mem_cons, List.not_mem_nil, or_false]
      tauto

theorem mem_plug {p : ℕ × Option ℕ} : p ∈ (plug c t).inorder ↔ p ∈ t.inorder ∨ p ∈ before c ++ after c := by
  rw [inorder_plug]
  simp only [List.mem_append]
  tauto

/-- The tree without what is in a place, and without the nodes above it that have lost their
last child. -/
def prune : Linked.Context (Option ℕ) → Linked (Option ℕ)
  | [] => nil
  | ⟨d, i, a, other⟩ :: c => if other = nil then prune c else plug c (join (i, a) nil other d)

def Branches (c : Linked.Context (Option ℕ)) : Prop := ∃ f ∈ c, f.other ≠ nil

theorem prune_full (hc : ∀ f ∈ c, f.data = none ∧ Full f.other) (hbranches : Branches c) :
    prune c ≠ nil ∧ Full (prune c) := by
  induction c with
  | nil => simp [Branches] at hbranches
  | cons f c ih =>
    obtain ⟨d, i, a, other⟩ := f
    obtain ⟨⟨(ha : a = none), hother⟩, hc⟩ := List.forall_mem_cons.mp hc
    rw [prune]
    split_ifs with hnil
    · refine ih hc ?_
      obtain ⟨f, hf, hne⟩ := hbranches
      obtain rfl | hf := List.mem_cons.mp hf
      · exact absurd hnil hne
      · exact ⟨f, hf, hne⟩
    · have hjoin : join (i, a) nil other d ≠ nil := fill_ne_nil (f := ⟨d, i, a, other⟩)
      have hplug {c t} (ht : t ≠ nil) : plug c t ≠ (nil : Linked (Option ℕ)) := by
        induction c generalizing t with
        | nil => exact ht
        | cons f c ih => exact ih fill_ne_nil
      exact ⟨hplug hjoin, (full_plug hjoin).mpr ⟨hc, full_join.mpr ⟨by simp [ha, hnil], trivial, hother⟩⟩⟩

theorem mem_prune (hc : ∀ f ∈ c, f.data = none ∧ Full f.other) :
    (i, some s) ∈ (prune c).inorder ↔ (i, some s) ∈ before c ++ after c := by
  induction c with
  | nil => simp [prune, inorder, before, after]
  | cons f c ih =>
    obtain ⟨d, k, a, other⟩ := f
    obtain ⟨⟨(ha : a = none), -⟩, hc⟩ := List.forall_mem_cons.mp hc
    have hk : (i, some s) ≠ (k, a) := by simp [ha]
    rw [mem_around, List.exists_mem_cons_iff, ← mem_around, prune]
    split_ifs with hnil
    · rw [ih hc]
      simp [hk, hnil, inorder]
    · rw [mem_plug]
      refine or_congr_left ?_
      cases d <;> simp [join, inorder, hk]

theorem attachChild_ends (h : Holds mem.toLinkedTree (plug c (join (i, a) nil y d)) rest) (state : ℕ) :
    Ends (attachChild i state d) mem fun _ mem' => ∃ j,
      Holds mem'.toLinkedTree (plug c (join (i, a) (node (j, some state) nil nil) y d)) rest ∧
      mem'.ptreeNode = Function.update mem.ptreeNode state (some j) := by
  have hp : Holds mem.toLinkedTree (plug (⟨d, i, a, y⟩ :: c) nil) rest := h
  have hget := get_frame hp
  have hlink := hp.link (a := some state) (Prod.mk.eta (p := mem.nodes.alloc _)).symm
  have hne : i ≠ (mem.nodes.alloc ⟨some i, none, none, some state⟩).1 := Store.ne_alloc hget
  refine Ends.step rfl ⟨(), _, modify_eq ((Store.get_alloc hne).trans hget) _, _, hlink, rfl⟩

theorem attach_ends (h : Holds mem.toLinkedTree (plug c (node (i, a) nil nil)) rest) (leftState rightState : ℕ) :
    Ends (attach (some i) leftState rightState) mem fun _ mem' => ∃ j k,
      Holds mem'.toLinkedTree
        (plug c (node (i, none) (node (j, some leftState) nil nil) (node (k, some rightState) nil nil))) rest ∧
      mem'.ptreeNode = Function.update (Function.update mem.ptreeNode leftState (some j)) rightState (some k) := by
  refine Ends.step rfl (Ends.step (get_eq h.get) (Ends.step (assert_eq rfl) ?_))
  refine Ends.step (modify_eq h.get _) ?_
  let mem0 : Memory := { mem with nodes := mem.nodes.modify i fun n => { n with data := none } }
  have hdata : Holds mem0.toLinkedTree (plug c (join (i, none) nil nil .left)) rest := h.setData fun _ => none
  refine (attachChild_ends hdata leftState).andThen fun _ mem1 hleft => ?_
  obtain ⟨j, hleft, hnode⟩ := hleft
  have hplace : Holds _ (plug c (join (i, none) nil (node (j, some leftState) nil nil) .right)) rest := hleft
  refine (attachChild_ends hplace rightState).imp fun _ mem2 hright => ?_
  obtain ⟨k, hright, hnode'⟩ := hright
  exact ⟨j, k, hright, by rw [hnode', hnode]⟩

theorem resetChild_ends (h : Holds mem.toLinkedTree (plug (f :: c) (node (i, a) nil nil)) rest) :
    Ends (resetChild i f.id f.side) mem fun _ mem' =>
      Holds mem'.toLinkedTree (plug c (f.fill nil)) rest ∧ mem'.ptreeNode = mem.ptreeNode := by
  have hrest : rest i = none := h.apart i (ids_plug.mem_iff.mpr (by simp [ids, inorder]))
  have hunlink : Holds (relink mem.toLinkedTree none (f :: c)) (plug (f :: c) nil) _ :=
    h.unlink (d := .left) (x := nil) rfl (fun k hk => absurd hk (Option.some_ne_none k).symm) fun k _ => rfl
  rw [h.get] at hunlink
  have hget := hunlink.get_rest (Function.update_self i _ rest)
  exact Ends.step (modify_eq (get_frame h) _) ⟨(), _, delete_eq hget, hunlink.free hrest, rfl⟩

theorem cutChild_ends (h : Holds mem.toLinkedTree (plug (f :: c) (node (i, a) nil nil)) rest) :
    Ends (cutChild i f.id) mem fun _ mem' =>
      Holds mem'.toLinkedTree (plug c (f.fill nil)) rest ∧ mem'.ptreeNode = mem.ptreeNode := by
  have hother : addr f.other ≠ some i := by
    intro hi
    have hnodup := h.nodup_place
    rw [((contextIds_cons).append_left _).nodup_iff] at hnodup
    have hmem := mem_ids_of_addr hi
    simp [ids, inorder] at hnodup hmem
    grind
  have hreset := resetChild_ends h
  have hget : mem.nodes.get f.id = some (.join (parentOf c) (some i) (addr f.other) f.data f.side) := get_frame h
  refine Ends.step (get_eq hget) ?_
  have hleft : some i = (LinkedNode.join (parentOf c) (some i) (addr f.other) f.data f.side).left ↔ f.side = .left :=
    LinkedNode.eq_left_join hother
  cases hd : f.side with
  | left =>
    rw [hd] at hleft hreset
    rw [if_pos (hleft.mpr rfl)]
    exact hreset
  | right =>
    rw [hd] at hleft hreset
    rw [if_neg (mt hleft.mp (by simp))]
    exact Ends.step (assert_eq (decide_eq_true rfl)) hreset

/-- The walk up stops at a node that still has a child. -/
theorem removeFrom_ends (hbranches : Branches c) {fuel : ℕ} (hfuel : c.length ≤ fuel) :
    ∀ {mem i a}, Holds mem.toLinkedTree (plug c (node (i, a) nil nil)) rest →
      Ends (removeFrom fuel i) mem fun _ mem' =>
        Holds mem'.toLinkedTree (prune c) rest ∧ mem'.ptreeNode = mem.ptreeNode := by
  induction c generalizing fuel with
  | nil => simp [Branches] at hbranches
  | cons f c ih =>
    intro mem i a h
    obtain ⟨fuel, rfl⟩ : ∃ k, fuel = k + 1 := ⟨fuel - 1, by rw [List.length_cons] at hfuel; omega⟩
    refine Ends.step (get_eq h.get) ?_
    refine (cutChild_ends h).andThen fun _ mem1 hcut => ?_
    obtain ⟨hcut, hnode⟩ := hcut
    obtain ⟨d, k, b, other⟩ := f
    have hplace : Holds mem1.toLinkedTree (plug c (join (k, b) nil other d)) rest := hcut
    have hget := (lays_join.mp hplace.place).1
    refine Ends.step (get_eq hget) ?_
    rw [prune]
    by_cases hnil : other = nil
    · subst hnil
      have hleaf : join (k, b) nil nil d = node (k, b) (nil : Linked (Option ℕ)) nil := by cases d <;> rfl
      have hbranches' : Branches c := by
        obtain ⟨f, hf, hne⟩ := hbranches
        obtain rfl | hf := List.mem_cons.mp hf
        · exact absurd rfl hne
        · exact ⟨f, hf, hne⟩
      rw [if_pos (by cases d <;> rfl), if_pos rfl, ← hnode]
      exact ih hbranches' (Nat.le_of_succ_le_succ hfuel) (hleaf ▸ hplace)
    · obtain ⟨q, hq⟩ : ∃ q, addr other = some q := by
        cases other with
        | nil => exact absurd rfl hnil
        | node q _ _ => exact ⟨q.1, rfl⟩
      rw [if_neg (by cases d <;> simp [isLeaf, LinkedNode.join, hq]), if_neg hnil]
      exact Ends.pure ⟨hplace, hnode⟩

theorem remove_ends (h : Holds mem.toLinkedTree (plug c (node (i, a) nil nil)) rest) (hbranches : Branches c) :
    Ends (remove (some i)) mem fun _ mem' =>
      Holds mem'.toLinkedTree (prune c) rest ∧ mem'.ptreeNode = mem.ptreeNode := by
  have hlength := (numNodes_plug c _).trans h.numNodes_le
  refine Ends.step rfl (Ends.step (get_eq h.get) (Ends.step (assert_eq rfl) (Ends.step rfl ?_)))
  exact removeFrom_ends hbranches (by omega) h

structure Mirrors (mem : Memory) (live : Finset ℕ) (t : Linked (Option ℕ)) : Prop where
  holds : Holds mem.toLinkedTree t fun _ => none
  full : Full t
  mem_live : ∀ s, s ∈ live ↔ ∃ i, (i, some s) ∈ t.inorder
  ptreeNode : ∀ i s, (i, some s) ∈ t.inorder → mem.ptreeNode s = some i

theorem Mirrors.place (h : Mirrors mem live t) (hs : s ∈ live) :
    ∃ i c, mem.ptreeNode s = some i ∧ t = plug c (node (i, some s) nil nil) ∧
      (∀ f ∈ c, f.data = none ∧ Full f.other) ∧ ∀ j s', (j, some s') ∈ before c ++ after c → s' ≠ s := by
  obtain ⟨i, hi⟩ := (h.mem_live s).mp hs
  obtain ⟨c, l, r, rfl⟩ := exists_place hi
  obtain ⟨hc, hnode, -⟩ := (full_plug (by simp)).mp h.full
  obtain ⟨rfl, rfl⟩ : l = nil ∧ r = nil := by
    by_contra hchild
    cases hnode.mpr hchild
  refine ⟨i, c, h.ptreeNode i s hi, rfl, hc, ?_⟩
  rintro j s' hj rfl
  have hij : some i = some j := (h.ptreeNode i s' hi).symm.trans (h.ptreeNode j s' (mem_plug.mpr (.inr hj)))
  cases hij
  have hdisjoint := List.disjoint_of_nodup_append h.holds.nodup_place
  exact hdisjoint (by simp [ids, inorder]) (List.mem_map_of_mem (f := Prod.fst) hj)

theorem new_ends (s : ℕ) : Ends (new s) {} fun _ mem => ∃ t, Mirrors mem {s} t := by
  refine Ends.step rfl ⟨(), _, rfl, node (0, some s) nil nil, ⟨rfl, ⟨rfl, trivial, trivial⟩, ?_, ?_, ?_⟩, ?_, ?_, ?_⟩
  · exact List.nodup_singleton 0
  · exact fun _ _ => rfl
  · intro i hi
    have hi : i ≠ 0 := by simpa [ids, inorder] using hi
    exact Store.get_alloc hi
  · exact ⟨by simp, trivial, trivial⟩
  · simp [inorder]
  · intro i s' h
    obtain ⟨rfl, rfl⟩ : i = 0 ∧ s' = s := by simpa [inorder] using h
    exact Function.update_self _ _ _

theorem mem_leaf : (j, some s) ∈ (plug c (node (i, a) nil nil)).inorder ↔
    (j = i ∧ some s = a) ∨ (j, some s) ∈ before c ++ after c := by
  rw [mem_plug]
  simp [inorder]

theorem mem_fork {j k m leftState rightState : ℕ} :
    (m, some s) ∈ (plug c (node (i, none) (node (j, some leftState) nil nil)
      (node (k, some rightState) nil nil))).inorder ↔
    (m = j ∧ s = leftState) ∨ (m = k ∧ s = rightState) ∨ (m, some s) ∈ before c ++ after c := by
  rw [mem_plug, ← or_assoc]
  simp [inorder]

theorem attach_mirrors (h : Mirrors mem live t) (hs : s ∈ live) {fresh leftState rightState : ℕ} (hfresh : fresh ∉ live)
    (hstates : (leftState = fresh ∧ rightState = s) ∨ (leftState = s ∧ rightState = fresh)) :
    Ends (attach (mem.ptreeNode s) leftState rightState) mem fun _ mem' => ∃ t', Mirrors mem' (insert fresh live) t' := by
  obtain ⟨i, c, hi, rfl, hc, hother⟩ := h.place hs
  rw [hi]
  refine (attach_ends h.holds leftState rightState).imp fun _ mem' hattach => ?_
  obtain ⟨j, k, hholds, hnode⟩ := hattach
  have hnew : ∀ {m s'}, (m, some s') ∈ before c ++ after c → s' ≠ fresh ∧ s' ≠ s := by
    intro m s' hm
    refine ⟨?_, hother m s' hm⟩
    rintro rfl
    exact hfresh ((h.mem_live s').mpr ⟨m, mem_plug.mpr (.inr hm)⟩)
  refine ⟨_, hholds, (full_plug (by nofun)).mpr ⟨hc, by simp [Full]⟩, fun s' => ?_, fun m s' hm => ?_⟩
  · simp only [Finset.mem_insert, h.mem_live, mem_leaf, mem_fork, Option.some.injEq, exists_or, exists_and_right,
      exists_eq, true_and]
    rcases hstates with ⟨rfl, rfl⟩ | ⟨rfl, rfl⟩
    · rfl
    · exact or_left_comm
  · have hne : leftState ≠ rightState := by
      rcases hstates with ⟨rfl, rfl⟩ | ⟨rfl, rfl⟩
      · exact fun heq => hfresh (heq ▸ hs)
      · exact fun heq => hfresh (heq ▸ hs)
    rw [hnode]
    obtain ⟨rfl, rfl⟩ | ⟨rfl, rfl⟩ | hm := mem_fork.mp hm
    · rw [Function.update_of_ne hne, Function.update_self]
    · rw [Function.update_self]
    · obtain ⟨hs', hsl, hsr⟩ : mem.ptreeNode s' = some m ∧ s' ≠ leftState ∧ s' ≠ rightState := by
        have hnew := hnew hm
        refine ⟨h.ptreeNode m s' (mem_plug.mpr (.inr hm)), ?_⟩
        rcases hstates with ⟨rfl, rfl⟩ | ⟨rfl, rfl⟩
        · exact hnew
        · exact hnew.symm
      rw [Function.update_of_ne hsr, Function.update_of_ne hsl, hs']

theorem remove_mirrors (h : Mirrors mem live t) (hs : s ∈ live) (hlast : live ≠ {s}) :
    Ends (remove (mem.ptreeNode s)) mem fun _ mem' => ∃ t', Mirrors mem' (live.erase s) t' := by
  obtain ⟨i, c, hi, rfl, hc, hother⟩ := h.place hs
  have hbranches : Branches c := by
    obtain ⟨s', hs', hne⟩ : ∃ s' ∈ live, s' ≠ s := by
      by_contra! hall
      exact hlast (Finset.eq_singleton_iff_unique_mem.mpr ⟨hs, hall⟩)
    obtain ⟨j, hj⟩ := (h.mem_live s').mp hs'
    obtain ⟨-, heq⟩ | hj := mem_leaf.mp hj
    · exact absurd (Option.some.inj heq) hne
    · obtain ⟨f, hf, heq | hmem⟩ := mem_around.mp hj
      · cases (hc f hf).1.symm.trans (Prod.mk.inj heq).2.symm
      · refine ⟨f, hf, fun hnil => ?_⟩
        rw [hnil] at hmem
        cases hmem
  rw [hi]
  refine (remove_ends h.holds hbranches).imp fun _ mem' hremove => ?_
  obtain ⟨hholds, hnode⟩ := hremove
  refine ⟨_, hholds, (prune_full hc hbranches).2, fun s' => ?_, fun m s' hm => ?_⟩
  · simp only [Finset.mem_erase, h.mem_live, mem_leaf, mem_prune hc, Option.some.injEq]
    constructor
    · rintro ⟨hne, j, ⟨-, heq⟩ | hj⟩
      · exact absurd heq hne
      · exact ⟨j, hj⟩
    · rintro ⟨j, hj⟩
      exact ⟨hother j s' hj, j, .inr hj⟩
  · rw [hnode]
    exact h.ptreeNode m s' (mem_leaf.mpr (.inr ((mem_prune hc).mp hm)))

theorem step_mirrors (h : Mirrors mem live t) {op : Op} (hop : op.Allowed live) :
    Ends (step op) mem fun _ mem' => ∃ t', Mirrors mem' (op.live live) t' := by
  cases op with
  | attach state fresh side =>
    cases side with
    | left => exact Ends.step rfl (attach_mirrors h hop.1 hop.2 (.inl ⟨rfl, rfl⟩))
    | right => exact Ends.step rfl (attach_mirrors h hop.1 hop.2 (.inr ⟨rfl, rfl⟩))
  | remove state => exact Ends.step rfl (remove_mirrors h hop.1 hop.2)

theorem steps_mirrors {ops : List Op} (h : Mirrors mem live t) (hops : AllAllowed live ops) :
    Ends (steps ops) mem fun _ mem' => ∃ t', Mirrors mem' (ops.foldl Op.live live) t' := by
  induction ops generalizing mem live t with
  | nil => exact Ends.pure ⟨t, h⟩
  | cons op ops ih =>
    refine (step_mirrors h hops.1).andThen fun _ mem1 hstep => ?_
    obtain ⟨t1, h1⟩ := hstep
    exact ih h1 hops.2

theorem live_nonempty {ops : List Op} (hlive : live.Nonempty) (hops : AllAllowed live ops) :
    (ops.foldl Op.live live).Nonempty := by
  induction ops generalizing live with
  | nil => exact hlive
  | cons op ops ih =>
    obtain ⟨hop, hops⟩ := hops
    refine ih ?_ hops
    cases op with
    | attach state fresh side => exact Finset.insert_nonempty fresh live
    | remove state =>
      obtain ⟨s', hs', hne⟩ : ∃ s' ∈ live, s' ≠ state := by
        by_contra! hall
        exact hop.2 (Finset.eq_singleton_iff_unique_mem.mpr ⟨hop.1, hall⟩)
      exact ⟨s', Finset.mem_erase.mpr ⟨hne, hs'⟩⟩

section

variable {getInt32 : ℕ → BitVec 32} {r : Flips} {m fuel : ℕ}

def bit (getInt32 : ℕ → BitVec 32) (m : ℕ) : Bool := (getInt32 (m / 32)).getLsbD (31 - m % 32)

theorem exists_bit (b : ℕ → Bool) : ∃ getInt32, ∀ m, bit getInt32 m = b m := by
  refine ⟨fun k => (BitVec.ofBoolListLE ((List.range 32).map fun i => b (32 * k + (31 - i)))).setWidth 32, fun m => ?_⟩
  have hlt : 31 - m % 32 < 32 := by omega
  have hm : 32 * (m / 32) + (31 - (31 - m % 32)) = m := by omega
  rw [bit, BitVec.getLsbD_setWidth, BitVec.getLsbD_ofBoolListLE]
  simp [hlt, hm]

structure Flips.At (getInt32 : ℕ → BitVec 32) (r : Flips) (m : ℕ) : Prop where
  bits : r.bits + m = 32 * r.used
  lt : r.bits < 32
  flips : 0 < r.bits → r.flips = getInt32 (r.used - 1)

theorem Flips.At.next (h : r.At getInt32 m) :
    (r.next getInt32).1 = bit getInt32 m ∧ (r.next getInt32).2.At getInt32 (m + 1) := by
  obtain ⟨hbits, hlt, hflips⟩ := h
  rcases Nat.eq_zero_or_pos r.bits with hzero | hpos
  · have hword : m / 32 = r.used ∧ m % 32 = 0 := by omega
    rw [Flips.next, Flips.refill, if_pos hzero, bit, hword.1, hword.2]
    exact ⟨rfl, by simp only; omega, by simp, fun _ => rfl⟩
  · have hword : m / 32 = r.used - 1 ∧ 31 - m % 32 = r.bits - 1 := by omega
    rw [Flips.next, Flips.refill, if_neg hpos.ne', bit, hword.1, hword.2, ← hflips hpos]
    exact ⟨rfl, by simp only; omega, by simp only; omega, fun _ => hflips hpos⟩

theorem selectFrom_state {n : PTreeNode} (h : mem.nodes.get i = some n) (hn : n.data = some s) :
    selectFrom getInt32 mem (fuel + 1) r (some i) = some s := by
  simp [selectFrom, h, hn]

theorem selectFrom_node {p : Option ℕ} {x y : Linked (Option ℕ)} (h : mem.nodes.get i = some ⟨p, addr x, addr y, none⟩) :
    selectFrom getInt32 mem (fuel + 1) r (some i) =
      if x = nil then selectFrom getInt32 mem fuel r (addr y)
      else if y = nil then selectFrom getInt32 mem fuel r (addr x)
      else selectFrom getInt32 mem fuel (r.next getInt32).2 (addr (if (r.next getInt32).1 then x else y)) := by
  cases x with
  | nil => simp [selectFrom, h, addr]
  | node q _ _ =>
    cases y with
    | nil => simp [selectFrom, h, addr]
    | node q' _ _ =>
      simp only [selectFrom, h, addr, reduceCtorEq, if_false]
      cases (r.next getInt32).1 <;> rfl

theorem Full.leaf (h : Full (node (i, some s) x y)) : x = nil ∧ y = nil := by
  by_contra hchild
  cases h.1.mpr hchild

theorem selectFrom_ends {p : Option ℕ} (hlays : Lays mem.toLinkedTree p t) (hfull : Full t) (ht : t ≠ nil)
    (hfuel : t.numNodes ≤ fuel) :
    ∃ i s, (i, some s) ∈ t.inorder ∧ selectFrom getInt32 mem fuel r (addr t) = some s := by
  induction t generalizing p fuel r with
  | nil => exact absurd rfl ht
  | node a x y ihx ihy =>
    obtain ⟨i, a⟩ := a
    obtain ⟨hget, hx, hy⟩ := hlays
    rw [numNodes] at hfuel
    obtain ⟨fuel, rfl⟩ : ∃ k, fuel = k + 1 := ⟨fuel - 1, by omega⟩
    have hfuelx : x.numNodes ≤ fuel := by omega
    have hfuely : y.numNodes ≤ fuel := by omega
    cases a with
    | some s => exact ⟨i, s, by simp [inorder], selectFrom_state hget rfl⟩
    | none =>
      obtain ⟨hnode, hfullx, hfully⟩ := hfull
      rw [addr, selectFrom_node hget]
      have hleft (r : Flips) (hne : x ≠ nil) : ∃ j s, (j, some s) ∈ inorder (node (i, none) x y) ∧
          selectFrom getInt32 mem fuel r (addr x) = some s := by
        obtain ⟨j, s, hmem, hsel⟩ := ihx (r := r) hx hfullx hne hfuelx
        exact ⟨j, s, List.mem_append_left _ hmem, hsel⟩
      have hright (r : Flips) (hne : y ≠ nil) : ∃ j s, (j, some s) ∈ inorder (node (i, none) x y) ∧
          selectFrom getInt32 mem fuel r (addr y) = some s := by
        obtain ⟨j, s, hmem, hsel⟩ := ihy (r := r) hy hfully hne hfuely
        exact ⟨j, s, List.mem_append_right _ (List.mem_cons_of_mem _ hmem), hsel⟩
      split_ifs with hxnil hynil hflip
      · exact hright r fun hynil => hnode.mp rfl ⟨hxnil, hynil⟩
      · exact hleft r hxnil
      · exact hleft _ hxnil
      · exact hright _ hynil

theorem selectFrom_reaches {p : Option ℕ} (hlays : Lays mem.toLinkedTree p t) (hfull : Full t)
    (hfuel : t.numNodes ≤ fuel) (hs : (i, some s) ∈ t.inorder) (m : ℕ) :
    ∃ b : ℕ → Bool, ∀ getInt32 r, r.At getInt32 m → (∀ k, m ≤ k → bit getInt32 k = b k) →
      selectFrom getInt32 mem fuel r (addr t) = some s := by
  induction t generalizing p fuel m with
  | nil => cases hs
  | node a x y ihx ihy =>
    obtain ⟨k, a⟩ := a
    obtain ⟨hget, hx, hy⟩ := hlays
    rw [numNodes] at hfuel
    obtain ⟨fuel, rfl⟩ : ∃ k, fuel = k + 1 := ⟨fuel - 1, by omega⟩
    have hfuelx : x.numNodes ≤ fuel := by omega
    have hfuely : y.numNodes ≤ fuel := by omega
    cases a with
    | some s' =>
      obtain ⟨rfl, rfl⟩ := hfull.leaf
      obtain ⟨rfl, rfl⟩ : i = k ∧ s = s' := by simpa [inorder] using hs
      exact ⟨fun _ => true, fun getInt32 r _ _ => selectFrom_state hget rfl⟩
    | none =>
      obtain ⟨hnode, hfullx, hfully⟩ := hfull
      rw [inorder, List.mem_append, List.mem_cons] at hs
      obtain hs | hs | hs := hs
      · have hxnil : x ≠ nil := by
          rintro rfl
          cases hs
        by_cases hynil : y = nil
        · obtain ⟨b, hb⟩ := ihx hx hfullx hfuelx hs m
          refine ⟨b, fun getInt32 r hr hbit => ?_⟩
          rw [addr, selectFrom_node hget, if_neg hxnil, if_pos hynil]
          exact hb getInt32 r hr hbit
        · obtain ⟨b, hb⟩ := ihx hx hfullx hfuelx hs (m + 1)
          refine ⟨Function.update b m true, fun getInt32 r hr hbit => ?_⟩
          have hflip : (r.next getInt32).1 = true := by rw [hr.next.1, hbit m le_rfl, Function.update_self]
          rw [addr, selectFrom_node hget, if_neg hxnil, if_neg hynil, if_pos hflip]
          refine hb getInt32 _ hr.next.2 fun k hk => ?_
          rw [hbit k (by omega), Function.update_of_ne (by omega)]
      · cases hs
      · have hynil : y ≠ nil := by
          rintro rfl
          cases hs
        by_cases hxnil : x = nil
        · obtain ⟨b, hb⟩ := ihy hy hfully hfuely hs m
          refine ⟨b, fun getInt32 r hr hbit => ?_⟩
          rw [addr, selectFrom_node hget, if_pos hxnil]
          exact hb getInt32 r hr hbit
        · obtain ⟨b, hb⟩ := ihy hy hfully hfuely hs (m + 1)
          refine ⟨Function.update b m false, fun getInt32 r hr hbit => ?_⟩
          have hflip : (r.next getInt32).1 ≠ true := by rw [hr.next.1, hbit m le_rfl, Function.update_self]; simp
          rw [addr, selectFrom_node hget, if_neg hxnil, if_neg hynil, if_neg hflip]
          refine hb getInt32 _ hr.next.2 fun k hk => ?_
          rw [hbit k (by omega), Function.update_of_ne (by omega)]

end

/-- The nodes are those of a tree, whose leaves are the nodes of the live states. -/
structure Reflects (mem : Memory) (live : Finset ℕ) : Prop where
  tree : ∃ t, Holds mem.toLinkedTree t fun _ => none
  leaf : ∀ s ∈ live, ∃ i n, mem.ptreeNode s = some i ∧ mem.nodes.get i = some n ∧ n.data = some s
  state : ∀ i n s, mem.nodes.get i = some n → n.data = some s →
    s ∈ live ∧ mem.ptreeNode s = some i ∧ n.left = none ∧ n.right = none
  inner : ∀ i n, mem.nodes.get i = some n → n.data = none → n.left ≠ none ∨ n.right ≠ none
  child : ∀ i n d j, mem.nodes.get i = some n → n.child d = some j →
    ∃ m, mem.nodes.get j = some m ∧ m.parent = some i
  parent : ∀ i n, mem.nodes.get i = some n → (n.parent = none ∧ mem.root = some i) ∨
    ∃ p m d, n.parent = some p ∧ mem.nodes.get p = some m ∧ m.child d = some i

theorem Mirrors.get {n : PTreeNode} (h : Mirrors mem live t) (hget : mem.nodes.get i = some n) :
    ∃ c l r, t = plug c (node (i, n.data) l r) ∧ n = ⟨parentOf c, addr l, addr r, n.data⟩ := by
  have hmem : i ∈ ids t := by
    by_contra hout
    cases (h.holds.rest i hout).symm.trans hget
  obtain ⟨⟨k, a⟩, ha, rfl⟩ := List.mem_map.mp hmem
  obtain ⟨c, l, r, rfl⟩ := exists_place ha
  obtain rfl : _ = n := Option.some.inj (h.holds.get.symm.trans hget)
  exact ⟨c, l, r, rfl, rfl⟩

theorem addr_eq_none : addr t = none ↔ t = nil := by cases t <;> simp [addr]

theorem Lays.parent_addr {p : Option ℕ} (h : Lays mem.toLinkedTree p t) (ht : addr t = some i) :
    ∃ n, mem.nodes.get i = some n ∧ n.parent = p := by
  cases t with
  | nil => cases ht
  | node a l r =>
    cases ht
    exact ⟨_, h.1, rfl⟩

theorem Mirrors.reflects (h : Mirrors mem live t) : Reflects mem live := by
  refine ⟨⟨t, h.holds⟩, fun s hs => ?_, fun i n s hget hn => ?_, fun i n hget hn => ?_, fun i n d j hget hchild => ?_,
    fun i n hget => ?_⟩
  · obtain ⟨i, c, hi, rfl, -, -⟩ := h.place hs
    exact ⟨i, _, hi, h.holds.get, rfl⟩
  · obtain ⟨c, l, r, rfl, hnode⟩ := h.get hget
    rw [hn] at h hnode
    have hmem : (i, some s) ∈ (plug c (node (i, some s) l r)).inorder := mem_plug.mpr (.inl (by simp [inorder]))
    obtain ⟨rfl, rfl⟩ := ((full_plug (by simp)).mp h.full).2.leaf
    rw [hnode]
    exact ⟨(h.mem_live s).mpr ⟨i, hmem⟩, h.ptreeNode i s hmem, rfl, rfl⟩
  · obtain ⟨c, l, r, rfl, hnode⟩ := h.get hget
    obtain ⟨-, hchild, -⟩ := (full_plug (by simp)).mp h.full
    have hchild := hchild.mp hn
    rw [hnode, Ne, Ne, addr_eq_none, addr_eq_none]
    tauto
  · obtain ⟨c, l, r, rfl, hnode⟩ := h.get hget
    obtain ⟨-, hl, hr⟩ := h.holds.place
    rw [hnode] at hchild
    cases d with
    | left => exact Lays.parent_addr hl hchild
    | right => exact Lays.parent_addr hr hchild
  · obtain ⟨c, l, r, rfl, hnode⟩ := h.get hget
    rw [hnode]
    cases c with
    | nil => exact .inl ⟨rfl, h.holds.root⟩
    | cons f c => exact .inr ⟨f.id, _, f.side, rfl, get_frame h.holds, LinkedNode.child_join⟩

theorem run_reflects (initialState : ℕ) (ops : List Op) (hops : AllAllowed {initialState} ops) :
    Ends (run initialState ops) {} fun _ mem =>
      Reflects mem (ops.foldl Op.live {initialState}) ∧
      (∀ getInt32, ∃ s ∈ ops.foldl Op.live {initialState}, selectState getInt32 mem = some s) ∧
      ∀ s ∈ ops.foldl Op.live {initialState}, ∃ getInt32, selectState getInt32 mem = some s := by
  refine (new_ends initialState).andThen fun _ mem₀ hnew => ?_
  obtain ⟨t₀, h₀⟩ := hnew
  refine (steps_mirrors h₀ hops).imp fun _ mem hsteps => ?_
  obtain ⟨t, h⟩ := hsteps
  have hlive := live_nonempty (Finset.singleton_nonempty initialState) hops
  generalize ops.foldl Op.live {initialState} = live at h hlive ⊢
  have ht : t ≠ nil := by
    rintro rfl
    obtain ⟨s, hs⟩ := hlive
    obtain ⟨i, hi⟩ := (h.mem_live s).mp hs
    cases hi
  refine ⟨h.reflects, fun getInt32 => ?_, fun s hs => ?_⟩
  · obtain ⟨i, s, hmem, hsel⟩ := selectFrom_ends h.holds.lays h.full ht h.holds.numNodes_le
    exact ⟨s, (h.mem_live s).mpr ⟨i, hmem⟩, (congrArg _ h.holds.root).trans hsel⟩
  · obtain ⟨i, hi⟩ := (h.mem_live s).mp hs
    obtain ⟨b, hb⟩ := selectFrom_reaches h.holds.lays h.full h.holds.numNodes_le hi 0
    obtain ⟨getInt32, hbit⟩ := exists_bit b
    exact ⟨getInt32, (congrArg _ h.holds.root).trans (hb getInt32 {} ⟨rfl, by simp, by simp⟩ fun k _ => hbit k)⟩

/-- Three states, of which two end. -/
theorem run_reflects_remove :
    Ends (run 0 [.attach 0 1 .left, .attach 1 2 .right, .remove 1, .remove 2]) {} fun _ mem =>
      ∀ getInt32, selectState getInt32 mem = some 0 := by
  have hops : AllAllowed {0} [.attach 0 1 .left, .attach 1 2 .right, .remove 1, .remove 2] :=
    ⟨by decide, by decide, by decide, by decide, trivial⟩
  refine (run_reflects 0 _ hops).imp fun _ mem h getInt32 => ?_
  obtain ⟨s, hs, hsel⟩ := h.2.1 getInt32
  obtain rfl : s = 0 := by
    simp [Op.live] at hs
    omega
  exact hsel

end Klee.ProcessTree
