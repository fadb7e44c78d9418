import DdKlee.Lib.Store

/-! Binary trees of linked nodes, which have pointers to their children and to their parent.
A place in a tree is the subtree there in the context of the frames above it. -/

inductive Side
  | left
  | right
deriving DecidableEq, Repr

def Side.other : Side → Side
  | .left => .right
  | .right => .left

structure LinkedNode (δ : Type) where
  parent : Option ℕ
  left : Option ℕ
  right : Option ℕ
  data : δ

namespace LinkedNode

variable {δ : Type} (n : LinkedNode δ)

def child : Side → Option ℕ
  | .left => n.left
  | .right => n.right

def setChild (p : Option ℕ) : Side → LinkedNode δ
  | .left => { n with left := p }
  | .right => { n with right := p }

def join (parent x y : Option ℕ) (a : δ) : Side → LinkedNode δ
  | .left => ⟨parent, x, y, a⟩
  | .right => ⟨parent, y, x, a⟩

variable {parent x y p : Option ℕ} {a : δ} {d : Side}

theorem child_join : (join parent x y a d).child d = x := by cases d <;> rfl

theorem child_join_other : (join parent x y a d).child d.other = y := by cases d <;> rfl

theorem setChild_join : (join parent x y a d).setChild p d = join parent p y a d := by cases d <;> rfl

theorem setChild_join_other : (join parent x y a d).setChild p d.other = join parent x p a d := by cases d <;> rfl

theorem parent_join : (join parent x y a d).parent = parent := by cases d <;> rfl

theorem setParent_join : { join parent x y a d with parent := p } = join p x y a d := by cases d <;> rfl

theorem setData_join {b : δ} : { join parent x y a d with data := b } = join parent x y b d := by cases d <;> rfl

theorem side_join {i : ℕ} (h : y ≠ some i) :
    (if some i = (join parent (some i) y a d).left then Side.left else .right) = d := by
  cases d with
  | left => exact if_pos rfl
  | right => exact if_neg h.symm

theorem eq_left_join {i : ℕ} (h : y ≠ some i) : some i = (join parent (some i) y a d).left ↔ d = .left := by
  cases d with
  | left => exact iff_of_true rfl rfl
  | right => exact iff_of_false h.symm nofun

theorem eq_right_join {i : ℕ} (h : y ≠ some i) : some i = (join parent (some i) y a d).right ↔ d = .right := by
  cases d with
  | left => exact iff_of_false h.symm nofun
  | right => exact iff_of_true rfl rfl

theorem data_join : (join parent x y a d).data = a := by cases d <;> rfl

end LinkedNode

structure LinkedTree (δ : Type) where
  nodes : Store (LinkedNode δ) := {}
  root : Option ℕ := none

abbrev Linked (δ : Type) := BinaryTree (ℕ × δ)

namespace BinaryTree

variable {α : Type}

def inorder : BinaryTree α → List α
  | nil => []
  | node a l r => l.inorder ++ a :: r.inorder

def join (a : α) (x y : BinaryTree α) : Side → BinaryTree α
  | .left => node a x y
  | .right => node a y x

theorem exists_join (a : α) (l r : BinaryTree α) (d : Side) : ∃ x y, node a l r = join a x y d := by
  cases d with
  | left => exact ⟨l, r, rfl⟩
  | right => exact ⟨r, l, rfl⟩

theorem numNodes_join {a : α} {x y : BinaryTree α} {d : Side} :
    (join a x y d).numNodes = x.numNodes + y.numNodes + 1 := by
  cases d with
  | left => rfl
  | right => exact congrArg (· + 1) (Nat.add_comm _ _)

theorem length_inorder (t : BinaryTree α) : t.inorder.length = t.numNodes := by
  induction t with
  | nil => rfl
  | node a l r ihl ihr =>
    simp only [inorder, List.length_append, List.length_cons, numNodes, ihl, ihr]
    omega

end BinaryTree

namespace Linked

open BinaryTree

variable {δ : Type}

def addr : Linked δ → Option ℕ
  | nil => none
  | node a _ _ => some a.1

def ids (t : Linked δ) : List ℕ := t.inorder.map Prod.fst

/-- A node on the way to a place, with the side that the way takes and the subtree on the
other. -/
structure Frame (δ : Type) where
  side : Side
  id : ℕ
  data : δ
  other : Linked δ

def Frame.fill (f : Frame δ) (t : Linked δ) : Linked δ := join (f.id, f.data) t f.other f.side

abbrev Context (δ : Type) := List (Frame δ)

def plug : Context δ → Linked δ → Linked δ
  | [], t => t
  | f :: c, t => plug c (f.fill t)

def parentOf : Context δ → Option ℕ
  | [] => none
  | f :: _ => some f.id

def before : Context δ → List (ℕ × δ)
  | [] => []
  | ⟨.left, _, _, _⟩ :: c => before c
  | ⟨.right, i, a, other⟩ :: c => before c ++ (other.inorder ++ [(i, a)])

def after : Context δ → List (ℕ × δ)
  | [] => []
  | ⟨.left, i, a, other⟩ :: c => (i, a) :: other.inorder ++ after c
  | ⟨.right, _, _, _⟩ :: c => after c

theorem inorder_plug (c : Context δ) (t : Linked δ) : (plug c t).inorder = before c ++ t.inorder ++ after c := by
  induction c generalizing t with
  | nil => simp [plug, before, after]
  | cons f c ih =>
    obtain ⟨side, i, a, other⟩ := f
    rw [plug, ih]
    cases side <;> simp [Frame.fill, join, inorder, before, after]

theorem plug_append (c c' : Context δ) (t : Linked δ) : plug (c ++ c') t = plug c' (plug c t) := by
  induction c generalizing t with
  | nil => rfl
  | cons f c ih => exact ih _

theorem exists_place {t : Linked δ} {x : ℕ × δ} (h : x ∈ t.inorder) : ∃ c l r, t = plug c (node x l r) := by
  induction t with
  | nil => cases h
  | node a l r ihl ihr =>
    rw [inorder, List.mem_append, List.mem_cons] at h
    obtain h | rfl | h := h
    · obtain ⟨c, l', r', rfl⟩ := ihl h
      exact ⟨c ++ [⟨.left, a.1, a.2, r⟩], l', r', by rw [plug_append]; rfl⟩
    · exact ⟨[], l, r, rfl⟩
    · obtain ⟨c, l', r', rfl⟩ := ihr h
      exact ⟨c ++ [⟨.right, a.1, a.2, l⟩], l', r', by rw [plug_append]; rfl⟩

theorem after_append (c c' : Context δ) : after (c ++ c') = after c ++ after c' := by
  induction c with
  | nil => rfl
  | cons f c ih =>
    obtain ⟨side, i, a, other⟩ := f
    cases side <;> simp [after, ih]

def Lays (mem : LinkedTree δ) (parent : Option ℕ) : Linked δ → Prop
  | nil => True
  | node a l r => mem.nodes.get a.1 = some ⟨parent, addr l, addr r, a.2⟩ ∧
      Lays mem (some a.1) l ∧ Lays mem (some a.1) r

/-- So are the frames of a context, with a pointer to what is in the place. -/
def LaysContext (mem : LinkedTree δ) (p : Option ℕ) : Context δ → Prop
  | [] => mem.root = p
  | f :: c => mem.nodes.get f.id = some (.join (parentOf c) p (addr f.other) f.data f.side) ∧
      Lays mem (some f.id) f.other ∧ LaysContext mem (some f.id) c

structure Holds (mem : LinkedTree δ) (t : Linked δ) (rest : ℕ → Option (LinkedNode δ)) : Prop where
  root : mem.root = addr t
  lays : Lays mem none t
  nodup : (ids t).Nodup
  apart : ∀ i ∈ ids t, rest i = none
  rest : ∀ i, i ∉ ids t → mem.nodes.get i = rest i

def contextIds (c : Context δ) : List ℕ := (before c ++ after c).map Prod.fst

def relink (mem : LinkedTree δ) (p : Option ℕ) : Context δ → LinkedTree δ
  | [] => { mem with root := p }
  | f :: _ => { mem with nodes := mem.nodes.modify f.id fun n => n.setChild p f.side }

variable {mem mem' : LinkedTree δ} {c : Context δ} {f : Frame δ} {t t' l r : Linked δ} {i : ℕ} {a : δ} {p q : Option ℕ}
  {rest rest' : ℕ → Option (LinkedNode δ)}

theorem addr_join {x y : Linked δ} {d : Side} : addr (join (i, a) x y d) = some i := by cases d <;> rfl

theorem lays_join {x y : Linked δ} {d : Side} : Lays mem p (join (i, a) x y d) ↔
    mem.nodes.get i = some (.join p (addr x) (addr y) a d) ∧ Lays mem (some i) x ∧ Lays mem (some i) y := by
  cases d with
  | left => rfl
  | right => exact and_congr_right' and_comm

theorem ids_join {x y : Linked δ} {d : Side} : (ids (join (i, a) x y d)).Perm (i :: (ids x ++ ids y)) := by
  cases d with
  | left =>
    simp only [join, ids, inorder, List.map_append, List.map_cons]
    exact List.perm_middle
  | right =>
    simp only [join, ids, inorder, List.map_append, List.map_cons]
    exact List.perm_middle.trans (List.Perm.cons _ List.perm_append_comm)

theorem lays_plug : mem.root = addr (plug c t) ∧ Lays mem none (plug c t) ↔
    LaysContext mem (addr t) c ∧ Lays mem (parentOf c) t := by
  induction c generalizing t with
  | nil => rfl
  | cons f c ih =>
    rw [plug, ih, Frame.fill, addr_join, lays_join]
    exact ⟨fun ⟨hc, hget, ht, hother⟩ => ⟨⟨hget, hother, hc⟩, ht⟩, fun ⟨⟨hget, hother, hc⟩, ht⟩ => ⟨hc, hget, ht, hother⟩⟩

theorem ids_plug : (ids (plug c t)).Perm (ids t ++ contextIds c) := by
  rw [ids, inorder_plug, ids, contextIds, ← List.map_append]
  refine List.Perm.map _ ?_
  rw [← List.append_assoc]
  exact List.Perm.append_right _ List.perm_append_comm

theorem Lays.frame (h : Lays mem p t) (heq : ∀ i ∈ ids t, mem'.nodes.get i = mem.nodes.get i) : Lays mem' p t := by
  induction t generalizing p with
  | nil => trivial
  | node a l r ihl ihr =>
    obtain ⟨hget, hl, hr⟩ := h
    refine ⟨(heq a.1 (by simp [ids, inorder])).trans hget, ihl hl fun i hi => heq i ?_, ihr hr fun i hi => heq i ?_⟩
    · rw [ids, inorder, List.map_append]
      exact List.mem_append_left _ hi
    · rw [ids, inorder, List.map_append, List.map_cons]
      exact List.mem_append_right _ (List.mem_cons_of_mem _ hi)

theorem contextIds_cons : (contextIds (f :: c)).Perm (f.id :: (ids f.other ++ contextIds c)) := by
  have hplug : plug (f :: c) nil = plug c (f.fill nil) := rfl
  have hids : (ids (plug (f :: c) nil)).Perm (contextIds (f :: c)) := ids_plug
  rw [hplug] at hids
  refine hids.symm.trans (ids_plug.trans ?_)
  exact (ids_join.append_right _).trans (List.Perm.refl _)

theorem LaysContext.frame (h : LaysContext mem p c) (hroot : mem'.root = mem.root)
    (heq : ∀ i ∈ contextIds c, mem'.nodes.get i = mem.nodes.get i) : LaysContext mem' p c := by
  induction c generalizing p with
  | nil => exact hroot.trans h
  | cons f c ih =>
    obtain ⟨hget, hother, hc⟩ := h
    have hmem : ∀ i, i = f.id ∨ i ∈ ids f.other ∨ i ∈ contextIds c → mem'.nodes.get i = mem.nodes.get i := by
      intro i hi
      refine heq i (contextIds_cons.mem_iff.mpr ?_)
      simpa using hi
    exact ⟨(hmem _ (.inl rfl)).trans hget, hother.frame fun i hi => hmem i (.inr (.inl hi)),
      ih hc fun i hi => hmem i (.inr (.inr hi))⟩

theorem LaysContext.relink (h : LaysContext mem p c) (hnodup : (contextIds c).Nodup) :
    LaysContext (relink mem q c) q c := by
  cases c with
  | nil => rfl
  | cons f c =>
    obtain ⟨hget, hother, hc⟩ := h
    obtain ⟨hnot, -⟩ := List.nodup_cons.mp (contextIds_cons.nodup_iff.mp hnodup)
    rw [List.mem_append, not_or] at hnot
    have hne : ∀ i, i ≠ f.id → (Linked.relink mem q (f :: c)).nodes.get i = mem.nodes.get i :=
      fun i hi => by rw [Linked.relink, Store.get_modify, if_neg hi]
    refine ⟨?_, hother.frame fun i hi => hne i (ne_of_mem_of_not_mem hi hnot.1), ?_⟩
    · rw [Linked.relink, Store.get_modify, if_pos rfl, hget, Option.map_some, LinkedNode.setChild_join]
    · exact hc.frame rfl fun i hi => hne i (ne_of_mem_of_not_mem hi hnot.2)

theorem Holds.nodup_place (h : Holds mem (plug c t) rest) : (ids t ++ contextIds c).Nodup :=
  ids_plug.nodup_iff.mp h.nodup

theorem Holds.context (h : Holds mem (plug c t) rest) : LaysContext mem (addr t) c := (lays_plug.mp ⟨h.root, h.lays⟩).1

theorem Holds.place (h : Holds mem (plug c t) rest) : Lays mem (parentOf c) t := (lays_plug.mp ⟨h.root, h.lays⟩).2

theorem Holds.replace (h : Holds mem (plug c t) rest) (hlays : Lays mem' (parentOf c) t')
    (hroot : mem'.root = (relink mem (addr t') c).root)
    (hcontext : ∀ i ∈ contextIds c, mem'.nodes.get i = (relink mem (addr t') c).nodes.get i)
    (hnodup : (ids t' ++ contextIds c).Nodup)
    (hrest : ∀ i, i ∉ ids t' → i ∉ contextIds c → mem'.nodes.get i = rest' i)
    (hapart : ∀ i ∈ ids t' ++ contextIds c, rest' i = none) : Holds mem' (plug c t') rest' := by
  have hc := (h.context.relink (List.Nodup.of_append_right hnodup)).frame hroot hcontext
  obtain ⟨hroot', hlays'⟩ := lays_plug.mpr ⟨hc, hlays⟩
  refine ⟨hroot', hlays', ids_plug.nodup_iff.mpr hnodup, fun i hi => hapart i (ids_plug.mem_iff.mp hi), fun i hi => ?_⟩
  rw [ids_plug.mem_iff, List.mem_append, not_or] at hi
  exact hrest i hi.1 hi.2

theorem Holds.get (h : Holds mem (plug c (node (i, a) l r)) rest) :
    mem.nodes.get i = some ⟨parentOf c, addr l, addr r, a⟩ := h.place.1

theorem Holds.rewrite (h : Holds mem (plug c t) rest) (hlays : Lays mem' (parentOf c) t') (haddr : addr t' = addr t)
    (hids : (ids t').Perm (ids t)) (hroot : mem'.root = mem.root)
    (heq : ∀ i, i ∉ ids t → mem'.nodes.get i = mem.nodes.get i) : Holds mem' (plug c t') rest := by
  have hdisjoint := List.disjoint_of_nodup_append h.nodup_place
  have hc := h.context.frame hroot fun i hi => heq i fun hmem => hdisjoint hmem hi
  rw [← haddr] at hc
  obtain ⟨hroot', hlays'⟩ := lays_plug.mpr ⟨hc, hlays⟩
  have hperm : (ids (plug c t')).Perm (ids (plug c t)) := ids_plug.trans ((hids.append_right _).trans ids_plug.symm)
  refine ⟨hroot', hlays', hperm.nodup_iff.mpr h.nodup, fun i hi => h.apart i (hperm.mem_iff.mp hi), fun i hi => ?_⟩
  rw [hperm.mem_iff] at hi
  rw [heq i fun hmem => hi (ids_plug.mem_iff.mpr (List.mem_append_left _ hmem)), h.rest i hi]

theorem Lays.get_addr (h : Lays mem p t) (ht : addr t = some i) : ∃ nd, mem.nodes.get i = some nd := by
  cases t with
  | nil => cases ht
  | node a l r =>
    cases ht
    exact ⟨_, h.1⟩

theorem ids_node : ids (node (i, a) l r) = ids l ++ i :: ids r := by simp [ids, inorder]

theorem Holds.setData (h : Holds mem (plug c (node (i, a) l r)) rest) (g : δ → δ) :
    Holds { mem with nodes := mem.nodes.modify i fun n => { n with data := g n.data } } (plug c (node (i, g a) l r)) rest := by
  obtain ⟨hget, hl, hr⟩ := h.place
  have hnodup := List.Nodup.of_append_left h.nodup_place
  rw [ids_node, List.perm_middle.nodup_iff, List.nodup_cons, List.mem_append, not_or] at hnodup
  have hne : ∀ j, j ≠ i → (mem.nodes.modify i fun n => { n with data := g n.data }).get j = mem.nodes.get j :=
    fun j hj => by rw [Store.get_modify, if_neg hj]
  refine h.rewrite ⟨?_, hl.frame fun j hj => hne j ?_, hr.frame fun j hj => hne j ?_⟩ rfl (by rw [ids_node, ids_node]) rfl
    fun j hj => hne j ?_
  · simp only [Store.get_modify, if_pos, hget, Option.map_some]
  · exact ne_of_mem_of_not_mem hj hnodup.1.1
  · exact ne_of_mem_of_not_mem hj hnodup.1.2
  · rintro rfl
    exact hj (by simp [ids_node])

theorem Lays.get_mem (h : Lays mem p t) (hi : i ∈ ids t) : ∃ nd, mem.nodes.get i = some nd := by
  induction t generalizing p with
  | nil => cases hi
  | node a l r ihl ihr =>
    obtain ⟨hget, hl, hr⟩ := h
    rw [ids_node, List.mem_append, List.mem_cons] at hi
    obtain hi | rfl | hi := hi
    · exact ihl hl hi
    · exact ⟨_, hget⟩
    · exact ihr hr hi

theorem Holds.numNodes_le (h : Holds mem t rest) : t.numNodes ≤ mem.nodes.cells.length := by
  have hsub : ids t ⊆ List.range mem.nodes.cells.length := by
    intro i hi
    obtain ⟨nd, hget⟩ := h.lays.get_mem hi
    exact List.mem_range.mpr (Store.lt_of_get hget)
  have hle := (h.nodup.subperm hsub).length_le
  rwa [List.length_range, ids, List.length_map, length_inorder] at hle

theorem numNodes_plug (c : Context δ) (t : Linked δ) : c.length + t.numNodes ≤ (plug c t).numNodes := by
  induction c generalizing t with
  | nil => exact (Nat.zero_add _).le
  | cons f c ih =>
    refine le_trans ?_ (ih (f.fill t))
    rw [Frame.fill, numNodes_join, List.length_cons]
    omega

theorem Holds.get_rest {nd : LinkedNode δ} (h : Holds mem t rest) (hi : rest i = some nd) : mem.nodes.get i = some nd := by
  rw [← hi]
  refine h.rest i fun hmem => ?_
  rw [h.apart i hmem] at hi
  cases hi

theorem Lays.reparent (h : Lays mem p t) (hnodup : (ids t).Nodup)
    (hroot : ∀ i, addr t = some i → mem'.nodes.get i = (mem.nodes.get i).map fun n => { n with parent := q })
    (heq : ∀ i ∈ ids t, addr t ≠ some i → mem'.nodes.get i = mem.nodes.get i) : Lays mem' q t := by
  cases t with
  | nil => trivial
  | node a l r =>
    obtain ⟨i, a⟩ := a
    obtain ⟨hget, hl, hr⟩ := h
    rw [ids_node, List.perm_middle.nodup_iff, List.nodup_cons, List.mem_append, not_or] at hnodup
    have hchild : ∀ j, j ∈ ids l ∨ j ∈ ids r → mem'.nodes.get j = mem.nodes.get j := by
      intro j hj
      refine heq j ?_ ?_
      · rw [ids_node, List.mem_append, List.mem_cons]
        tauto
      · rintro heq
        cases heq
        tauto
    refine ⟨?_, hl.frame fun j hj => hchild j (.inl hj), hr.frame fun j hj => hchild j (.inr hj)⟩
    rw [hroot i rfl, hget]
    rfl

theorem get_relink_ne {q : Option ℕ} (h : ∀ f ∈ c.head?, f.id ≠ i) : (relink mem q c).nodes.get i = mem.nodes.get i := by
  cases c with
  | nil => rfl
  | cons f c => rw [relink, Store.get_modify, if_neg (h f rfl).symm]

theorem head_mem_contextIds (h : f ∈ c.head?) : f.id ∈ contextIds c := by
  cases c with
  | nil => cases h
  | cons f c =>
    cases h
    exact contextIds_cons.mem_iff.mpr List.mem_cons_self

theorem Holds.link (h : Holds mem (plug c nil) rest) {nodes : Store (LinkedNode δ)}
    (halloc : mem.nodes.alloc ⟨parentOf c, none, none, a⟩ = (i, nodes)) :
    Holds (relink { mem with nodes } (some i) c) (plug c (node (i, a) nil nil)) rest := by
  have hi : (mem.nodes.alloc ⟨parentOf c, none, none, a⟩).1 = i := by rw [halloc]
  have hnodes : (mem.nodes.alloc ⟨parentOf c, none, none, a⟩).2 = nodes := by rw [halloc]
  have hfree : mem.nodes.get i = none := hi ▸ Store.get_alloc_fst
  have hget : nodes.get i = some ⟨parentOf c, none, none, a⟩ := hi ▸ hnodes ▸ Store.get_alloc_self
  have hother : ∀ k, k ≠ i → nodes.get k = mem.nodes.get k := fun k hk => hnodes ▸ Store.get_alloc (hi ▸ hk)
  have hout : i ∉ ids (plug c nil) := by
    intro hmem
    obtain ⟨nd, hnd⟩ := h.lays.get_mem hmem
    cases hfree.symm.trans hnd
  have hnot : i ∉ contextIds c := fun hmem => hout (ids_plug.mem_iff.mpr hmem)
  have hhead : ∀ f ∈ c.head?, f.id ≠ i := fun f hf heq => hnot (heq ▸ head_mem_contextIds hf)
  refine h.replace ⟨?_, trivial, trivial⟩ ?_ (fun k hk => ?_) ?_ (fun k hk hkc => ?_) fun k hk => ?_
  · rw [get_relink_ne hhead]
    exact hget
  · cases c <;> rfl
  · have hki : k ≠ i := fun heq => hnot (heq ▸ hk)
    cases c with
    | nil => exact hother k hki
    | cons f c =>
      simp only [relink, addr, Store.get_modify]
      rw [hother k hki, hother f.id (hhead f rfl)]
  · exact List.nodup_cons.mpr ⟨hnot, List.Nodup.of_append_right h.nodup_place⟩
  · have hki : k ≠ i := fun heq => hk (by simp [ids_node, heq])
    have hkf : ∀ f ∈ c.head?, f.id ≠ k := fun f hf heq => hkc (heq ▸ head_mem_contextIds hf)
    rw [get_relink_ne hkf, hother k hki]
    exact h.rest k fun hmem => hkc (ids_plug.mem_iff.mp hmem)
  · obtain rfl | hk : k = i ∨ k ∈ contextIds c := List.mem_cons.mp hk
    · rw [← h.rest k hout, hfree]
    · exact h.apart k (ids_plug.mem_iff.mpr hk)

variable {x y z : Linked δ} {d : Side} {j : ℕ} {b a' b' : δ}

theorem mem_ids_of_addr (h : addr t = some i) : i ∈ ids t := by
  cases t with
  | nil => cases h
  | node a l r =>
    cases h
    simp [ids, inorder]

theorem nodup_join_join (h : (ids (join (i, a) (join (j, b) x y d) z d) ++ contextIds c).Nodup) :
    i ≠ j ∧ (∀ k, k ∈ ids x ∨ k ∈ ids y ∨ k ∈ ids z ∨ k ∈ contextIds c → k ≠ i ∧ k ≠ j) ∧
      (∀ k ∈ ids y, k ∉ ids x ∧ k ∉ ids z ∧ k ∉ contextIds c) ∧ (ids y).Nodup ∧
      ∀ k, k ∈ ids x ∨ k ∈ ids z → k ∉ contextIds c := by
  have hperm : (ids (join (i, a) (join (j, b) x y d) z d) ++ contextIds c).Perm
      (i :: j :: (ids x ++ ids y ++ ids z ++ contextIds c)) :=
    (ids_join.trans ((ids_join.append_right _).cons i)).append_right _
  rw [hperm.nodup_iff] at h
  simp only [List.nodup_cons, List.nodup_append, List.mem_cons, List.mem_append, not_or] at h
  grind

theorem Holds.unlink (h : Holds mem (plug c (join (i, a) x nil d)) rest) (hroot : mem'.root = (relink mem (addr x) c).root)
    (hchild : ∀ k, addr x = some k → mem'.nodes.get k = (mem.nodes.get k).map fun n => { n with parent := parentOf c })
    (hother : ∀ k, addr x ≠ some k → mem'.nodes.get k = (relink mem (addr x) c).nodes.get k) :
    Holds mem' (plug c x) (Function.update rest i (mem.nodes.get i)) := by
  have hnodup := h.nodup_place
  rw [(ids_join.append_right _).nodup_iff] at hnodup
  simp only [ids, inorder, List.map_nil, List.append_nil] at hnodup
  obtain ⟨hi, hnodup⟩ := List.nodup_cons.mp hnodup
  have hdisjoint := List.disjoint_of_nodup_append hnodup
  have hx := (lays_join.mp h.place).2.1
  have hkeep : ∀ k, k ∉ contextIds c → addr x ≠ some k → mem'.nodes.get k = mem.nodes.get k := by
    intro k hk hkx
    rw [hother k hkx]
    exact get_relink_ne fun f hf heq => hk (heq ▸ head_mem_contextIds hf)
  refine h.replace ?_ hroot (fun k hk => ?_) hnodup (fun k hk hkc => ?_) fun k hk => ?_
  · exact hx.reparent (List.Nodup.of_append_left hnodup) hchild fun k hk hkx => hkeep k (hdisjoint hk) hkx
  · exact hother k fun hkx => hdisjoint (mem_ids_of_addr hkx) hk
  · rw [hkeep k hkc fun hkx => hk (mem_ids_of_addr hkx), Function.update_apply]
    split_ifs with hki
    · rw [hki]
    · refine h.rest k fun hmem => ?_
      rw [ids_plug.mem_iff, List.mem_append, ids_join.mem_iff, List.mem_cons, List.mem_append] at hmem
      simp_all [ids, inorder]
  · have hki : k ≠ i := fun heq => hi (heq ▸ hk)
    rw [Function.update_of_ne hki]
    refine h.apart k (ids_plug.mem_iff.mpr ?_)
    rw [(ids_join.append_right _).mem_iff]
    exact List.mem_cons_of_mem _ (by simpa [ids, inorder] using hk)

theorem Holds.free {nd : LinkedNode δ} (h : Holds mem t (Function.update rest i (some nd))) (hi : rest i = none) :
    Holds { mem with nodes := mem.nodes.free i } t rest := by
  have hout : i ∉ ids t := by
    intro hmem
    have happ := h.apart i hmem
    rw [Function.update_self] at happ
    cases happ
  have hkeep : ∀ k, k ≠ i → (mem.nodes.free i).get k = mem.nodes.get k := fun k hk => Store.get_free_ne hk
  refine ⟨h.root, h.lays.frame fun k hk => hkeep k fun heq => hout (heq ▸ hk), h.nodup, fun k hk => ?_, fun k hk => ?_⟩
  · rw [← h.apart k hk, Function.update_of_ne fun heq : k = i => hout (heq ▸ hk)]
  · by_cases hki : k = i
    · rw [hki, hi]
      exact Store.get_free_self
    · rw [← Function.update_of_ne hki (some nd) rest, ← h.rest k hk]
      exact hkeep k hki

theorem Holds.rotate (h : Holds mem (plug c (join (i, a) (join (j, b) x y d) z d)) rest)
    (hj : mem'.nodes.get j = some (.join (parentOf c) (addr x) (some i) b' d))
    (hi : mem'.nodes.get i = some (.join (some j) (addr y) (addr z) a' d))
    (hy : ∀ k, addr y = some k → mem'.nodes.get k = (mem.nodes.get k).map fun n => { n with parent := some i })
    (hroot : mem'.root = (relink mem (some j) c).root)
    (hcontext : ∀ k ∈ contextIds c, mem'.nodes.get k = (relink mem (some j) c).nodes.get k)
    (heq : ∀ k, k ≠ i → k ≠ j → addr y ≠ some k → k ∉ contextIds c → mem'.nodes.get k = mem.nodes.get k) :
    Holds mem' (plug c (join (j, b') x (join (i, a') y z d) d)) rest := by
  have hids : ids (join (j, b') x (join (i, a') y z d) d) = ids (join (i, a) (join (j, b) x y d) z d) := by
    cases d <;> simp [join, ids, inorder]
  have hnodup := h.nodup_place
  obtain ⟨-, hne, hdisjoint, hynodup, hout⟩ := nodup_join_join hnodup
  have hplace := h.place
  rw [lays_join, lays_join] at hplace
  obtain ⟨-, ⟨-, hx, hy'⟩, hz⟩ := hplace
  have hlays : Lays mem' (parentOf c) (join (j, b') x (join (i, a') y z d) d) := by
    rw [lays_join, lays_join, addr_join]
    refine ⟨hj, hx.frame fun k hk => ?_, hi, hy'.reparent hynodup hy fun k hk hky => ?_, hz.frame fun k hk => ?_⟩
    · refine heq k (hne k (.inl hk)).1 (hne k (.inl hk)).2 (fun hky => ?_) (hout k (.inl hk))
      exact (hdisjoint k (mem_ids_of_addr hky)).1 hk
    · exact heq k (hne k (.inr (.inl hk))).1 (hne k (.inr (.inl hk))).2 hky (hdisjoint k hk).2.2
    · refine heq k (hne k (.inr (.inr (.inl hk)))).1 (hne k (.inr (.inr (.inl hk)))).2 (fun hky => ?_) (hout k (.inr hk))
      exact (hdisjoint k (mem_ids_of_addr hky)).2.1 hk
  refine h.replace hlays (by rw [addr_join]; exact hroot) (by rw [addr_join]; exact hcontext) (by rwa [hids]) ?_ ?_
  swap
  · rw [hids]
    exact fun k hk => h.apart k (ids_plug.mem_iff.mpr hk)
  intro k hk hkc
  have hk' : k ∉ ids (plug c (join (i, a) (join (j, b) x y d) z d)) := by
    rw [ids_plug.mem_iff, List.mem_append, not_or, ← hids]
    exact ⟨hk, hkc⟩
  rw [hids, ids_join.mem_iff, List.mem_cons, List.mem_append, ids_join.mem_iff, List.mem_cons, List.mem_append] at hk
  rw [← h.rest k hk']
  refine heq k (fun h => hk (.inl h)) (fun h => hk (.inr (.inl (.inl h)))) (fun h => ?_) hkc
  exact hk (.inr (.inl (.inr (.inr (mem_ids_of_addr h)))))

end Linked
