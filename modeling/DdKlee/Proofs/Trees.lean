import DdKlee.Lib.Machine
import DdKlee.Proofs.ImmutableTree

/-! Every tree that is alive is balanced and has the entries of its map, whatever was done
with other trees. -/

namespace Klee.Trees

open ImmutableTree Prog

variable {K V : Type} {lt : K → K → Prop} {key : V → K}

structure Entry (lt : K → K → Prop) (key : V → K) where
  node : Ref
  tree : HeightTree V
  map : EntryMap lt key

/-- Every tree is balanced and denotes its map, and the nodes count exactly the references
that there are. -/
structure Valid (s : Trees V) (maps : TreeMaps lt key) (es : Store (Entry lt key)) : Prop where
  trees : s.trees = es.map Entry.node
  maps : maps = es.map Entry.map
  holds : Holds s.memory (es.objects.map fun e => (e.node, e.tree))
  balanced : ∀ e ∈ es.objects, e.tree.Balanced 2
  denotes : ∀ e ∈ es.objects, e.tree.Denotes e.map

variable {s : Trees V} {maps : TreeMaps lt key} {es : Store (Entry lt key)} {i : ℕ} {m : EntryMap lt key}
  {t : HeightTree V}

theorem Valid.entry (h : Valid s maps es) (hm : maps.get i = some m) :
    ∃ e, es.get i = some e ∧ e.map = m ∧ s.trees.get i = some e.node ∧
      Borrowed s.memory (es.objects.map fun e => (e.node, e.tree)) e.node e.tree := by
  rw [h.maps, Store.get_map, Option.map_eq_some_iff] at hm
  obtain ⟨e, he, hmap⟩ := hm
  refine ⟨e, he, hmap, ?_, h.holds.borrowed (Multiset.mem_map_of_mem _ (Store.mem_objects he))⟩
  rw [h.trees, Store.get_map, he]
  rfl

theorem Valid.alloc (h : Valid s maps es) {mem : Memory V} {node : Ref}
    (hholds : Holds mem ((node, t) ::ₘ es.objects.map fun e => (e.node, e.tree))) (hbal : t.Balanced 2)
    (hm : t.Denotes m) :
    Valid ⟨mem, (s.trees.alloc node).2⟩ (maps.alloc m).2 (es.alloc ⟨node, t, m⟩).2 where
  trees := by rw [Store.map_alloc, h.trees]
  maps := by rw [Store.map_alloc, h.maps]
  holds := by rwa [Store.objects_alloc, Multiset.map_cons]
  balanced := by
    rw [Store.objects_alloc]
    exact Multiset.forall_mem_cons.mpr ⟨hbal, h.balanced⟩
  denotes := by
    rw [Store.objects_alloc]
    exact Multiset.forall_mem_cons.mpr ⟨hm, h.denotes⟩

theorem Valid.construct (h : Valid s maps es) {x : Prog (Memory V) Ref}
    (hx : Gives x s.memory (es.objects.map fun e => (e.node, e.tree)) t) (hbal : t.Balanced 2) (hm : t.Denotes m) :
    ∃ s' es', s.construct x = some (none, s') ∧ Valid s' (maps.alloc m).2 es' := by
  obtain ⟨node, mem, hrun, hholds, -⟩ := hx
  refine ⟨_, _, ?_, h.alloc hholds hbal hm⟩
  rw [Trees.construct, hrun]
  rfl

theorem Valid.release (h : Valid s maps es) {e : Entry lt key} (he : es.get i = some e) :
    Holds s.memory ((e.node, e.tree) ::ₘ (es.free i).objects.map fun e => (e.node, e.tree)) := by
  have hholds := h.holds
  rwa [Store.objects_free he, Multiset.map_cons] at hholds

theorem Valid.constructPopped (h : Valid s maps es) {x : Prog (Memory V) (V × Ref)} {a : V}
    (hx : Ends x s.memory fun p mem => p.1 = a ∧ Holds mem ((p.2, t) ::ₘ es.objects.map fun e => (e.node, e.tree)))
    (hbal : t.Balanced 2) (hm : t.Denotes m) :
    ∃ s' es', s.constructPopped x = some (some a, s') ∧ Valid s' (maps.alloc m).2 es' := by
  obtain ⟨⟨_, node⟩, mem, hrun, rfl, hholds⟩ := hx
  refine ⟨_, _, ?_, h.alloc hholds hbal hm⟩
  rw [Trees.constructPopped, hrun]
  rfl

variable [DecidableRel lt]

theorem Valid.assign (h : Valid s maps es) {j : ℕ} {m' : EntryMap lt key} (hm : maps.get i = some m)
    (hm' : maps.get j = some m') :
    ∃ s' es', step lt key s (.assign i j) = some (none, s') ∧ Valid s' (maps.set i m') es' := by
  obtain ⟨e, he, rfl, hnode, -⟩ := h.entry hm
  obtain ⟨e', he', rfl, hnode', hb⟩ := h.entry hm'
  obtain ⟨_, mem1, hrun1, rfl, hholds1, -⟩ := incref_ends (h.release he) hb.2
  obtain ⟨_, mem2, hrun2, hholds2, -⟩ := decref_ends hholds1.swap
  have hmem : ∀ a ∈ (es.set i e').objects, a ∈ es.objects := by
    intro a ha
    rw [Store.objects_set he] at ha
    rcases Multiset.mem_cons.mp ha with rfl | ha
    · exact Store.mem_objects he'
    · exact Store.objects_free he ▸ Multiset.mem_cons_of_mem ha
  refine ⟨⟨mem2, s.trees.set i e'.node⟩, es.set i e', ?_, ?_, ?_, ?_, fun a ha => h.balanced a (hmem a ha),
    fun a ha => h.denotes a (hmem a ha)⟩
  · simp only [step, hnode, hnode', hrun1, hrun2, some_bind]
  · rw [Store.map_set, h.trees]
  · rw [Store.map_set, h.maps]
  · rwa [Store.objects_set he, Multiset.map_cons]

theorem Valid.destroy (h : Valid s maps es) (hm : maps.get i = some m) :
    ∃ s' es', step lt key s (.destroy i) = some (none, s') ∧ Valid s' (maps.free i) es' := by
  obtain ⟨e, he, rfl, hnode, -⟩ := h.entry hm
  obtain ⟨_, mem, hrun, hholds, -⟩ := decref_ends (h.release he)
  have hmem : ∀ a ∈ (es.free i).objects, a ∈ es.objects := fun a ha =>
    Store.objects_free he ▸ Multiset.mem_cons_of_mem ha
  refine ⟨⟨mem, s.trees.free i⟩, es.free i, ?_, ?_, ?_, hholds, fun a ha => h.balanced a (hmem a ha),
    fun a ha => h.denotes a (hmem a ha)⟩
  · simp only [step, hnode, hrun, some_bind]
  · rw [Store.map_free, h.trees]
  · rw [Store.map_free, h.maps]

variable [IsStrictWeakOrder K lt]

theorem Valid.popMin (h : Valid s maps es) (hm : maps.get i = some m) (hne : m.entries.Nonempty) :
    ∃ s' es', step lt key s (.popMin i) = some (m.min?, s') ∧ Valid s' (maps.alloc m.popMin).2 es' := by
  obtain ⟨e, he, rfl, hnode, hb⟩ := h.entry hm
  have hdenotes := h.denotes e (Store.mem_objects he)
  have hbal := h.balanced e (Store.mem_objects he)
  have hleaf : e.tree ≠ .leaf := by
    intro heq
    obtain ⟨a, ha⟩ := hne
    have hmem := (hdenotes.mem a).mpr ha
    rw [heq] at hmem
    cases hmem
  obtain ⟨⟨a, node⟩, mem, hrun, t', hpop, hholds, -⟩ := popMinFrom_ends _ h.holds hb (Nat.le_refl _) hleaf
  obtain ⟨hmin, hdenotes'⟩ := hdenotes.popMin hpop
  rw [hmin.min?_eq, step, hnode]
  refine h.constructPopped ⟨_, _, ?_, rfl, hholds⟩ (HeightTree.popMin_shrunk (by decide) hbal hpop).1 hdenotes'
  rw [ImmutableTree.popMin, bind_eq (getHeight_eq hb.2), hrun]

theorem Valid.popMax (h : Valid s maps es) (hm : maps.get i = some m) (hne : m.entries.Nonempty) :
    ∃ s' es', step lt key s (.popMax i) = some (m.max?, s') ∧ Valid s' (maps.alloc m.popMax).2 es' := by
  obtain ⟨e, he, rfl, hnode, hb⟩ := h.entry hm
  have hdenotes := h.denotes e (Store.mem_objects he)
  have hbal := h.balanced e (Store.mem_objects he)
  have hleaf : e.tree ≠ .leaf := by
    intro heq
    obtain ⟨a, ha⟩ := hne
    have hmem := (hdenotes.mem a).mpr ha
    rw [heq] at hmem
    cases hmem
  obtain ⟨⟨a, node⟩, mem, hrun, t', hpop, hholds, -⟩ := popMaxFrom_ends _ h.holds hb (Nat.le_refl _) hleaf
  obtain ⟨hmax, hdenotes'⟩ := hdenotes.popMax hpop
  rw [hmax.max?_eq, step, hnode]
  refine h.constructPopped ⟨_, _, ?_, rfl, hholds⟩ (HeightTree.popMax_shrunk (by decide) hbal hpop).1 hdenotes'
  rw [ImmutableTree.popMax, bind_eq (getHeight_eq hb.2), hrun]

theorem Valid.step (h : Valid s maps es) {op : TreeOp K V} {out : Option V} {maps' : TreeMaps lt key}
    (hstep : maps.step op = some (out, maps')) :
    ∃ s' es', Trees.step lt key s op = some (out, s') ∧ Valid s' maps' es' := by
  cases op with
  | create =>
    cases hstep
    exact h.construct (incref_gives h.holds .leaf) trivial HeightTree.denotes_empty
  | copy i =>
    obtain ⟨m, hm, heq⟩ := Option.bind_eq_some_iff.mp hstep
    cases heq
    obtain ⟨e, he, rfl, hnode, hb⟩ := h.entry hm
    rw [Trees.step, hnode]
    exact h.construct (incref_gives h.holds hb.2) (h.balanced e (Store.mem_objects he))
      (h.denotes e (Store.mem_objects he))
  | assign i j =>
    obtain ⟨m, hm, hstep⟩ := Option.bind_eq_some_iff.mp hstep
    obtain ⟨m', hm', heq⟩ := Option.bind_eq_some_iff.mp hstep
    cases heq
    exact h.assign hm hm'
  | destroy i =>
    obtain ⟨m, hm, heq⟩ := Option.bind_eq_some_iff.mp hstep
    cases heq
    exact h.destroy hm
  | insert i value =>
    obtain ⟨m, hm, heq⟩ := Option.bind_eq_some_iff.mp hstep
    cases heq
    obtain ⟨e, he, rfl, hnode, hb⟩ := h.entry hm
    rw [Trees.step, hnode]
    refine h.construct (t := e.tree.insert lt key 2 value) ?_
      (HeightTree.insert_grown (by decide) (h.balanced e (Store.mem_objects he))).1
      (h.denotes e (Store.mem_objects he)).insert
    exact Ends.step (getHeight_eq hb.2) (insertFrom_gives value _ h.holds hb (Nat.le_refl _))
  | replace i value =>
    obtain ⟨m, hm, heq⟩ := Option.bind_eq_some_iff.mp hstep
    cases heq
    obtain ⟨e, he, rfl, hnode, hb⟩ := h.entry hm
    rw [Trees.step, hnode]
    refine h.construct (t := e.tree.replace lt key 2 value) ?_
      (HeightTree.replace_grown (by decide) (h.balanced e (Store.mem_objects he))).1
      (h.denotes e (Store.mem_objects he)).replace
    exact Ends.step (getHeight_eq hb.2) (replaceFrom_gives value _ h.holds hb (Nat.le_refl _))
  | remove i k =>
    obtain ⟨m, hm, heq⟩ := Option.bind_eq_some_iff.mp hstep
    cases heq
    obtain ⟨e, he, rfl, hnode, hb⟩ := h.entry hm
    rw [Trees.step, hnode]
    refine h.construct (t := e.tree.remove lt key 2 k) ?_
      (HeightTree.remove_shrunk (by decide) (h.balanced e (Store.mem_objects he))).1
      (h.denotes e (Store.mem_objects he)).remove
    exact Ends.step (getHeight_eq hb.2) (removeFrom_gives k _ h.holds hb (Nat.le_refl _))
  | popMin i =>
    obtain ⟨m, hm, heq⟩ := Option.bind_eq_some_iff.mp hstep
    split at heq
    · rename_i hne
      cases heq
      exact h.popMin hm hne
    · cases heq
  | popMax i =>
    obtain ⟨m, hm, heq⟩ := Option.bind_eq_some_iff.mp hstep
    split at heq
    · rename_i hne
      cases heq
      exact h.popMax hm hne
    · cases heq

theorem simulates {s : Trees V} {maps maps' : TreeMaps lt key} {op : TreeOp K V} {out : Option V}
    (h : ∃ es, Valid s maps es) (_ : True) (hstep : maps.step op = some (out, maps')) :
    ∃ out' s', Trees.step lt key s op = some (out', s') ∧ out' = out ∧ ∃ es, Valid s' maps' es := by
  obtain ⟨es, h⟩ := h
  obtain ⟨s', es', hs', h'⟩ := h.step hstep
  exact ⟨out, s', hs', rfl, es', h'⟩

omit [DecidableRel lt] [IsStrictWeakOrder K lt] in
theorem valid_start : Valid ({} : Trees V) ({} : TreeMaps lt key) {} where
  trees := rfl
  maps := rfl
  holds := ⟨nofun, nofun, nofun, rfl⟩
  balanced := nofun
  denotes := nofun

/-- Whatever is done with trees, each of those that are there is sorted and balanced, with
heights that are exact, and answers as the map does that it stands for. -/
theorem run_represents (lt : K → K → Prop) [DecidableRel lt] [IsStrictWeakOrder K lt] (key : V → K)
    (ops : List (TreeOp K V)) {out : List (Option V)} {maps : TreeMaps lt key}
    (hrun : Machine.run TreeMaps.step {} ops = some (out, maps)) :
    ∃ s, Machine.run (Trees.step lt key) {} ops = some (out, s) ∧ ∀ i m, maps.get i = some m →
      ∃ node t, s.trees.get i = some node ∧ Represents s.memory node t ∧ t.Sorted lt key ∧ t.Balanced 2 ∧
        Agrees lt key s.memory node m := by
  obtain ⟨outs, s, hs, hout, es, h⟩ :=
    Machine.run_simulates (Trees.step lt key) TreeMaps.step simulates ops ⟨_, valid_start⟩ (fun _ _ => trivial) hrun
  rw [List.forall₂_eq_eq_eq] at hout
  subst hout
  refine ⟨s, hs, fun i m hm => ?_⟩
  obtain ⟨e, he, rfl, hnode, hb⟩ := h.entry hm
  have hdenotes := h.denotes e (Store.mem_objects he)
  exact ⟨e.node, e.tree, hnode, hb.2, hdenotes.sorted, h.balanced e (Store.mem_objects he), agrees hb.2 hdenotes⟩

/-- A tree that another value was inserted into, and one whose source is gone. -/
theorem run_represents_insert :
    ∃ s, Machine.run (Trees.step (· < ·) (id : ℕ → ℕ)) {} [.create, .insert 0 3, .insert 1 5, .destroy 0] =
        some ([none, none, none, none], s) ∧
      ∃ node node', s.trees.get 1 = some node ∧ s.trees.get 2 = some node' ∧
        Agrees (· < ·) id s.memory node (EntryMap.empty.insert 3) ∧
        Agrees (· < ·) id s.memory node' ((EntryMap.empty.insert 3).insert 5) := by
  have : IsStrictWeakOrder ℕ (· < ·) := isStrictWeakOrder_of_isOrderConnected
  obtain ⟨s, hrun, hall⟩ := run_represents (· < ·) (id : ℕ → ℕ) [.create, .insert 0 3, .insert 1 5, .destroy 0] rfl
  obtain ⟨node, -, hnode, -, -, -, hagrees⟩ := hall 1 _ rfl
  obtain ⟨node', -, hnode', -, -, -, hagrees'⟩ := hall 2 _ rfl
  exact ⟨s, hrun, node, node', hnode, hnode', hagrees, hagrees'⟩

end Klee.Trees
