import DdKlee.Proofs.FindReads
import DdKlee.Spec.CexCaching

/-! What `findReads` and `SymbolicObjectFinder` find is what occurs in an expression. -/

namespace Klee

open Expr findReads

/-- An expression occurs in another one: as the other, or below, through indices and update lists. -/
def Expr.Occurs (x e : Expr) : Prop := Relation.ReflTransGen (fun e k => k ∈ subs e) e x

namespace findReads

def toRead (r : UpdateList × Expr) : Expr := .read r.1.root r.1.head r.2

structure Once (e : Expr) (s : State) : Prop where
  within : ∀ x ∈ s.visited, x.Occurs e
  stack : ∀ x ∈ s.stack, x ∈ s.visited
  stack_nodup : s.stack.Nodup
  results : ∀ r ∈ s.results, toRead r ∈ s.visited ∧ toRead r ∉ s.stack
  results_nodup : s.results.Nodup

variable {e k top : Expr} {s : State}

theorem Once.push (h : Once e s) (hk : k.Occurs e) : Once e (push s k) := by
  unfold findReads.push
  split_ifs with hnew
  · have hstack : k ∉ s.stack := fun hmem => hnew.2 (h.stack k hmem)
    refine ⟨List.forall_mem_cons.mpr ⟨hk, h.within⟩, ?_, List.nodup_cons.mpr ⟨hstack, h.stack_nodup⟩,
      fun r hr => ?_, h.results_nodup⟩
    · exact List.forall_mem_cons.mpr ⟨List.mem_cons_self, fun x hx => List.mem_cons_of_mem _ (h.stack x hx)⟩
    · obtain ⟨hvisited, hmem⟩ := h.results r hr
      refine ⟨List.mem_cons_of_mem _ hvisited, fun hr => ?_⟩
      obtain heq | hr := List.mem_cons.mp hr
      · exact hnew.2 (heq ▸ hvisited)
      · exact hmem hr
  · exact h

theorem Once.pushAll {ks : List Expr} (h : Once e s) (hks : ∀ k ∈ ks, k.Occurs e) :
    Once e (ks.foldl findReads.push s) := by
  induction ks generalizing s with
  | nil => exact h
  | cons k ks ih =>
    obtain ⟨hk, hks⟩ := List.forall_mem_cons.mp hks
    exact ih (h.push hk) hks

theorem Once.process {stack : List Expr} (h : Once e s) (hs : s.stack = top :: stack) :
    Once e (process true { s with stack := stack } top) := by
  obtain ⟨htop, hnodup⟩ := List.nodup_cons.mp (hs ▸ h.stack_nodup)
  have hvisited : top ∈ s.visited := h.stack top (hs ▸ List.mem_cons_self)
  have hsubs : ∀ k ∈ subs top, k.Occurs e := fun k hk => (h.within top hvisited).tail hk
  have hstack : ∀ x ∈ stack, x ∈ s.visited := fun x hx => h.stack x (hs ▸ List.mem_cons_of_mem _ hx)
  have hresults : ∀ r ∈ s.results, toRead r ∈ s.visited ∧ toRead r ∉ stack ∧ toRead r ≠ top := by
    intro r hr
    have hr := h.results r hr
    rw [hs] at hr
    exact ⟨hr.1, fun hmem => hr.2 (List.mem_cons_of_mem _ hmem), fun heq => hr.2 (heq ▸ List.mem_cons_self)⟩
  have hpopped : Once e { s with stack := stack } :=
    ⟨h.within, hstack, hnodup, fun r hr => ⟨(hresults r hr).1, (hresults r hr).2.1⟩, h.results_nodup⟩
  cases top with
  | read root head index =>
    have hadd : Once e { s with stack := stack, results := s.results ++ [(⟨root, head⟩, index)] } := by
      refine ⟨h.within, hstack, hnodup, ?_, ?_⟩
      · simp only [List.forall_mem_append, List.forall_mem_singleton]
        exact ⟨hpopped.results, hvisited, htop⟩
      · refine List.nodup_append.mpr ⟨h.results_nodup, List.nodup_singleton _, fun r hr r' hr' heq => ?_⟩
        rw [List.mem_singleton.mp hr'] at heq
        exact (hresults r hr).2.2 (by rw [heq]; rfl)
    have hindex := hadd.push (hsubs index List.mem_cons_self)
    simp only [findReads.process]
    split_ifs
    · have hupdates : ∀ updates, Once e { findReads.push _ index with updates := updates } := fun _ =>
        ⟨hindex.within, hindex.stack, hindex.stack_nodup, hindex.results, hindex.results_nodup⟩
      exact (hupdates _).pushAll fun k hk => hsubs k (List.mem_cons_of_mem _ hk)
    · exact hindex
  | _ => exact hpopped.pushAll hsubs

theorem Once.loop (n : ℕ) (h : Once e s) : Once e (loop true n s) := by
  induction n generalizing s with
  | zero => exact h
  | succ n ih =>
    unfold findReads.loop
    split
    · exact h
    · rename_i hs
      exact ih (h.process hs)

theorem isConstant_of_subs {x k : Expr} (hk : k ∈ subs x) : x.isConstant = false := by
  cases x <;> first | rfl | cases hk

end findReads

theorem findReads_occurs (e : Expr) : (findReads e true).Nodup ∧
    ∀ root head index, (⟨root, head⟩, index) ∈ findReads e true ↔ (read root head index).Occurs e := by
  have hsound : (findReads e true).Nodup ∧ ∀ r ∈ findReads e true, (toRead r).Occurs e := by
    unfold findReads
    split_ifs
    · exact ⟨List.nodup_nil, by simp⟩
    · have hinit : Once e ⟨[e], [e], [], []⟩ :=
        ⟨by simp [Expr.Occurs, Relation.ReflTransGen.refl], by simp, by simp, by simp, by simp⟩
      have hloop := hinit.loop e.size
      exact ⟨hloop.results_nodup, fun r hr => hloop.within _ (hloop.results r hr).1⟩
  refine ⟨hsound.1, fun root head index => ⟨fun h => hsound.2 _ h, fun h => ?_⟩⟩
  obtain ⟨visited, hself, hsubs, hreads⟩ := findReads_visits e
  have hvisited : ∀ x, x.Occurs e → x.isConstant = false → visited x := by
    intro x hx
    induction hx with
    | refl => exact hself
    | tail _ hk ih => exact hsubs (ih (isConstant_of_subs hk)) hk
  exact hreads (hvisited _ h rfl)

namespace SymbolicObjectFinder

structure Good (s : State) : Prop where
  visited : ∀ e ∈ s.visited, ∀ a ∈ e.symbolicObjects, a ∈ s.objects
  nodup : s.objects.Nodup

def Finds (objects : List Array) (f : State → State) : Prop :=
  ∀ s, Good s → Good (f s) ∧ ∀ a, a ∈ (f s).objects ↔ a ∈ s.objects ∨ a ∈ objects

variable {objects objects' : List Array} {f g : State → State} (hash : Bool)

theorem Finds.comp (hf : Finds objects f) (hg : Finds objects' g) : Finds (objects ++ objects') fun s => g (f s) := by
  intro s hs
  obtain ⟨hgood, hmem⟩ := hf s hs
  obtain ⟨hgood', hmem'⟩ := hg (f s) hgood
  exact ⟨hgood', fun a => by rw [hmem', hmem, List.mem_append, or_assoc]⟩

theorem Finds.memo {e : Expr} (hf : Finds e.symbolicObjects f) : Finds e.symbolicObjects (memo hash e f) := by
  intro s hs
  obtain ⟨hgood, hmem⟩ := hf s hs
  unfold SymbolicObjectFinder.memo
  split_ifs with _ hvisited
  · exact ⟨hs, fun a => ⟨.inl, fun h => h.elim id (hs.visited e hvisited a)⟩⟩
  · refine ⟨⟨List.forall_mem_cons.mpr ⟨fun a ha => (hmem a).mpr (.inr ha), hgood.visited⟩, hgood.nodup⟩, hmem⟩
  · exact ⟨hgood, hmem⟩

theorem addRoot_finds (root : Array) : Finds (if root.isSymbolicArray then [root] else []) (addRoot root) := by
  intro s hs
  unfold addRoot
  by_cases hroot : root.isSymbolicArray = true
  · by_cases hmem : root ∈ s.objects
    · simp [hroot, hmem, hs]
    · simp only [hroot, hmem, not_false_eq_true, and_self, if_true, List.mem_append, implies_true, and_true]
      exact ⟨fun e he a ha => List.mem_append_left _ (hs.visited e he a ha), List.nodup_append.mpr
        ⟨hs.nodup, List.nodup_singleton _, fun a ha b hb heq => hmem (List.mem_singleton.mp hb ▸ heq ▸ ha)⟩⟩
  · simp [hroot, hs]

theorem id_finds : Finds [] id := fun _ hs => ⟨hs, by simp⟩

mutual

theorem visit_finds : ∀ e : Expr, Finds e.symbolicObjects (visit hash e)
  | .constant _ => id_finds
  | .notOptimized src => Finds.memo hash (visit_finds src)
  | .read root head index =>
    Finds.memo hash (((visitUpdates_finds head).comp (addRoot_finds root)).comp (visit_finds index))
  | .select c t f => Finds.memo hash (((visit_finds c).comp (visit_finds t)).comp (visit_finds f))
  | .concat l r => Finds.memo hash ((visit_finds l).comp (visit_finds r))
  | .extract e _ _ => Finds.memo hash (visit_finds e)
  | .not e => Finds.memo hash (visit_finds e)
  | .cast _ src _ => Finds.memo hash (visit_finds src)
  | .binary _ l r => Finds.memo hash ((visit_finds l).comp (visit_finds r))

theorem visitUpdates_finds : ∀ head : UpdateNode, Finds head.symbolicObjects (visitUpdates hash head)
  | .null => id_finds
  | .node next index value => ((visit_finds index).comp (visit_finds value)).comp (visitUpdates_finds next)

end

end SymbolicObjectFinder

theorem mem_symbolicObjects_updates {a : Array} (head : UpdateNode) :
    a ∈ head.symbolicObjects ↔ ∃ k ∈ head.exprs, a ∈ k.symbolicObjects := by
  induction head with
  | null => simp [UpdateNode.symbolicObjects, UpdateNode.exprs]
  | node next i v ih => simp [UpdateNode.symbolicObjects, UpdateNode.exprs, ih]

theorem mem_symbolicObjects_iff {a : Array} (e : Expr) : a ∈ e.symbolicObjects ↔
    (a.isSymbolicArray = true ∧ ∃ head index, e = read a head index) ∨ ∃ k ∈ subs e, a ∈ k.symbolicObjects := by
  cases e with
  | read root head index =>
    have hroot : a ∈ (if root.isSymbolicArray then [root] else []) ↔
        a.isSymbolicArray = true ∧ ∃ head' index', read root head index = read a head' index' := by
      split_ifs with hsymbolic
      · simp only [List.mem_singleton, read.injEq, exists_and_left]
        grind
      · simp only [List.not_mem_nil, read.injEq, false_iff]
        grind
    rw [Expr.symbolicObjects, List.mem_append, List.mem_append, mem_symbolicObjects_updates, hroot, subs,
      List.exists_mem_cons_iff, or_assoc, or_left_comm, or_comm (b := _ ∈ index.symbolicObjects)]
  | _ => simp [Expr.symbolicObjects, subs, kids]

theorem symbolicObjects_occurs {a : Array} (e : Expr) : a ∈ e.symbolicObjects ↔
    a.isSymbolicArray = true ∧ ∃ head index, (read a head index).Occurs e := by
  constructor
  · induction hn : e.size using Nat.strong_induction_on generalizing e with
    | _ n ih =>
      intro ha
      obtain ⟨hsymbolic, head, index, rfl⟩ | ⟨k, hk, ha⟩ := (mem_symbolicObjects_iff e).mp ha
      · exact ⟨hsymbolic, head, index, .refl⟩
      · have hsize := totalSize_subs e
        have hle := List.single_le_sum (l := (subs e).map Expr.size) (by simp) _ (List.mem_map_of_mem hk)
        obtain ⟨hsymbolic, head, index, hoccurs⟩ := ih k.size (by simp only [totalSize] at hsize; omega) k rfl ha
        exact ⟨hsymbolic, head, index, .head hk hoccurs⟩
  · rintro ⟨hsymbolic, head, index, h⟩
    induction h using Relation.ReflTransGen.head_induction_on with
    | refl => exact (mem_symbolicObjects_iff _).mpr (.inl ⟨hsymbolic, head, index, rfl⟩)
    | head hk _ ih => exact (mem_symbolicObjects_iff _).mpr (.inr ⟨_, hk, ih⟩)

/-- Both ways of collecting are complete: the loop of `findReads` ends, with each read that occurs
found once, and the symbolic arrays at the roots of these reads are found once each. -/
theorem collection_complete (e : Expr) (useVisitorHash : Bool) :
    (e.isConstant = false → (loop true e.size ⟨[e], [e], [], []⟩).stack = []) ∧ (findReads e true).Nodup ∧
    (∀ root head index, (⟨root, head⟩, index) ∈ findReads e true ↔ (read root head index).Occurs e) ∧
    (SymbolicObjectFinder.objectsOf useVisitorHash e).Nodup ∧
    ∀ a, a ∈ SymbolicObjectFinder.objectsOf useVisitorHash e ↔
      a.isSymbolicArray = true ∧ ∃ head index, (⟨a, head⟩, index) ∈ findReads e true := by
  obtain ⟨hnodup, hreads⟩ := findReads_occurs e
  obtain ⟨hgood, hmem⟩ := SymbolicObjectFinder.visit_finds useVisitorHash e {} ⟨by simp, by simp⟩
  refine ⟨fun _ => ?_, hnodup, hreads, hgood.nodup, fun a => ?_⟩
  · exact (loop_inv e.size _ ⟨fun x hx => .inl hx, by simp⟩ (by simp [totalSize])).2.1
  · simp only [hreads]
    rw [SymbolicObjectFinder.objectsOf, hmem a, symbolicObjects_occurs]
    simp

end Klee
