import DdKlee.Proofs.Evaluator
import DdKlee.Spec.FindReads

/-! `findReads` finds every read: what it visited is closed under going to a
subexpression, and the reads visited are its results. -/

namespace Klee

open Expr

namespace findReads

def totalSize (es : List Expr) : ℕ := (es.map Expr.size).sum

@[simp] theorem totalSize_cons (e : Expr) (es : List Expr) :
    totalSize (e :: es) = e.size + totalSize es := by
  simp [totalSize]

@[simp] theorem totalSize_append (es es' : List Expr) :
    totalSize (es ++ es') = totalSize es + totalSize es' := by
  simp [totalSize]

/-- What pushing expressions does: those that are not constants get visited, and
what is newly visited is on the stack. -/
structure Pushed (es : List Expr) (s s' : State) : Prop where
  updates : s'.updates = s.updates
  results : s'.results = s.results
  visited : ∀ x ∈ s.visited, x ∈ s'.visited
  pushed : ∀ e ∈ es, e.isConstant = false → e ∈ s'.visited
  stack : ∀ x ∈ s.stack, x ∈ s'.stack
  fresh : ∀ x ∈ s'.visited, x ∈ s.visited ∨ x ∈ s'.stack
  source : ∀ x ∈ s'.stack, x ∈ s.stack ∨ x ∈ es
  size : totalSize s'.stack ≤ totalSize s.stack + totalSize es

theorem push_pushed (s : State) (e : Expr) : Pushed [e] s (push s e) := by
  unfold push
  split_ifs with h
  · refine ⟨rfl, rfl, fun x hx => List.mem_cons_of_mem _ hx, fun x hx _ => ?_,
      fun x hx => List.mem_cons_of_mem _ hx, fun x hx => ?_, fun x hx => ?_, ?_⟩
    · rw [List.mem_singleton.mp hx]
      exact List.mem_cons_self
    · rcases List.mem_cons.mp hx with rfl | hx
      · exact .inr List.mem_cons_self
      · exact .inl hx
    · rcases List.mem_cons.mp hx with rfl | hx
      · exact .inr List.mem_cons_self
      · exact .inl hx
    · simp [totalSize]
      omega
  · refine ⟨rfl, rfl, fun _ h => h, fun x hx hc => ?_, fun _ h => h, fun _ h => .inl h,
      fun _ h => .inl h, Nat.le_add_right _ _⟩
    rw [List.mem_singleton.mp hx] at hc ⊢
    by_contra hmem
    exact h ⟨hc, hmem⟩

theorem Pushed.append {es es' : List Expr} {s t u : State} (h : Pushed es s t) (h' : Pushed es' t u) :
    Pushed (es ++ es') s u where
  updates := h'.updates.trans h.updates
  results := h'.results.trans h.results
  visited x hx := h'.visited x (h.visited x hx)
  pushed e he hc := by
    rcases List.mem_append.mp he with he | he
    · exact h'.visited e (h.pushed e he hc)
    · exact h'.pushed e he hc
  stack x hx := h'.stack x (h.stack x hx)
  fresh x hx := by
    rcases h'.fresh x hx with hx | hx
    · exact (h.fresh x hx).imp_right (h'.stack x)
    · exact .inr hx
  source x hx := by
    rcases h'.source x hx with hx | hx
    · exact (h.source x hx).imp_right (List.mem_append_left _)
    · exact .inr (List.mem_append_right _ hx)
  size := by
    have := h.size
    have := h'.size
    rw [totalSize_append]
    omega

theorem pushAll_pushed (es : List Expr) : ∀ s : State, Pushed es s (es.foldl push s) := by
  induction es with
  | nil =>
    exact fun s => ⟨rfl, rfl, fun _ h => h, fun e he => absurd he List.not_mem_nil, fun _ h => h,
      fun _ h => .inl h, fun _ h => .inl h, Nat.le_add_right _ _⟩
  | cons e es ih => exact fun s => (push_pushed s e).append (ih (push s e))

def subs : Expr → List Expr
  | .read _ head index => index :: head.exprs
  | e => e.kids

theorem totalSize_exprs (head : UpdateNode) : totalSize head.exprs ≤ head.size := by
  induction head with
  | null => exact Nat.le_refl 0
  | node next i v ih =>
    simp only [UpdateNode.exprs, totalSize_cons, UpdateNode.size]
    omega

theorem totalSize_subs (e : Expr) : totalSize (subs e) < e.size := by
  cases e with
  | read root head index =>
    have := totalSize_exprs head
    simp only [subs, totalSize_cons, Expr.size]
    omega
  | _ =>
    simp only [subs, kids, totalSize, List.map_cons, List.map_nil, List.sum_cons, List.sum_nil, Expr.size]
    omega

/-- An expression whose subexpressions have been visited, and whose read is among
the results. -/
structure Processed (s : State) (e : Expr) : Prop where
  subs : ∀ k ∈ subs e, k.isConstant = false → k ∈ s.visited
  read : ∀ root head index, e = read root head index → (⟨root, head⟩, index) ∈ s.results

structure Inv (s : State) : Prop where
  visited : ∀ e ∈ s.visited, e ∈ s.stack ∨ Processed s e
  updates : ∀ head ∈ s.updates, ∀ e ∈ head.exprs, e.isConstant = false → e ∈ s.visited

structure Step (top : Expr) (s s' : State) : Prop where
  processed : Processed s' top
  visited : ∀ x ∈ s.visited, x ∈ s'.visited
  results : ∀ r ∈ s.results, r ∈ s'.results
  stack : ∀ x ∈ s.stack, x ∈ s'.stack
  fresh : ∀ x ∈ s'.visited, x ∈ s.visited ∨ x ∈ s'.stack
  updates : ∀ head ∈ s'.updates, ∀ e ∈ head.exprs, e.isConstant = false → e ∈ s'.visited
  source : ∀ x ∈ s'.stack, x ∈ s.stack ∨ x ∈ subs top
  reads : ∀ r ∈ s'.results, r ∈ s.results ∨ top = read r.1.root r.1.head r.2
  size : totalSize s'.stack < totalSize s.stack + top.size

theorem process_other {s : State} {top : Expr} (hs : process true s top = top.kids.foldl push s)
    (hsubs : subs top = top.kids) (hread : ∀ root head index, top ≠ read root head index)
    (hupdates : ∀ head ∈ s.updates, ∀ e ∈ head.exprs, e.isConstant = false → e ∈ s.visited) :
    Step top s (process true s top) := by
  have hp := pushAll_pushed top.kids s
  have hsize := totalSize_subs top
  rw [hs]
  refine ⟨⟨fun k hk hc => hp.pushed k (hsubs ▸ hk) hc, fun root head index h => absurd h (hread _ _ _)⟩,
    hp.visited, fun r hr => hp.results ▸ hr, hp.stack, hp.fresh, fun head hh e he hc => ?_,
    fun x hx => hsubs ▸ hp.source x hx, fun r hr => .inl (hp.results ▸ hr), ?_⟩
  · exact hp.visited e (hupdates head (hp.updates ▸ hh) e he hc)
  · have := hp.size
    rw [hsubs] at hsize
    omega

theorem process_read {s : State} {root : Array} {head : UpdateNode} {index : Expr}
    (hupdates : ∀ head ∈ s.updates, ∀ e ∈ head.exprs, e.isConstant = false → e ∈ s.visited) :
    Step (read root head index) s (process true s (read root head index)) := by
  have hsize := totalSize_subs (read root head index)
  rw [subs, totalSize_cons] at hsize
  have hp := push_pushed { s with results := s.results ++ [(⟨root, head⟩, index)] } index
  simp only [process]
  generalize push { s with results := s.results ++ [(⟨root, head⟩, index)] } index = s1 at hp
  have hindex : index.isConstant = false → index ∈ s1.visited := hp.pushed index (List.mem_singleton_self _)
  have hsource : ∀ x ∈ s1.stack, x ∈ s.stack ∨ x ∈ subs (read root head index) := by
    intro x hx
    rcases hp.source x hx with hx | hx
    · exact .inl hx
    · rw [List.mem_singleton.mp hx]
      exact .inr List.mem_cons_self
  have hreads : ∀ r ∈ s1.results, r ∈ s.results ∨ read root head index = read r.1.root r.1.head r.2 := by
    intro r hr
    rw [hp.results, List.mem_append, List.mem_singleton] at hr
    rcases hr with hr | rfl
    · exact .inl hr
    · exact .inr rfl
  have hresults : ∀ r ∈ s.results, r ∈ s1.results := fun r hr => by
    rw [hp.results]
    exact List.mem_append_left _ hr
  have hself : ∀ root' head' index', read root head index = read root' head' index' →
      ((⟨root', head'⟩, index') : UpdateList × Expr) ∈ s1.results := by
    rintro _ _ _ ⟨⟩
    rw [hp.results]
    exact List.mem_append_right _ (List.mem_singleton_self _)
  have hold : ∀ head ∈ s1.updates, ∀ e ∈ head.exprs, e.isConstant = false → e ∈ s1.visited :=
    fun head hh e he hc => hp.visited e (hupdates head (hp.updates ▸ hh) e he hc)
  split_ifs with hnew
  · -- the updates are visited now
    have hq := pushAll_pushed head.exprs { s1 with updates := head :: s1.updates }
    generalize head.exprs.foldl push { s1 with updates := head :: s1.updates } = s2 at hq
    refine ⟨⟨fun k hk hc => ?_, fun _ _ _ h => hq.results ▸ hself _ _ _ h⟩,
      fun x hx => hq.visited x (hp.visited x hx), fun r hr => hq.results ▸ hresults r hr,
      fun x hx => hq.stack x (hp.stack x hx), fun x hx => ?_, fun head' hh e he hc => ?_, fun x hx => ?_,
      fun r hr => hreads r (hq.results ▸ hr), ?_⟩
    · rcases List.mem_cons.mp hk with rfl | hk
      · exact hq.visited _ (hindex hc)
      · exact hq.pushed k hk hc
    · rcases hq.fresh x hx with hx | hx
      · exact (hp.fresh x hx).imp_right (hq.stack x)
      · exact .inr hx
    · rw [hq.updates] at hh
      rcases List.mem_cons.mp hh with rfl | hh
      · exact hq.pushed e he hc
      · exact hq.visited e (hold head' hh e he hc)
    · rcases hq.source x hx with hx | hx
      · exact hsource x hx
      · exact .inr (List.mem_cons_of_mem _ hx)
    · have := hp.size
      have := hq.size
      simp only [totalSize_cons] at *
      simp [totalSize] at *
      omega
  · -- they have been visited before
    have hmem : head ∈ s1.updates := by
      by_contra hmem
      exact hnew ⟨trivial, hmem⟩
    refine ⟨⟨fun k hk hc => ?_, hself⟩, hp.visited, hresults, hp.stack, hp.fresh, hold, hsource, hreads, ?_⟩
    · rcases List.mem_cons.mp hk with rfl | hk
      · exact hindex hc
      · exact hold head hmem k hk hc
    · have := hp.size
      simp [totalSize] at *
      omega

theorem process_step {s : State}
    (hupdates : ∀ head ∈ s.updates, ∀ e ∈ head.exprs, e.isConstant = false → e ∈ s.visited) (top : Expr) :
    Step top s (process true s top) := by
  cases top with
  | read root head index => exact process_read hupdates
  | _ => exact process_other rfl rfl (by simp) hupdates

theorem Processed.mono {s s' : State} {e : Expr} (h : Processed s e)
    (hv : ∀ x ∈ s.visited, x ∈ s'.visited) (hr : ∀ r ∈ s.results, r ∈ s'.results) : Processed s' e :=
  ⟨fun k hk hc => hv k (h.subs k hk hc), fun root head index he => hr _ (h.read root head index he)⟩

theorem Inv.step {s s' : State} {top : Expr} {stack : List Expr} (h : Inv s) (hs : s.stack = top :: stack)
    (hstep : Step top { s with stack := stack } s') : Inv s' := by
  refine ⟨fun e he => ?_, hstep.updates⟩
  rcases hstep.fresh e he with he | he
  · rcases h.visited e he with he | he
    · rw [hs] at he
      rcases List.mem_cons.mp he with rfl | he
      · exact .inr hstep.processed
      · exact .inl (hstep.stack e he)
    · exact .inr (he.mono hstep.visited hstep.results)
  · exact .inl he

/-- With a round for every node on the stack the loop ends with an empty stack. -/
theorem loop_inv (n : ℕ) : ∀ s : State, Inv s → totalSize s.stack ≤ n →
    Inv (loop true n s) ∧ (loop true n s).stack = [] ∧ ∀ x ∈ s.visited, x ∈ (loop true n s).visited := by
  induction n with
  | zero =>
    intro s h hn
    refine ⟨h, ?_, fun _ h => h⟩
    rcases hs : s.stack with _ | ⟨top, stack⟩
    · exact hs
    · have := totalSize_subs top
      rw [hs, totalSize_cons] at hn
      omega
  | succ n ih =>
    intro s h hn
    unfold loop
    split
    · rename_i hs
      exact ⟨h, hs, fun _ h => h⟩
    · rename_i top stack hs
      have hstep := process_step (s := { s with stack := stack }) h.updates top
      have hsize := hstep.size
      rw [hs, totalSize_cons] at hn
      obtain ⟨hinv, hempty, hvisited⟩ := ih _ (h.step hs hstep) (by simp only at hsize; omega)
      exact ⟨hinv, hempty, fun x hx => hvisited x (hstep.visited x hx)⟩

theorem allReads_exprs {p : Array → Expr → Prop} {head : UpdateNode} (h : head.AllReads p) :
    ∀ e ∈ head.exprs, e.AllReads p := by
  induction head with
  | null => exact fun e he => absurd he List.not_mem_nil
  | node next i v ih =>
    intro e he
    simp only [UpdateNode.exprs, List.mem_cons] at he
    rcases he with rfl | rfl | he
    · exact h.2.1
    · exact h.2.2
    · exact ih h.1 e he

theorem allReads_subs {p : Array → Expr → Prop} {e : Expr} (h : e.AllReads p) :
    ∀ k ∈ subs e, k.AllReads p := by
  cases e with
  | read root head index =>
    intro k hk
    rcases List.mem_cons.mp hk with rfl | hk
    · exact h.2.2
    · exact allReads_exprs h.2.1 k hk
  | _ => exact fun k hk => h.kid hk

theorem loop_reads {p : Array → Expr → Prop} (n : ℕ) : ∀ s : State, Inv s →
    (∀ e ∈ s.stack, e.AllReads p) → (∀ r ∈ s.results, p r.1.root r.2) →
      ∀ r ∈ (loop true n s).results, p r.1.root r.2 := by
  induction n with
  | zero => exact fun s _ _ hr => hr
  | succ n ih =>
    intro s h hstack hr
    unfold loop
    split
    · exact hr
    · rename_i top stack hs
      have hstep := process_step (s := { s with stack := stack }) h.updates top
      rw [hs] at hstack
      have htop := hstack top List.mem_cons_self
      refine ih _ (h.step hs hstep) (fun e he => ?_) fun r hr' => ?_
      · rcases hstep.source e he with he | he
        · exact hstack e (List.mem_cons_of_mem _ he)
        · exact allReads_subs htop e he
      · rcases hstep.reads r hr' with hr' | rfl
        · exact hr r hr'
        · exact htop.1

end findReads

/-- What was visited: closed under subexpressions, with its reads found. -/
structure Visits (e : Expr) (visited : Expr → Prop) : Prop where
  self : e.isConstant = false → visited e
  subs : ∀ {x k}, visited x → k ∈ findReads.subs x → k.isConstant = false → visited k
  reads : ∀ {root head index}, visited (read root head index) →
    (⟨root, head⟩, index) ∈ findReads e true

theorem findReads_visits (e : Expr) : ∃ visited, Visits e visited := by
  by_cases hc : e.isConstant = true
  · exact ⟨fun _ => False, fun h => by simp [hc] at h, fun h => h.elim, fun h => h.elim⟩
  · have hinit : findReads.Inv ⟨[e], [e], [], []⟩ :=
      ⟨fun x hx => .inl hx, fun head hh => absurd hh List.not_mem_nil⟩
    obtain ⟨hinv, hempty, hvisited⟩ := findReads.loop_inv e.size _ hinit (by simp [findReads.totalSize])
    have hprocessed : ∀ x ∈ (findReads.loop true e.size ⟨[e], [e], [], []⟩).visited,
        findReads.Processed (findReads.loop true e.size ⟨[e], [e], [], []⟩) x := by
      intro x hx
      have := hinv.visited x hx
      rw [hempty] at this
      exact this.resolve_left List.not_mem_nil
    refine ⟨(· ∈ (findReads.loop true e.size ⟨[e], [e], [], []⟩).visited),
      fun _ => hvisited e (List.mem_singleton_self e), fun hx hk hkc => (hprocessed _ hx).subs _ hk hkc,
      fun hx => ?_⟩
    rw [findReads, if_neg hc]
    exact (hprocessed _ hx).read _ _ _ rfl

theorem findReads_allReads {p : Array → Expr → Prop} {e : Expr} (h : e.AllReads p) :
    ∀ r ∈ findReads e true, p r.1.root r.2 := by
  unfold findReads
  split_ifs
  · exact fun r hr => absurd hr List.not_mem_nil
  · refine findReads.loop_reads e.size _ ⟨fun x hx => .inl hx, fun head hh => absurd hh List.not_mem_nil⟩
      (fun x hx => ?_) fun r hr => absurd hr List.not_mem_nil
    rw [List.mem_singleton.mp hx]
    exact h

end Klee
