import DdKlee.Proofs.MainLoop
import DdKlee.Proofs.TreeStream
import DdKlee.Spec.PathWriter

/-! The stream of a state has its path, as long as no state writes to a stream that it
shares. -/

namespace Klee

open Expr

namespace Executor

variable {ex ex' ex'' : Executor} {ts : TimingSolver} {i j : ℕ} {c : Expr} {new new' : List ℕ}

def Alive (ex : Executor) (i : ℕ) : Prop := ∃ s, ex.store.get i = some s

structure Extends (ex ex' : Executor) (new : List ℕ) : Prop where
  fresh : ∀ i ∈ new, ¬ ex.Alive i
  alive : ∀ i, ex'.Alive i ↔ ex.Alive i ∨ i ∈ new

theorem Extends.refl (ex : Executor) : Extends ex ex [] := ⟨by simp, by simp⟩

theorem Extends.trans (h : Extends ex ex' new) (h' : Extends ex' ex'' new') : Extends ex ex'' (new ++ new') where
  fresh := List.forall_mem_append.mpr ⟨h.fresh, fun i hi halive => h'.fresh i hi ((h.alive i).mpr (.inl halive))⟩
  alive i := by rw [h'.alive, h.alive, List.mem_append, or_assoc]

theorem alive_set {s : ExecutionState} (h : ex.Alive i) :
    Alive { ex with store := ex.store.set i s } j ↔ ex.Alive j := by
  obtain ⟨t, ht⟩ := h
  by_cases hj : j = i
  · subst hj
    exact ⟨fun _ => ⟨t, ht⟩, fun _ => ⟨s, Store.get_set_self ht⟩⟩
  · simp only [Alive, Store.get_set_ne hj]

theorem addConstraint_extends {opts : ConstraintOptions} (h : ex.addConstraint opts i c = some ex') :
    Extends ex ex' [] := by
  unfold addConstraint at h
  split at h
  · split at h
    · cases h
      exact .refl ex
    · cases h
  · obtain ⟨s, hs, h⟩ := Option.bind_eq_some_iff.mp h
    obtain ⟨t, -, h⟩ := Option.bind_eq_some_iff.mp h
    cases h
    exact ⟨by simp, fun j => by rw [alive_set ⟨s, hs⟩]; simp⟩

theorem get_alloc_iff {α : Type} (st : Store α) (a : α) (j : ℕ) :
    (∃ u, (st.alloc a).2.get j = some u) ↔ (∃ u, st.get j = some u) ∨ j = (st.alloc a).1 := by
  by_cases hj : j = (st.alloc a).1
  · exact ⟨fun _ => .inr hj, fun _ => ⟨a, hj ▸ Store.get_alloc_self⟩⟩
  · rw [Store.get_alloc hj, or_iff_left hj]

theorem alloc_fresh {α : Type} (st : Store α) : ¬ ∃ u, st.get st.cells.length = some u :=
  fun ⟨_, hu⟩ => Nat.lt_irrefl _ (Store.lt_of_get hu)

theorem addBranch_extends {ns : ℕ} (h : ex.addBranch i = some (ns, ex')) : ex.Alive i ∧ Extends ex ex' [ns] := by
  unfold addBranch at h
  obtain ⟨s, hs, h⟩ := Option.bind_eq_some_iff.mp h
  obtain ⟨tree, -, h⟩ := Option.bind_eq_some_iff.mp h
  cases h
  have hset : ∀ j t, (∃ u, (ex.store.set i t).get j = some u) ↔ ex.Alive j := fun j t => alive_set ⟨s, hs⟩
  refine ⟨⟨s, hs⟩, List.forall_mem_singleton.mpr fun halive => ?_, fun j => ?_⟩
  · rw [← hset] at halive
    exact alloc_fresh _ halive
  · rw [List.mem_singleton, ← hset]
    exact get_alloc_iff _ _ j

theorem branchStates_extends {getInt32 : ℕ → ℕ} (n : ℕ) {result : List ℕ}
    (h : ex.branchStates getInt32 i n = some (result, ex')) :
    ∃ copies, result = i :: copies ∧ Extends ex ex' copies ∧ (copies ≠ [] → ex.Alive i) := by
  induction n generalizing result ex' with
  | zero =>
    cases h
    exact ⟨[], rfl, .refl ex, fun hne => absurd rfl hne⟩
  | succ n ih =>
    obtain ⟨⟨result1, ex₁⟩, hrun, h⟩ := Option.bind_eq_some_iff.mp h
    obtain ⟨copies, rfl, h1, halive⟩ := ih hrun
    obtain ⟨es, hes, h⟩ := Option.bind_eq_some_iff.mp h
    obtain ⟨⟨ns, ex₂⟩, hbranch, h⟩ := Option.bind_eq_some_iff.mp h
    cases h
    obtain ⟨hfrom, h2⟩ := addBranch_extends hbranch
    refine ⟨copies ++ [ns], rfl, h1.trans h2, fun _ => ?_⟩
    -- the first copy is made from the state itself
    by_cases hnil : copies = []
    · subst hnil
      obtain rfl := List.mem_singleton.mp (List.mem_of_getElem? hes)
      simpa using (h1.alive es).mp hfrom
    · exact halive hnil

theorem addConstraints_extends {opts : ConstraintOptions} (ps : List (ℕ × Expr))
    (h : ps.foldlM (fun ex p => ex.addConstraint opts p.1 p.2) ex = some ex') : Extends ex ex' [] := by
  induction ps generalizing ex with
  | nil =>
    cases h
    exact .refl _
  | cons p ps ih =>
    obtain ⟨ex₁, hrun, h⟩ := Option.bind_eq_some_iff.mp h
    exact (addConstraint_extends hrun).trans (ih h)

theorem branch_extends {opts : ConstraintOptions} {getInt32 : ℕ → ℕ} {conditions : List Expr} {result : List ℕ}
    (h : ex.branch opts getInt32 i conditions = some (result, ex')) :
    ∃ copies, result = i :: copies ∧ Extends ex ex' copies ∧ (copies ≠ [] → ex.Alive i) := by
  unfold branch at h
  split at h
  · cases h
  · obtain ⟨⟨result1, ex₁⟩, hrun, h⟩ := Option.bind_eq_some_iff.mp h
    obtain ⟨ex₂, hadd, h⟩ := Option.bind_eq_some_iff.mp h
    cases h
    obtain ⟨copies, hresult, h1, halive⟩ := branchStates_extends _ hrun
    exact ⟨copies, hresult, by simpa using h1.trans (addConstraints_extends _ hadd), halive⟩

/-- What a fork can do: it ends the state, takes one side with it, or makes a state for the
false side. -/
inductive Forks (ex ex' : Executor) (current : ℕ) : Option ℕ → Option ℕ → Prop
  | ends (h : ∀ i, ex'.Alive i → ex.Alive i) : Forks ex ex' current none none
  | true (h : Extends ex ex' []) : Forks ex ex' current (some current) none
  | false (h : Extends ex ex' []) : Forks ex ex' current none (some current)
  | both (falseState : ℕ) (h : Extends ex ex' [falseState]) : Forks ex ex' current (some current) (some falseState)

theorem alive_of_terminate {termination : Termination} (h : ex.terminateStateWith i termination = some ex') (j : ℕ)
    (hj : ex'.Alive j) : ex.Alive j := by
  unfold terminateStateWith at h
  obtain ⟨s, hs, h⟩ := Option.bind_eq_some_iff.mp h
  obtain ⟨ex₁, hrun, h⟩ := Option.bind_eq_some_iff.mp h
  cases h
  change ex₁.Alive j at hj
  unfold terminateState at hrun
  rw [hs, some_bind] at hrun
  split at hrun
  · obtain ⟨tree, -, heq⟩ := Option.bind_eq_some_iff.mp hrun
    cases heq
    obtain ⟨t, ht⟩ := hj
    by_cases hne : j = i
    · subst hne
      cases Store.get_free_self.symm.trans ht
    · exact ⟨t, (Store.get_free_ne hne).symm.trans ht⟩
  · cases hrun
    exact (alive_set ⟨s, hs⟩).mp hj

theorem fork_forks {r : Option ℕ × Option ℕ} (h : ex.fork ts i c = some (r, ex')) :
    ex.Alive i ∧ Forks ex ex' i r.1 r.2 := by
  unfold fork at h
  obtain ⟨s, hs, h⟩ := Option.bind_eq_some_iff.mp h
  refine ⟨⟨s, hs⟩, ?_⟩
  split at h
  · obtain ⟨ex₁, hrun, heq⟩ := Option.bind_eq_some_iff.mp h
    cases heq
    exact .ends fun j hj => (alive_set ⟨s, hs⟩).mp (alive_of_terminate hrun j hj)
  · cases h
    exact .true (.refl ex)
  · cases h
    exact .false (.refl ex)
  · obtain ⟨⟨ns, ex₁⟩, hbranch, h⟩ := Option.bind_eq_some_iff.mp h
    obtain ⟨ex₂, hadd, h⟩ := Option.bind_eq_some_iff.mp h
    obtain ⟨ex3, hadd', heq⟩ := Option.bind_eq_some_iff.mp h
    cases heq
    have hextends := ((addBranch_extends hbranch).2.trans (addConstraint_extends hadd)).trans (addConstraint_extends hadd')
    exact .both ns (by simpa using hextends)

theorem forkUnless_forks {r : Option ℕ × Option ℕ} {inhibited : Option Bool}
    (h : ex.forkUnless ts i c inhibited = some (r, ex')) : ex.Alive i ∧ Forks ex ex' i r.1 r.2 := by
  unfold forkUnless at h
  split at h
  · exact fork_forks h
  · obtain ⟨s, hs, h⟩ := Option.bind_eq_some_iff.mp h
    refine ⟨⟨s, hs⟩, ?_⟩
    split at h
    · split at h
      · obtain ⟨ex₁, hadd, heq⟩ := Option.bind_eq_some_iff.mp h
        cases heq
        exact .true (addConstraint_extends hadd)
      · obtain ⟨ex₁, hadd, heq⟩ := Option.bind_eq_some_iff.mp h
        cases heq
        exact .false (addConstraint_extends hadd)
    · exact (fork_forks h).2

inductive Steps (ex ex' : Executor) : PathOp → PathResult → Prop
  | fork {current : ℕ} {condition : Expr} {isInternal : Bool} {inhibited : Option Bool} {t f : Option ℕ}
      (alive : ex.Alive current) (h : Forks ex ex' current t f) :
      Steps ex ex' (.fork current condition isInternal inhibited) (.pair t f)
  | branch {state : ℕ} {conditions : List Expr} {getInt32 : ℕ → ℕ} (copies : List ℕ)
      (h : Extends ex ex' copies) (alive : copies ≠ [] → ex.Alive state) :
      Steps ex ex' (.branch state conditions getInt32) (.states (state :: copies))
  | change {state : ℕ} {new : ExecutionState} (h : ∀ i, ex'.Alive i → ex.Alive i) :
      Steps ex ex' (.change state new) .none
  | terminate {state : ℕ} {termination : Termination} (h : ∀ i, ex'.Alive i → ex.Alive i) :
      Steps ex ex' (.terminate state termination) .none
  | delete {state : ℕ} (h : ∀ i, ex'.Alive i → ex.Alive i) : Steps ex ex' (.delete state) .none

theorem pathStep_steps {op : PathOp} {r : PathResult} (h : ex.pathStep ts op = some (r, ex')) : Steps ex ex' op r := by
  cases op with
  | fork current condition isInternal inhibited =>
    obtain ⟨⟨⟨t, f⟩, ex₁⟩, hrun, heq⟩ := Option.bind_eq_some_iff.mp h
    cases heq
    exact .fork (forkUnless_forks hrun).1 (forkUnless_forks hrun).2
  | branch state conditions getInt32 =>
    obtain ⟨⟨result, ex₁⟩, hrun, heq⟩ := Option.bind_eq_some_iff.mp h
    cases heq
    obtain ⟨copies, rfl, hextends, halive⟩ := branch_extends hrun
    exact .branch copies hextends halive
  | change state new =>
    obtain ⟨old, hold, heq⟩ := Option.bind_eq_some_iff.mp h
    cases heq
    exact .change fun i hi => (alive_set ⟨old, hold⟩).mp hi
  | terminate state termination =>
    obtain ⟨ex₁, hrun, heq⟩ := Option.bind_eq_some_iff.mp h
    cases heq
    exact .terminate (alive_of_terminate hrun)
  | delete state =>
    cases h
    refine .delete fun i ⟨s, hs⟩ => ?_
    by_cases hi : i = state
    · subst hi
      cases Store.get_free_self.symm.trans hs
    · exact ⟨s, (Store.get_free_ne hi).symm.trans hs⟩

end Executor

namespace PathExecutor

open Executor TreeStreamWriter

variable {p : PathExecutor} {ts : TimingSolver} {s : Streams} {paths : Paths} {log : List Record} {i j : ℕ} {b : Bool}
  {ex' : Executor}

/-- The stream of each state is read as the path to it. -/
def Matches (p : PathExecutor) (paths : Paths) : Prop :=
  ∀ i, p.executor.Alive i → p.pathWriter.readStream (p.pathOS i) = some (paths i, p.pathWriter.flush)

def Faithful (ts : TimingSolver) : PathExecutor → Paths → List PathOp → Prop
  | p, paths, [] => p.Matches paths
  | p, paths, op :: ops => p.Matches paths ∧ ∀ r ex, p.executor.pathStep ts op = some (r, ex) →
      ∃ p', { p with executor := ex }.record op r = some p' ∧ Faithful ts p' (paths.after op r) ops

def Shared (p : PathExecutor) (i : ℕ) : Prop := ∃ j, p.executor.Alive j ∧ j ≠ i ∧ p.pathOS j = p.pathOS i

def Private (p : PathExecutor) : PathOp → PathResult → Prop
  | .fork current _ isInternal _, .pair trueState falseState =>
      isInternal = false → (trueState.isSome || falseState.isSome) = true → ¬ p.Shared current
  | _, _ => True

def PrivateRun (ts : TimingSolver) : PathExecutor → List PathOp → Prop
  | _, [] => True
  | p, op :: ops => ∀ r ex, p.executor.pathStep ts op = some (r, ex) →
      p.Private op r ∧ ∀ p', { p with executor := ex }.record op r = some p' → PrivateRun ts p' ops

/-- The streams are those of the writer, and the one of each state has its path. -/
structure Recorded (p : PathExecutor) (s : Streams) (paths : Paths) : Prop where
  writer : ∃ log, Represents p.pathWriter s log
  pos : ∀ i, p.executor.Alive i → 0 < p.pathOS i
  le : ∀ i, p.executor.Alive i → p.pathOS i ≤ s.count
  content : ∀ i, p.executor.Alive i → s.content (p.pathOS i) = paths i

theorem Recorded.matches (h : Recorded p s paths) : p.Matches paths := by
  intro i hi
  obtain ⟨log, hlog⟩ := h.writer
  rw [hlog.readStream (h.pos i hi) (h.le i hi), h.content i hi]

theorem Recorded.of_alive (h : Recorded p s paths) (halive : ∀ i, ex'.Alive i → p.executor.Alive i) :
    Recorded { p with executor := ex' } s paths :=
  ⟨h.writer, fun i hi => h.pos i (halive i hi), fun i hi => h.le i (halive i hi),
    fun i hi => h.content i (halive i hi)⟩

theorem writePath_ok (hlog : Represents p.pathWriter s log) (hpos : 0 < p.pathOS i) (hle : p.pathOS i ≤ s.count)
    (b : Bool) :
    ∃ w log', p.writePath i b = some { p with pathWriter := w } ∧
      Represents w (s.write (p.pathOS i) (outcome b)) log' := by
  obtain ⟨w, log', hwrite, h'⟩ := hlog.write hpos hle (show (outcome b).length < 2 ^ 31 by decide +revert)
  exact ⟨w, log', by rw [writePath, hwrite]; rfl, h'⟩

theorem Recorded.write (h : Recorded p s paths) (hi : p.executor.Alive i) (hown : ¬ p.Shared i) (b : Bool) :
    ∃ p', p.writePath i b = some p' ∧ p'.executor = p.executor ∧ p'.pathOS = p.pathOS ∧
      Recorded p' (s.write (p.pathOS i) (outcome b)) (Function.update paths i (paths i ++ outcome b)) := by
  obtain ⟨log, hlog⟩ := h.writer
  obtain ⟨w, log', hwrite, hlog'⟩ := writePath_ok hlog (h.pos i hi) (h.le i hi) b
  refine ⟨_, hwrite, rfl, rfl, ⟨log', hlog'⟩, h.pos, h.le, fun j hj => ?_⟩
  by_cases hne : j = i
  · subst hne
    rw [Streams.content_write_self, h.content j hj, Function.update_self]
  · rw [Streams.content_write_ne _ _ _ fun heq => hown ⟨j, hj, hne, heq⟩, h.content j hj, Function.update_of_ne hne]

theorem not_matches (hlog : Represents p.pathWriter s log) (hj : p.executor.Alive j) (hpos : 0 < p.pathOS j)
    (hle : p.pathOS j ≤ s.count) (hcontent : s.content (p.pathOS j) = paths j ++ outcome b) : ¬ p.Matches paths := by
  intro hmatches
  have heq := (hlog.readStream hpos hle).symm.trans (hmatches j hj)
  rw [hcontent] at heq
  simp [outcome] at heq

theorem Recorded.open (h : Recorded p s paths) (hi : p.executor.Alive i) (hextends : Extends p.executor ex' [j])
    (hcount : s.count + 1 < 2 ^ 31) :
    (p.pathWriter.openStream (p.pathOS i)).1 = s.count + 1 ∧
      Recorded ⟨ex', (p.pathWriter.openStream (p.pathOS i)).2, Function.update p.pathOS j (s.count + 1)⟩
        (s.openStream (p.pathOS i)) (Function.update paths j (paths i)) := by
  obtain ⟨log, hlog⟩ := h.writer
  obtain ⟨hid, log', hlog'⟩ := hlog.openStream (h.le i hi) hcount
  have hcases : ∀ k, ex'.Alive k → k = j ∨ k ≠ j ∧ p.executor.Alive k := by
    intro k hk
    have hk' := (hextends.alive k).mp hk
    rw [List.mem_singleton] at hk'
    tauto
  refine ⟨hid, ⟨log', hlog'⟩, fun k hk => ?_, fun k hk => ?_, fun k hk => ?_⟩ <;>
    rcases hcases k hk with rfl | ⟨hne, hk⟩
  · simp
  · simpa [hne] using h.pos k hk
  · simp [Streams.openStream]
  · simpa [hne, Streams.openStream] using Nat.le_succ_of_le (h.le k hk)
  · simp [Streams.content_open_self, h.content i hi]
  · have hlt : p.pathOS k ≠ s.count + 1 := Nat.ne_of_lt (Nat.lt_succ_of_le (h.le k hk))
    simp [hne, Streams.content_open_ne _ _ hlt, h.content k hk]

def Outcome (s : Streams) (own : Prop) (p' : PathExecutor) (paths' : Paths) : Prop :=
  (own ∧ ∃ s', Recorded p' s' paths' ∧ s'.count ≤ s.count + 1) ∨ (¬ own ∧ ¬ p'.Matches paths')

theorem one_side (h : Recorded p s paths) (hi : p.executor.Alive i) (b : Bool) :
    ∃ p', p.writePath i b = some p' ∧
      Outcome s (¬ p.Shared i) p' (Function.update paths i (paths i ++ outcome b)) := by
  by_cases hshared : p.Shared i
  · obtain ⟨j, hj, hne, heq⟩ := hshared
    obtain ⟨log, hlog⟩ := h.writer
    obtain ⟨w, log', hwrite, hlog'⟩ := writePath_ok hlog (h.pos i hi) (h.le i hi) b
    refine ⟨_, hwrite, .inr ⟨not_not.mpr ⟨j, hj, hne, heq⟩, not_matches (b := b) hlog' hj (h.pos j hj) (h.le j hj) ?_⟩⟩
    change (s.write (p.pathOS i) (outcome b)).content (p.pathOS j) = _
    rw [heq, Streams.content_write_self, ← heq, h.content j hj, Function.update_of_ne hne]
  · obtain ⟨p', hwrite, -, -, h'⟩ := h.write hi hshared b
    exact ⟨p', hwrite, .inl ⟨hshared, _, h', Nat.le_succ _⟩⟩

theorem both_writes (h : Recorded p s paths) (hi : p.executor.Alive i) (hj : p.executor.Alive j) (hne : i ≠ j)
    (hown : ∀ k, p.executor.Alive k → k ≠ j → p.pathOS k ≠ p.pathOS j) :
    ∃ p', (p.writePath i true >>= fun p => p.writePath j false) = some p' ∧
      ((¬ p.Shared i ∧ ∃ s', Recorded p' s' (Function.update (Function.update paths i (paths i ++ outcome true))
          j (paths j ++ outcome false)) ∧ s'.count = s.count) ∨
        (p.Shared i ∧ ¬ p'.Matches (Function.update (Function.update paths i (paths i ++ outcome true))
          j (paths j ++ outcome false)))) := by
  by_cases hshared : p.Shared i
  · obtain ⟨k, hk, hki, heq⟩ := hshared
    have hkj : k ≠ j := fun hkj => hown i hi hne (by rw [← heq, hkj])
    obtain ⟨log, hlog⟩ := h.writer
    obtain ⟨w, log1, hwrite, hlog1⟩ := writePath_ok hlog (h.pos i hi) (h.le i hi) true
    obtain ⟨w', log2, hwrite', hlog2⟩ :=
      writePath_ok (p := { p with pathWriter := w }) hlog1 (h.pos j hj) (h.le j hj) false
    refine ⟨_, Option.bind_eq_some_iff.mpr ⟨_, hwrite, hwrite'⟩,
      .inr ⟨⟨k, hk, hki, heq⟩, not_matches (b := true) hlog2 hk (h.pos k hk) (h.le k hk) ?_⟩⟩
    change ((s.write (p.pathOS i) (outcome true)).write (p.pathOS j) (outcome false)).content (p.pathOS k) = _
    rw [Streams.content_write_ne _ _ _ (hown k hk hkj), heq, Streams.content_write_self, ← heq, h.content k hk,
      Function.update_of_ne hkj, Function.update_of_ne hki]
  · obtain ⟨p1, hwrite, hex, hos, h1⟩ := h.write hi hshared true
    have hown1 : ¬ p1.Shared j := fun ⟨k, hk, hkj, heq⟩ => hown k (hex ▸ hk) hkj (by rwa [hos] at heq)
    obtain ⟨p', hwrite', -, -, h'⟩ := h1.write (by rwa [hex]) hown1 false
    rw [Function.update_of_ne hne.symm] at h'
    exact ⟨p', Option.bind_eq_some_iff.mpr ⟨p1, hwrite, hwrite'⟩, .inl ⟨hshared, _, h', rfl⟩⟩

theorem both_sides (h : Recorded p s paths) (hi : p.executor.Alive i) (hextends : Extends p.executor ex' [j])
    (hcount : s.count + 1 < 2 ^ 31) :
    ∃ p', (writePath ⟨ex', (p.pathWriter.openStream (p.pathOS i)).2,
        Function.update p.pathOS j (s.count + 1)⟩ i true >>= fun p => p.writePath j false) = some p' ∧
      Outcome s (¬ p.Shared i) p' (Function.update (Function.update paths j (paths i ++ outcome false))
        i (paths i ++ outcome true)) := by
  have hne : i ≠ j := fun heq => hextends.fresh j (List.mem_singleton_self j) (heq ▸ hi)
  obtain ⟨-, h1⟩ := h.open hi hextends hcount
  generalize hp1 : (⟨ex', (p.pathWriter.openStream (p.pathOS i)).2,
    Function.update p.pathOS j (s.count + 1)⟩ : PathExecutor) = p1 at h1 ⊢
  have halive : ∀ k, p1.executor.Alive k ↔ p.executor.Alive k ∨ k = j := by
    intro k
    rw [← hp1, hextends.alive, List.mem_singleton]
  have hos : p1.pathOS = Function.update p.pathOS j (s.count + 1) := by rw [← hp1]
  have hat : ∀ k, k ≠ j → p1.pathOS k = p.pathOS k := by
    intro k hk
    rw [hos, Function.update_of_ne hk]
  have hown : ∀ k, p1.executor.Alive k → k ≠ j → p1.pathOS k ≠ p1.pathOS j := by
    intro k hk hkj
    have hle := h.le k (((halive k).mp hk).resolve_right hkj)
    rw [hat k hkj, hos, Function.update_self]
    exact Nat.ne_of_lt (Nat.lt_succ_of_le hle)
  have hshared : p1.Shared i ↔ p.Shared i := by
    constructor
    · rintro ⟨k, hk, hki, heq⟩
      have hkj : k ≠ j := fun hkj => hown i ((halive i).mpr (.inl hi)) hne (by rw [← heq, hkj])
      exact ⟨k, ((halive k).mp hk).resolve_right hkj, hki, by rw [← hat k hkj, heq, hat i hne]⟩
    · rintro ⟨k, hk, hki, heq⟩
      have hkj : k ≠ j := fun hkj => hextends.fresh j (List.mem_singleton_self j) (hkj ▸ hk)
      exact ⟨k, (halive k).mpr (.inl hk), hki, by rw [hat k hkj, heq, hat i hne]⟩
  obtain ⟨p', hrun, hcases⟩ := both_writes h1 ((halive i).mpr (.inl hi)) ((halive j).mpr (.inr rfl)) hne hown
  have hpaths : Function.update (Function.update (Function.update paths j (paths i)) i
      (Function.update paths j (paths i) i ++ outcome true)) j (Function.update paths j (paths i) j ++ outcome false) =
      Function.update (Function.update paths j (paths i ++ outcome false)) i (paths i ++ outcome true) := by
    rw [Function.update_of_ne hne, Function.update_self, Function.update_comm hne, Function.update_idem]
  rw [hpaths, hshared] at hcases
  refine ⟨p', hrun, hcases.imp ?_ ?_⟩
  · rintro ⟨hnot, s', h', hs'⟩
    exact ⟨hnot, s', h', Nat.le_of_eq hs'⟩
  · rintro ⟨hshared, hnot⟩
    exact ⟨not_not.mpr hshared, hnot⟩

theorem Recorded.branch (h : Recorded p s paths) {copies : List ℕ} (hextends : Extends p.executor ex' copies)
    (halive : copies ≠ [] → p.executor.Alive i) :
    Recorded { p with executor := ex', pathOS := fun k => if k ∈ i :: copies then p.pathOS i else p.pathOS k } s
      fun k => if k ∈ i :: copies then paths i else paths k := by
  have hcases : ∀ k, ex'.Alive k → (k ∈ i :: copies → p.executor.Alive i) ∧ (k ∉ i :: copies → p.executor.Alive k) := by
    intro k hk
    rcases (hextends.alive k).mp hk with hk | hmem
    · refine ⟨fun hmem => ?_, fun _ => hk⟩
      rcases List.mem_cons.mp hmem with rfl | hmem
      · exact hk
      · exact halive (List.ne_nil_of_mem hmem)
    · exact ⟨fun _ => halive (List.ne_nil_of_mem hmem), fun hnot => absurd (List.mem_cons_of_mem i hmem) hnot⟩
  refine ⟨h.writer, fun k hk => ?_, fun k hk => ?_, fun k hk => ?_⟩ <;> dsimp only <;> split <;> rename_i hmem
  · exact h.pos i ((hcases k hk).1 hmem)
  · exact h.pos k ((hcases k hk).2 hmem)
  · exact h.le i ((hcases k hk).1 hmem)
  · exact h.le k ((hcases k hk).2 hmem)
  · exact h.content i ((hcases k hk).1 hmem)
  · exact h.content k ((hcases k hk).2 hmem)

theorem Outcome.congr {own own' : Prop} {p' : PathExecutor} (hown : own ↔ own') (h : Outcome s own p' paths) :
    Outcome s own' p' paths := by
  rwa [← hown]

theorem outcome_of_recorded {own : Prop} {p' : PathExecutor} (hown : own) (h : Recorded p' s paths) :
    Outcome s own p' paths :=
  .inl ⟨hown, s, h, Nat.le_succ _⟩

theorem shared_congr (hextends : Extends p.executor ex' []) : Shared { p with executor := ex' } i ↔ p.Shared i := by
  simp only [Shared, hextends.alive, List.not_mem_nil, or_false]

theorem record_fork (h : Recorded p s paths) (hcount : s.count + 1 < 2 ^ 31) {current : ℕ} {condition : Expr}
    {isInternal : Bool} {inhibited : Option Bool} {t f : Option ℕ} (halive : p.executor.Alive current)
    (hforks : Forks p.executor ex' current t f) :
    ∃ p', { p with executor := ex' }.record (.fork current condition isInternal inhibited) (.pair t f) = some p' ∧
      Outcome s (p.Private (.fork current condition isInternal inhibited) (.pair t f)) p'
        (paths.after (.fork current condition isInternal inhibited) (.pair t f)) := by
  have hinternal : ∀ {t f}, isInternal = true →
      p.Private (.fork current condition isInternal inhibited) (.pair t f) := fun htrue hfalse => by simp [htrue] at hfalse
  have hside : ∀ {t f : Option ℕ}, isInternal = false → (t.isSome || f.isSome) = true →
      (¬ p.Shared current ↔ p.Private (.fork current condition isInternal inhibited) (.pair t f)) := by
    intro t f hfalse hsome
    exact ⟨fun h _ _ => h, fun h => h hfalse hsome⟩
  have hone : ∀ b, Extends p.executor ex' [] → ∃ p', { p with executor := ex' }.writePath current b = some p' ∧
      Outcome s (¬ p.Shared current) p' (Function.update paths current (paths current ++ outcome b)) := by
    intro b hextends
    have h1 := h.of_alive fun i hi => by simpa using (hextends.alive i).mp hi
    obtain ⟨p', hrun, hout⟩ := one_side h1 ((hextends.alive current).mpr (.inl halive)) b
    exact ⟨p', hrun, hout.congr (not_congr (shared_congr hextends))⟩
  cases hforks with
  | ends hends => exact ⟨_, rfl, outcome_of_recorded (fun _ hsome => by cases hsome) (h.of_alive hends)⟩
  | true hextends =>
    cases isInternal with
    | true =>
      exact ⟨_, rfl, outcome_of_recorded (hinternal rfl) (h.of_alive fun i hi => by simpa using (hextends.alive i).mp hi)⟩
    | false =>
      obtain ⟨p', hrun, hout⟩ := hone true hextends
      exact ⟨p', hrun, hout.congr (hside rfl rfl)⟩
  | false hextends =>
    cases isInternal with
    | true =>
      exact ⟨_, rfl, outcome_of_recorded (hinternal rfl) (h.of_alive fun i hi => by simpa using (hextends.alive i).mp hi)⟩
    | false =>
      obtain ⟨p', hrun, hout⟩ := hone false hextends
      exact ⟨p', hrun, hout.congr (hside rfl rfl)⟩
  | both falseState hextends =>
    obtain ⟨hid, h1⟩ := h.open halive hextends hcount
    cases isInternal with
    | true =>
      rw [← hid] at h1
      exact ⟨_, rfl, .inl ⟨hinternal rfl, s.openStream (p.pathOS current), h1, Nat.le_refl _⟩⟩
    | false =>
      obtain ⟨p', hrun, hout⟩ := both_sides h halive hextends hcount
      rw [← hid] at hrun
      exact ⟨p', hrun, hout.congr (hside rfl rfl)⟩

theorem record_step (h : Recorded p s paths) (hcount : s.count + 1 < 2 ^ 31) {op : PathOp} {r : PathResult}
    (hstep : Steps p.executor ex' op r) :
    ∃ p', { p with executor := ex' }.record op r = some p' ∧ Outcome s (p.Private op r) p' (paths.after op r) := by
  cases hstep with
  | fork halive hforks => exact record_fork h hcount halive hforks
  | branch copies hextends halive => exact ⟨_, rfl, outcome_of_recorded trivial (h.branch hextends halive)⟩
  | change halive => exact ⟨_, rfl, outcome_of_recorded trivial (h.of_alive halive)⟩
  | terminate halive => exact ⟨_, rfl, outcome_of_recorded trivial (h.of_alive halive)⟩
  | delete halive => exact ⟨_, rfl, outcome_of_recorded trivial (h.of_alive halive)⟩

theorem Faithful.matches {ops : List PathOp} (h : Faithful ts p paths ops) : p.Matches paths := by
  cases ops with
  | nil => exact h
  | cons op ops => exact h.1

theorem Faithful.run {ops : List PathOp} {p' : PathExecutor} {paths' : Paths} (h : Faithful ts p paths ops)
    (hrun : p.run ts paths ops = some (p', paths')) : p'.Matches paths' := by
  induction ops generalizing p paths with
  | nil =>
    cases hrun
    exact h
  | cons op ops ih =>
    obtain ⟨⟨r, p1⟩, hstep, hrun⟩ := Option.bind_eq_some_iff.mp hrun
    obtain ⟨⟨r1, ex⟩, hpath, hstep⟩ := Option.bind_eq_some_iff.mp hstep
    obtain ⟨p2, hrecord, heq⟩ := Option.bind_eq_some_iff.mp hstep
    cases heq
    obtain ⟨p3, hrecord', hfaithful⟩ := h.2 r ex hpath
    cases hrecord.symm.trans hrecord'
    exact ih hfaithful hrun

theorem Recorded.run (h : Recorded p s paths) (ops : List PathOp) (hcount : s.count + ops.length < 2 ^ 31) :
    Faithful ts p paths ops ↔ PrivateRun ts p ops := by
  induction ops generalizing p s paths with
  | nil => exact ⟨fun _ => trivial, fun _ => h.matches⟩
  | cons op ops ih =>
    rw [List.length_cons] at hcount
    have hstep := fun r ex (hrun : p.executor.pathStep ts op = some (r, ex)) =>
      record_step h (by omega) (pathStep_steps hrun)
    constructor
    · rintro ⟨-, hall⟩ r ex hrun
      obtain ⟨p', hrecord, hfaithful⟩ := hall r ex hrun
      obtain ⟨p'', hrecord', hout⟩ := hstep r ex hrun
      cases hrecord.symm.trans hrecord'
      rcases hout with ⟨hprivate, s', h', hle⟩ | ⟨-, hnot⟩
      · refine ⟨hprivate, fun p'' hp'' => ?_⟩
        cases hrecord.symm.trans hp''
        exact (ih h' (by omega)).mp hfaithful
      · exact absurd hfaithful.matches hnot
    · intro hall
      refine ⟨h.matches, fun r ex hrun => ?_⟩
      obtain ⟨hprivate, hrest⟩ := hall r ex hrun
      obtain ⟨p', hrecord, hout⟩ := hstep r ex hrun
      rcases hout with ⟨-, s', h', hle⟩ | ⟨hnot, -⟩
      · exact ⟨p', hrecord, (ih h' (by omega)).mpr (hrest p' hrecord)⟩
      · exact absurd hprivate hnot

theorem start_recorded {ex : Executor} (hstart : ∀ j, ex.Alive j ↔ j = i) :
    Recorded (start ex i) (Streams.openStream {} 0) fun _ => [] := by
  obtain ⟨-, log, hlog⟩ := represents_start.openStream (Nat.zero_le 0) (by decide)
  have hos : ∀ j, ex.Alive j → (start ex i).pathOS j = 1 := by
    intro j hj
    obtain rfl := (hstart j).mp hj
    exact Function.update_self j 1 fun _ => 0
  refine ⟨⟨log, hlog⟩, fun j hj => ?_, fun j hj => ?_, fun j hj => ?_⟩ <;> rw [hos j hj]
  · decide
  · decide
  · rfl

/-- The stream of every state has its path throughout a run if, and only if, no outcome is
recorded for a state that shares its stream. -/
theorem run_faithful_iff (ts : TimingSolver) {ex : Executor} {i : ℕ} (hstart : ∀ j, ex.Alive j ↔ j = i)
    (ops : List PathOp) (hlen : ops.length < 2 ^ 31 - 1) :
    Faithful ts (start ex i) (fun _ => []) ops ↔ PrivateRun ts (start ex i) ops :=
  (start_recorded hstart).run ops (by change 1 + ops.length < _; omega)

def isZeroByte : Expr :=
  binary .eq (constant (APInt.ofNat 8 0))
    (Expr.read (Array.symbolic 0 "x" 1 Array.one_lt_size) .null (constant (APInt.ofNat 32 0)))

def answering (validity : Option Validity) : TimingSolver where
  solver := ⟨fun _ => validity, fun _ => none, fun _ => none, fun _ _ => none⟩

theorem oneState_alive (j : ℕ) : MainLoop.oneState.executor.Alive j ↔ j = 0 := by
  cases j with
  | zero => exact ⟨fun _ => rfl, fun _ => ⟨MainLoop.pureState, rfl⟩⟩
  | succ j => simp [Executor.Alive, MainLoop.oneState, Store.get]

/-- Both sides of a fork have their outcomes. -/
theorem run_faithful_iff_fork :
    Faithful (answering (some .unknown)) (start MainLoop.oneState.executor 0) (fun _ => []) [.fork 0 isZeroByte false none] := by
  refine (run_faithful_iff _ oneState_alive _ (by decide)).mpr fun r ex hrun => ⟨?_, fun _ _ => trivial⟩
  have hown : ¬ (start MainLoop.oneState.executor 0).Shared 0 :=
    fun ⟨j, hj, hne, _⟩ => hne ((oneState_alive j).mp hj)
  cases r with
  | pair t f => exact fun _ _ => hown
  | states result => trivial
  | none => trivial

/-- A switch on the byte, and then a test of it in the case of zero. -/
def switchAndTest : List PathOp :=
  [.branch 0 [isZeroByte, createIsZero isZeroByte] fun _ => 0, .fork 0 isZeroByte false none]

theorem switchAndTest_run :
    (run (answering none) (start MainLoop.oneState.executor 0) (fun _ => []) switchAndTest).map
      (fun (p, paths) => ((p.executor.store.get 1).isSome, paths 1,
        (p.pathWriter.readStream (p.pathOS 1)).map Prod.fst)) = some (true, [], some [0x31]) := by
  decide +kernel

/-- The outcome of the test is read for the other case too, where there was no test. The
solver is not asked. -/
theorem sibling_reads_outcome :
    (∃ p paths, run (answering none) (start MainLoop.oneState.executor 0) (fun _ => []) switchAndTest = some (p, paths) ∧
      p.executor.Alive 1 ∧ paths 1 = [] ∧ (p.pathWriter.readStream (p.pathOS 1)).map Prod.fst = some [0x31]) ∧
    ¬ Faithful (answering none) (start MainLoop.oneState.executor 0) (fun _ => []) switchAndTest := by
  obtain ⟨⟨p, paths⟩, hrun, heq⟩ := Option.map_eq_some_iff.mp switchAndTest_run
  simp only [Prod.mk.injEq] at heq
  obtain ⟨halive, hpath, hread⟩ := heq
  have halive : p.executor.Alive 1 := Option.isSome_iff_exists.mp halive
  refine ⟨⟨p, paths, hrun, halive, hpath, hread⟩, fun hfaithful => ?_⟩
  rw [hfaithful.run hrun 1 halive, hpath] at hread
  cases hread

end PathExecutor

end Klee
