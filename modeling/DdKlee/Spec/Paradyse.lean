import Mathlib

/-! How the scripts of `paradyse` split their work among processes. -/

namespace Paradyse

def range (start stop : ℕ) : List ℕ := List.range' start (stop - start)

/-- The values that the loop over `n` cores appends to `tasks`. -/
def coreTasks (count : ℕ) : ℕ → ℕ → ℕ → List ℕ
  | 0, _, _ => []
  | n + 1, mod, acc_count =>
      if 0 < mod then (acc_count + count + 1) :: coreTasks count n (mod - 1) (acc_count + count + 1)
      else (acc_count + count) :: coreTasks count n mod (acc_count + count)

/-- The `idx_list_list` of `run_find`. -/
def run_find (n_iter n_groups : ℕ) : List (List ℕ) :=
  let tasks := 1 :: coreTasks (n_iter / n_groups) n_groups (n_iter % n_groups) 0
  range (tasks.getD 0 0) (tasks.getD 1 0 + 1) ::
    (range 2 tasks.length).map fun i => range (tasks.getD (i - 1) 0 + 1) (tasks.getD i 0 + 1)

/-- The values that the loop of `run_all` appends to `idx_list` from the core `i` on. -/
def coreIndices (A_core_task remain_tasks : ℕ) : ℕ → ℕ → ℕ → List ℕ
  | 0, _, _ => []
  | n + 1, i, acc_idx =>
      let acc_idx := if i < remain_tasks then acc_idx + A_core_task + 1 else acc_idx + A_core_task
      acc_idx :: coreIndices A_core_task remain_tasks n (i + 1) acc_idx

/-- Each weight with each iteration. -/
def allTasks {α : Type} (weights : List α) (n_iter : ℕ) : List (α × ℕ) :=
  weights.flatMap fun w_idx => (range 1 (n_iter + 1)).map fun i => (w_idx, i)

/-- The `subTask` of each group in `run_all`. -/
def run_all {α : Type} (n_parallel : ℕ) (weights : List α) (n_iter : ℕ) : List (List (α × ℕ)) :=
  let tasks := allTasks weights n_iter
  let idx_list := 0 :: coreIndices (tasks.length / n_parallel) (tasks.length % n_parallel) n_parallel 0 0
  (range 0 n_parallel).map fun group_id =>
    (tasks.take (idx_list.getD (group_id + 1) 0)).drop (idx_list.getD group_id 0)

end Paradyse
