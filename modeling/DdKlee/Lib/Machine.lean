import DdKlee.Lib.Prog

/-! Machines whose steps may get stuck, and simulation between two of them: what
the abstract machine can do, the concrete one does, with related outputs. -/

namespace Machine

variable {S A L O P : Type}

/-- The outputs of a sequence of steps and the state they lead to, unless one of
them is stuck. -/
def run (step : S → L → Option (O × S)) : S → List L → Option (List O × S)
  | s, [] => some ([], s)
  | s, l :: ls => do
      let (o, s) ← step s l
      let (os, s) ← run step s ls
      some (o :: os, s)

section

variable {step : S → L → Option (O × S)} {s s' : S} {l : L} {ls : List L} {out : List O}

theorem run_cons : run step s (l :: ls) = some (out, s') ↔
    ∃ o s1 os, step s l = some (o, s1) ∧ run step s1 ls = some (os, s') ∧ out = o :: os := by
  simp only [run, bind_eq_some, Option.some.injEq, Prod.exists,
    Prod.mk.injEq]
  constructor
  · rintro ⟨o, s1, hstep, os, s2, hrun, rfl, rfl⟩
    exact ⟨o, s1, os, hstep, hrun, rfl⟩
  · rintro ⟨o, s1, os, hstep, hrun, rfl⟩
    exact ⟨o, s1, hstep, os, s', hrun, rfl, rfl⟩

end

/-- A simulation of single steps is one of runs. -/
theorem run_simulates (step : S → L → Option (O × S)) (astep : A → L → Option (P × A)) {R : S → A → Prop}
    {rel : O → P → Prop} {ok : L → Prop}
    (hstep : ∀ {s a l p a'}, R s a → ok l → astep a l = some (p, a') →
      ∃ o s', step s l = some (o, s') ∧ rel o p ∧ R s' a') (ls : List L) :
    ∀ {s a ps a'}, R s a → (∀ l ∈ ls, ok l) → run astep a ls = some (ps, a') →
      ∃ os s', run step s ls = some (os, s') ∧ List.Forall₂ rel os ps ∧ R s' a' := by
  induction ls with
  | nil =>
    rintro s a ps a' hR - hrun
    cases hrun
    exact ⟨[], s, rfl, .nil, hR⟩
  | cons l ls ih =>
    intro s a ps a' hR hok hrun
    obtain ⟨hl, hls⟩ := List.forall_mem_cons.mp hok
    obtain ⟨p, a1, ps, hastep, harun, rfl⟩ := run_cons.mp hrun
    obtain ⟨o, s1, hs1, hrel, hR1⟩ := hstep hR hl hastep
    obtain ⟨os, s', hs', hrels, hR'⟩ := ih hR1 hls harun
    exact ⟨o :: os, s', run_cons.mpr ⟨o, s1, os, hs1, hs', rfl⟩, .cons hrel hrels, hR'⟩

theorem foldlM_done {f : S → L → Option S} {Inv : S → Prop} {done : S → L → Prop} {ok : L → Prop}
    (hf : ∀ {s l}, Inv s → ok l → ∃ s', f s l = some s' ∧ Inv s' ∧ done s' l ∧ ∀ k, done s k → done s' k)
    (ls : List L) : ∀ {s}, Inv s → (∀ l ∈ ls, ok l) →
      ∃ s', ls.foldlM f s = some s' ∧ Inv s' ∧ (∀ l ∈ ls, done s' l) ∧ ∀ k, done s k → done s' k := by
  induction ls with
  | nil => exact fun {s} hs _ => ⟨s, rfl, hs, by simp, fun _ h => h⟩
  | cons l ls ih =>
    intro s hs hok
    obtain ⟨hl, hls⟩ := List.forall_mem_cons.mp hok
    obtain ⟨s1, hrun1, hs1, hdone, hkeep1⟩ := hf hs hl
    obtain ⟨s', hrun, hs', hdones, hkeep⟩ := ih hs1 hls
    refine ⟨s', ?_, hs', List.forall_mem_cons.mpr ⟨hkeep l hdone, hdones⟩, fun k hk => hkeep k (hkeep1 k hk)⟩
    rw [List.foldlM_cons, hrun1]
    exact hrun

end Machine
