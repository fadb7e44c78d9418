import Mathlib

/-! A component with a state that answers calls, each of which may fail: what a
call keeps and what its answer satisfies, from one call to any sequence. -/

namespace Calls

variable {S C A B : Type}

def run (call : S → C → Option A × S) : S → List C → List (Option A) × S
  | s, [] => ([], s)
  | s, c :: calls =>
      let (answer, s) := call s c
      let (answers, s) := run call s calls
      (answer :: answers, s)

/-- The state satisfies the invariant, and the answer, if there is one, is `ok`. -/
structure StepOk (Inv : S → Prop) (ok : A → Prop) (out : Option A × S) : Prop where
  inv : Inv out.2
  answer : ∀ x ∈ out.1, ok x

namespace StepOk

variable {Inv : S → Prop} {ok : A → Prop} {s : S}

theorem fail (h : Inv s) : StepOk Inv ok (none, s) := ⟨h, by simp⟩

theorem success (h : Inv s) {x : A} (hx : ok x) : StepOk Inv ok (some x, s) :=
  ⟨h, fun y hy => by cases hy; exact hx⟩

theorem map {out : Option A × S} (h : StepOk Inv ok out) (f : A → B) {ok' : B → Prop}
    (hf : ∀ x, ok x → ok' (f x)) : StepOk Inv ok' (out.1.map f, out.2) := by
  refine ⟨h.inv, fun y hy => ?_⟩
  obtain ⟨x, hx, rfl⟩ := Option.map_eq_some_iff.mp hy
  exact hf x (h.answer x hx)

end StepOk

/-- What every call keeps, a sequence of calls keeps, and every answer is `ok`. -/
theorem run_ok {call : S → C → Option A × S} {Inv : S → Prop} {pre : C → Prop} {ok : C → A → Prop}
    (hcall : ∀ s c, Inv s → pre c → StepOk Inv (ok c) (call s c)) (calls : List C) : ∀ s, Inv s →
    (∀ c ∈ calls, pre c) → Inv (run call s calls).2 ∧
      List.Forall₂ (fun c answer => ∀ x ∈ answer, ok c x) calls (run call s calls).1 := by
  induction calls with
  | nil => exact fun s hs _ => ⟨hs, .nil⟩
  | cons c calls ih =>
    intro s hs hcalls
    obtain ⟨hc, hcalls⟩ := List.forall_mem_cons.mp hcalls
    have hstep := hcall s c hs hc
    obtain ⟨hinv, hanswers⟩ := ih _ hstep.inv hcalls
    exact ⟨hinv, .cons hstep.answer hanswers⟩

end Calls
