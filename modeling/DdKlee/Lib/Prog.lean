import Mathlib

/-! Programs that change a state and may fail. -/

theorem some_bind {α β : Type} {a : α} {f : α → Option β} : (some a >>= f) = f a := rfl

theorem bind_eq_some {α β : Type} {x : Option α} {f : α → Option β} {b : β} :
    (x >>= f) = some b ↔ ∃ a, x = some a ∧ f a = some b := Option.bind_eq_some_iff

abbrev Prog (S α : Type) := StateT S Option α

namespace Prog

variable {S α β : Type} {x : Prog S α} {f : α → Prog S β} {s s' : S} {Q Q' : α → S → Prop} {R : β → S → Prop}

/-- The program does not fail, and ends in a value and a state with a property. -/
def Ends (x : Prog S α) (s : S) (Q : α → S → Prop) : Prop := ∃ a s', x s = some (a, s') ∧ Q a s'

theorem Ends.pure {a : α} (h : Q a s) : Ends (pure a) s Q := ⟨a, s, rfl, h⟩

theorem Ends.bind (h : Ends x s fun a s' => Ends (f a) s' R) : Ends (x >>= f) s R := by
  obtain ⟨a, s1, hx, b, s2, hf, hR⟩ := h
  exact ⟨b, s2, Option.bind_eq_some_iff.mpr ⟨(a, s1), hx, hf⟩, hR⟩

theorem Ends.imp (h : Ends x s Q) (himp : ∀ a s', Q a s' → Q' a s') : Ends x s Q' := by
  obtain ⟨a, s', hx, hQ⟩ := h
  exact ⟨a, s', hx, himp a s' hQ⟩

theorem Ends.step {a : α} (h : x s = some (a, s')) (hf : Ends (f a) s' R) : Ends (x >>= f) s R := Ends.bind ⟨a, s', h, hf⟩

theorem bind_eq {a : α} (h : x s = some (a, s')) : (x >>= f) s = f a s' := by
  change Option.bind (x s) _ = _
  rw [h]
  rfl

theorem Ends.andThen (h : Ends x s Q) (hf : ∀ a s', Q a s' → Ends (f a) s' R) : Ends (x >>= f) s R :=
  (h.imp hf).bind

end Prog
