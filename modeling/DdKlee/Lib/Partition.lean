import Mathlib

/-! Partitions of a set into the members of a list. -/

structure Partitions {α : Type} (parts : List (Set α)) (whole : Set α) : Prop where
  nonempty : ∀ A ∈ parts, A.Nonempty
  disjoint : parts.Pairwise Disjoint
  cover : ∀ x, x ∈ whole ↔ ∃ A ∈ parts, x ∈ A

namespace Partitions

variable {α : Type} {parts : List (Set α)} {whole : Set α} {p : α → Prop}

theorem single (h : whole.Nonempty) : Partitions [whole] whole where
  nonempty := by simpa using h
  disjoint := List.pairwise_singleton _ _
  cover x := by simp

theorem split (hp : {x ∈ whole | p x}.Nonempty) (h : Partitions parts {x ∈ whole | ¬ p x}) :
    Partitions ({x ∈ whole | p x} :: parts) whole where
  nonempty := List.forall_mem_cons.mpr ⟨hp, h.nonempty⟩
  disjoint := by
    refine List.pairwise_cons.mpr ⟨fun A hA => Set.disjoint_left.mpr fun x hx hxA => ?_, h.disjoint⟩
    exact ((h.cover x).mpr ⟨A, hA, hxA⟩).2 hx.2
  cover x := by
    simp only [List.mem_cons, exists_eq_or_imp]
    by_cases hx : p x
    · refine ⟨fun hw => .inl ⟨hw, hx⟩, fun hor => hor.elim And.left fun hA => ?_⟩
      exact ((h.cover x).mpr hA).1
    · rw [← h.cover x]
      exact ⟨fun hw => .inr ⟨hw, hx⟩, fun hor => hor.elim And.left And.left⟩

theorem perm {parts' : List (Set α)} (h : Partitions parts whole) (hp : parts.Perm parts') :
    Partitions parts' whole where
  nonempty A hA := h.nonempty A (hp.mem_iff.mpr hA)
  disjoint := (hp.pairwise_iff fun {_ _} hd => hd.symm).mp h.disjoint
  cover x := (h.cover x).trans (exists_congr fun _ => and_congr_left' hp.mem_iff)

/-- A part is divided further. -/
theorem refine {A : Set α} {subs : List (Set α)} (h : Partitions (A :: parts) whole) (hA : Partitions subs A) :
    Partitions (subs ++ parts) whole where
  nonempty := List.forall_mem_append.mpr ⟨hA.nonempty, (List.forall_mem_cons.mp h.nonempty).2⟩
  disjoint := by
    obtain ⟨hfirst, hrest⟩ := List.pairwise_cons.mp h.disjoint
    refine List.pairwise_append.mpr ⟨hA.disjoint, hrest, fun B hB C hC => ?_⟩
    exact (hfirst C hC).mono_left fun x hx => (hA.cover x).mpr ⟨B, hB, hx⟩
  cover x := by
    rw [h.cover]
    simp only [List.mem_cons, List.mem_append, or_and_right, exists_or, exists_eq_left, hA.cover]

end Partitions
