import Mathlib

/-! Finite maps as sets of entries. The keys are in a weak order, and two that are not
comparable count as the same key. -/

section

variable {K : Type} {lt : K → K → Prop} [IsStrictWeakOrder K lt] {a b c : K}

theorem lt_of_lt_of_not_lt (hab : lt a b) (hcb : ¬ lt c b) : lt a c := by
  by_contra hac
  by_cases hca : lt c a
  · exact hcb (trans_of lt hca hab)
  · by_cases hbc : lt b c
    · exact hac (trans_of lt hab hbc)
    · exact (IsStrictWeakOrder.incomp_trans a c b ⟨hac, hca⟩ ⟨hcb, hbc⟩).1 hab

theorem lt_of_not_lt_of_lt (hba : ¬ lt b a) (hbc : lt b c) : lt a c := by
  by_contra hac
  by_cases hca : lt c a
  · exact hba (trans_of lt hbc hca)
  · by_cases hab : lt a b
    · exact hac (trans_of lt hab hbc)
    · exact (IsStrictWeakOrder.incomp_trans b a c ⟨hba, hab⟩ ⟨hac, hca⟩).1 hbc

end

structure EntryMap {K V : Type} (lt : K → K → Prop) (key : V → K) where
  entries : Set V
  finite : entries.Finite
  unique : ∀ a ∈ entries, ∀ b ∈ entries, IncompRel lt (key a) (key b) → a = b

namespace EntryMap

variable {K V : Type} {lt : K → K → Prop} {key : V → K} (m : EntryMap lt key) (k : K) (v : V)

instance : Membership V (EntryMap lt key) := ⟨fun m a => a ∈ m.entries⟩

def empty : EntryMap lt key := ⟨∅, Set.finite_empty, by simp⟩

def filter (p : V → Prop) : EntryMap lt key where
  entries := {a | a ∈ m ∧ p a}
  finite := m.finite.subset fun _ ha => ha.1
  unique a ha b hb := m.unique a ha.1 b hb.1

def remove : EntryMap lt key := m.filter fun a => ¬ IncompRel lt (key a) k

def replace : EntryMap lt key where
  entries := {a | a ∈ m.remove (key v) ∨ a = v}
  finite := ((m.remove (key v)).finite.union (Set.finite_singleton v)).subset fun _ ha => ha
  unique := by
    rintro a (ha | rfl) b (hb | rfl) hab
    · exact m.unique a ha.1 b hb.1 hab
    · exact absurd hab ha.2
    · exact absurd hab.symm hb.2
    · rfl

open Classical in
noncomputable def insert : EntryMap lt key :=
  if ∃ a ∈ m, IncompRel lt (key a) (key v) then m else m.replace v

def IsMin (a : V) : Prop := a ∈ m ∧ ∀ b ∈ m, ¬ lt (key b) (key a)

open Classical in
noncomputable def min? : Option V := if h : ∃ a, m.IsMin a then some h.choose else none

def IsMax (a : V) : Prop := a ∈ m ∧ ∀ b ∈ m, ¬ lt (key a) (key b)

open Classical in
noncomputable def max? : Option V := if h : ∃ a, m.IsMax a then some h.choose else none

def popMin : EntryMap lt key := m.filter fun a => ¬ m.IsMin a

def popMax : EntryMap lt key := m.filter fun a => ¬ m.IsMax a

def IsEntry (a : V) : Prop := a ∈ m ∧ IncompRel lt (key a) k

/-- The entry with the greatest key that is not above a bound. -/
def IsPrevious (a : V) : Prop := (m.filter fun b => ¬ lt k (key b)).IsMax a

noncomputable def size : ℕ := m.entries.ncard

variable {m k v} {a b : V}

@[simp]
theorem not_mem_empty : a ∉ (empty : EntryMap lt key) := fun h => h

theorem mem_remove : a ∈ m.remove k ↔ a ∈ m ∧ ¬ IncompRel lt (key a) k := Iff.rfl

theorem mem_replace : a ∈ m.replace v ↔ a ∈ m ∧ ¬ IncompRel lt (key a) (key v) ∨ a = v := Iff.rfl

theorem IsMin.unique (ha : m.IsMin a) (hb : m.IsMin b) : a = b :=
  m.unique a ha.1 b hb.1 ⟨hb.2 a ha.1, ha.2 b hb.1⟩

theorem IsMax.unique (ha : m.IsMax a) (hb : m.IsMax b) : a = b :=
  m.unique a ha.1 b hb.1 ⟨ha.2 b hb.1, hb.2 a ha.1⟩

theorem IsMin.min?_eq (ha : m.IsMin a) : m.min? = some a := by
  have h : ∃ a, m.IsMin a := ⟨a, ha⟩
  rw [min?, dif_pos h, h.choose_spec.unique ha]

theorem IsMax.max?_eq (ha : m.IsMax a) : m.max? = some a := by
  have h : ∃ a, m.IsMax a := ⟨a, ha⟩
  rw [max?, dif_pos h, h.choose_spec.unique ha]

end EntryMap
