import Mathlib

/-! Ordered maps with numbers as keys: lists of entries whose keys increase. -/

structure OrderedMap (α : Type) (key : α → ℕ) where
  entries : List α := []
  sorted : entries.Pairwise fun a b => key a < key b := by simp

namespace OrderedMap

variable {α : Type} {key : α → ℕ} (m : OrderedMap α key) (k : ℕ) (v : α)

def empty : OrderedMap α key := {}

instance : Membership α (OrderedMap α key) := ⟨fun m a => a ∈ m.entries⟩

/-- The entries with keys up to a bound, and those above it. -/
def upTo : List α := m.entries.filter fun a => key a ≤ k
def above : List α := m.entries.filter fun a => k < key a

def lookup : Option α := m.entries.find? fun a => key a = k

def lookupPrevious : Option α := (m.upTo k).getLast?

def replace : OrderedMap α key where
  entries := (m.entries.filter fun a => key a < key v) ++ v :: m.entries.filter fun a => key v < key a
  sorted := by
    rw [List.pairwise_append, List.pairwise_cons]
    refine ⟨m.sorted.filter _, ⟨fun b hb => by simpa using (List.mem_filter.mp hb).2, m.sorted.filter _⟩, ?_⟩
    intro a ha b hb
    have ha' : key a < key v := by simpa using (List.mem_filter.mp ha).2
    rcases List.mem_cons.mp hb with rfl | hb
    · exact ha'
    · exact Nat.lt_trans ha' (by simpa using (List.mem_filter.mp hb).2)

def remove : OrderedMap α key where
  entries := m.entries.filter fun a => key a ≠ k
  sorted := m.sorted.filter _

theorem mem_def {a : α} : a ∈ m ↔ a ∈ m.entries := Iff.rfl

theorem key_inj {a b : α} (ha : a ∈ m) (hb : b ∈ m) (h : key a = key b) : a = b := by
  obtain ⟨i, hi, rfl⟩ := List.getElem_of_mem ha
  obtain ⟨j, hj, rfl⟩ := List.getElem_of_mem hb
  have hsorted := List.pairwise_iff_getElem.mp m.sorted
  rcases Nat.lt_trichotomy i j with hlt | rfl | hlt
  · exact absurd h (Nat.ne_of_lt (hsorted i j hi hj hlt))
  · rfl
  · exact absurd h.symm (Nat.ne_of_lt (hsorted j i hj hi hlt))

variable {m k v}

theorem mem_replace {a : α} : a ∈ m.replace v ↔ a ∈ m ∧ key a ≠ key v ∨ a = v := by
  simp only [mem_def, replace, List.mem_append, List.mem_cons, List.mem_filter, decide_eq_true_eq]
  constructor
  · rintro (⟨ha, hlt⟩ | rfl | ⟨ha, hlt⟩)
    · exact .inl ⟨ha, by omega⟩
    · exact .inr rfl
    · exact .inl ⟨ha, by omega⟩
  · rintro (⟨ha, hne⟩ | rfl)
    · rcases Nat.lt_or_gt_of_ne hne with hlt | hlt
      · exact .inl ⟨ha, hlt⟩
      · exact .inr (.inr ⟨ha, hlt⟩)
    · exact .inr (.inl rfl)

theorem mem_remove {a : α} : a ∈ m.remove k ↔ a ∈ m ∧ key a ≠ k := by
  simp [mem_def, remove]

theorem mem_of_lookup {a : α} (h : m.lookup k = some a) : a ∈ m := List.mem_of_find?_eq_some h

theorem lookup_eq_some {a : α} (ha : a ∈ m) : m.lookup (key a) = some a := by
  obtain ⟨b, hb⟩ : ∃ b, m.lookup (key a) = some b :=
    Option.isSome_iff_exists.mp (List.find?_isSome.mpr ⟨a, ha, by simp⟩)
  have hkey : key b = key a := by simpa using List.find?_some hb
  rw [hb, m.key_inj (mem_of_lookup hb) ha hkey]

theorem key_of_lookup {a : α} (h : m.lookup k = some a) : key a = k := by simpa using List.find?_some h

theorem lookup_replace_self : (m.replace v).lookup (key v) = some v := lookup_eq_some (mem_replace.mpr (.inr rfl))

theorem lookup_replace_ne (h : k ≠ key v) : (m.replace v).lookup k = m.lookup k := by
  cases hk : m.lookup k with
  | some a =>
    have hkey := key_of_lookup hk
    rw [← hkey]
    exact lookup_eq_some (mem_replace.mpr (.inl ⟨mem_of_lookup hk, by rwa [hkey]⟩))
  | none =>
    cases hk' : (m.replace v).lookup k with
    | none => rfl
    | some a =>
      have hkey := key_of_lookup hk'
      rcases mem_replace.mp (mem_of_lookup hk') with ⟨ha, -⟩ | rfl
      · rw [← hkey, lookup_eq_some ha] at hk
        cases hk
      · exact absurd hkey.symm h

theorem mem_upTo {a : α} : a ∈ m.upTo k ↔ a ∈ m ∧ key a ≤ k := by simp [upTo, mem_def]

theorem mem_above {a : α} : a ∈ m.above k ↔ a ∈ m ∧ k < key a := by simp [above, mem_def]

theorem sorted_upTo : (m.upTo k).Pairwise fun a b => key a < key b := m.sorted.filter _

theorem sorted_above : (m.above k).Pairwise fun a b => key a < key b := m.sorted.filter _

theorem le_of_lookupPrevious {a : α} (h : m.lookupPrevious k = some a) :
    a ∈ m ∧ key a ≤ k ∧ ∀ b ∈ m, key b ≤ k → key b ≤ key a := by
  obtain ⟨init, hinit⟩ := List.getLast?_eq_some_iff.mp h
  have hmem : a ∈ m.upTo k := by
    rw [hinit]
    exact List.mem_append_right _ List.mem_cons_self
  refine ⟨(mem_upTo.mp hmem).1, (mem_upTo.mp hmem).2, fun b hb hle => ?_⟩
  have hsorted : (init ++ [a]).Pairwise fun a b => key a < key b := hinit ▸ sorted_upTo
  have hb' : b ∈ init ++ [a] := hinit ▸ mem_upTo.mpr ⟨hb, hle⟩
  rcases List.mem_append.mp hb' with hb' | hb'
  · exact Nat.le_of_lt ((List.pairwise_append.mp hsorted).2.2 b hb' a List.mem_cons_self)
  · exact List.mem_singleton.mp hb' ▸ Nat.le_refl _

theorem lookupPrevious_eq_some {a : α} (ha : a ∈ m) (hle : key a ≤ k)
    (hmax : ∀ b ∈ m, key b ≤ k → key b ≤ key a) : m.lookupPrevious k = some a := by
  have hne : m.upTo k ≠ [] := List.ne_nil_of_mem (mem_upTo.mpr ⟨ha, hle⟩)
  have hlast : m.lookupPrevious k = some ((m.upTo k).getLast hne) := List.getLast?_eq_some_getLast hne
  obtain ⟨hmem, hle', hmax'⟩ := le_of_lookupPrevious hlast
  rw [hlast, m.key_inj hmem ha (Nat.le_antisymm (hmax _ hmem hle') (hmax' a ha hle))]

end OrderedMap
