import Mathlib

/-! Objects that are created and deleted, with numbers as their identities. A number
is never given out twice. -/

structure Store (α : Type) where
  cells : List (Option α) := []

namespace Store

variable {α : Type} (s : Store α) (i : ℕ) (a : α)

def get : Option α := s.cells[i]?.join

def alloc : ℕ × Store α := (s.cells.length, ⟨s.cells ++ [some a]⟩)

def set : Store α := ⟨s.cells.set i (some a)⟩

def modify (f : α → α) : Store α := ⟨s.cells.modify i (Option.map f)⟩

def free : Store α := ⟨s.cells.set i none⟩

variable {s i a} {j : ℕ} {b : α}

theorem lt_of_get (h : s.get i = some a) : i < s.cells.length := by
  by_contra hge
  rw [get, List.getElem?_eq_none (Nat.le_of_not_lt hge)] at h
  cases h

theorem get_alloc_self : (s.alloc a).2.get (s.alloc a).1 = some a := by
  simp [get, alloc]

theorem get_alloc_fst : s.get (s.alloc a).1 = none := by
  rw [get, alloc, List.getElem?_eq_none (Nat.le_refl _)]
  rfl

theorem ne_alloc (h : s.get i = some b) : i ≠ (s.alloc a).1 := Nat.ne_of_lt (lt_of_get h)

theorem get_alloc (h : i ≠ (s.alloc a).1) : (s.alloc a).2.get i = s.get i := by
  unfold get alloc at *
  rcases Nat.lt_or_ge i s.cells.length with hlt | hge
  · rw [List.getElem?_append_left hlt]
  · have hlt : s.cells.length < i := Nat.lt_of_le_of_ne hge (Ne.symm h)
    rw [List.getElem?_append_right hge, List.getElem?_eq_none hge, List.getElem?_eq_none]
    exact Nat.le_sub_of_add_le (by rw [Nat.add_comm]; exact hlt)

theorem get_set_self (h : s.get i = some b) : (s.set i a).get i = some a := by
  rw [get, set, List.getElem?_set_self (lt_of_get h)]
  rfl

theorem get_set_ne (h : j ≠ i) : (s.set i a).get j = s.get j := by
  rw [get, set, List.getElem?_set_ne (Ne.symm h)]
  rfl

theorem get_modify {f : α → α} : (s.modify i f).get j = if j = i then (s.get i).map f else s.get j := by
  simp only [get, modify, List.getElem?_modify, eq_comm (a := i)]
  split
  · rename_i h
    subst h
    cases s.cells[j]? with
    | none => rfl
    | some c => rfl
  · simp

theorem get_free_self : (s.free i).get i = none := by
  unfold get free
  rw [List.getElem?_set, if_pos rfl]
  split_ifs <;> rfl

theorem get_free_ne (h : j ≠ i) : (s.free i).get j = s.get j := by
  rw [get, free, List.getElem?_set_ne (Ne.symm h)]
  rfl

def sum (s : Store α) (f : α → ℕ) : ℕ := (s.cells.map fun c => c.elim 0 f).sum

variable {f : α → ℕ}

theorem get_eq_some : s.get i = some a ↔ s.cells[i]? = some (some a) := by
  rw [get, Option.join_eq_some_iff]

theorem sum_alloc : (s.alloc a).2.sum f = s.sum f + f a := by simp [sum, alloc]

theorem sum_map_set {β : Type} {g : β → ℕ} {l : List β} {b c : β} (h : l[i]? = some b) :
    ((l.set i c).map g).sum + g b = (l.map g).sum + g c := by
  induction l generalizing i with
  | nil => simp at h
  | cons d l ih =>
    cases i with
    | zero =>
      obtain rfl : d = b := by simpa using h
      simp only [List.set_cons_zero, List.map_cons, List.sum_cons]
      omega
    | succ i =>
      have hl := ih (i := i) (by simpa using h)
      simp only [List.set_cons_succ, List.map_cons, List.sum_cons]
      omega

theorem sum_set (h : s.get i = some b) : (s.set i a).sum f + f b = s.sum f + f a :=
  sum_map_set (get_eq_some.mp h)

theorem sum_free (h : s.get i = some b) : (s.free i).sum f + f b = s.sum f :=
  sum_map_set (get_eq_some.mp h)

theorem le_sum (h : s.get i = some a) : f a ≤ s.sum f := by
  rw [← sum_free h]
  exact Nat.le_add_left _ _

theorem sum_eq_zero (h : ∀ i a, s.get i = some a → f a = 0) : s.sum f = 0 := by
  refine List.sum_eq_zero fun n hn => ?_
  obtain ⟨c, hc, rfl⟩ := List.mem_map.mp hn
  cases c with
  | none => rfl
  | some a =>
    obtain ⟨i, hi⟩ := List.mem_iff_getElem?.mp hc
    exact h i a (get_eq_some.mpr hi)

def objects (s : Store α) : Multiset α := s.cells.reduceOption

theorem mem_objects (h : s.get i = some a) : a ∈ s.objects := by
  rw [objects, Multiset.mem_coe, List.reduceOption_mem_iff]
  exact List.mem_of_getElem? (get_eq_some.mp h)

theorem objects_alloc : (s.alloc a).2.objects = a ::ₘ s.objects := by
  rw [objects, alloc, List.reduceOption_append]
  exact Multiset.coe_add s.cells.reduceOption [a] ▸ Multiset.add_comm _ _

theorem set_split {β : Type} {l : List β} {c : β} (h : l[i]? = some c) :
    ∃ l1 l2, l = l1 ++ c :: l2 ∧ ∀ d, l.set i d = l1 ++ d :: l2 := by
  induction l generalizing i with
  | nil => simp at h
  | cons b l ih =>
    cases i with
    | zero =>
      obtain rfl : b = c := by simpa using h
      exact ⟨[], l, rfl, fun _ => rfl⟩
    | succ i =>
      obtain ⟨l1, l2, rfl, hset⟩ := ih (i := i) (by simpa using h)
      exact ⟨b :: l1, l2, rfl, fun d => by rw [List.set_cons_succ, hset]; rfl⟩

theorem objects_split {l1 l2 : List (Option α)} :
    ((l1 ++ some a :: l2).reduceOption : Multiset α) = a ::ₘ ((l1 ++ none :: l2).reduceOption : Multiset α) := by
  simp [List.reduceOption_append, Multiset.cons_coe]

theorem objects_free (h : s.get i = some b) : s.objects = b ::ₘ (s.free i).objects := by
  obtain ⟨l1, l2, hcells, hset⟩ := set_split (get_eq_some.mp h)
  rw [objects, objects, free, hset, hcells, objects_split]

theorem objects_set (h : s.get i = some b) : (s.set i a).objects = a ::ₘ (s.free i).objects := by
  obtain ⟨l1, l2, hcells, hset⟩ := set_split (get_eq_some.mp h)
  rw [objects, objects, set, free, hset, hset, objects_split]

section

variable {β : Type} (g : α → β)

def map (s : Store α) : Store β := ⟨s.cells.map (Option.map g)⟩

theorem get_map : (s.map g).get i = (s.get i).map g := by
  simp only [get, map, List.getElem?_map]
  cases s.cells[i]? with
  | none => rfl
  | some c => rfl

theorem map_alloc : ((s.alloc a).2).map g = ((s.map g).alloc (g a)).2 := by simp [map, alloc]

theorem map_set : (s.set i a).map g = (s.map g).set i (g a) := by simp [map, set, List.map_set]

theorem map_free : (s.free i).map g = (s.map g).free i := by simp [map, free, List.map_set]

end

end Store
