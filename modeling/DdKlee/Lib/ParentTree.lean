import Mathlib

/-! Trees of numbered nodes in which the parent of a node has a smaller number, and sums over
their subtrees. -/

namespace ParentTree

variable {parent : ℕ → Option ℕ} {a b d p q n : ℕ}

/-- The first node is the second, or one of its ancestors. -/
def Above (parent : ℕ → Option ℕ) (a q : ℕ) : Prop := Relation.ReflTransGen (fun q p => parent q = some p) q a

theorem Above.refl : Above parent a a := Relation.ReflTransGen.refl

theorem above_iff_parent : Above parent a q ↔ q = a ∨ ∃ p, parent q = some p ∧ Above parent a p :=
  Relation.ReflTransGen.cases_head_iff

theorem above_iff_child : Above parent a q ↔ a = q ∨ ∃ d, parent d = some a ∧ Above parent d q := by
  rw [Above, Relation.ReflTransGen.cases_tail_iff]
  refine or_congr Iff.rfl (exists_congr fun d => ?_)
  exact and_comm

theorem Above.step (hp : parent q = some p) (h : Above parent a p) : Above parent a q :=
  above_iff_parent.mpr (.inr ⟨p, hp, h⟩)

theorem Above.total (h : Above parent a q) (h' : Above parent b q) : Above parent a b ∨ Above parent b a :=
  (Relation.ReflTransGen.total_of_right_unique (fun _ _ _ h h' => Option.some.inj (h.symm.trans h')) h h').symm

section

variable (hlt : ∀ {q p}, parent q = some p → p < q)

include hlt

theorem Above.le (h : Above parent a q) : a ≤ q := by
  induction h with
  | refl => exact le_rfl
  | tail _ hp ih => exact (hlt hp).le.trans ih

theorem Above.congr {parent' : ℕ → Option ℕ} (h : Above parent a q) (heq : ∀ i ≤ q, parent' i = parent i) :
    Above parent' a q := by
  induction h using Relation.ReflTransGen.head_induction_on with
  | refl => exact .refl
  | @head q p hp _ ih => exact (ih fun i hi => heq i (hi.trans (hlt hp).le)).step ((heq q le_rfl).trans hp)

theorem children_disjoint (hb : parent b = some p) (hd : parent d = some p) (hbq : Above parent b q)
    (hdq : Above parent d q) : b = d := by
  have key : ∀ {b d}, parent b = some p → parent d = some p → Above parent b d → b = d := by
    intro b d hb hd h
    rcases above_iff_parent.mp h with rfl | ⟨c, hc, hbc⟩
    · rfl
    · obtain rfl : p = c := Option.some.inj (hd.symm.trans hc)
      exact absurd (hbc.le hlt) (not_le.mpr (hlt hb))
  rcases hbq.total hdq with h | h
  · exact key hb hd h
  · exact (key hd hb h).symm

end

section

open Classical Finset

variable {M : Type} [AddCommMonoid M] {own : ℕ → M}

noncomputable def subtree (parent : ℕ → Option ℕ) (own : ℕ → M) (n a : ℕ) : M :=
  ∑ q ∈ range n with Above parent a q, own q

theorem sum_subtree (s : Finset ℕ) (hs : ∀ a ∈ s, ∀ b ∈ s, ∀ q, Above parent a q → Above parent b q → a = b) :
    ∑ a ∈ s, subtree parent own n a = ∑ q ∈ range n with ∃ a ∈ s, Above parent a q, own q := by
  have hunion : (range n).filter (fun q => ∃ a ∈ s, Above parent a q) =
      s.biUnion fun a => (range n).filter (Above parent a) := by
    ext q
    simp only [mem_filter, mem_biUnion]
    exact ⟨fun ⟨hq, a, ha, h⟩ => ⟨a, ha, hq, h⟩, fun ⟨a, ha, hq, h⟩ => ⟨hq, a, ha, h⟩⟩
  rw [hunion, sum_biUnion]
  · rfl
  · intro a ha b hb hne
    refine disjoint_filter.mpr fun q _ h h' => hne (hs a ha b hb q h h')

theorem subtree_eq (hlt : ∀ {q p}, parent q = some p → p < q) (ha : a < n) :
    subtree parent own n a = own a + ∑ d ∈ range n with parent d = some a, subtree parent own n d := by
  have hchildren : ∑ d ∈ range n with parent d = some a, subtree parent own n d = _ :=
    sum_subtree _ fun b hb d hd q => children_disjoint hlt (mem_filter.mp hb).2 (mem_filter.mp hd).2
  have hsplit : (range n).filter (Above parent a) =
      insert a ((range n).filter fun q => ∃ d ∈ (range n).filter fun d => parent d = some a, Above parent d q) := by
    ext q
    simp only [mem_insert, mem_filter, mem_range]
    constructor
    · rintro ⟨hq, h⟩
      rcases above_iff_child.mp h with rfl | ⟨d, hd, h⟩
      · exact .inl rfl
      · exact .inr ⟨hq, d, ⟨(h.le hlt).trans_lt hq, hd⟩, h⟩
    · rintro (rfl | ⟨hq, d, ⟨-, hd⟩, h⟩)
      · exact ⟨ha, .refl⟩
      · exact ⟨hq, above_iff_child.mpr (.inr ⟨d, hd, h⟩)⟩
  rw [hchildren, subtree, hsplit, sum_insert]
  intro hmem
  obtain ⟨-, d, hd, h⟩ := mem_filter.mp hmem
  exact absurd (h.le hlt) (not_le.mpr (hlt (mem_filter.mp hd).2))

end

section

variable {K : Type} {key : ℕ → K} {l l' : List K}

inductive Path (parent : ℕ → Option ℕ) (key : ℕ → K) : ℕ → List K → Prop
  | root {q : ℕ} (h : parent q = none) : Path parent key q [key q]
  | step {q p : ℕ} {l : List K} (h : parent q = some p) (hl : Path parent key p l) : Path parent key q (key q :: l)

theorem exists_path (hlt : ∀ {q p}, parent q = some p → p < q) (key : ℕ → K) (q : ℕ) : ∃ l, Path parent key q l := by
  induction q using Nat.strongRecOn with
  | ind q ih =>
    cases hp : parent q with
    | none => exact ⟨_, .root hp⟩
    | some p =>
      obtain ⟨l, hl⟩ := ih p (hlt hp)
      exact ⟨_, .step hp hl⟩

theorem Path.mem (h : Path parent key q l) {k : K} (hk : k ∈ l) : ∃ a, Above parent a q ∧ key a = k := by
  induction h with
  | root => exact ⟨_, .refl, (List.mem_singleton.mp hk).symm⟩
  | step hp _ ih =>
    rcases List.mem_cons.mp hk with rfl | hk
    · exact ⟨_, .refl, rfl⟩
    · obtain ⟨a, ha, hkey⟩ := ih hk
      exact ⟨a, ha.step hp, hkey⟩

section

variable (hlt : ∀ {q p}, parent q = some p → p < q)

include hlt

theorem Path.nodup (hkey : ∀ {a q}, Above parent a q → q < n → key a = key q → a = q) (h : Path parent key q l)
    (hq : q < n) : l.Nodup := by
  induction h with
  | root => exact List.nodup_singleton _
  | step hp hl ih =>
    refine List.nodup_cons.mpr ⟨fun hmem => ?_, ih ((hlt hp).trans hq)⟩
    obtain ⟨a, ha, hak⟩ := hl.mem hmem
    have heq := hkey (ha.step hp) hq hak
    exact absurd (ha.le hlt) (not_le.mpr (heq ▸ hlt hp))

variable (hroot : ∀ {q q'}, q < n → q' < n → parent q = none → parent q' = none → q = q')
  (hsibling : ∀ {q q' p}, parent q = some p → parent q' = some p → key q = key q' → q = q')

include hroot hsibling

theorem Path.unique (h : Path parent key q l) (h' : Path parent key p l') (hq : q < n) (hp : p < n) (heq : l = l') :
    q = p := by
  induction h generalizing p l' with
  | root hnone =>
    cases h' with
    | root hnone' => exact hroot hq hp hnone hnone'
    | step _ hl =>
      cases (List.cons.inj heq).2
      cases hl
  | step hparent hl ih =>
    cases h' with
    | root =>
      cases (List.cons.inj heq).2
      cases hl
    | step hparent' hl' =>
      obtain ⟨hkey, htail⟩ := List.cons.inj heq
      obtain rfl := ih hl' ((hlt hparent).trans hq) ((hlt hparent').trans hp) htail
      exact hsibling hparent hparent' hkey

open Classical in
theorem card_le (hkey : ∀ {a q}, Above parent a q → q < n → key a = key q → a = q) (s : Finset K)
    (hs : ∀ q < n, key q ∈ s) : n ≤ (s.powerset.biUnion fun t => t.val.lists.toFinset).card := by
  choose path hpath using exists_path hlt key
  have hmem : ∀ q ∈ Finset.range n, path q ∈ s.powerset.biUnion fun t => t.val.lists.toFinset := by
    intro q hq
    have hnodup := (hpath q).nodup hlt hkey (Finset.mem_range.mp hq)
    refine Finset.mem_biUnion.mpr ⟨(path q).toFinset, Finset.mem_powerset.mpr fun k hk => ?_, ?_⟩
    · obtain ⟨a, ha, rfl⟩ := (hpath q).mem (List.mem_toFinset.mp hk)
      exact hs a ((ha.le hlt).trans_lt (Finset.mem_range.mp hq))
    · rw [Multiset.mem_toFinset, Multiset.mem_lists_iff, List.toFinset_val, hnodup.dedup]
      rfl
  have hcard := Finset.card_le_card_of_injOn path hmem fun q hq q' hq' heq =>
    (hpath q).unique hlt hroot hsibling (hpath q') (Finset.mem_range.mp hq) (Finset.mem_range.mp hq') heq
  rwa [Finset.card_range] at hcard

end

end

end ParentTree
