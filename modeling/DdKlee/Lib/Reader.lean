import Mathlib

/-! Readers of sequences, and the words they read. A word is read whatever follows it,
and nothing that is cut off before its end. -/

/-- A reader takes symbols from the front of a sequence, or fails. -/
abbrev Reader (σ α : Type) := StateT (List σ) Option α

namespace Reader

variable {σ α β : Type}

def take (n : ℕ) : Reader σ (List.Vector σ n) := fun s =>
  if h : n ≤ s.length then some (⟨s.take n, List.length_take_of_le h⟩, s.drop n) else none

def many (r : Reader σ α) : (n : ℕ) → Reader σ (List.Vector α n)
  | 0 => pure .nil
  | n + 1 => do
      let a ← r
      let as ← many r n
      pure (a ::ᵥ as)

structure Reads (r : Reader σ α) (word : List σ) (a : α) : Prop where
  append : ∀ rest, r (word ++ rest) = some (a, rest)
  short : ∀ p, p <+: word → p ≠ word → r p = none

variable {r : Reader σ α} {f : α → Reader σ β} {w w' : List σ} {a : α} {b : β}

theorem Reads.pure (a : α) : Reads (pure a : Reader σ α) [] a where
  append _ := rfl
  short _ hp hne := absurd (List.prefix_nil.mp hp) hne

theorem bind_apply (s : List σ) : (r >>= f) s = (r s).bind fun (a, s) => f a s := by
  change (r s >>= _) = _
  cases r s <;> rfl

theorem Reads.bind (h : Reads r w a) (h' : Reads (f a) w' b) : Reads (r >>= f) (w ++ w') b where
  append rest := by
    rw [bind_apply, List.append_assoc, h.append]
    exact h'.append rest
  short p hp hne := by
    rw [bind_apply]
    rcases List.prefix_or_prefix_of_prefix hp (List.prefix_append w w') with hpw | hwp
    · by_cases heq : p = w
      · -- the first word is there, and nothing of the second
        subst heq
        have hnil : [] ≠ w' := by
          rintro rfl
          exact hne (List.append_nil p).symm
        have hrun := h.append []
        rw [List.append_nil] at hrun
        rw [hrun]
        exact h'.short [] List.nil_prefix hnil
      · rw [h.short p hpw heq]
        rfl
    · obtain ⟨q, rfl⟩ := hwp
      rw [h.append q]
      exact h'.short q ((List.prefix_append_right_inj w).mp hp) fun heq => hne (by rw [heq])

theorem Reads.map (h : Reads r w a) (g : α → β) : Reads (r >>= fun a => Pure.pure (g a)) w (g a) := by
  have hbind := h.bind (f := fun a => Pure.pure (g a)) (.pure (g a))
  rwa [List.append_nil] at hbind

theorem Reads.take {n : ℕ} (v : List.Vector σ n) : Reads (take n) v.toList v where
  append rest := by
    obtain ⟨w, rfl⟩ := v
    simp [Reader.take]
  short p hp hne := by
    refine dif_neg fun hle => hne ?_
    rw [← v.toList_length] at hle
    exact hp.eq_of_length (Nat.le_antisymm hp.length_le hle)

theorem Reads.many {enc : α → List σ} {n : ℕ} (v : List.Vector α n) (h : ∀ a ∈ v.toList, Reads r (enc a) a) :
    Reads (many r n) (v.toList.flatMap enc) v := by
  obtain ⟨as, rfl⟩ := v
  change ∀ a ∈ as, _ at h
  change Reads _ (as.flatMap enc) _
  induction as with
  | nil => exact .pure _
  | cons a as ih =>
    obtain ⟨ha, has⟩ := List.forall_mem_cons.mp h
    rw [List.flatMap_cons]
    exact ha.bind ((ih has).map _)

theorem Reads.run (h : Reads r w a) : r w = some (a, []) := by
  have hrun := h.append []
  rwa [List.append_nil] at hrun

def Rejects (r : Reader σ α) (word : List σ) : Prop := ∀ rest, r (word ++ rest) = none

theorem Rejects.bind (h : Rejects r w) (w' : List σ) : Rejects (r >>= f) (w ++ w') := fun rest => by
  rw [bind_apply, List.append_assoc, h]
  rfl

theorem Reads.bind_rejects (h : Reads r w a) (h' : Rejects (f a) w') : Rejects (r >>= f) (w ++ w') := fun rest => by
  rw [bind_apply, List.append_assoc, h.append]
  exact h' rest

theorem Reads.not_rejects (h : Reads r w a) : ¬ Rejects r w := fun h' => by
  cases (h.append []).symm.trans (h' [])

theorem Rejects.many {enc : α → List σ} {as : List α} {n : ℕ} (hn : as.length = n)
    (h : ∀ a ∈ as, Reads r (enc a) a ∨ Rejects r (enc a)) (hbad : ∃ a ∈ as, Rejects r (enc a)) :
    Rejects (many r n) (as.flatMap enc) := by
  subst hn
  induction as with
  | nil =>
    obtain ⟨a, ha, -⟩ := hbad
    cases ha
  | cons a as ih =>
    obtain ⟨ha, has⟩ := List.forall_mem_cons.mp h
    rw [List.flatMap_cons]
    rcases ha with ha | ha
    · have hrest : ∃ b ∈ as, Rejects r (enc b) := by
        obtain ⟨b, hb, hbad⟩ := hbad
        rcases List.mem_cons.mp hb with rfl | hb
        · exact (ha.not_rejects hbad).elim
        · exact ⟨b, hb, hbad⟩
      refine ha.bind_rejects ?_
      rw [← List.append_nil (as.flatMap enc)]
      exact (ih has hrest).bind []
    · exact ha.bind _

theorem Rejects.run (h : Rejects r w) : r w = none := by
  have hrun := h []
  rwa [List.append_nil] at hrun

end Reader
