import DdKlee.Spec.AddressSpace

/-! Copy on write isolates address spaces. A copy gets the epoch that its source
moves on to, which no object has seen yet. So an object that two spaces refer to
is of an older epoch than both, and a space that writes to it makes a copy first. -/

namespace Klee.AddressSpaces

/-- The spaces after some number of copies, before the epochs wrap. -/
structure Inv (copies : ℕ) (s : AddressSpaces) : Prop where
  key : ∀ as ∈ s.spaces, 1 ≤ as.cowKey ∧ as.cowKey ≤ copies + 1
  bound : ∀ as ∈ s.spaces, ∀ op ∈ as.objects, ∃ os, s.heap[op.2]? = some os ∧ os.copyOnWriteOwner ≤ as.cowKey
  shared : ∀ (i j : ℕ) as bs, s.spaces[i]? = some as → s.spaces[j]? = some bs → i ≠ j →
    ∀ op ∈ as.objects, ∀ op' ∈ bs.objects, op.2 = op'.2 → ∀ os, s.heap[op.2]? = some os →
      os.copyOnWriteOwner < as.cowKey

variable {s s' : AddressSpaces} {copies : ℕ}

theorem inv_init : Inv 0 {} where
  key as has := by
    obtain rfl := List.mem_singleton.mp has
    decide
  bound as has op hop := by
    obtain rfl := List.mem_singleton.mp has
    cases hop
  shared i j as bs hi hj hij op hop := by
    obtain rfl := List.mem_singleton.mp (List.mem_of_getElem? hi)
    cases hop

/-- One space and the heap change, such that the space refers to new object states
or to ones that it referred to before, and the others to object states that stay. -/
structure Changes (s s' : AddressSpaces) (space : ℕ) (as as' : AddressSpace) : Prop where
  old : s.spaces[space]? = some as
  spaces : s'.spaces = s.spaces.set space as'
  key : as'.cowKey = as.cowKey
  objects : ∀ op ∈ as'.objects, op ∈ as.objects ∨ s.heap.length ≤ op.2
  bound : ∀ op ∈ as'.objects, ∃ os, s'.heap[op.2]? = some os ∧ os.copyOnWriteOwner ≤ as.cowKey
  kept : ∀ p os, s.heap[p]? = some os → s'.heap[p]? = some os ∨ os.copyOnWriteOwner = as.cowKey ∧
    (∃ op ∈ as.objects, op.2 = p) ∧ ∃ os', s'.heap[p]? = some os' ∧ os'.copyOnWriteOwner = as.cowKey

variable {space : ℕ} {as as' : AddressSpace}

/-- What another space refers to stays: if it is owned by the space that changes,
the two would share it. -/
theorem Changes.kept_of_ne (h : Inv copies s) (hc : Changes s s' space as as') {j : ℕ} {bs : AddressSpace}
    (hj : s.spaces[j]? = some bs) (hne : j ≠ space) {op : MemoryObject × ℕ} (hop : op ∈ bs.objects) :
    s'.heap[op.2]? = s.heap[op.2]? := by
  obtain ⟨os, hos, -⟩ := h.bound bs (List.mem_of_getElem? hj) op hop
  rcases hc.kept op.2 os hos with hkept | ⟨hown, ⟨op', hop', heq⟩, -⟩
  · rw [hkept, hos]
  · have hlt := h.shared space j as bs hc.old hj (Ne.symm hne) op' hop' op hop heq os (heq ▸ hos)
    omega

theorem Changes.contents (h : Inv copies s) (hc : Changes s s' space as as') {j : ℕ} (hne : j ≠ space) :
    s'.contents j = s.contents j := by
  unfold AddressSpaces.contents
  rw [hc.spaces, List.getElem?_set_ne (Ne.symm hne)]
  cases hj : s.spaces[j]? with
  | none => rfl
  | some bs =>
    rw [Option.map_some, Option.map_some]
    congr 1
    exact List.map_congr_left fun op hop => congrArg (Prod.mk op.1) (hc.kept_of_ne h hj hne hop)

theorem Changes.inv (h : Inv copies s) (hc : Changes s s' space as as') : Inv copies s' := by
  have has : as ∈ s.spaces := List.mem_of_getElem? hc.old
  have hget : ∀ {j bs}, s'.spaces[j]? = some bs → j = space ∧ bs = as' ∨ j ≠ space ∧ s.spaces[j]? = some bs := by
    intro j bs hj
    rw [hc.spaces] at hj
    by_cases hne : j = space
    · subst hne
      rw [List.getElem?_set_self (List.getElem?_eq_some_iff.mp hc.old).1] at hj
      exact .inl ⟨rfl, (Option.some.inj hj).symm⟩
    · rw [List.getElem?_set_ne (Ne.symm hne)] at hj
      exact .inr ⟨hne, hj⟩
  -- the changed space refers to what it did before, or to what the others cannot know
  have hold : ∀ {j : ℕ} {bs : AddressSpace}, s.spaces[j]? = some bs → ∀ op ∈ as'.objects, ∀ op' ∈ bs.objects, op.2 = op'.2 →
      op ∈ as.objects := by
    intro j bs hj op hop op' hop' heq
    obtain ⟨os, hos, -⟩ := h.bound bs (List.mem_of_getElem? hj) op' hop'
    have hlt := (List.getElem?_eq_some_iff.mp hos).1
    exact (hc.objects op hop).resolve_right (by omega)
  refine ⟨fun bs hbs => ?_, fun bs hbs op hop => ?_, fun i j bs cs hi hj hij op hop op' hop' heq os hos => ?_⟩
  · obtain ⟨j, hlt, rfl⟩ := List.getElem_of_mem hbs
    rcases hget (List.getElem?_eq_getElem hlt) with ⟨-, heq⟩ | ⟨-, hj⟩
    · rw [heq, hc.key]
      exact h.key as has
    · exact h.key _ (List.mem_of_getElem? hj)
  · obtain ⟨j, hlt, rfl⟩ := List.getElem_of_mem hbs
    rcases hget (List.getElem?_eq_getElem hlt) with ⟨-, heq⟩ | ⟨hne, hj⟩
    · rw [heq, hc.key]
      exact hc.bound op (heq ▸ hop)
    · obtain ⟨os, hos, hle⟩ := h.bound _ (List.mem_of_getElem? hj) op hop
      exact ⟨os, (hc.kept_of_ne h hj hne hop).trans hos, hle⟩
  · rcases hget hi with ⟨rfl, rfl⟩ | ⟨hi', hbs⟩
    · obtain ⟨-, hcs⟩ := (hget hj).resolve_left fun hj => hij hj.1.symm
      have hop1 := hold hcs op hop op' hop' heq
      rw [hc.key]
      refine h.shared i j as cs hc.old hcs hij op hop1 op' hop' heq os ?_
      rw [heq] at hos ⊢
      rwa [← hc.kept_of_ne h hcs (Ne.symm hij) hop']
    · have hos' : s.heap[op.2]? = some os := by rwa [← hc.kept_of_ne h hbs hi' hop]
      rcases hget hj with ⟨rfl, rfl⟩ | ⟨-, hcs⟩
      · exact h.shared i j bs as hbs hc.old hij op hop op' (hold hbs op' hop' op hop heq.symm) heq os hos'
      · exact h.shared i j bs cs hbs hcs hij op hop op' hop' heq os hos'

theorem changes_new (h : Inv copies s) (hold : s.spaces[space]? = some as) (mo : MemoryObject) (os : ObjectState)
    (hown : os.copyOnWriteOwner = as.cowKey) :
    Changes s ⟨s.heap ++ [os], s.spaces.set space { as with objects := as.objects.replace (mo, s.heap.length) }⟩
      space as { as with objects := as.objects.replace (mo, s.heap.length) } where
  old := hold
  spaces := rfl
  key := rfl
  objects op hop := by
    rcases OrderedMap.mem_replace.mp hop with ⟨hop, -⟩ | rfl
    · exact .inl hop
    · exact .inr le_rfl
  bound op hop := by
    rcases OrderedMap.mem_replace.mp hop with ⟨hop, -⟩ | rfl
    · obtain ⟨os', hos', hle⟩ := h.bound as (List.mem_of_getElem? hold) op hop
      have hlt := (List.getElem?_eq_some_iff.mp hos').1
      exact ⟨os', by rw [List.getElem?_append_left hlt]; exact hos', hle⟩
    · exact ⟨os, by simp, hown.le⟩
  kept p os' hos' := .inl (by rw [List.getElem?_append_left (List.getElem?_eq_some_iff.mp hos').1]; exact hos')

theorem step_bindObject (h : Inv copies s) {mo : MemoryObject} {os : ObjectState}
    (hstep : s.step (.bindObject space mo os) = some s') : ∃ as as', Changes s s' space as as' := by
  simp only [step, AddressSpace.bindObject, bind_eq_some,
    Option.ite_none_right_eq_some, Option.some.injEq] at hstep
  obtain ⟨as, has, -, ⟨os', hos', -, rfl⟩, rfl⟩ := hstep
  have hnew : os' = os := by simpa using hos'.symm
  have hc := changes_new h has mo { os with copyOnWriteOwner := as.cowKey } rfl
  exact ⟨as, _, by simpa [hnew] using hc⟩

theorem step_unbindObject (h : Inv copies s) {mo : MemoryObject}
    (hstep : s.step (.unbindObject space mo) = some s') : ∃ as as', Changes s s' space as as' := by
  simp only [step, bind_eq_some, Option.some.injEq] at hstep
  obtain ⟨as, has, rfl⟩ := hstep
  refine ⟨as, as.unbindObject mo, has, rfl, rfl, fun op hop => .inl (OrderedMap.mem_remove.mp hop).1,
    fun op hop => ?_, fun p os hos => .inl hos⟩
  exact h.bound as (List.mem_of_getElem? has) op (OrderedMap.mem_remove.mp hop).1

theorem step_write (h : Inv copies s) {mo : MemoryObject} {write : ObjectWrite}
    (hstep : s.step (.write space mo write) = some s') : ∃ as as', Changes s s' space as as' := by
  simp only [step, bind_eq_some, Option.some.injEq, Prod.exists] at hstep
  obtain ⟨as, has, os, hfind, wos, heap, as', hget, state, hstate, state', hwrite, rfl⟩ := hstep
  obtain ⟨op, hlookup, rfl⟩ := Option.map_eq_some_iff.mp hfind
  have hop := OrderedMap.mem_of_lookup hlookup
  have hkeep := write.owner hwrite
  simp only [AddressSpace.getWriteable, bind_eq_some,
    Option.ite_none_left_eq_some] at hget
  obtain ⟨os, hos, -, hget⟩ := hget
  split_ifs at hget with hown
  · -- the space owns the object, and writes to it
    obtain ⟨rfl, rfl, rfl⟩ : op.2 = wos ∧ s.heap = heap ∧ as = as' := by simpa using hget
    obtain rfl : os = state := Option.some.inj (hos.symm.trans hstate)
    have hlt := (List.getElem?_eq_some_iff.mp hos).1
    have hbound : ∀ (p : ℕ) (os' : ObjectState), s.heap[p]? = some os' → ∃ os'' : ObjectState, (s.heap.set op.2 state')[p]? = some os'' ∧
        os''.copyOnWriteOwner = os'.copyOnWriteOwner := by
      intro p os' hos'
      by_cases hp : op.2 = p
      · subst hp
        obtain rfl : os = os' := Option.some.inj (hos.symm.trans hos')
        exact ⟨state', List.getElem?_set_self hlt, hkeep⟩
      · exact ⟨os', by rw [List.getElem?_set_ne hp]; exact hos', rfl⟩
    refine ⟨as, as, has, rfl, rfl, fun op hop => .inl hop, fun op' hop' => ?_, fun p os' hos' => ?_⟩
    · obtain ⟨os', hos', hle⟩ := h.bound as (List.mem_of_getElem? has) op' hop'
      obtain ⟨os'', hos'', heq⟩ := hbound op'.2 os' hos'
      exact ⟨os'', hos'', heq ▸ hle⟩
    · by_cases hp : op.2 = p
      · subst hp
        obtain rfl : os = os' := Option.some.inj (hos.symm.trans hos')
        exact .inr ⟨hown.symm, ⟨op, hop, rfl⟩, state', List.getElem?_set_self hlt, hkeep.trans hown.symm⟩
      · exact .inl (by rw [List.getElem?_set_ne hp]; exact hos')
  · simp only [bind_eq_some, Option.some.injEq, Prod.mk.injEq] at hget
    obtain ⟨new, -, rfl, rfl, rfl⟩ := hget
    have hnew : state.copyOnWriteOwner = as.cowKey := by
      have hlast : some _ = some state := (List.getElem?_concat_length ..).symm.trans hstate
      rw [← Option.some.inj hlast]
    have hset : (s.heap ++ [{ new with copyOnWriteOwner := as.cowKey }]).set s.heap.length state' =
        s.heap ++ [state'] := by simp
    exact ⟨as, _, hset ▸ changes_new h has mo _ (hkeep.trans hnew)⟩

theorem step_copy (h : Inv copies s) (hcopies : copies + 1 < 2 ^ 32 - 1)
    (hstep : s.step (.copy space) = some s') :
    Inv (copies + 1) s' ∧ ∀ j < s.spaces.length, s'.contents j = s.contents j := by
  simp only [step, bind_eq_some, Option.some.injEq] at hstep
  obtain ⟨as, has, rfl⟩ := hstep
  have hmem := List.mem_of_getElem? has
  have hlt := (List.getElem?_eq_some_iff.mp has).1
  obtain ⟨hpos, hle⟩ := h.key as hmem
  have hkey : (as.cowKey + 1) % 2 ^ 32 = as.cowKey + 1 := Nat.mod_eq_of_lt (by omega)
  simp only [AddressSpace.copy, hkey]
  have hget : ∀ {j bs}, (s.spaces.set space { as with cowKey := as.cowKey + 1 } ++
      [{ as with cowKey := as.cowKey + 1 }])[j]? = some bs →
      bs = { as with cowKey := as.cowKey + 1 } ∨ j ≠ space ∧ s.spaces[j]? = some bs := by
    intro j bs hj
    rw [List.getElem?_append] at hj
    split_ifs at hj with hj'
    · by_cases hne : j = space
      · subst hne
        rw [List.getElem?_set_self hlt] at hj
        exact .inl (Option.some.inj hj).symm
      · rw [List.getElem?_set_ne (Ne.symm hne)] at hj
        exact .inr ⟨hne, hj⟩
    · exact .inl (List.mem_singleton.mp (List.mem_of_getElem? hj))
  refine ⟨⟨fun bs hbs => ?_, fun bs hbs op hop => ?_, fun i j bs cs hi hj hij op hop op' hop' heq os hos => ?_⟩,
    fun j hj => ?_⟩
  · obtain ⟨j, hj, rfl⟩ := List.getElem_of_mem hbs
    rcases hget (List.getElem?_eq_getElem hj) with heq | ⟨-, hj⟩
    · rw [heq]
      exact ⟨by dsimp only; omega, by dsimp only; omega⟩
    · obtain ⟨h1, h2⟩ := h.key _ (List.mem_of_getElem? hj)
      exact ⟨h1, by omega⟩
  · obtain ⟨j, hj, rfl⟩ := List.getElem_of_mem hbs
    rcases hget (List.getElem?_eq_getElem hj) with heq | ⟨-, hj⟩
    · rw [heq] at hop ⊢
      obtain ⟨os, hos, hle⟩ := h.bound as hmem op hop
      exact ⟨os, hos, hle.trans (Nat.le_succ _)⟩
    · exact h.bound _ (List.mem_of_getElem? hj) op hop
  · rcases hget hi with rfl | ⟨hi', hbs⟩
    · -- what the source refers to is of its old epoch at most
      obtain ⟨os', hos', hle⟩ := h.bound as hmem op hop
      obtain rfl : os' = os := Option.some.inj (hos'.symm.trans hos)
      exact Nat.lt_succ_of_le hle
    · rcases hget hj with rfl | ⟨-, hcs⟩
      · exact h.shared i space bs as hbs has hi' op hop op' hop' heq os hos
      · exact h.shared i j bs cs hbs hcs hij op hop op' hop' heq os hos
  · unfold contents
    dsimp only
    rw [List.getElem?_append_left (by simpa using hj)]
    by_cases hne : j = space
    · subst hne
      rw [List.getElem?_set_self hlt, has]
      rfl
    · rw [List.getElem?_set_ne (Ne.symm hne)]

def numCopies (ops : List SpaceOp) : ℕ := ops.countP SpaceOp.isCopy

theorem step_isolates {op : SpaceOp} (h : Inv copies s) (hcopies : copies + numCopies [op] < 2 ^ 32 - 1)
    (hstep : s.step op = some s') :
    Inv (copies + numCopies [op]) s' ∧ ∀ j < s.spaces.length, j ≠ op.space → s'.contents j = s.contents j := by
  cases op with
  | copy space =>
    obtain ⟨hinv, hcontents⟩ := step_copy h hcopies hstep
    exact ⟨hinv, fun j hj _ => hcontents j hj⟩
  | bindObject space mo os =>
    obtain ⟨as, as', hc⟩ := step_bindObject h hstep
    exact ⟨hc.inv h, fun j _ hne => hc.contents h hne⟩
  | unbindObject space mo =>
    obtain ⟨as, as', hc⟩ := step_unbindObject h hstep
    exact ⟨hc.inv h, fun j _ hne => hc.contents h hne⟩
  | write space mo write =>
    obtain ⟨as, as', hc⟩ := step_write h hstep
    exact ⟨hc.inv h, fun j _ hne => hc.contents h hne⟩

theorem run_inv (ops : List SpaceOp) : ∀ {s copies}, Inv copies s → copies + numCopies ops < 2 ^ 32 - 1 →
    s.run ops = some s' → Inv (copies + numCopies ops) s' := by
  induction ops with
  | nil =>
    intro s copies h _ hrun
    cases hrun
    exact h
  | cons op ops ih =>
    intro s copies h hcopies hrun
    have hnum : numCopies (op :: ops) = numCopies [op] + numCopies ops := by
      rw [numCopies, ← List.singleton_append, List.countP_append]
      rfl
    obtain ⟨s1, hstep, hrun⟩ := Option.bind_eq_some_iff.mp hrun
    obtain ⟨hinv, -⟩ := step_isolates h (by omega) hstep
    rw [hnum, ← Nat.add_assoc] at hcopies ⊢
    exact ih hinv hcopies hrun

def oneByte : MemoryObject := ⟨0, 64, 1, 0, by decide, Array.one_lt_size⟩

def oneByteState : ObjectState := ⟨0, oneByte, fun _ => 0, none, none, none, ⟨none, .null⟩, 1, false⟩

def writeOne : ObjectWrite := ⟨fun os => some (os.write8Concrete 0 1), fun h => by cases h; rfl⟩

theorem run_copies (n : ℕ) : ∀ {s : AddressSpaces} {as : AddressSpace} {rest}, s.spaces = as :: rest →
    as.cowKey < 2 ^ 32 → ∃ s' rest', s.run (List.replicate n (.copy 0)) = some s' ∧ s'.heap = s.heap ∧
      s'.spaces = { as with cowKey := (as.cowKey + n) % 2 ^ 32 } :: rest' := by
  induction n with
  | zero =>
    intro s as rest hs hlt
    exact ⟨s, rest, rfl, rfl, by rw [Nat.add_zero, Nat.mod_eq_of_lt hlt, hs]⟩
  | succ n ih =>
    intro s as rest hs hlt
    obtain ⟨s1, hstep, hheap, hs1⟩ : ∃ s1, s.step (.copy 0) = some s1 ∧ s1.heap = s.heap ∧
        s1.spaces = { as with cowKey := (as.cowKey + 1) % 2 ^ 32 } ::
          (rest ++ [{ as with cowKey := (as.cowKey + 1) % 2 ^ 32 }]) :=
      ⟨⟨s.heap, { as with cowKey := (as.cowKey + 1) % 2 ^ 32 } ::
        (rest ++ [{ as with cowKey := (as.cowKey + 1) % 2 ^ 32 }])⟩, by simp only [step, hs]; rfl, rfl, rfl⟩
    obtain ⟨s', rest', hrun, hheap', hs'⟩ := ih hs1 (Nat.mod_lt _ (by decide))
    refine ⟨s', rest', ?_, hheap'.trans hheap, ?_⟩
    · rw [List.replicate_succ, run, List.foldlM_cons, hstep]
      exact hrun
    · rw [hs', Nat.mod_add_mod, Nat.add_assoc, Nat.add_comm 1 n]

theorem run_bind_copies {n : ℕ} (hn : (1 + n) % 2 ^ 32 = 0) :
    ∃ s, ({} : AddressSpaces).run (.bindObject 0 oneByte oneByteState :: List.replicate n (.copy 0)) = some s ∧
      ∃ as ∈ s.spaces, ∃ op ∈ as.objects, ∃ os, s.heap[op.2]? = some os ∧ ¬ os.copyOnWriteOwner ≤ as.cowKey := by
  obtain ⟨s1, hstep, as, hs1, hkey, hobjects, hheap⟩ : ∃ s1, ({} : AddressSpaces).step
      (.bindObject 0 oneByte oneByteState) = some s1 ∧ ∃ as, s1.spaces = [as] ∧ as.cowKey = 1 ∧
        (oneByte, 0) ∈ as.objects ∧ s1.heap[0]? = some { oneByteState with copyOnWriteOwner := 1 } :=
    ⟨_, rfl, _, rfl, rfl, OrderedMap.mem_replace.mpr (.inr rfl), rfl⟩
  obtain ⟨s, rest, hrun, hsame, hs⟩ := run_copies n hs1 (by omega)
  refine ⟨s, ?_, { as with cowKey := (as.cowKey + n) % 2 ^ 32 }, by rw [hs]; exact List.mem_cons_self, (oneByte, 0),
    hobjects, _, by rw [hsame]; exact hheap, ?_⟩
  · rw [run, List.foldlM_cons, hstep]
    exact hrun
  · change ¬ 1 ≤ (as.cowKey + n) % 2 ^ 32
    omega

end Klee.AddressSpaces
