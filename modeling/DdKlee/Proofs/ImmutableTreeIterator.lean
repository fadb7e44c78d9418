import DdKlee.Proofs.Trees
import DdKlee.Spec.ImmutableTreeIterator

/-! The iterators of a tree go through its elements in order, in both directions. -/

namespace Klee

namespace ImmutableTree

open HeightTree Prog

variable {V : Type} {mem mem' : Memory V} {a b l r : HeightTree (ℕ × V)} {p : ℕ × V}

def ref : HeightTree (ℕ × V) → Ref
  | leaf => none
  | node _ p _ => some p.1

def Located (mem : Memory V) : HeightTree (ℕ × V) → Prop
  | leaf => True
  | node l p r =>
      (∃ n, mem.nodes.get p.1 = some n ∧ n.left = ref l ∧ n.right = ref r ∧ n.value = p.2 ∧
        n.height = (node l p r).height) ∧ Located mem l ∧ Located mem r

theorem ref_eq_none : ref a = none ↔ a = leaf := by cases a <;> simp [ref]

theorem Located.unique (ha : Located mem a) (hb : Located mem b) (h : ref a = ref b) : a = b := by
  induction a generalizing b with
  | leaf => exact (ref_eq_none.mp h.symm).symm
  | node l p r ihl ihr =>
    cases b with
    | leaf => cases h
    | node l' p' r' =>
      obtain ⟨⟨n, hget, hleft, hright, hvalue, -⟩, hl, hr⟩ := ha
      obtain ⟨⟨n', hget', hleft', hright', hvalue', -⟩, hl', hr'⟩ := hb
      have hp : p.1 = p'.1 := Option.some.inj h
      rw [hp, hget'] at hget
      cases hget
      rw [ihl hl hl' (hleft.symm.trans hleft'), ihr hr hr' (hright.symm.trans hright'),
        Prod.ext hp (hvalue.symm.trans hvalue')]

theorem exists_located {q : Ref} {t : HeightTree V} (h : Represents mem q t) :
    ∃ a, Located mem a ∧ ref a = q ∧ a.toList.map Prod.snd = t.toList ∧ a.height = t.height := by
  induction h with
  | leaf => exact ⟨leaf, trivial, rfl, rfl, rfl⟩
  | @node i n _ _ get _ _ height ihl ihr =>
    obtain ⟨l, hl, hleft, hlistl, hheightl⟩ := ihl
    obtain ⟨r, hr, hright, hlistr, hheightr⟩ := ihr
    have hheight : (node l (i, n.value) r).height = n.height := by
      rw [height, HeightTree.height, HeightTree.height, hheightl, hheightr]
    refine ⟨node l (i, n.value) r, ⟨⟨n, get, hleft.symm, hright.symm, rfl, hheight.symm⟩, hl, hr⟩, rfl, ?_,
      hheight.trans height⟩
    rw [toList, toList, List.map_append, List.map_cons, hlistl, hlistr]

def Separated : HeightTree (ℕ × V) → Prop
  | leaf => True
  | node l _ r => (ref l = ref r → l = leaf) ∧ Separated l ∧ Separated r

theorem Separated.before (side : Side) (h : Separated (node l p r)) : Separated (side.before l r) := by
  cases side with
  | left => exact h.2.2
  | right => exact h.2.1

theorem Separated.after (side : Side) (h : Separated (node l p r)) : Separated (side.after l r) := by
  cases side with
  | left => exact h.2.1
  | right => exact h.2.2

section

variable {K : Type} {lt : K → K → Prop} [IsStrictWeakOrder K lt] {key : V → K}

theorem Located.separated (ha : Located mem a) (hsorted : a.Sorted lt fun p => key p.2) : Separated a := by
  induction a with
  | leaf => trivial
  | node l p r ihl ihr =>
    obtain ⟨-, hl, hr⟩ := ha
    obtain ⟨hsl, hsr, hlt, hgt⟩ := sorted_node.mp hsorted
    refine ⟨fun h => ?_, ihl hl hsl, ihr hr hsr⟩
    cases l with
    | leaf => rfl
    | node ll q lr =>
      have hmem : q ∈ r.toList := by
        rw [← hl.unique hr h, toList]
        simp
      exact absurd (trans_of lt (hlt q (by simp [toList])) (hgt q hmem)) (irrefl_of lt _)

end

theorem getHeight_ref (ha : Located mem a) : Node.getHeight (ref a) mem = some (a.height, mem) := by
  cases a with
  | leaf => rfl
  | node l p r =>
    obtain ⟨⟨n, hget, -, -, -, hheight⟩, -⟩ := ha
    rw [← hheight]
    exact Option.bind_eq_some_iff.mpr ⟨_, get_eq hget, rfl⟩

theorem getValue_ref (ha : Located mem (node l p r)) : Node.getValue (some p.1) mem = some (p.2, mem) := by
  obtain ⟨⟨n, hget, -, -, hvalue, -⟩, -⟩ := ha
  rw [← hvalue]
  exact Option.bind_eq_some_iff.mpr ⟨_, get_eq hget, rfl⟩

theorem getChild_after (side : Side) (ha : Located mem (node l p r)) :
    Node.getChild side (some p.1) mem = some (ref (side.after l r), mem) := by
  obtain ⟨⟨n, hget, hleft, hright, -⟩, -⟩ := ha
  cases side with
  | left => rw [Side.after, ← hleft]; exact getLeft_eq hget
  | right => rw [Side.after, ← hright]; exact getRight_eq hget

theorem getChild_before (side : Side) (ha : Located mem (node l p r)) :
    Node.getChild side.other (some p.1) mem = some (ref (side.before l r), mem) := by
  obtain ⟨⟨n, hget, hleft, hright, -⟩, -⟩ := ha
  cases side with
  | left => rw [Side.before, ← hright]; exact getRight_eq hget
  | right => rw [Side.before, ← hleft]; exact getLeft_eq hget

theorem Located.before (side : Side) (ha : Located mem (node l p r)) : Located mem (side.before l r) := by
  cases side with
  | left => exact ha.2.2
  | right => exact ha.2.1

theorem Located.after (side : Side) (ha : Located mem (node l p r)) : Located mem (side.after l r) := by
  cases side with
  | left => exact ha.2.1
  | right => exact ha.2.2

namespace Iterator

def refs (s : List (ℕ × V)) : List Ref := s.map fun p => some p.1

theorem pushBack_eq {stack : FixedStack Ref} {elt : Ref} (h : stack.elts.length < stack.max) :
    ((stack.pushBack elt : Option (FixedStack Ref)) : Prog (Memory V) (FixedStack Ref)) mem =
      some ({ stack with elts := elt :: stack.elts }, mem) := by
  rw [FixedStack.pushBack, if_pos h]
  rfl

theorem pushSpine_eq (side : Side) {max : ℕ} (ha : Located mem a) {above : List (ℕ × V)}
    (hmax : above.length + a.height ≤ max) (fuel : ℕ) (hfuel : a.height ≤ fuel) :
    pushSpine side.other fuel (ref a) ⟨max, refs above⟩ mem = some (⟨max, refs (spine side a above)⟩, mem) := by
  induction fuel generalizing a above with
  | zero =>
    cases a with
    | leaf => cases side <;> rfl
    | node => simp [HeightTree.height] at hfuel
  | succ fuel ih =>
    cases a with
    | leaf => cases side <;> rfl
    | node l p r =>
      have hlt := height_before side l r p
      have hroom : (refs above).length < max := by simp [refs]; omega
      rw [ref, pushSpine, bind_eq (pushBack_eq hroom), bind_eq (getChild_before side ha), spine_node]
      exact ih (ha.before side) (show (p :: above).length + _ ≤ max by rw [List.length_cons]; omega) (by omega)

section Moves

variable {root : Ref} {max : ℕ} {above exit : List (ℕ × V)}

/-- A move in a direction takes the iterator from one position to another. -/
def Moves (mem : Memory V) (root : Ref) (max : ℕ) (side : Side) (s s' : List (ℕ × V)) : Prop :=
  advance side ⟨root, ⟨max, refs s⟩⟩ mem = some (⟨root, ⟨max, refs s'⟩⟩, mem)

theorem moves_up (side : Side) (ha : Located mem (node l p r)) (hafter : side.after l r = leaf)
    (hexit : popUp side (some p.1) (refs above) mem = some (refs exit, mem)) :
    Moves mem root max side (p :: above) exit := by
  have hchild := getChild_after side ha
  rw [hafter] at hchild
  simp only [Moves, refs, List.map_cons, advance]
  rw [bind_eq hchild, if_pos (ref_eq_none.mpr rfl)]
  exact bind_eq hexit

theorem moves_down (side : Side) (ha : Located mem (node l p r)) (hafter : side.after l r ≠ leaf)
    (hmax : above.length + (node l p r).height ≤ max) :
    Moves mem root max side (p :: above) (spine side (side.after l r) (p :: above)) := by
  have hlt := height_after side l r p
  cases hchild : side.after l r with
  | leaf => exact absurd hchild hafter
  | node cl q cr =>
    have hc : Located mem (node cl q cr) := hchild ▸ ha.after side
    rw [hchild] at hlt
    have hlt' := height_before side cl cr q
    have hget := getChild_after side ha
    rw [hchild] at hget
    have hroom : (some p.1 :: refs above).length < max := by simp [refs]; omega
    have hspine := pushSpine_eq side (hc.before side)
      (show (q :: p :: above).length + _ ≤ max by rw [List.length_cons, List.length_cons]; omega) _ le_rfl
    simp only [Moves, refs, List.map_cons, advance]
    rw [bind_eq hget, if_neg (by simp [ref]), ref, bind_eq (pushBack_eq hroom), bind_eq (getChild_before side hc),
      bind_eq (getHeight_ref (hc.before side)), spine_node]
    exact bind_eq hspine

theorem popUp_before (side : Side) (ha : Located mem (node l p r)) :
    popUp side (ref (side.before l r)) (refs (p :: above)) mem = some (refs (p :: above), mem) := by
  simp only [refs, List.map_cons, popUp]
  rw [bind_eq (getChild_before side ha), if_pos rfl]
  rfl

theorem popUp_after (side : Side) (ha : Located mem (node l p r)) (hsep : Separated (node l p r))
    (hafter : side.after l r ≠ leaf) :
    popUp side (ref (side.after l r)) (refs (p :: above)) mem = popUp side (some p.1) (refs above) mem := by
  have hne : ref (side.after l r) ≠ ref (side.before l r) := by
    intro h
    cases side with
    | right =>
      have hleaf : l = leaf := hsep.1 h.symm
      rw [Side.after, Side.before, hleaf] at h
      exact hafter (ref_eq_none.mp h)
    | left => exact hafter (hsep.1 h)
  simp only [refs, List.map_cons, popUp]
  rw [bind_eq (getChild_before side ha), if_neg hne]

/-- The moves in a direction go through the positions of a tree, and leave it where the way up
from it ends. -/
theorem moves_chain (side : Side) (ha : Located mem a) (hsep : Separated a) (hne : a ≠ leaf)
    (hmax : above.length + a.height ≤ max) (hexit : popUp side (ref a) (refs above) mem = some (refs exit, mem)) :
    (positions side a above ++ [exit]).IsChain (Moves mem root max side) := by
  induction hheight : a.height using Nat.strong_induction_on generalizing a above exit with
  | h height ih =>
    cases a with
    | leaf => exact absurd rfl hne
    | node l p r =>
      have hlt := height_before side l r p
      have hlt' := height_after side l r p
      have hroom : ∀ c : HeightTree (ℕ × V), c.height < (node l p r).height → (p :: above).length + c.height ≤ max := by
        intro c hc
        rw [List.length_cons]
        omega
      rw [positions_node, List.append_assoc, List.cons_append, List.isChain_split]
      constructor
      · by_cases hbefore : side.before l r = leaf
        · rw [hbefore]
          cases side <;> exact .singleton _
        · exact ih _ (hheight ▸ hlt) (ha.before side) (hsep.before side) hbefore (hroom _ hlt) (popUp_before side ha) rfl
      · by_cases hafter : side.after l r = leaf
        · rw [hafter]
          have hup : Moves mem root max side (p :: above) exit := moves_up side ha hafter hexit
          cases side <;> exact List.isChain_pair.mpr hup
        · have hchain := ih _ (hheight ▸ hlt') (ha.after side) (hsep.after side) hafter (hroom _ hlt')
            ((popUp_after side ha hsep hafter).trans hexit) rfl
          have hdown : Moves mem root max side (p :: above) _ := moves_down side ha hafter hmax
          obtain ⟨rest, hrest⟩ := exists_positions_eq side hafter (p :: above)
          rw [hrest, List.cons_append] at hchain ⊢
          exact List.isChain_cons_cons.mpr ⟨hdown, hchain⟩

end Moves

def path (a : HeightTree (ℕ × V)) (j : ℕ) : List (ℕ × V) := (positions .right a []).getD j []

def place (a : HeightTree (ℕ × V)) (j : ℕ) : Iterator := ⟨ref a, ⟨a.height, refs (path a j)⟩⟩

theorem path_of_lt {j : ℕ} (h : j < a.toList.length) :
    ∃ v rest, (positions .right a [])[j]? = some (v :: rest) ∧ path a j = v :: rest ∧ a.toList[j]? = some v := by
  rw [← length_positions a []] at h
  have hget := List.getElem?_eq_getElem h
  obtain ⟨v, rest, hs, hv⟩ := exists_getElem_positions hget
  rw [hs] at hget
  exact ⟨v, rest, hget, by rw [path, List.getD_eq_getElem?_getD, hget]; rfl, hv⟩

theorem path_length : path a a.toList.length = [] := by
  rw [path, ← length_positions a [], List.getD_eq_default _ _ le_rfl]

theorem spine_eq_path : spine .right a [] = path a 0 := by
  by_cases hne : a = leaf
  · subst hne
    rfl
  · obtain ⟨rest, hrest⟩ := exists_positions_eq .right hne []
    rw [path, hrest]
    rfl

theorem length_path {j : ℕ} : (refs (path a j)).length ≤ a.height := by
  rw [refs, List.length_map]
  by_cases hj : j < a.toList.length
  · obtain ⟨w, rest, hget, hpath, -⟩ := path_of_lt hj
    rw [hpath]
    simpa using length_le_of_mem_positions .right (List.mem_of_getElem? hget)
  · rw [path, List.getD_eq_default _ _ (by rw [length_positions]; omega)]
    exact Nat.zero_le _

theorem getElem_positions {j : ℕ} (h : j < (positions .right a [] ++ [[]]).length) :
    (positions .right a [] ++ [[]])[j] = path a j := by
  rw [path, List.getElem_append]
  split
  case isTrue h => exact (List.getD_eq_getElem _ _ h).symm
  case isFalse h => rw [List.getD_eq_default _ _ (not_lt.mp h), List.getElem_singleton]

/-- The places of the elements, and the end, are apart, and the moves go from one to the next
and back. -/
structure Walks (mem : Memory V) (vs : List V) (place : ℕ → Iterator) : Prop where
  eq : ∀ i j, i ≤ vs.length → j ≤ vs.length → ((place i).eq (place j) = true ↔ i = j)
  room : ∀ j ≤ vs.length, (place j).stack.elts.length ≤ (place j).stack.max
  deref : ∀ j v, vs[j]? = some v → (place j).deref mem = some (v, mem)
  increment : ∀ j < vs.length, (place j).increment mem = some (place (j + 1), mem)
  decrement : ∀ j < vs.length, (place (j + 1)).decrement mem = some (place j, mem)

section Walk

variable (ha : Located mem a)

include ha

theorem getValue_of_mem {side : Side} {above rest : List (ℕ × V)} (h : p :: rest ∈ positions side a above) :
    Node.getValue (some p.1) mem = some (p.2, mem) := by
  induction a generalizing above with
  | leaf => cases side <;> cases h
  | node l q r ihl ihr =>
    rcases (mem_positions_node ..).mp h with h | h | h
    · exact ihl ha.2.1 h
    · cases h
      exact getValue_ref ha
    · exact ihr ha.2.2 h

theorem moves_positions (hsep : Separated a) (side : Side) :
    (positions side a [] ++ [[]]).IsChain (Moves mem (ref a) a.height side) := by
  by_cases hne : a = leaf
  · subst hne
    cases side <;> exact .singleton _
  · exact moves_chain side ha hsep hne (by simp) rfl

variable {j : ℕ} (hj : j < a.toList.length)

include hj

theorem deref_place {v : ℕ × V} (hv : a.toList[j]? = some v) : (place a j).deref mem = some (v.2, mem) := by
  obtain ⟨w, rest, hget, hpath, hw⟩ := path_of_lt hj
  cases hv.symm.trans hw
  rw [place, hpath]
  exact getValue_of_mem ha (List.mem_of_getElem? hget)

variable (hsep : Separated a)

include hsep

theorem increment_place : (place a j).increment mem = some (place a (j + 1), mem) := by
  have hlen : j + 1 < (positions .right a [] ++ [[]]).length := by
    rw [List.length_append, length_positions]
    exact Nat.succ_lt_succ hj
  have hmoves := List.isChain_iff_getElem.mp (moves_positions ha hsep .right) j hlen
  rwa [getElem_positions, getElem_positions] at hmoves

theorem decrement_place : (place a (j + 1)).decrement mem = some (place a j, mem) := by
  have hlen := length_positions a []
  by_cases hlast : j + 1 = a.toList.length
  · -- from the end the iterator goes down to the last element
    have hne : a ≠ leaf := by
      rintro rfl
      cases hj
    obtain ⟨rest, hrest⟩ := exists_positions_eq .left hne []
    rw [positions_left, List.reverse_eq_iff, List.reverse_cons] at hrest
    have hpath : path a j = spine .left a [] := by
      have hj' : j = rest.reverse.length := by
        rw [hrest, List.length_append, List.length_singleton] at hlen
        omega
      rw [path, hrest, hj', List.getD_append_right _ _ _ _ le_rfl, Nat.sub_self]
      rfl
    have hspine := pushSpine_eq .left ha (show ([] : List (ℕ × V)).length + a.height ≤ a.height by simp) _ le_rfl
    rw [place, place, hlast, path_length, hpath, decrement]
    dsimp only
    rw [if_pos (show refs ([] : List (ℕ × V)) = [] from rfl), bind_eq (getHeight_ref ha)]
    exact bind_eq hspine
  · obtain ⟨w, rest, -, hpath, -⟩ := path_of_lt (lt_of_le_of_ne hj hlast)
    have hchain := moves_positions ha hsep .left
    rw [positions_left, ← List.reverse_cons, List.isChain_reverse] at hchain
    have hmoves := List.isChain_iff_getElem.mp hchain (j + 1) (by rw [List.length_cons]; omega)
    rw [List.getElem_cons_succ, List.getElem_cons_succ, ← List.getD_eq_getElem _ [], ← List.getD_eq_getElem _ []]
      at hmoves
    rw [decrement, if_neg (by rw [place, hpath]; simp [refs])]
    exact hmoves

end Walk

section Order

variable {K : Type} {lt : K → K → Prop} [IsStrictWeakOrder K lt] {key : V → K} (ha : Located mem a)
  (hsorted : a.Sorted lt fun p => key p.2)

include ha hsorted

theorem path_injective {i j : ℕ} (hi : i ≤ a.toList.length) (hj : j ≤ a.toList.length)
    (h : refs (path a i) = refs (path a j)) : i = j := by
  have hempty : ∀ {i}, i < a.toList.length → refs (path a i) ≠ [] := fun hi => by
    obtain ⟨p, rest, -, hp, -⟩ := path_of_lt hi
    simp [hp, refs]
  have hend : refs (path a a.toList.length) = [] := by rw [path_length]; rfl
  rcases hi.lt_or_eq with hi | rfl
  · rcases hj.lt_or_eq with hj | rfl
    · obtain ⟨p, rest, hp, hpi, hpa⟩ := path_of_lt hi
      obtain ⟨q, rest', hq, hqj, hqa⟩ := path_of_lt hj
      have hpq : some p.1 = some q.1 := by
        rw [hpi, hqj] at h
        exact (List.cons.inj h).1
      have hvalue := getValue_of_mem ha (List.mem_of_getElem? hp)
      rw [hpq, getValue_of_mem ha (List.mem_of_getElem? hq)] at hvalue
      have hkey : key q.2 = key p.2 := congrArg (fun r => key r.1) (Option.some.inj hvalue)
      have hlt : ∀ i j (hi : i < a.toList.length) (hj : j < a.toList.length), i < j →
          lt (key a.toList[i].2) (key a.toList[j].2) := List.pairwise_iff_getElem.mp hsorted
      obtain ⟨_, rfl⟩ := List.getElem?_eq_some_iff.mp hpa
      obtain ⟨_, rfl⟩ := List.getElem?_eq_some_iff.mp hqa
      rcases lt_trichotomy i j with hij | hij | hij
      · exact absurd (hkey ▸ hlt i j hi hj hij) (irrefl_of lt _)
      · exact hij
      · exact absurd (hkey ▸ hlt j i hj hi hij) (irrefl_of lt _)
    · exact absurd (h.trans hend) (hempty hi)
  · rcases hj.lt_or_eq with hj | rfl
    · exact absurd (h.symm.trans hend) (hempty hj)
    · rfl

theorem walks : Walks mem (a.toList.map Prod.snd) (place a) := by
  have hsep := ha.separated hsorted
  constructor
  · intro i j hi hj
    rw [List.length_map] at hi hj
    rw [Iterator.eq, decide_eq_true_iff]
    exact ⟨path_injective ha hsorted hi hj, fun h => h ▸ rfl⟩
  · intro j _
    exact length_path
  · intro j v hv
    rw [List.getElem?_map, Option.map_eq_some_iff] at hv
    obtain ⟨p, hp, rfl⟩ := hv
    exact deref_place ha (List.getElem?_eq_some_iff.mp hp).1 hp
  · intro j hj
    exact increment_place ha (by rwa [List.length_map] at hj) hsep
  · intro j hj
    exact decrement_place ha (by rwa [List.length_map] at hj) hsep

end Order

section Search

variable {K : Type} {lt : K → K → Prop} [DecidableRel lt] {key : V → K} {k : K}

variable (lt key k) in
/-- The search is at the first element that is not below the key, or at the last one below. -/
def Bounds (a : HeightTree (ℕ × V)) (above : List (ℕ × V)) (found : Bool) (s : List (ℕ × V)) : Prop :=
  ∃ p rest, s = p :: rest ∧
    (¬ lt (key p.2) k ∧ (positions .right a above)[lowerIndex lt (fun p => key p.2) k a.toList]? = some s ∨
      found = false ∧ lt (key p.2) k ∧
        ∃ c, lowerIndex lt (fun p => key p.2) k a.toList = c + 1 ∧ (positions .right a above)[c]? = some s)

theorem Bounds.left {above s : List (ℕ × V)} {found : Bool} (hp : ¬ lt (key p.2) k)
    (h : Bounds lt key k l (p :: above) found s) : Bounds lt key k (node l p r) above found s := by
  obtain ⟨q, rest, hs, h⟩ := h
  have hindex : lowerIndex lt (fun p => key p.2) k (node l p r).toList = _ := lowerIndex_node_of_not_lt hp
  refine ⟨q, rest, hs, ?_⟩
  rw [hindex]
  rcases h with ⟨hq, h⟩ | ⟨hfound, hq, c, hc, h⟩
  · exact .inl ⟨hq, getElem_positions_left h⟩
  · exact .inr ⟨hfound, hq, c, hc, getElem_positions_left h⟩

theorem Bounds.right {above s : List (ℕ × V)} {found : Bool} (hl : ∀ q ∈ l.toList, lt (key q.2) k)
    (hp : lt (key p.2) k) (h : Bounds lt key k r (p :: above) found s) : Bounds lt key k (node l p r) above found s := by
  obtain ⟨q, rest, hs, h⟩ := h
  have hindex : lowerIndex lt (fun p => key p.2) k (node l p r).toList = _ := lowerIndex_node_of_lt hl hp
  refine ⟨q, rest, hs, ?_⟩
  rw [hindex]
  rcases h with ⟨hq, h⟩ | ⟨hfound, hq, c, hc, h⟩
  · exact .inl ⟨hq, getElem_positions_right h⟩
  · exact .inr ⟨hfound, hq, l.toList.length + 1 + c, by rw [hc]; rfl, getElem_positions_right h⟩

variable [IsStrictWeakOrder K lt]

theorem lowerBoundFrom_eq (ha : Located mem a) (hsorted : a.Sorted lt fun p => key p.2) (hne : a ≠ leaf) {max : ℕ}
    {above : List (ℕ × V)} (hmax : above.length + a.height ≤ max) (fuel : ℕ) (hfuel : a.height ≤ fuel) :
    ∃ found s, lowerBoundFrom lt key k fuel (ref a) ⟨max, refs above⟩ mem = some ((found, ⟨max, refs s⟩), mem) ∧
      Bounds lt key k a above found s := by
  induction fuel generalizing a above with
  | zero =>
    cases a with
    | leaf => exact absurd rfl hne
    | node => simp [HeightTree.height] at hfuel
  | succ fuel ih =>
    cases a with
    | leaf => exact absurd rfl hne
    | node l p r =>
      obtain ⟨⟨n, hget, hleft, hright, hvalue, -⟩, hl, hr⟩ := ha
      obtain ⟨hsl, hsr, hlt, hgt⟩ := sorted_node.mp hsorted
      have hcons : (p :: above).length = above.length + 1 := rfl
      rw [HeightTree.height] at hmax hfuel
      have hroom : (refs above).length < max := by simp [refs]; omega
      rw [ref, lowerBoundFrom, bind_eq (pushBack_eq hroom), bind_eq (get_eq hget), hleft, hright, hvalue]
      change ∃ found s, (if lt k (key p.2) then lowerBoundFrom lt key k fuel (ref l) ⟨max, refs (p :: above)⟩
        else if lt (key p.2) k then lowerBoundFrom lt key k fuel (ref r) ⟨max, refs (p :: above)⟩
        else pure (true, ⟨max, refs (p :: above)⟩)) mem = _ ∧ _
      have hindex (hpk : ¬ lt (key p.2) k) : lowerIndex lt (fun p => key p.2) k (node l p r).toList = _ :=
        lowerIndex_node_of_not_lt hpk
      by_cases hkp : lt k (key p.2)
      · have hpk := asymm_of lt hkp
        rw [if_pos hkp]
        by_cases hleaf : l = leaf
        · subst hleaf
          refine ⟨false, p :: above, by cases fuel <;> rfl, p, above, rfl, .inl ⟨hpk, ?_⟩⟩
          rw [hindex hpk]
          rfl
        · obtain ⟨found, s, hs, hbounds⟩ := ih hl hsl hleaf (show (p :: above).length + _ ≤ max by omega) (by omega)
          exact ⟨found, s, hs, hbounds.left hpk⟩
      · rw [if_neg hkp]
        have hbelow : ∀ q ∈ l.toList, lt (key q.2) k := fun q hq => hsorted.left_lt hkp hq
        by_cases hpk : lt (key p.2) k
        · rw [if_pos hpk]
          by_cases hleaf : r = leaf
          · subst hleaf
            refine ⟨false, p :: above, by cases fuel <;> rfl, p, above, rfl, .inr ⟨rfl, hpk, l.toList.length, ?_, ?_⟩⟩
            · exact lowerIndex_node_of_lt hbelow hpk
            · exact getElem_positions_root
          · obtain ⟨found, s, hs, hbounds⟩ := ih hr hsr hleaf (show (p :: above).length + _ ≤ max by omega) (by omega)
            exact ⟨found, s, hs, hbounds.right hbelow hpk⟩
        · rw [if_neg hpk]
          refine ⟨true, p :: above, rfl, p, above, rfl, .inl ⟨hpk, ?_⟩⟩
          rw [hindex hpk, lowerIndex_eq_length hbelow]
          exact getElem_positions_root

end Search

end Iterator

theorem Located.keeps {L : Multiset (Ref × HeightTree V)} (h : Keeps L mem mem') (hr : Reaches mem L (ref a))
    (ha : Located mem a) : Located mem' a := by
  induction a with
  | leaf => trivial
  | node l p r ihl ihr =>
    obtain ⟨⟨n, hget, hleft, hright, hvalue, hheight⟩, hl, hr'⟩ := ha
    obtain ⟨references, hkept⟩ := h p.1 n hr hget
    exact ⟨⟨_, hkept, hleft, hright, hvalue, hheight⟩, ihl (hleft ▸ hr.left hget) hl, ihr (hright ▸ hr.right hget) hr'⟩

structure Owned (mem : Memory V) (L : Multiset (Ref × HeightTree V)) (a : HeightTree (ℕ × V)) (t : HeightTree V) :
    Prop where
  holds : Holds mem L
  root : (ref a, t) ∈ L
  located : Located mem a

namespace Iterator

variable {L : Multiset (Ref × HeightTree V)} {t : HeightTree V}

theorem new_ends (h : Owned mem L a t) (atBeginning : Bool) :
    Ends (new (ref a) atBeginning) mem fun it mem' =>
      it = place a (if atBeginning then 0 else a.toList.length) ∧ Owned mem' ((ref a, t) ::ₘ L) a t := by
  refine (incref_ends h.holds (h.holds.roots _ h.root)).andThen ?_
  rintro _ mem' ⟨rfl, hholds, hgrows⟩
  have hlocated : Located mem' a := h.located.keeps hgrows.keeps (.root h.root)
  refine Ends.step (getHeight_ref hlocated) ?_
  cases atBeginning with
  | false =>
    refine ⟨_, _, rfl, ?_, hholds, Multiset.mem_cons_self .., hlocated⟩
    change _ = place a a.toList.length
    rw [place, path_length]
    rfl
  | true =>
    have hspine := pushSpine_eq .right hlocated (show ([] : List (ℕ × V)).length + a.height ≤ a.height by simp) _ le_rfl
    rw [spine_eq_path] at hspine
    exact Ends.step hspine ⟨_, _, rfl, rfl, hholds, Multiset.mem_cons_self .., hlocated⟩

theorem destroy_ends (h : Owned mem ((ref a, t) ::ₘ L) a t) (hmem : (ref a, t) ∈ L) (j : ℕ) :
    Ends (place a j).destroy mem fun _ mem' => Owned mem' L a t :=
  (decref_ends h.holds).imp fun _ _ ⟨hholds, hkeeps⟩ => ⟨hholds, hmem, h.located.keeps hkeeps (.root hmem)⟩

end Iterator

section

open Iterator

variable {K : Type} {lt : K → K → Prop} [DecidableRel lt] [IsStrictWeakOrder K lt] {key : V → K} {k : K}
  {L : Multiset (Ref × HeightTree V)} {t : HeightTree V} (hsorted : a.Sorted lt fun p => key p.2)

theorem path_eq {j : ℕ} {s : List (ℕ × V)} (h : (positions .right a [])[j]? = some s) : path a j = s := by
  rw [path, List.getD_eq_getElem?_getD, h]
  rfl

omit [IsStrictWeakOrder K lt] in
theorem isPast_of_none {j : ℕ} (hle : j ≤ a.toList.length) (h : a.toList[j]? = none) :
    isPast lt key k (place a a.toList.length) (place a j) mem = some (true, mem) := by
  have hj : j = a.toList.length := le_antisymm hle (List.getElem?_eq_none_iff.mp h)
  have heq : (place a j).eq (place a a.toList.length) = true := by
    rw [hj]
    exact decide_eq_true rfl
  rw [isPast, if_pos heq]
  rfl

include hsorted

/-- The end of `lower_bound` finds the first element that is not below the key. -/
theorem lowerBoundRepair_eq (ha : Located mem a) {found : Bool} {s : List (ℕ × V)} (h : Bounds lt key k a [] found s) :
    (if found then pure ⟨ref a, ⟨a.height, refs s⟩⟩ else lowerBoundRepair lt key k ⟨ref a, ⟨a.height, refs s⟩⟩ :
      Prog (Memory V) Iterator) mem = some (place a (lowerIndex lt (fun p => key p.2) k a.toList), mem) := by
  obtain ⟨p, rest, rfl, h⟩ := h
  have hrepair {j : ℕ} (hget : (positions .right a [])[j]? = some (p :: rest)) :
      lowerBoundRepair lt key k ⟨ref a, ⟨a.height, refs (p :: rest)⟩⟩ mem =
        (if lt (key p.2) k then (place a j).increment else pure (place a j)) mem := by
    rw [place, path_eq hget]
    exact bind_eq (getValue_of_mem ha (List.mem_of_getElem? hget))
  rcases h with ⟨hp, hget⟩ | ⟨rfl, hp, c, hc, hget⟩
  · cases found with
    | true =>
      rw [place, path_eq hget]
      rfl
    | false =>
      rw [if_neg Bool.false_ne_true, hrepair hget, if_neg hp]
      rfl
  · have hlt := (List.getElem?_eq_some_iff.mp hget).1
    rw [length_positions] at hlt
    rw [if_neg Bool.false_ne_true, hrepair hget, if_pos hp, hc]
    exact increment_place ha hlt (ha.separated hsorted)

theorem lowerBound_ends (h : Owned mem L a t) : Ends (lowerBound lt key (ref a) k) mem fun it mem' =>
    it = place a (lowerIndex lt (fun p => key p.2) k a.toList) ∧ Owned mem' ((ref a, t) ::ₘ L) a t := by
  refine (Iterator.new_ends h false).andThen ?_
  rintro _ mem' ⟨rfl, h'⟩
  refine Ends.step (getHeight_ref h'.located) ?_
  change Ends (lowerBoundFrom lt key k a.height (ref a) (place a a.toList.length).stack >>= _) mem' _
  rw [place, path_length]
  by_cases hne : a = leaf
  · subst hne
    exact ⟨_, _, rfl, rfl, h'⟩
  · obtain ⟨found, s, hs, hbounds⟩ :=
      lowerBoundFrom_eq h'.located hsorted hne (show ([] : List (ℕ × V)).length + a.height ≤ a.height by simp) _ le_rfl
    exact Ends.step hs ⟨_, _, lowerBoundRepair_eq hsorted h'.located hbounds, rfl, h'⟩

theorem isPast_of_some (ha : Located mem a) {j : ℕ} {p : ℕ × V} (h : a.toList[j]? = some p) :
    isPast lt key k (place a a.toList.length) (place a j) mem = some (decide (lt k (key p.2)), mem) := by
  have hj := (List.getElem?_eq_some_iff.mp h).1
  have hne : ¬ (place a j).eq (place a a.toList.length) = true := by
    rw [Iterator.eq, decide_eq_true_iff]
    exact fun heq => absurd (path_injective ha hsorted hj.le le_rfl heq) hj.ne
  rw [isPast, if_neg hne, bind_eq (deref_place ha hj h)]
  rfl

theorem find_ends (h : Owned mem L a t) : Ends (find lt key (ref a) k) mem fun it mem' =>
    it = place a (sameIndex lt (fun p => key p.2) k a.toList) ∧ Owned mem' ((ref a, t) ::ₘ L) a t := by
  refine (Iterator.new_ends h false).andThen ?_
  rintro _ mem1 ⟨rfl, h1⟩
  refine (lowerBound_ends hsorted h1).andThen ?_
  rintro _ mem2 ⟨rfl, h2⟩
  change Ends (isPast lt key k (place a a.toList.length) _ >>= _) mem2 _
  have hdestroy (j : ℕ) := destroy_ends h2 h1.root j
  cases hget : a.toList[lowerIndex lt (fun p => key p.2) k a.toList]? with
  | none =>
    refine Ends.step (isPast_of_none lowerIndex_le hget) ((hdestroy _).andThen ?_)
    rintro _ mem3 h3
    exact ⟨_, _, rfl, by rw [sameIndex_of_none hget]; rfl, h3⟩
  | some p =>
    refine Ends.step (isPast_of_some hsorted h2.located hget) ?_
    by_cases hlt : lt k (key p.2)
    · rw [decide_eq_true hlt, if_pos rfl]
      refine (hdestroy _).andThen fun _ mem3 h3 => ⟨_, _, rfl, ?_, h3⟩
      rw [sameIndex_of_lt hsorted hget hlt]
      rfl
    · rw [decide_eq_false hlt, if_neg Bool.false_ne_true]
      refine (hdestroy _).andThen fun _ mem3 h3 => ⟨_, _, rfl, ?_, h3⟩
      rw [sameIndex_of_not_lt hget hlt]

theorem upperBound_ends (h : Owned mem L a t) : Ends (upperBound lt key (ref a) k) mem fun it mem' =>
    it = place a (upperIndex lt (fun p => key p.2) k a.toList) ∧ Owned mem' ((ref a, t) ::ₘ L) a t := by
  refine (Iterator.new_ends h false).andThen ?_
  rintro _ mem1 ⟨rfl, h1⟩
  refine (lowerBound_ends hsorted h1).andThen ?_
  rintro _ mem2 ⟨rfl, h2⟩
  change Ends (isPast lt key k (place a a.toList.length) _ >>= _) mem2 _
  have hdestroy := destroy_ends h2 h1.root a.toList.length
  cases hget : a.toList[lowerIndex lt (fun p => key p.2) k a.toList]? with
  | none =>
    refine Ends.step (isPast_of_none lowerIndex_le hget) (Ends.step rfl (hdestroy.andThen ?_))
    rintro _ mem3 h3
    exact ⟨_, _, rfl, by rw [upperIndex_of_none hget], h3⟩
  | some p =>
    refine Ends.step (isPast_of_some hsorted h2.located hget) ?_
    by_cases hlt : lt k (key p.2)
    · rw [decide_eq_true hlt]
      refine Ends.step rfl (hdestroy.andThen fun _ mem3 h3 => ⟨_, _, rfl, ?_, h3⟩)
      rw [upperIndex_of_lt hget hlt]
    · rw [decide_eq_false hlt]
      have hinc := increment_place h2.located (List.getElem?_eq_some_iff.mp hget).1 (h2.located.separated hsorted)
      refine Ends.step hinc (hdestroy.andThen fun _ mem3 h3 => ⟨_, _, rfl, ?_, h3⟩)
      rw [upperIndex_of_not_lt hsorted hget hlt]

end

section

variable {K : Type} (lt : K → K → Prop) [DecidableRel lt] (key : V → K)

/-- The program returns the iterator at a place, and the iterator can walk from there. -/
def Returns (x : Prog (Memory V) Iterator) (mem : Memory V) (vs : List V) (place : ℕ → Iterator) (j : ℕ) : Prop :=
  Ends x mem fun it mem' => it = place j ∧ Iterator.Walks mem' vs place

structure Iterates (mem : Memory V) (node : Ref) (vs : List V) (place : ℕ → Iterator) : Prop where
  begin : Returns (begin node) mem vs place 0
  atEnd : Returns (atEnd node) mem vs place vs.length
  find : ∀ k, Returns (find lt key node k) mem vs place (sameIndex lt key k vs)
  lowerBound : ∀ k, Returns (lowerBound lt key node k) mem vs place (lowerIndex lt key k vs)
  upperBound : ∀ k, Returns (upperBound lt key node k) mem vs place (upperIndex lt key k vs)

variable {lt key} [IsStrictWeakOrder K lt] {L : Multiset (Ref × HeightTree V)} {t : HeightTree V}

theorem Holds.iterates {node : Ref} (h : Holds mem L) (hroot : (node, t) ∈ L) (hsorted : t.Sorted lt key) :
    ∃ place, Iterates lt key mem node t.toList place := by
  obtain ⟨a, ha, rfl, hvalues, -⟩ := exists_located (h.roots _ hroot)
  have hsorted' : a.Sorted lt fun p => key p.2 := by
    rw [Sorted, ← hvalues, List.pairwise_map] at hsorted
    exact hsorted
  have howned : Owned mem L a t := ⟨h, hroot, ha⟩
  have hwalks {mem' : Memory V} {it : Iterator} {j j' : ℕ} (hj : j = j')
      (hq : it = Iterator.place a j ∧ Owned mem' ((ref a, t) ::ₘ L) a t) :
      it = Iterator.place a j' ∧ Iterator.Walks mem' t.toList (Iterator.place a) :=
    ⟨hj ▸ hq.1, hvalues ▸ Iterator.walks hq.2.located hsorted'⟩
  have hindex (q : V → Bool) : a.toList.findIdx (fun p => q p.2) = t.toList.findIdx q := by
    rw [← hvalues, List.findIdx_map]
    rfl
  refine ⟨Iterator.place a, ?_, ?_, fun k => ?_, fun k => ?_, fun k => ?_⟩
  · exact (Iterator.new_ends howned true).imp fun _ _ => hwalks rfl
  · exact (Iterator.new_ends howned false).imp fun _ _ => hwalks (by rw [← hvalues, List.length_map]; rfl)
  · exact (find_ends hsorted' howned).imp fun _ _ => hwalks (hindex fun v => ¬ lt (key v) k ∧ ¬ lt k (key v))
  · exact (lowerBound_ends hsorted' howned).imp fun _ _ => hwalks (hindex fun v => ¬ lt (key v) k)
  · exact (upperBound_ends hsorted' howned).imp fun _ _ => hwalks (hindex fun v => lt k (key v))

end

end ImmutableTree

namespace Trees

open ImmutableTree

variable {K V : Type}

/-- Whatever is done with trees, the iterators of each of those that are there go through its
elements one by one in the order of their keys, in both directions, and the searches return the
iterator at the element they are for. -/
theorem run_iterates (lt : K → K → Prop) [DecidableRel lt] [IsStrictWeakOrder K lt] (key : V → K)
    (ops : List (TreeOp K V)) {out : List (Option V)} {maps : TreeMaps lt key}
    (hrun : Machine.run TreeMaps.step {} ops = some (out, maps)) :
    ∃ s, Machine.run (Trees.step lt key) {} ops = some (out, s) ∧ ∀ i m, maps.get i = some m →
      ∃ node vs place, s.trees.get i = some node ∧ vs.Pairwise (fun v w => lt (key v) (key w)) ∧ (∀ v, v ∈ vs ↔ v ∈ m) ∧
        Iterates lt key s.memory node vs place := by
  obtain ⟨outs, s, hs, hout, es, h⟩ :=
    Machine.run_simulates (Trees.step lt key) TreeMaps.step simulates ops ⟨_, valid_start⟩ (fun _ _ => trivial) hrun
  rw [List.forall₂_eq_eq_eq] at hout
  subst hout
  refine ⟨s, hs, fun i m hm => ?_⟩
  obtain ⟨e, he, rfl, hnode, -⟩ := h.entry hm
  have hmem := Store.mem_objects he
  have hdenotes := h.denotes e hmem
  obtain ⟨place, hplace⟩ := h.holds.iterates (Multiset.mem_map_of_mem _ hmem) hdenotes.sorted
  exact ⟨e.node, e.tree.toList, place, hnode, hdenotes.sorted, hdenotes.mem, hplace⟩

/-- The iterators of a tree with two elements, whose source is gone. -/
theorem run_iterates_insert :
    ∃ s, Machine.run (Trees.step (· < ·) (id : ℕ → ℕ)) {} [.create, .insert 0 3, .insert 1 5, .destroy 0] =
        some ([none, none, none, none], s) ∧
      ∃ node vs place, s.trees.get 2 = some node ∧
        (∀ v, v ∈ vs ↔ v ∈ ((EntryMap.empty : EntryMap (· < ·) (id : ℕ → ℕ)).insert 3).insert 5) ∧
        Iterates (· < ·) id s.memory node vs place := by
  have : IsStrictWeakOrder ℕ (· < ·) := isStrictWeakOrder_of_isOrderConnected
  obtain ⟨s, hrun, hall⟩ := run_iterates (· < ·) (id : ℕ → ℕ) [.create, .insert 0 3, .insert 1 5, .destroy 0] rfl
  obtain ⟨node, vs, place, hnode, -, hmem, hplace⟩ := hall 2 _ rfl
  exact ⟨s, hrun, node, vs, place, hnode, hmem, hplace⟩

end Trees

end Klee
