import DdKlee.Lib.SearchTree
import DdKlee.Proofs.NodeMemory

/-! What the nodes do is what is done with the trees they stand for. -/

namespace Klee.ImmutableTree

open Prog

variable {V : Type} {mem mem' : Memory V} {l r : Ref} {i : ℕ} {n : Node V} {t tl tr : HeightTree V} {v : V}
  {L : Multiset (Ref × HeightTree V)}

theorem getLeft_eq (hget : mem.nodes.get i = some n) : Node.getLeft (some i) mem = some (n.left, mem) :=
  Option.bind_eq_some_iff.mpr ⟨_, get_eq hget, rfl⟩

theorem getRight_eq (hget : mem.nodes.get i = some n) : Node.getRight (some i) mem = some (n.right, mem) :=
  Option.bind_eq_some_iff.mpr ⟨_, get_eq hget, rfl⟩

theorem getValue_eq (h : Represents mem r (.node tl v tr)) : Node.getValue r mem = some (v, mem) := by
  obtain ⟨i, n, rfl, hget, rfl, -⟩ := h.cases_node
  exact Option.bind_eq_some_iff.mpr ⟨_, get_eq hget, rfl⟩

theorem Holds.swap {p q : Ref × HeightTree V} (h : Holds mem (p ::ₘ q ::ₘ L)) : Holds mem (q ::ₘ p ::ₘ L) := by
  rwa [Multiset.cons_swap]

theorem Holds.swap_right {p q s : Ref × HeightTree V} (h : Holds mem (p ::ₘ q ::ₘ s ::ₘ L)) :
    Holds mem (p ::ₘ s ::ₘ q ::ₘ L) := by
  rwa [Multiset.cons_swap s]

theorem Holds.fourth {p q s u : Ref × HeightTree V} (h : Holds mem (p ::ₘ q ::ₘ s ::ₘ u ::ₘ L)) :
    Holds mem (p ::ₘ u ::ₘ q ::ₘ s ::ₘ L) := by
  rwa [Multiset.cons_swap u q, Multiset.cons_swap u s]

def Gives (x : Prog (Memory V) Ref) (mem : Memory V) (L : Multiset (Ref × HeightTree V)) (t : HeightTree V) : Prop :=
  Ends x mem fun a mem' => Holds mem' ((a, t) ::ₘ L) ∧ Keeps L mem mem'

theorem Gives.after {m : Memory V} {x : Prog (Memory V) Ref} (h : Gives x m L t) (hk : Keeps L mem m) :
    Ends x m fun a mem' => Holds mem' ((a, t) ::ₘ L) ∧ Keeps L mem mem' :=
  h.imp fun _ _ h' => ⟨h'.1, hk.trans h'.2⟩

theorem new_gives (h : Holds mem ((l, tl) ::ₘ (r, tr) ::ₘ L)) (v : V) :
    Gives (Node.new l r v) mem L (.node tl v tr) :=
  (new_ends h v).imp fun _ _ h' => ⟨h'.1, h'.2.keeps⟩

theorem new_then {β : Type} {x : Ref → Prog (Memory V) β} {Q : β → Memory V → Prop}
    (h : Holds mem ((l, tl) ::ₘ (r, tr) ::ₘ L)) (v : V)
    (hx : ∀ a m, Holds m ((a, .node tl v tr) ::ₘ L) → Grows mem m → Ends (x a) m Q) :
    Ends (Node.new l r v >>= x) mem Q :=
  (new_ends h v).andThen fun a m h' => hx a m h'.1 h'.2

variable {tll tlr trl trr : HeightTree V} {lv rv : V}

/-- The last steps of a rotation: a node is made of two that are held, and the tree that was
taken apart is released. -/
theorem rebuild {m0 : Memory V} {a b c : Ref} {ta tb tc : HeightTree V}
    (h : Holds mem ((a, ta) ::ₘ (b, tb) ::ₘ (c, tc) ::ₘ L)) (hg : Grows m0 mem) (v : V) :
    Ends (do
      let res ← Node.new a b v
      Node.decref c
      pure res) mem fun a mem' => Holds mem' ((a, .node ta v tb) ::ₘ L) ∧ Keeps L m0 mem' := by
  refine new_then h v fun res m₁ h1 hg1 => ?_
  refine (decref_ends h1.swap).andThen fun _ m2 h2 => ?_
  exact Ends.pure ⟨h2.1, (hg.trans hg1).keeps.trans (h2.2.mono (Multiset.le_cons_self ..))⟩

theorem balance_right (h : Holds mem ((l, .node tll lv tlr) ::ₘ (r, tr) ::ₘ L))
    (hhigh : tr.height + 2 < (HeightTree.node tll lv tlr).height) (v : V) :
    Gives (Node.balance l v r) mem L (HeightTree.rotateRight (.node tll lv tlr) v tr) := by
  have hl := h.roots _ (Multiset.mem_cons_self ..)
  have hr := h.roots _ (Multiset.mem_cons_of_mem (Multiset.mem_cons_self ..))
  obtain ⟨i, n, rfl, hget, -, -, hll, hlr⟩ := hl.cases_node
  unfold Node.balance
  refine Ends.step (getHeight_eq hl) (Ends.step (getHeight_eq hr) ?_)
  rw [if_pos hhigh]
  refine Ends.step (getLeft_eq hget) (Ends.step (getRight_eq hget) ?_)
  refine Ends.step (getHeight_eq hlr) (Ends.step (getHeight_eq hll) ?_)
  by_cases hle : tlr.height ≤ tll.height
  · rw [if_pos hle, HeightTree.rotateRight_single hle]
    refine incref_then h hlr fun m₁ h1 hg1 => ?_
    refine new_then h1.swap_right v fun nlr m2 h2 hg2 => ?_
    refine incref_then h2 (hll.of_kept (hg1.trans hg2)) fun m3 h3 hg3 => ?_
    have hg := (hg1.trans hg2).trans hg3
    exact Ends.step (getValue_eq (hl.of_kept hg)) (rebuild h3 hg lv)
  · rw [if_neg hle]
    cases tlr with
    | leaf => exact absurd (Nat.zero_le _) hle
    | node tlrl lrv tlrr =>
      rw [HeightTree.rotateRight, if_neg hle]
      obtain ⟨j, m, heq, hget', -, -, hlrl, hlrr⟩ := hlr.cases_node
      rw [heq] at hlr ⊢
      refine Ends.step (getLeft_eq hget') (Ends.step (getRight_eq hget') ?_)
      refine incref_then h hll fun m₁ h1 hg1 => ?_
      refine incref_then h1 (hlrl.of_kept hg1) fun m2 h2 hg2 => ?_
      refine Ends.step (getValue_eq (hl.of_kept (hg1.trans hg2))) ?_
      refine new_then h2.swap lv fun nll m3 h3 hg3 => ?_
      have hg := (hg1.trans hg2).trans hg3
      refine incref_then h3 (hlrr.of_kept hg) fun m4 h4 hg4 => ?_
      refine new_then h4.fourth v fun nlr m5 h5 hg5 => ?_
      have hg := (hg.trans hg4).trans hg5
      exact Ends.step (getValue_eq (hlr.of_kept hg)) (rebuild h5.swap hg lrv)

theorem balance_left (h : Holds mem ((l, tl) ::ₘ (r, .node trl rv trr) ::ₘ L))
    (hhigh : tl.height + 2 < (HeightTree.node trl rv trr).height) (v : V) :
    Gives (Node.balance l v r) mem L (HeightTree.rotateLeft tl v (.node trl rv trr)) := by
  have hl := h.roots _ (Multiset.mem_cons_self ..)
  have hr := h.roots _ (Multiset.mem_cons_of_mem (Multiset.mem_cons_self ..))
  obtain ⟨i, n, rfl, hget, -, -, hrl, hrr⟩ := hr.cases_node
  unfold Node.balance
  refine Ends.step (getHeight_eq hl) (Ends.step (getHeight_eq hr) ?_)
  rw [if_neg (by simp only at hhigh ⊢; omega), if_pos hhigh]
  refine Ends.step (getLeft_eq hget) (Ends.step (getRight_eq hget) ?_)
  refine Ends.step (getHeight_eq hrl) (Ends.step (getHeight_eq hrr) ?_)
  by_cases hle : trl.height ≤ trr.height
  · rw [if_pos hle, HeightTree.rotateLeft_single hle]
    refine incref_then h hrl fun m₁ h1 hg1 => ?_
    refine new_then h1.swap v fun nrl m2 h2 hg2 => ?_
    refine incref_then h2 (hrr.of_kept (hg1.trans hg2)) fun m3 h3 hg3 => ?_
    have hg := (hg1.trans hg2).trans hg3
    exact Ends.step (getValue_eq (hr.of_kept hg)) (rebuild h3.swap hg rv)
  · rw [if_neg hle]
    cases trl with
    | leaf => exact absurd (Nat.zero_le _) hle
    | node trll rlv trlr =>
      rw [HeightTree.rotateLeft, if_neg hle]
      obtain ⟨j, m, heq, hget', -, -, hrll, hrlr⟩ := hrl.cases_node
      rw [heq] at hrl ⊢
      refine Ends.step (getLeft_eq hget') (Ends.step (getRight_eq hget') ?_)
      refine incref_then h hrll fun m₁ h1 hg1 => ?_
      refine new_then h1.swap v fun nrl m2 h2 hg2 => ?_
      have hg := hg1.trans hg2
      refine incref_then h2 (hrlr.of_kept hg) fun m3 h3 hg3 => ?_
      refine incref_then h3 (hrr.of_kept (hg.trans hg3)) fun m4 h4 hg4 => ?_
      have hg := (hg.trans hg3).trans hg4
      refine Ends.step (getValue_eq (hr.of_kept hg)) ?_
      refine new_then h4.swap rv fun nrr m5 h5 hg5 => ?_
      exact Ends.step (getValue_eq (hrl.of_kept (hg.trans hg5))) (rebuild h5.swap (hg.trans hg5) rlv)

theorem balance_gives (h : Holds mem ((l, tl) ::ₘ (r, tr) ::ₘ L)) (v : V) :
    Gives (Node.balance l v r) mem L (HeightTree.balance 2 tl v tr) := by
  unfold HeightTree.balance
  split
  · rename_i hhigh
    cases tl with
    | leaf => simp [HeightTree.height] at hhigh
    | node tll lv tlr => exact balance_right h hhigh v
  · rename_i hleft
    split
    · rename_i hhigh
      cases tr with
      | leaf => simp [HeightTree.height] at hhigh
      | node trl rv trr => exact balance_left h hhigh v
    · rename_i hright
      have hl := h.roots _ (Multiset.mem_cons_self ..)
      have hr := h.roots _ (Multiset.mem_cons_of_mem (Multiset.mem_cons_self ..))
      unfold Node.balance
      refine Ends.step (getHeight_eq hl) (Ends.step (getHeight_eq hr) ?_)
      rw [if_neg hleft, if_neg hright]
      exact new_gives h v

theorem Borrowed.left (h : Borrowed mem L (some i) (.node tl v tr)) (hget : mem.nodes.get i = some n) :
    Borrowed mem L n.left tl := by
  obtain ⟨j, m, heq, hm, -, -, hl, -⟩ := h.2.cases_node
  cases heq
  cases hget.symm.trans hm
  exact ⟨.left h.1 hget, hl⟩

theorem Borrowed.right (h : Borrowed mem L (some i) (.node tl v tr)) (hget : mem.nodes.get i = some n) :
    Borrowed mem L n.right tr := by
  obtain ⟨j, m, heq, hm, -, -, -, hr⟩ := h.2.cases_node
  cases heq
  cases hget.symm.trans hm
  exact ⟨.right h.1 hget, hr⟩

theorem incref_gives (h : Holds mem L) (hr : Represents mem r t) : Gives (Node.incref r) mem L t :=
  (incref_ends h hr).imp fun _ _ h' => ⟨h'.1 ▸ h'.2.1, h'.2.2.keeps⟩

theorem rebuild_left {x : Prog (Memory V) Ref} (hx : Gives x mem L tl) (hb : Borrowed mem L r tr) (v : V) :
    Gives (do
      let left ← x
      let right ← Node.incref r
      Node.balance left v right) mem L (HeightTree.balance 2 tl v tr) := by
  refine Ends.andThen hx fun left m₁ h1 => ?_
  refine incref_then h1.1 (h1.2.borrowed hb).2 fun m2 h2 hg2 => ?_
  exact (balance_gives h2.swap v).after (h1.2.trans hg2.keeps)

theorem rebuild_right {x : Prog (Memory V) Ref} (h : Holds mem L) (hb : Borrowed mem L l tl)
    (hx : ∀ mem' L', L ≤ L' → Holds mem' L' → Keeps L mem mem' → Gives x mem' L' tr) (v : V) :
    Gives (do
      let left ← Node.incref l
      let right ← x
      Node.balance left v right) mem L (HeightTree.balance 2 tl v tr) := by
  refine incref_then h hb.2 fun m₁ h1 hg1 => ?_
  refine Ends.andThen (hx m₁ _ (Multiset.le_cons_self ..) h1 hg1.keeps) fun right m2 h2 => ?_
  exact (balance_gives h2.1.swap v).after (hg1.keeps.trans (h2.2.mono (Multiset.le_cons_self ..)))

theorem popMinFrom_ends (fuel : ℕ) (h : Holds mem L) (hb : Borrowed mem L r t) (hfuel : t.height ≤ fuel)
    (hne : t ≠ .leaf) :
    Ends (Node.popMinFrom fuel r) mem fun p mem' =>
      ∃ t', t.popMin 2 = some (p.1, t') ∧ Holds mem' ((p.2, t') ::ₘ L) ∧ Keeps L mem mem' := by
  induction t generalizing fuel mem r L with
  | leaf => exact absurd rfl hne
  | node tl v tr ihl ihr =>
    obtain ⟨i, n, rfl, hget, rfl, -, hl, hr⟩ := hb.2.cases_node
    obtain ⟨fuel, rfl, hlf, hrf⟩ := HeightTree.height_le hfuel
    refine Ends.step (get_eq hget) ?_
    split_ifs with hnone
    · obtain rfl := hl.none_iff.mp hnone
      refine incref_then h hr fun m₁ h1 hg1 => ?_
      exact Ends.pure ⟨tr, rfl, h1, hg1.keeps⟩
    · have hne' : tl ≠ .leaf := fun heq => hnone (hl.none_iff.mpr heq)
      refine (ihl _ h (hb.left hget) hlf hne').andThen fun p m₁ h1 => ?_
      obtain ⟨tl', hpop, h1, hk1⟩ := h1
      refine incref_then h1 (hk1.borrowed (hb.right hget)).2 fun m2 h2 hg2 => ?_
      refine Ends.andThen ((balance_gives h2.swap n.value).after (hk1.trans hg2.keeps)) fun res m3 h3 => ?_
      refine Ends.pure ⟨_, ?_, h3⟩
      rw [HeightTree.popMin, hpop]

theorem popMaxFrom_ends (fuel : ℕ) (h : Holds mem L) (hb : Borrowed mem L r t) (hfuel : t.height ≤ fuel)
    (hne : t ≠ .leaf) :
    Ends (Node.popMaxFrom fuel r) mem fun p mem' =>
      ∃ t', t.popMax 2 = some (p.1, t') ∧ Holds mem' ((p.2, t') ::ₘ L) ∧ Keeps L mem mem' := by
  induction t generalizing fuel mem r L with
  | leaf => exact absurd rfl hne
  | node tl v tr ihl ihr =>
    obtain ⟨i, n, rfl, hget, rfl, -, hl, hr⟩ := hb.2.cases_node
    obtain ⟨fuel, rfl, hlf, hrf⟩ := HeightTree.height_le hfuel
    refine Ends.step (get_eq hget) ?_
    split_ifs with hnone
    · obtain rfl := hr.none_iff.mp hnone
      refine incref_then h hl fun m₁ h1 hg1 => ?_
      exact Ends.pure ⟨tl, rfl, h1, hg1.keeps⟩
    · have hne' : tr ≠ .leaf := fun heq => hnone (hr.none_iff.mpr heq)
      refine incref_then h hl fun m₁ h1 hg1 => ?_
      have hb1 := (hg1.keeps.borrowed (hb.right hget)).mono (Multiset.le_cons_self L (n.left, tl))
      refine (ihr _ h1 hb1 hrf hne').andThen fun p m2 h2 => ?_
      obtain ⟨tr', hpop, h2, hk2⟩ := h2
      have hk := hg1.keeps.trans (hk2.mono (Multiset.le_cons_self ..))
      refine Ends.andThen ((balance_gives h2.swap n.value).after hk) fun res m3 h3 => ?_
      refine Ends.pure ⟨_, ?_, h3⟩
      rw [HeightTree.popMax, hpop]

section

variable {K : Type} {lt : K → K → Prop} [DecidableRel lt] {key : V → K}

theorem singleton_gives (h : Holds mem L) (v : V) :
    Gives (do
      let left ← Node.incref none
      let right ← Node.incref none
      Node.new left right v) mem L (.node .leaf v .leaf) := by
  refine incref_then h .leaf fun m₁ h1 hg1 => ?_
  refine incref_then h1 .leaf fun m2 h2 hg2 => ?_
  exact (new_gives h2 v).after (hg1.trans hg2).keeps

theorem insertFrom_gives (v : V) (fuel : ℕ) (h : Holds mem L) (hb : Borrowed mem L r t) (hfuel : t.height ≤ fuel) :
    Gives (Node.insertFrom lt key v fuel r) mem L (t.insert lt key 2 v) := by
  induction t generalizing fuel mem r L with
  | leaf =>
    obtain rfl := hb.2.none_iff.mpr rfl
    cases fuel <;> exact singleton_gives h v
  | node tl w tr ihl ihr =>
    obtain ⟨i, n, rfl, hget, rfl, -, hl, hr⟩ := hb.2.cases_node
    obtain ⟨fuel, rfl, hlf, hrf⟩ := HeightTree.height_le hfuel
    unfold HeightTree.insert Node.insertFrom
    refine Ends.step (get_eq hget) ?_
    split
    · exact rebuild_left (ihl _ h (hb.left hget) hlf) (hb.right hget) n.value
    · split
      · refine rebuild_right h (hb.left hget) (fun mem' L' hle h' hk => ?_) n.value
        exact ihr _ h' ((hk.borrowed (hb.right hget)).mono hle) hrf
      · exact incref_gives h hb.2

theorem replaceFrom_gives (v : V) (fuel : ℕ) (h : Holds mem L) (hb : Borrowed mem L r t) (hfuel : t.height ≤ fuel) :
    Gives (Node.replaceFrom lt key v fuel r) mem L (t.replace lt key 2 v) := by
  induction t generalizing fuel mem r L with
  | leaf =>
    obtain rfl := hb.2.none_iff.mpr rfl
    cases fuel <;> exact singleton_gives h v
  | node tl w tr ihl ihr =>
    obtain ⟨i, n, rfl, hget, rfl, -, hl, hr⟩ := hb.2.cases_node
    obtain ⟨fuel, rfl, hlf, hrf⟩ := HeightTree.height_le hfuel
    unfold HeightTree.replace Node.replaceFrom
    refine Ends.step (get_eq hget) ?_
    split
    · exact rebuild_left (ihl _ h (hb.left hget) hlf) (hb.right hget) n.value
    · split
      · refine rebuild_right h (hb.left hget) (fun mem' L' hle h' hk => ?_) n.value
        exact ihr _ h' ((hk.borrowed (hb.right hget)).mono hle) hrf
      · refine incref_then h hl fun m₁ h1 hg1 => ?_
        refine incref_then h1 (hr.of_kept hg1) fun m2 h2 hg2 => ?_
        exact (new_gives h2.swap v).after (hg1.trans hg2).keeps

theorem removeFrom_gives (k : K) (fuel : ℕ) (h : Holds mem L) (hb : Borrowed mem L r t) (hfuel : t.height ≤ fuel) :
    Gives (Node.removeFrom lt key k fuel r) mem L (t.remove lt key 2 k) := by
  induction t generalizing fuel mem r L with
  | leaf =>
    obtain rfl := hb.2.none_iff.mpr rfl
    cases fuel <;> exact incref_gives h .leaf
  | node tl w tr ihl ihr =>
    obtain ⟨i, n, rfl, hget, rfl, -, hl, hr⟩ := hb.2.cases_node
    obtain ⟨fuel, rfl, hlf, hrf⟩ := HeightTree.height_le hfuel
    unfold HeightTree.remove Node.removeFrom
    refine Ends.step (get_eq hget) ?_
    split
    · exact rebuild_left (ihl _ h (hb.left hget) hlf) (hb.right hget) n.value
    · split
      · refine rebuild_right h (hb.left hget) (fun mem' L' hle h' hk => ?_) n.value
        exact ihr _ h' ((hk.borrowed (hb.right hget)).mono hle) hrf
      · split
        · rename_i hnone
          obtain rfl := hl.none_iff.mp hnone
          exact incref_gives h hr
        · rename_i hleft
          cases tl with
          | leaf => exact absurd (hl.none_iff.mpr rfl) hleft
          | node tll lv tlr =>
            split
            · rename_i hnone
              obtain rfl := hr.none_iff.mp hnone
              exact incref_gives h hl
            · rename_i hright
              have hne : tr ≠ .leaf := fun heq => hright (hr.none_iff.mpr heq)
              have hpop := popMinFrom_ends fuel h (hb.right hget) hrf hne
              refine hpop.andThen fun p m₁ h1 => ?_
              obtain ⟨tr', hpop, h1, hk1⟩ := h1
              refine incref_then h1 (hk1.borrowed (hb.left hget)).2 fun m2 h2 hg2 => ?_
              rw [HeightTree.removeRoot, hpop]
              · exact (balance_gives h2 p.1).after (hk1.trans hg2.keeps)
              · rintro ⟨⟩

theorem sizeFrom_eq (fuel : ℕ) (ht : Represents mem r t) (hfuel : t.height ≤ fuel) :
    Node.sizeFrom fuel r mem = some (t.size, mem) := by
  induction ht generalizing fuel with
  | leaf => cases fuel <;> rfl
  | node get _ _ _ ihl ihr =>
    obtain ⟨fuel, rfl, hl, hr⟩ := HeightTree.height_le hfuel
    rw [Node.sizeFrom, bind_eq (get_eq get), bind_eq (ihl _ hl), bind_eq (ihr _ hr)]
    rfl

theorem lookupFrom_eq (k : K) (fuel : ℕ) (ht : Represents mem r t) (hfuel : t.height ≤ fuel) :
    Node.lookupFrom lt key k fuel r mem = some (t.lookup lt key k, mem) := by
  induction ht generalizing fuel with
  | leaf => cases fuel <;> rfl
  | node get _ _ _ ihl ihr =>
    obtain ⟨fuel, rfl, hl, hr⟩ := HeightTree.height_le hfuel
    rw [Node.lookupFrom, bind_eq (get_eq get), HeightTree.lookup]
    split_ifs
    · exact ihl _ hl
    · exact ihr _ hr
    · rfl

theorem countFrom_eq (k : K) (fuel : ℕ) (ht : Represents mem r t) (hfuel : t.height ≤ fuel) :
    Node.countFrom lt key k fuel r mem = some (if (t.lookup lt key k).isSome then 1 else 0, mem) := by
  induction ht generalizing fuel with
  | leaf => cases fuel <;> rfl
  | node get _ _ _ ihl ihr =>
    obtain ⟨fuel, rfl, hl, hr⟩ := HeightTree.height_le hfuel
    rw [Node.countFrom, bind_eq (get_eq get), HeightTree.lookup]
    split
    · exact ihl _ hl
    · split
      · exact ihr _ hr
      · rfl

theorem lookupPreviousFrom_eq (k : K) (fuel : ℕ) (result : Option V) (ht : Represents mem r t)
    (hfuel : t.height ≤ fuel) :
    Node.lookupPreviousFrom lt key k fuel r result mem = some ((t.lookupPrevious lt key k).or result, mem) := by
  induction ht generalizing fuel result with
  | leaf => cases fuel <;> rfl
  | node get _ _ _ ihl ihr =>
    obtain ⟨fuel, rfl, hl, hr⟩ := HeightTree.height_le hfuel
    rw [Node.lookupPreviousFrom, bind_eq (get_eq get), HeightTree.lookupPrevious]
    split
    · exact ihl _ result hl
    · split
      · rw [ihr _ _ hr, Option.or_assoc]
        rfl
      · rfl

theorem minFrom_eq (fuel : ℕ) (ht : Represents mem r t) (hfuel : t.height ≤ fuel) {a : V}
    (ha : t.toList.head? = some a) : Node.minFrom fuel r mem = some (a, mem) := by
  induction ht generalizing fuel with
  | leaf => cases ha
  | @node i n tl tr get left _ _ ihl _ =>
    obtain ⟨fuel, rfl, hl, -⟩ := HeightTree.height_le hfuel
    rw [Node.minFrom, bind_eq (get_eq get)]
    rw [HeightTree.toList, List.head?_append] at ha
    split_ifs with hnone
    · rw [left.none_iff.mp hnone] at ha
      cases ha
      rfl
    · refine ihl _ hl ?_
      cases tl with
      | leaf => exact absurd (left.none_iff.mpr rfl) hnone
      | node => simpa [HeightTree.toList, List.head?_append] using ha

theorem maxFrom_eq (fuel : ℕ) (ht : Represents mem r t) (hfuel : t.height ≤ fuel) {a : V}
    (ha : t.toList.getLast? = some a) : Node.maxFrom fuel r mem = some (a, mem) := by
  induction ht generalizing fuel with
  | leaf => cases ha
  | @node i n tl tr get _ right _ _ ihr =>
    obtain ⟨fuel, rfl, -, hr⟩ := HeightTree.height_le hfuel
    rw [Node.maxFrom, bind_eq (get_eq get)]
    rw [HeightTree.toList, List.append_cons] at ha
    split_ifs with hnone
    · rw [right.none_iff.mp hnone, HeightTree.toList, List.append_nil, List.getLast?_concat] at ha
      cases ha
      rfl
    · refine ihr _ hr ?_
      cases tr with
      | leaf => exact absurd (right.none_iff.mpr rfl) hnone
      | node => rwa [List.getLast?_append_of_ne_nil _ (by simp [HeightTree.toList])] at ha

end

structure Agrees {K : Type} (lt : K → K → Prop) [DecidableRel lt] (key : V → K) (mem : Memory V) (node : Ref)
    (m : EntryMap lt key) : Prop where
  size : size node mem = some (m.size, mem)
  count : ∀ k, ∃ c, count lt key node k mem = some (c, mem) ∧ c ≤ 1 ∧ (c = 1 ↔ ∃ a, m.IsEntry k a)
  lookup : ∀ k, ∃ o, lookup lt key node k mem = some (o, mem) ∧ ∀ a, o = some a ↔ m.IsEntry k a
  lookupPrevious : ∀ k, ∃ o, lookupPrevious lt key node k mem = some (o, mem) ∧ ∀ a, o = some a ↔ m.IsPrevious k a
  min : m.entries.Nonempty → ∃ a, min node mem = some (a, mem) ∧ m.IsMin a
  max : m.entries.Nonempty → ∃ a, max node mem = some (a, mem) ∧ m.IsMax a

section

variable {K : Type} {lt : K → K → Prop} [DecidableRel lt] [IsStrictWeakOrder K lt] {key : V → K}

theorem agrees {m : EntryMap lt key} (ht : Represents mem r t) (hm : t.Denotes m) : Agrees lt key mem r m where
  size := by rw [size, bind_eq (getHeight_eq ht), sizeFrom_eq _ ht (Nat.le_refl _), hm.size]
  count k := by
    refine ⟨if (t.lookup lt key k).isSome then 1 else 0, ?_, by split <;> omega, ?_⟩
    · rw [count, bind_eq (getHeight_eq ht), countFrom_eq k _ ht (Nat.le_refl _)]
    · simp only [← hm.lookup, ← Option.isSome_iff_exists]
      split <;> simp_all
  lookup k := by
    refine ⟨t.lookup lt key k, ?_, fun a => hm.lookup⟩
    rw [lookup, bind_eq (getHeight_eq ht), lookupFrom_eq k _ ht (Nat.le_refl _)]
  lookupPrevious k := by
    refine ⟨t.lookupPrevious lt key k, ?_, fun a => hm.lookupPrevious⟩
    rw [lookupPrevious, bind_eq (getHeight_eq ht), lookupPreviousFrom_eq k _ _ ht (Nat.le_refl _), Option.or_none]
  min := by
    rintro ⟨a, ha⟩
    have hhead := List.head?_eq_some_head (List.ne_nil_of_mem ((hm.mem a).mpr ha))
    exact ⟨_, by rw [min, bind_eq (getHeight_eq ht), minFrom_eq _ ht (Nat.le_refl _) hhead], hm.head.mp hhead⟩
  max := by
    rintro ⟨a, ha⟩
    have hlast := List.getLast?_eq_some_getLast (List.ne_nil_of_mem ((hm.mem a).mpr ha))
    exact ⟨_, by rw [max, bind_eq (getHeight_eq ht), maxFrom_eq _ ht (Nat.le_refl _) hlast], hm.last.mp hlast⟩

end

end Klee.ImmutableTree
