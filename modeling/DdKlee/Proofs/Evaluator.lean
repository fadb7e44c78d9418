import DdKlee.Proofs.Visitor
import DdKlee.Spec.Evaluator

/-! An evaluator returns an expression of the value of the one it visits, under
the assignments its initial values are right for. -/

namespace Klee

open Expr

mutual

theorem Expr.AllReads.imp {p q : Array → Expr → Prop} (hpq : ∀ root i, p root i → q root i) :
    ∀ {e : Expr}, e.AllReads p → e.AllReads q
  | .constant _, _ => trivial
  | .notOptimized src, h => Expr.AllReads.imp hpq (e := src) h
  | .read root _ i, ⟨hp, hhead, hi⟩ =>
    ⟨hpq root i hp, UpdateNode.AllReads.imp hpq hhead, Expr.AllReads.imp hpq hi⟩
  | .select _ _ _, ⟨hc, ht, hf⟩ =>
    ⟨Expr.AllReads.imp hpq hc, Expr.AllReads.imp hpq ht, Expr.AllReads.imp hpq hf⟩
  | .concat _ _, ⟨hl, hr⟩ => ⟨Expr.AllReads.imp hpq hl, Expr.AllReads.imp hpq hr⟩
  | .extract e _ _, h => Expr.AllReads.imp hpq (e := e) h
  | .not e, h => Expr.AllReads.imp hpq (e := e) h
  | .cast _ src _, h => Expr.AllReads.imp hpq (e := src) h
  | .binary _ _ _, ⟨hl, hr⟩ => ⟨Expr.AllReads.imp hpq hl, Expr.AllReads.imp hpq hr⟩

theorem UpdateNode.AllReads.imp {p q : Array → Expr → Prop} (hpq : ∀ root i, p root i → q root i) :
    ∀ {head : UpdateNode}, head.AllReads p → head.AllReads q
  | .null, _ => trivial
  | .node _ _ _, ⟨hn, hi, hv⟩ =>
    ⟨UpdateNode.AllReads.imp hpq hn, Expr.AllReads.imp hpq hi, Expr.AllReads.imp hpq hv⟩

end

mutual

theorem Expr.AllReads.forall {P : Bytes → Prop} {p : Array → Expr → Prop} {q : Bytes → Array → Expr → Prop} :
    ∀ {e : Expr}, e.AllReads p → (∀ σ, P σ → e.AllReads (q σ)) →
      e.AllReads fun root i => p root i ∧ ∀ σ, P σ → q σ root i
  | .constant _, _, _ => trivial
  | .notOptimized src, h, h' => Expr.AllReads.forall (e := src) h h'
  | .read _ _ _, ⟨hp, hhead, hi⟩, h' =>
    ⟨⟨hp, fun σ hσ => (h' σ hσ).1⟩, UpdateNode.AllReads.forall hhead fun σ hσ => (h' σ hσ).2.1,
      Expr.AllReads.forall hi fun σ hσ => (h' σ hσ).2.2⟩
  | .select _ _ _, ⟨hc, ht, hf⟩, h' =>
    ⟨Expr.AllReads.forall hc fun σ hσ => (h' σ hσ).1, Expr.AllReads.forall ht fun σ hσ => (h' σ hσ).2.1,
      Expr.AllReads.forall hf fun σ hσ => (h' σ hσ).2.2⟩
  | .concat _ _, ⟨hl, hr⟩, h' =>
    ⟨Expr.AllReads.forall hl fun σ hσ => (h' σ hσ).1, Expr.AllReads.forall hr fun σ hσ => (h' σ hσ).2⟩
  | .extract e _ _, h, h' => Expr.AllReads.forall (e := e) h h'
  | .not e, h, h' => Expr.AllReads.forall (e := e) h h'
  | .cast _ src _, h, h' => Expr.AllReads.forall (e := src) h h'
  | .binary _ _ _, ⟨hl, hr⟩, h' =>
    ⟨Expr.AllReads.forall hl fun σ hσ => (h' σ hσ).1, Expr.AllReads.forall hr fun σ hσ => (h' σ hσ).2⟩

theorem UpdateNode.AllReads.forall {P : Bytes → Prop} {p : Array → Expr → Prop}
    {q : Bytes → Array → Expr → Prop} :
    ∀ {head : UpdateNode}, head.AllReads p → (∀ σ, P σ → head.AllReads (q σ)) →
      head.AllReads fun root i => p root i ∧ ∀ σ, P σ → q σ root i
  | .null, _, _ => trivial
  | .node _ _ _, ⟨hn, hi, hv⟩, h' =>
    ⟨UpdateNode.AllReads.forall hn fun σ hσ => (h' σ hσ).1, Expr.AllReads.forall hi fun σ hσ => (h' σ hσ).2.1,
      Expr.AllReads.forall hv fun σ hσ => (h' σ hσ).2.2⟩

end

theorem Expr.AllReads.kid {p : Array → Expr → Prop} {e k : Expr} (h : e.AllReads p)
    (hk : k ∈ e.kids) : k.AllReads p := by
  cases e <;> simp only [kids, List.mem_cons, List.not_mem_nil, or_false] at hk
  case notOptimized => exact hk ▸ h
  case read => exact hk ▸ h.2.2
  case select => rcases hk with rfl | rfl | rfl; exacts [h.1, h.2.1, h.2.2]
  case concat => rcases hk with rfl | rfl; exacts [h.1, h.2]
  case extract => exact hk ▸ h
  case not => exact hk ▸ h
  case cast => exact hk ▸ h
  case binary => rcases hk with rfl | rfl; exacts [h.1, h.2]

theorem Expr.rebuild_kids_simplifies {P : Bytes → Prop} {e : Expr} (h : e.WellTyped) :
    Simplifies P e (e.rebuild e.kids) := by
  cases e with
  | constant c => exact Simplifies.refl h
  | notOptimized src => exact Simplifies.refl h
  | read root head index => exact ReadExpr_create_simplifies ⟨root, head⟩ h
  | select c t f => exact SelectExpr_create_simplifies h
  | concat l r => exact ConcatExpr_create_simplifies h
  | extract e off w => exact ExtractExpr_create_simplifies h
  | not e => exact NotExpr_create_simplifies h
  | cast k src w => exact k.create_simplifies h
  | binary k l r => exact k.create_simplifies h

namespace ExprEvaluator

variable {P : Bytes → Prop} {R : Array → Prop} {getInitialValue : InitialValue} {visit : Visit}

/-- The reads are of arrays in `R`, at indices that survive the passing as an
`unsigned`. -/
def ReadsFit (P : Bytes → Prop) (R : Array → Prop) : Expr → Prop :=
  Expr.AllReads fun root i => R root ∧ ∀ σ, P σ → (i.eval σ).toNat < 2 ^ 32

theorem readsFit_of_inBounds {e : Expr} (hR : e.AllReads fun root _ => R root)
    (hb : ∀ σ, P σ → e.InBounds σ) : ReadsFit P R e :=
  (hR.forall hb).imp fun root _ h => ⟨h.1, fun σ hσ => (h.2 σ hσ).trans root.size_lt⟩

/-- The initial value of an element may stand for its read. -/
def InitialOk (P : Bytes → Prop) (R : Array → Prop) (getInitialValue : InitialValue) : Prop :=
  ∀ root i, R root → i < 2 ^ root.domain → root.constantValues[i]? = none →
    Simplifies P (read root .null (ConstantExpr.alloc i root.domain)) (getInitialValue root i)

theorem simplifies_read_alloc {root : Array} {head : UpdateNode} {index : Expr} {c : APInt}
    (h : (read root head index).WellTyped) (hc : Simplifies P index (constant c))
    (hlt : ∀ σ, P σ → (index.eval σ).toNat < 2 ^ 32) :
    Simplifies P (read root head index)
      (read root head (ConstantExpr.alloc (c.toNat % 2 ^ 32) root.domain)) := by
  refine hc.readIndex h |>.trans (Simplifies.readIndex ?_ (hc.readIndex h).typed)
  refine ⟨trivial, ?_, fun σ hσ => ?_, le_rfl⟩
  · exact h.2.2.symm.trans hc.width.symm
  · have heval : c = index.eval σ := hc.eval σ hσ
    have hw : c.width = root.domain := hc.width.trans h.2.2
    have hcl := c.toNat_lt
    simp only [Expr.eval, ConstantExpr.alloc]
    rw [Nat.mod_eq_of_lt (heval ▸ hlt σ hσ), ← hw]
    exact APInt.eq_of_toNat rfl (by rw [APInt.toNat_ofNat, Nat.mod_eq_of_lt hcl])

theorem evalRead_ok (hinit : InitialOk P R getInitialValue) {n : ℕ}
    (hvisit : ExprVisitor.VisitOk P False (ReadsFit P R) n visit) {root : Array} (hroot : R root)
    {index : ℕ} (hindex : index < 2 ^ root.domain) (head : UpdateNode) :
    ∀ visited, ExprVisitor.VisitedSound P False (ReadsFit P R) visited → head.WellTyped root →
      head.AllReads (fun root i => R root ∧ ∀ σ, P σ → (i.eval σ).toNat < 2 ^ 32) →
      head.weight < n →
      ∃ r visited', evalRead getInitialValue visit root index visited head = some (r, visited') ∧
        ExprVisitor.VisitedSound P False (ReadsFit P R) visited' ∧
        Simplifies P (read root head (ConstantExpr.alloc index root.domain)) r := by
  have htoNat : (APInt.ofNat root.domain index).toNat = index := by
    rw [APInt.toNat_ofNat, Nat.mod_eq_of_lt hindex]
  induction head with
  | null =>
    intro visited hs _ _ _
    unfold evalRead
    rcases hv : root.constantValues[index]? with _ | v
    · exact ⟨_, _, rfl, hs, hinit root index hroot hindex hv⟩
    · refine ⟨_, _, rfl, hs, Simplifies.const (root.constant_range v (List.mem_of_getElem? hv)) ?_⟩
      intro σ _
      simp only [Expr.eval, UpdateNode.lookup, ConstantExpr.alloc, htoNat, Array.initial, hv]
  | node next i v ih =>
    intro visited hs ht hreads hlt
    obtain ⟨hnext, hi, hv, hiw, hvw⟩ := id ht
    obtain ⟨hnextr, hir, hvr⟩ := hreads
    simp only [UpdateNode.weight] at hlt
    obtain ⟨ui, visited1, hui, hs1, hshrink⟩ := hvisit visited i hs hi hir (by omega)
    simp only [evalRead, hui, some_bind]
    split
    · rename_i c
      have hread : ∀ σ, P σ → (UpdateNode.node next i v).lookup σ root (APInt.ofNat root.domain index) =
          if c = APInt.ofNat root.domain index then v.eval σ
          else next.lookup σ root (APInt.ofNat root.domain index) := by
        intro σ hσ
        rw [UpdateNode.lookup, ← hshrink.eval σ hσ]
        rfl
      split_ifs with hc
      · -- the update at this index
        obtain ⟨r, visited2, hr, hs2, hv'⟩ := hvisit visited1 v hs1 hv hvr (by omega)
        have heq : c = APInt.ofNat root.domain index :=
          APInt.eq_of_toNat (hshrink.width.trans hiw) (hc.trans htoNat.symm)
        refine ⟨r, visited2, hr, hs2, hv'.typed, hv'.width.trans hvw, fun σ hσ => ?_, ?_⟩
        · exact (hv'.eval σ hσ).trans ((hread σ hσ).trans (if_pos heq)).symm
        · have := hv'.weight
          simp only [Expr.weight, UpdateNode.weight]
          omega
      · -- an update at another index
        obtain ⟨r, visited2, hr, hs2, hsimp⟩ := ih visited1 hs1 hnext hnextr (by omega)
        have hne : c ≠ APInt.ofNat root.domain index := fun h => hc (by rw [h, htoNat])
        have hskip : Simplifies P (read root (.node next i v) (ConstantExpr.alloc index root.domain))
            (read root next (ConstantExpr.alloc index root.domain)) := by
          refine ⟨⟨hnext, trivial, rfl⟩, rfl, fun σ hσ => ?_, ?_⟩
          · exact ((hread σ hσ).trans (if_neg hne)).symm
          · simp only [Expr.weight, UpdateNode.weight]
            omega
        exact ⟨r, visited2, hr, hs2, hskip.trans hsimp⟩
    · exact ⟨_, _, rfl, hs1, ReadExpr_create_simplifies ⟨root, .node next i v⟩ ⟨ht, trivial, rfl⟩⟩

theorem visitRead_ok (hinit : InitialOk P R getInitialValue) {root : Array} {head : UpdateNode}
    {index : Expr}
    (hvisit : ExprVisitor.VisitOk P False (ReadsFit P R) (read root head index).weight visit)
    {visited : Visited} (hs : ExprVisitor.VisitedSound P False (ReadsFit P R) visited)
    (h : (read root head index).WellTyped) (hr : ReadsFit P R (read root head index)) :
    ∃ a visited', visitRead getInitialValue visit visited root head index = some (a, visited') ∧
      ExprVisitor.VisitedSound P False (ReadsFit P R) visited' ∧
      ∀ r, a = .changeTo r → Simplifies P (read root head index) r := by
  obtain ⟨⟨hroot, hlt⟩, hhead, hi⟩ := hr
  obtain ⟨v, visited1, hv, hs1, hshrink⟩ := hvisit visited index hs h.2.1 hi
    (by simp only [Expr.weight]; omega)
  simp only [visitRead, hv, some_bind]
  split
  · rename_i c
    have hc : c.toNat % 2 ^ 32 < 2 ^ root.domain :=
      lt_of_le_of_lt (Nat.mod_le _ _) (by rw [← h.2.2, ← hshrink.width]; exact c.toNat_lt)
    have hpos := Expr.weight_pos index
    obtain ⟨r, visited2, hrun, hs2, hsimp⟩ := evalRead_ok hinit hvisit hroot hc head visited1 hs1 h.1
      hhead (by simp only [Expr.weight]; omega)
    refine ⟨.changeTo r, visited2, by rw [hrun]; rfl, hs2, fun r' hr' => ?_⟩
    cases hr'
    exact (simplifies_read_alloc h hshrink.toSimplifies hlt).trans hsimp
  · exact ⟨.doChildren, visited1, rfl, hs1, fun r hr => by cases hr⟩

theorem protectedDivOperation_ok {Q : Expr → Prop} {k : BinaryKind} {left right : Expr}
    (hvisit : ExprVisitor.VisitOk P False Q (binary k left right).weight visit) {visited : Visited}
    (hs : ExprVisitor.VisitedSound P False Q visited) (h : (binary k left right).WellTyped)
    (hl : Q left) (hr : Q right) :
    ∃ a visited', protectedDivOperation visit visited k left right = some (a, visited') ∧
      ExprVisitor.VisitedSound P False Q visited' ∧
      ∀ r, a = .changeTo r → Simplifies P (binary k left right) r := by
  have hpos := k.weight_pos
  obtain ⟨left', visited1, hl', hs1, hshrinkl⟩ := hvisit visited left hs h.1 hl
    (by simp only [Expr.weight]; omega)
  obtain ⟨right', visited2, hr', hs2, hshrinkr⟩ := hvisit visited1 right hs1 h.2.1 hr
    (by simp only [Expr.weight]; omega)
  have hcreate : ∀ s, Simplifies P right s → Simplifies P (binary k left right) (k.create left' s) := by
    intro s hs
    have hnode := hshrinkl.toSimplifies.binary hs h
    exact hnode.trans (k.create_simplifies hnode.typed)
  simp only [protectedDivOperation, hl', hr', some_bind]
  split_ifs
  · refine ⟨_, visited2, rfl, hs2, fun r hr => ?_⟩
    cases hr
    refine hcreate _ ?_
    split
    · split_ifs
      · exact Simplifies.refl h.2.1
      · exact hshrinkr.toSimplifies
    · exact hshrinkr.toSimplifies
  · exact ⟨.skipChildren, visited2, rfl, hs2, fun r hr => by cases hr⟩

theorem sound (hinit : InitialOk P R getInitialValue) :
    (ExprEvaluator getInitialValue).Sound P False (ReadsFit P R) where
  recursive h := by cases h
  kids hq hk := hq.kid hk
  visitExpr {e r} he _ _ hr := by
    simp only [ExprEvaluator, visitExpr] at hr
    split at hr
    · cases hr
    · split_ifs at hr
      cases hr
      exact (Expr.rebuild_kids_simplifies he).shrinks
  visitKind {visit visited e} hvisit hs he hq := by
    -- a division folds unless its divisor is zero
    have hdiv : ∀ k l r, e = binary k l r →
        ∃ a visited', protectedDivOperation visit visited k l r = some (a, visited') ∧
          ExprVisitor.VisitedSound P False (ReadsFit P R) visited' ∧
          ∀ s, a = .changeTo s → Shrinks P False e s := by
      rintro k l r rfl
      obtain ⟨a, visited', hrun, hs', hsimp⟩ := protectedDivOperation_ok hvisit hs he hq.1 hq.2
      exact ⟨a, visited', hrun, hs', fun s hs => (hsimp s hs).shrinks⟩
    simp only [ExprEvaluator, visitKind]
    split
    · obtain ⟨a, visited', hrun, hs', hsimp⟩ := visitRead_ok hinit hvisit hs he hq
      exact ⟨a, visited', hrun, hs', fun s hs => (hsimp s hs).shrinks⟩
    · exact hdiv _ _ _ rfl
    · exact hdiv _ _ _ rfl
    · exact hdiv _ _ _ rfl
    · exact hdiv _ _ _ rfl
    · exact ⟨.doChildren, visited, rfl, hs, fun r hr => by cases hr⟩
  visitExprPost {e r} he _ hr := by
    simp only [ExprEvaluator, visitExprPost] at hr
    split at hr
    · cases hr
      exact Simplifies.shrinks ⟨he, rfl, fun σ _ => rfl, by simp only [Expr.weight]; omega⟩
    · cases hr

end ExprEvaluator

end Klee
