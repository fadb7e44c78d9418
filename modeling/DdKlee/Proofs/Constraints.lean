import DdKlee.Spec.Constraints
import DdKlee.Proofs.Create.Folded
import DdKlee.Proofs.Visitor

/-! The constraint manager keeps exactly the path condition. What bounds the
mutual recursion of `addConstraintInternal` and `rewriteConstraints` is the
total weight of the constraints in place and to be added: a rewritten constraint
is lighter than the one it comes from, and a conjunction is heavier than its two
sides. -/

namespace Klee

open Expr

def IsConstraint (e : Expr) : Prop := e.WellTyped ∧ e.getWidth = 1

instance (e : Expr) : Decidable (IsConstraint e) :=
  inferInstanceAs (Decidable (e.WellTyped ∧ e.getWidth = 1))

def totalWeight (cs : List Expr) : ℕ := (cs.map Expr.weight).sum

@[simp] theorem totalWeight_nil : totalWeight [] = 0 := rfl

@[simp] theorem totalWeight_cons (c : Expr) (cs : List Expr) :
    totalWeight (c :: cs) = c.weight + totalWeight cs := rfl

@[simp] theorem totalWeight_append (cs ds : List Expr) :
    totalWeight (cs ++ ds) = totalWeight cs + totalWeight ds := by
  simp [totalWeight]

@[simp] theorem mem_models_nil (σ : Bytes) : σ ∈ Models [] := by simp [Models]

@[simp] theorem mem_models_cons {σ : Bytes} {c : Expr} {cs : List Expr} :
    σ ∈ Models (c :: cs) ↔ c.holds σ ∧ σ ∈ Models cs := by simp [Models]

@[simp] theorem mem_models_append {σ : Bytes} {cs ds : List Expr} :
    σ ∈ Models (cs ++ ds) ↔ σ ∈ Models cs ∧ σ ∈ Models ds := by
  simp [Models, or_imp, forall_and]

theorem holds_constant {c : APInt} {σ : Bytes} :
    (constant c).holds σ ↔ ConstantExpr.isTrue c = true := by
  rw [isTrue_iff]; rfl

theorem holds_and {l r : Expr} (h : IsConstraint (binary .and l r)) {σ : Bytes} :
    (binary .and l r).holds σ ↔ l.holds σ ∧ r.holds σ := by
  obtain ⟨⟨hl, hr, hlr⟩, hw⟩ := h
  have hlw : l.getWidth = 1 := hw
  obtain ⟨p, hp⟩ := Expr.exists_bool σ hl hlw
  obtain ⟨q, hq⟩ := Expr.exists_bool σ hr (hlr ▸ hlw)
  simp only [holds, Expr.eval, hp, hq]
  cases p <;> cases q <;> decide

theorem holds_eq_constant {c : APInt} {r : Expr} (h : (binary .eq (constant c) r).WellTyped)
    {σ : Bytes} : (binary .eq (constant c) r).holds σ ↔ c = r.eval σ := by
  rw [holds, Expr.eval, BinaryKind.apply, APInt.ofBool_inj, APInt.eq_iff (eval_width_eq h σ), Expr.eval]

theorem Simplifies.holds_iff {P : Bytes → Prop} {e r : Expr} (h : Simplifies P e r) {σ : Bytes}
    (hσ : P σ) : r.holds σ ↔ e.holds σ := by
  rw [holds, holds, h.eval σ hσ]

theorem Simplifies.isConstraint {P : Bytes → Prop} {e r : Expr} (h : Simplifies P e r)
    (he : IsConstraint e) : IsConstraint r :=
  ⟨h.typed, h.width.trans he.2⟩

theorem AndExpr_create_ok {l r : Expr} (hl : IsConstraint l) (hr : IsConstraint r) :
    IsConstraint (AndExpr.create l r) ∧ ∀ σ, (AndExpr.create l r).holds σ ↔ l.holds σ ∧ r.holds σ := by
  have hand : IsConstraint (binary .and l r) := ⟨⟨hl.1, hr.1, hl.2.trans hr.2.symm⟩, hl.2⟩
  have hs := AndExpr_create_simplifies (P := fun _ => True) hand.1
  exact ⟨hs.isConstraint hand, fun σ => (hs.holds_iff trivial).trans (holds_and hand)⟩

theorem foldl_AndExpr_create_ok (es : List Expr) : ∀ acc : Expr, (∀ e ∈ es, IsConstraint e) → IsConstraint acc →
    IsConstraint (es.foldl AndExpr.create acc) ∧
      ∀ σ, (es.foldl AndExpr.create acc).holds σ ↔ acc.holds σ ∧ ∀ e ∈ es, e.holds σ := by
  induction es with
  | nil => exact fun acc _ hacc => ⟨hacc, fun σ => by simp⟩
  | cons e es ih =>
    intro acc hes hacc
    obtain ⟨he, hes⟩ := List.forall_mem_cons.mp hes
    obtain ⟨hand, hand'⟩ := AndExpr_create_ok hacc he
    obtain ⟨htyped, hholds⟩ := ih (AndExpr.create acc e) hes hand
    refine ⟨htyped, fun σ => ?_⟩
    rw [List.foldl_cons, hholds, hand', List.forall_mem_cons, and_assoc]

theorem ExprReplaceVisitor_sound {c : APInt} {r : Expr} (h : (binary .eq (constant c) r).WellTyped) :
    (ExprReplaceVisitor r (constant c)).Sound (fun σ => (binary .eq (constant c) r).holds σ) True
      fun _ => True := by
  have hreplace : ∀ {e s : Expr}, e.isConstant = false →
      (if e = r then Action.changeTo (constant c) else .doChildren) = .changeTo s →
      Shrinks (fun σ => (binary .eq (constant c) r).holds σ) True e s := by
    intro e s he hs
    split_ifs at hs with heq
    cases hs
    subst heq
    exact Shrinks.const he h.2.2 fun σ hσ => (holds_eq_constant h).mp hσ
  exact ⟨by simp, fun _ _ => trivial, fun _ _ he hs => hreplace he hs,
    fun {visit visited e} _ hv _ _ => ⟨.doChildren, visited, rfl, hv, fun r hr => (by cases hr)⟩,
    fun _ he hs => hreplace he hs⟩

theorem ExprReplaceVisitor2_sound {cs : List Expr} (hcs : ∀ c ∈ cs, IsConstraint c) :
    (ExprReplaceVisitor2 (cs.map ConstraintManager.equality)).Sound (· ∈ Models cs) True
      fun _ => True := by
  refine ⟨by simp, fun _ _ => trivial, fun _ _ _ hs => (by cases hs),
    fun {visit visited e} _ hv _ _ => ⟨.doChildren, visited, rfl, hv, fun r hr => (by cases hr)⟩,
    fun {e s} _ he hs => ?_⟩
  simp only [ExprReplaceVisitor2] at hs
  split at hs
  · rename_i hlookup
    cases hs
    obtain ⟨l1, l2, hmap, -⟩ := List.lookup_eq_some_iff.mp hlookup
    have hmem : (e, s) ∈ cs.map ConstraintManager.equality := by rw [hmap]; simp
    obtain ⟨c, hc, heq⟩ := List.mem_map.mp hmem
    obtain ⟨hct, hcw⟩ := hcs c hc
    unfold ConstraintManager.equality at heq
    split at heq
    · cases heq
      exact Shrinks.const he hct.2.2 fun σ hσ => (holds_eq_constant hct).mp (hσ _ hc)
    · cases heq
      exact Shrinks.const he hcw.symm fun σ hσ => (hσ _ hc).symm
  · cases hs

namespace ConstraintManager

/-- On constraints and a constraint of total weight below `n` that can hold
together, `add` returns constraints with the common models, no heavier. -/
def AddOk (n : ℕ) (add : List Expr → Expr → Except ConstraintError (List Expr)) : Prop :=
  ∀ cs e, (∀ c ∈ cs, IsConstraint c) → IsConstraint e → totalWeight cs + e.weight < n →
    (∃ σ ∈ Models cs, e.holds σ) →
    ∃ cs', add cs e = .ok cs' ∧ (∀ c ∈ cs', IsConstraint c) ∧
      totalWeight cs' ≤ totalWeight cs + e.weight ∧
      ∀ σ, σ ∈ Models cs' ↔ σ ∈ Models cs ∧ e.holds σ

theorem rewriteConstraints_ok {P : Bytes → Prop} {n : ℕ} {visit : Visit}
    {add : List Expr → Expr → Except ConstraintError (List Expr)}
    (hvisit : ExprVisitor.VisitOk P True (fun _ => True) n visit) (hadd : AddOk n add) (old : List Expr) :
    ∀ visited cs, ExprVisitor.VisitedSound P True (fun _ => True) visited → (∀ c ∈ cs, IsConstraint c) →
      (∀ c ∈ old, IsConstraint c) → totalWeight cs + totalWeight old < n →
      (∃ σ, P σ ∧ σ ∈ Models cs ∧ σ ∈ Models old) →
      ∃ changed cs', rewriteConstraints visit add visited cs old = .ok (changed, cs') ∧
        (∀ c ∈ cs', IsConstraint c) ∧ totalWeight cs' ≤ totalWeight cs + totalWeight old ∧
        ∀ σ, P σ → (σ ∈ Models cs' ↔ σ ∈ Models cs ∧ σ ∈ Models old) := by
  induction old with
  | nil => exact fun _ cs _ hcs _ _ _ => ⟨false, cs, rfl, hcs, by simp, by simp⟩
  | cons ce old ih =>
    intro visited cs hs hcs hold hlt hsat
    obtain ⟨σ, hσ, hσcs, hσold⟩ := hsat
    obtain ⟨hce, hold⟩ := List.forall_mem_cons.mp hold
    simp only [totalWeight_cons] at hlt
    obtain ⟨e, visited1, hrun, hs1, hshrink⟩ := hvisit visited ce hs hce.1 trivial (by omega)
    have hle := hshrink.weight
    rw [mem_models_cons] at hσold
    simp only [rewriteConstraints, hrun]
    split_ifs with hne
    · obtain ⟨cs1, hcs1, hok, hw1, hmodels⟩ := hadd cs e hcs (hshrink.isConstraint hce) (by omega)
        ⟨σ, hσcs, (hshrink.holds_iff hσ).mpr hσold.1⟩
      obtain ⟨changed, cs2, hrest, hok2, hw2, hmodels2⟩ := ih visited1 cs1 hs1 hok hold (by omega)
        ⟨σ, hσ, (hmodels σ).mpr ⟨hσcs, (hshrink.holds_iff hσ).mpr hσold.1⟩, hσold.2⟩
      refine ⟨true, cs2, ?_, hok2, by simp only [totalWeight_cons]; omega, fun τ hτ => ?_⟩
      · simp only [hcs1, hrest, bind, Except.bind, pure, Except.pure]
      · rw [hmodels2 τ hτ, hmodels, hshrink.holds_iff hτ, mem_models_cons, and_assoc]
    · obtain ⟨changed, cs2, hrest, hok2, hw2, hmodels2⟩ := ih visited1 (cs ++ [ce]) hs1
        (by simpa [or_imp, forall_and] using ⟨hcs, hce⟩) hold (by simp; omega)
        ⟨σ, hσ, by simp [hσcs, hσold.1], hσold.2⟩
      refine ⟨changed, cs2, hrest, hok2, by simp at hw2 ⊢; omega, fun τ hτ => ?_⟩
      rw [hmodels2 τ hτ, mem_models_append, mem_models_cons, mem_models_cons]
      simp [and_assoc]

theorem addConstraintInternal_ok (opts : ConstraintOptions) (n : ℕ) :
    AddOk n (addConstraintInternal opts n) := by
  induction n with
  | zero => exact fun _ _ _ _ h => absurd h (Nat.not_lt_zero _)
  | succ n ih =>
    intro cs e hcs he hlt hsat
    obtain ⟨σ, hσ, hσe⟩ := hsat
    -- a constraint that is stored as it is
    have hstore : ∀ cs', (∀ c ∈ cs', IsConstraint c) → totalWeight cs' ≤ totalWeight cs →
        (∀ τ, e.holds τ → (τ ∈ Models cs' ↔ τ ∈ Models cs)) →
        (∀ c ∈ cs' ++ [e], IsConstraint c) ∧
          totalWeight (cs' ++ [e]) ≤ totalWeight cs + e.weight ∧
          ∀ τ, τ ∈ Models (cs' ++ [e]) ↔ τ ∈ Models cs ∧ e.holds τ := by
      intro cs' hcs' hw hmodels
      refine ⟨by simpa [or_imp, forall_and] using ⟨hcs', he⟩, by simp; omega, fun τ => ?_⟩
      simp only [mem_models_append, mem_models_cons, mem_models_nil, and_true]
      exact and_congr_left fun hτ => hmodels τ hτ
    have hkeep := hstore cs hcs le_rfl fun _ _ => Iff.rfl
    rw [addConstraintInternal.eq_def]
    simp only
    split
    · rename_i c
      have htrue := holds_constant.mp hσe
      rw [if_pos htrue]
      exact ⟨cs, rfl, hcs, by omega, fun τ => by simp [holds_constant.mpr htrue]⟩
    · rename_i left right
      obtain ⟨⟨hl, hr, hlr⟩, hw⟩ := he
      have hlw : left.getWidth = 1 := hw
      have hand := fun τ => holds_and (l := left) (r := right) (σ := τ) ⟨⟨hl, hr, hlr⟩, hw⟩
      have hpos := BinaryKind.and.weight_pos
      simp only [Expr.weight] at hlt ⊢
      obtain ⟨cs1, hrun1, hok1, hw1, hmodels1⟩ := ih cs left hcs ⟨hl, hlw⟩ (by omega)
        ⟨σ, hσ, ((hand σ).mp hσe).1⟩
      obtain ⟨cs2, hrun2, hok2, hw2, hmodels2⟩ := ih cs1 right hok1 ⟨hr, hlr ▸ hlw⟩ (by omega)
        ⟨σ, (hmodels1 σ).mpr ⟨hσ, ((hand σ).mp hσe).1⟩, ((hand σ).mp hσe).2⟩
      refine ⟨cs2, by rw [hrun1]; exact hrun2, hok2, by omega, fun τ => ?_⟩
      rw [hmodels2, hmodels1, hand, and_assoc]
    · rename_i c right
      split_ifs with hopt
      · have hpos := Expr.weight_pos right
        simp only [Expr.weight] at hlt
        obtain ⟨changed, cs', hrun, hok, hw, hmodels⟩ := rewriteConstraints_ok
          (ExprVisitor.visit_ok (ExprReplaceVisitor_sound he.1) opts.useVisitorHash n) ih cs [] []
          ExprVisitor.VisitedSound.nil (by simp) hcs (by simp; omega) ⟨σ, hσe, by simp, hσ⟩
        obtain ⟨hok', hw', hmodels'⟩ := hstore cs' hok (by simpa using hw)
          fun τ hτ => by simpa using hmodels τ hτ
        exact ⟨_, by rw [hrun]; rfl, hok', hw', hmodels'⟩
      · exact ⟨_, rfl, hkeep⟩
    · exact ⟨_, rfl, hkeep⟩

theorem simplifyExpr_ok (opts : ConstraintOptions) {cs : List Expr} {e : Expr} {n : ℕ}
    (hcs : ∀ c ∈ cs, IsConstraint c) (he : e.WellTyped) (hn : e.weight < n) :
    ∃ r, simplifyExpr opts n cs e = .ok r ∧ Simplifies (· ∈ Models cs) e r := by
  unfold simplifyExpr
  split_ifs with hc
  · exact ⟨e, rfl, Simplifies.refl he⟩
  · obtain ⟨r, visited, hrun, -, hr⟩ := ExprVisitor.visit_ok (ExprReplaceVisitor2_sound hcs)
      opts.useVisitorHash n [] e ExprVisitor.VisitedSound.nil he trivial hn
    exact ⟨r, by rw [hrun], hr.toSimplifies⟩

theorem addConstraint_ok (opts : ConstraintOptions) (n : ℕ) : AddOk n (addConstraint opts n) := by
  intro cs e hcs he hlt hsat
  obtain ⟨σ, hσ, hσe⟩ := hsat
  obtain ⟨r, hrun, hr⟩ := simplifyExpr_ok opts hcs he.1 (lt_of_le_of_lt (Nat.le_add_left _ _) hlt)
  have hle := hr.weight
  obtain ⟨cs', hadd, hok, hw, hmodels⟩ := addConstraintInternal_ok opts n cs r hcs
    (hr.isConstraint he) (by omega) ⟨σ, hσ, (hr.holds_iff hσ).mpr hσe⟩
  refine ⟨cs', by rw [addConstraint, hrun]; exact hadd, hok, by omega, fun τ => ?_⟩
  rw [hmodels]
  exact and_congr_right fun hτ => hr.holds_iff hτ

theorem addConstraints_ok (opts : ConstraintOptions) (n : ℕ) (es : List Expr) :
    ∀ cs, (∀ c ∈ cs, IsConstraint c) → (∀ e ∈ es, IsConstraint e) →
      totalWeight cs + totalWeight es < n → (∃ σ, σ ∈ Models cs ∧ σ ∈ Models es) →
      ∃ cs', addConstraints opts n cs es = .ok cs' ∧ (∀ c ∈ cs', IsConstraint c) ∧
        ∀ σ, σ ∈ Models cs' ↔ σ ∈ Models cs ∧ σ ∈ Models es := by
  induction es with
  | nil => exact fun cs hcs _ _ _ => ⟨cs, rfl, hcs, by simp⟩
  | cons e es ih =>
    intro cs hcs hes hlt hsat
    obtain ⟨σ, hσ, hσes⟩ := hsat
    obtain ⟨he, hes⟩ := List.forall_mem_cons.mp hes
    rw [mem_models_cons] at hσes
    simp only [totalWeight_cons] at hlt
    obtain ⟨cs1, hrun1, hok1, hw1, hmodels1⟩ := addConstraint_ok opts n cs e hcs he (by omega)
      ⟨σ, hσ, hσes.1⟩
    obtain ⟨cs2, hrun2, hok2, hmodels2⟩ := ih cs1 hok1 hes (by omega)
      ⟨σ, (hmodels1 σ).mpr ⟨hσ, hσes.1⟩, hσes.2⟩
    refine ⟨cs2, ?_, hok2, fun τ => ?_⟩
    · rw [addConstraints, List.foldlM_cons, hrun1]
      exact hrun2
    · rw [hmodels2, hmodels1, mem_models_cons, and_assoc]

/-- The constraint manager keeps exactly the path condition. For constraints
that can hold together the calls of `addConstraint` return and no assertion
fails, the stored constraints have the models of the added ones, and
`simplifyExpr` keeps the value of every expression under these models. -/
theorem addConstraints_models (opts : ConstraintOptions) (es : List Expr)
    (hes : ∀ e ∈ es, IsConstraint e) (hsat : ∃ σ, σ ∈ Models es) (fuel : ℕ)
    (hfuel : totalWeight es < fuel) :
    ∃ cs, addConstraints opts fuel [] es = .ok cs ∧ (∀ σ, σ ∈ Models cs ↔ σ ∈ Models es) ∧
      ∀ e, e.WellTyped → ∀ fuel', e.weight < fuel' → ∃ r, simplifyExpr opts fuel' cs e = .ok r ∧
        ∀ σ ∈ Models cs, r.eval σ = e.eval σ := by
  obtain ⟨σ, hσ⟩ := hsat
  obtain ⟨cs, hrun, hok, hmodels⟩ := addConstraints_ok opts fuel es [] (by simp) hes (by simpa using hfuel)
    ⟨σ, by simp, hσ⟩
  refine ⟨cs, hrun, fun τ => by simpa using hmodels τ, fun e he fuel' hfuel' => ?_⟩
  obtain ⟨r, hr, hshrink⟩ := simplifyExpr_ok opts hok he hfuel'
  exact ⟨r, hr, hshrink.eval⟩

/-- `x < 10` and then `5 == x`, which rewrites the first constraint away. -/
theorem addConstraints_models_rewrite :
    let x := Expr.read (Array.symbolic 0 "x" 1 (by decide)) .null (constant (APInt.ofNat 32 0))
    let es := [binary .ult x (constant (APInt.ofNat 8 10)), binary .eq (constant (APInt.ofNat 8 5)) x]
    (∀ e ∈ es, IsConstraint e) ∧ (∃ σ, σ ∈ Models es) ∧ totalWeight es < 50 ∧
      ∃ cs, addConstraints {} 50 [] es = .ok cs ∧ ∀ σ, σ ∈ Models cs ↔ σ ∈ Models es := by
  intro x es
  have hes : ∀ e ∈ es, IsConstraint e := by decide
  have hsat : ∃ σ, σ ∈ Models es :=
    ⟨fun _ _ => 5, show ∀ c ∈ es, c.holds (fun _ _ => 5) by decide⟩
  obtain ⟨cs, hrun, hmodels, -⟩ := addConstraints_models {} es hes hsat 50 (by decide)
  exact ⟨hes, hsat, by decide, cs, hrun, hmodels⟩

end ConstraintManager

theorem Expr.Folded.of_mem_kids {e k : Expr} (he : e.Folded) (hk : k ∈ e.kids) : k.Folded := by
  cases e with
  | constant c => simp [kids] at hk
  | notOptimized src => exact he.elim
  | read root head index => rw [List.mem_singleton.mp hk]; exact he.2.1
  | select c t f =>
    simp only [kids, List.mem_cons, List.not_mem_nil, or_false] at hk
    rcases hk with rfl | rfl | rfl
    · exact he.1
    · exact he.2.1
    · exact he.2.2.1
  | concat l r =>
    simp only [kids, List.mem_cons, List.not_mem_nil, or_false] at hk
    rcases hk with rfl | rfl
    · exact he.1
    · exact he.2.1
  | extract e off w => rw [List.mem_singleton.mp hk]; exact he.1
  | not e => rw [List.mem_singleton.mp hk]; exact he.1
  | cast b src w => rw [List.mem_singleton.mp hk]; exact he.1
  | binary b l r =>
    simp only [kids, List.mem_cons, List.not_mem_nil, or_false] at hk
    rcases hk with rfl | rfl
    · exact he.1
    · exact he.2.1

theorem Expr.Folded.rebuild {e : Expr} {ks : List Expr} (he : e.Folded) (hks : ∀ k ∈ ks, k.Folded) :
    (e.rebuild ks).Folded := by
  unfold Expr.rebuild
  split
  · exact he.elim
  · exact ReadExpr_create_folded _ he.1 (hks _ (by simp))
  · exact folded_closed.SelectExpr_create (hks _ (by simp)) (hks _ (by simp)) (hks _ (by simp))
  · exact folded_closed.ConcatExpr_create (hks _ (by simp)) (hks _ (by simp))
  · exact folded_closed.ExtractExpr_create _ _ (hks _ (by simp))
  · exact folded_closed.NotExpr_create (hks _ (by simp))
  · exact folded_closed.CastKind_create _ _ (hks _ (by simp))
  · exact folded_closed.BinaryKind_create _ (hks _ (by simp)) (hks _ (by simp))
  · exact he

namespace ConstraintManager

theorem simplifyExpr_folded (opts : ConstraintOptions) {cs : List Expr} {e r : Expr} {n : ℕ}
    (he : e.Folded) (hrun : simplifyExpr opts n cs e = .ok r) : r.Folded := by
  have hC : (ExprReplaceVisitor2 (cs.map equality)).Within Expr.Folded :=
    { kids := Expr.Folded.of_mem_kids
      rebuild := Expr.Folded.rebuild
      visitExpr := fun h => by cases h
      visitKind := rfl
      visitExprPost := fun {e r} h => by
        simp only [ExprReplaceVisitor2] at h
        split at h
        · rename_i dst hdst
          cases h
          obtain ⟨l1, l2, hmap, -⟩ := List.lookup_eq_some_iff.mp hdst
          have hmem : (e, r) ∈ cs.map equality := by rw [hmap]; simp
          obtain ⟨c, -, hc⟩ := List.mem_map.mp hmem
          unfold equality at hc
          split at hc
          · cases hc; trivial
          · cases hc; trivial
        · cases h }
  unfold simplifyExpr at hrun
  split_ifs at hrun
  · cases hrun
    exact he
  · split at hrun
    · rename_i hvisit
      cases hrun
      exact (ExprVisitor.visit_within hC _ _ (by simp) he hvisit).1
    · cases hrun

end ConstraintManager

end Klee
