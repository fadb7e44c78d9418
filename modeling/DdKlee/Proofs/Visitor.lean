import DdKlee.Spec.Visitor
import DdKlee.Proofs.Create

/-! A visitor whose actions only put expressions of the same value and no
greater weight in place returns such an expression, and needs no more fuel than
the weight of the expression it visits. -/

namespace Klee

open Expr

variable {P : Bytes → Prop} {strict : Prop} {Q : Expr → Prop}

/-- `r` may stand for `e`; under `strict` it is `e` itself or lighter. -/
structure Shrinks (P : Bytes → Prop) (strict : Prop) (e r : Expr) : Prop extends
    Simplifies P e r where
  lighter : strict → r = e ∨ r.weight < e.weight

theorem Simplifies.shrinks {e r : Expr} (h : Simplifies P e r) : Shrinks P False e r := ⟨h, False.elim⟩

namespace Shrinks

variable {e r s : Expr}

theorem refl (h : e.WellTyped) : Shrinks P strict e e := ⟨Simplifies.refl h, fun _ => .inl rfl⟩

theorem trans (h : Shrinks P strict e r) (h' : Shrinks P strict r s) : Shrinks P strict e s := by
  refine ⟨h.toSimplifies.trans h'.toSimplifies, fun hstrict => ?_⟩
  rcases h.lighter hstrict with rfl | hlt
  · exact h'.lighter hstrict
  · exact .inr (lt_of_le_of_lt h'.weight hlt)

theorem const {c : APInt} (he : e.isConstant = false) (hw : c.width = e.getWidth)
    (hv : ∀ σ, P σ → c = e.eval σ) : Shrinks P strict e (constant c) :=
  ⟨Simplifies.const hw hv, fun _ => .inr (Expr.one_lt_weight he)⟩

end Shrinks

theorem Expr.weight_lt_of_mem_kids {e k : Expr} (hk : k ∈ e.kids) : k.weight < e.weight := by
  have hpos := Expr.weight_pos k
  cases e with
  | constant c => simp [kids] at hk
  | extract e off w =>
    simp only [kids, List.mem_singleton] at hk
    subst hk
    simp only [Expr.weight]; omega
  | binary b l r =>
    have := b.weight_pos
    simp only [kids, List.mem_cons, List.not_mem_nil, or_false] at hk
    simp only [Expr.weight]
    rcases hk with rfl | rfl <;> omega
  | select c t f =>
    simp only [kids, List.mem_cons, List.not_mem_nil, or_false] at hk
    simp only [Expr.weight]
    rcases hk with rfl | rfl | rfl <;> omega
  | concat l r =>
    simp only [kids, List.mem_cons, List.not_mem_nil, or_false] at hk
    simp only [Expr.weight]
    rcases hk with rfl | rfl <;> omega
  | _ =>
    simp only [kids, List.mem_singleton] at hk
    subst hk
    simp only [Expr.weight]; omega

theorem Expr.wellTyped_of_mem_kids {e k : Expr} (he : e.WellTyped) (hk : k ∈ e.kids) :
    k.WellTyped := by
  cases e with
  | constant c => simp [kids] at hk
  | select c t f =>
    simp only [kids, List.mem_cons, List.not_mem_nil, or_false] at hk
    rcases hk with rfl | rfl | rfl
    · exact he.1
    · exact he.2.1
    · exact he.2.2.1
  | concat l r =>
    simp only [kids, List.mem_cons, List.not_mem_nil, or_false] at hk
    rcases hk with rfl | rfl
    · exact he.1
    · exact he.2
  | binary b l r =>
    simp only [kids, List.mem_cons, List.not_mem_nil, or_false] at hk
    rcases hk with rfl | rfl
    · exact he.1
    · exact he.2.1
  | read root head index => rw [List.mem_singleton.mp hk]; exact he.2.1
  | notOptimized src => rw [List.mem_singleton.mp hk]; exact he
  | not e => rw [List.mem_singleton.mp hk]; exact he
  | extract e off w => rw [List.mem_singleton.mp hk]; exact he.1
  | cast b src w => rw [List.mem_singleton.mp hk]; exact he.1

theorem kid_lighter {a : Expr} {kids' : List Expr} (hk : List.Forall₂ (Shrinks P strict) [a] kids')
    (hne : kids' ≠ [a]) :
    ∃ a', kids' = [a'] ∧ Shrinks P strict a a' ∧ (strict → a'.weight < a.weight) := by
  obtain ⟨a', _, ha, hnil, rfl⟩ := List.forall₂_cons_left_iff.mp hk
  obtain rfl := List.forall₂_nil_left_iff.mp hnil
  exact ⟨a', rfl, ha, fun hs => (ha.lighter hs).resolve_left fun h => hne (by rw [h])⟩

theorem kids_lighter {a b : Expr} {kids' : List Expr}
    (hk : List.Forall₂ (Shrinks P strict) [a, b] kids') (hne : kids' ≠ [a, b]) :
    ∃ a' b', kids' = [a', b'] ∧ Shrinks P strict a a' ∧ Shrinks P strict b b' ∧
      (strict → a'.weight + b'.weight < a.weight + b.weight) := by
  obtain ⟨a', rest, ha, hrest, rfl⟩ := List.forall₂_cons_left_iff.mp hk
  obtain ⟨b', _, hb, hnil, rfl⟩ := List.forall₂_cons_left_iff.mp hrest
  obtain rfl := List.forall₂_nil_left_iff.mp hnil
  refine ⟨a', b', rfl, ha, hb, fun hs => ?_⟩
  have hla := ha.weight
  have hlb := hb.weight
  rcases ha.lighter hs with rfl | hlt
  · have := (hb.lighter hs).resolve_left fun h => hne (by rw [h])
    omega
  · omega

/-- A node that shrinks to the node of its changed kids, and from there to what
`create` makes of it. -/
theorem Simplifies.rebuilt {e node r : Expr} (hnode : Simplifies P e node)
    (hcreate : Simplifies P node r) (hlt : strict → node.weight < e.weight) :
    Simplifies P e r ∧ (strict → r.weight < e.weight) :=
  ⟨hnode.trans hcreate, fun hs => lt_of_le_of_lt hcreate.weight (hlt hs)⟩

theorem Expr.rebuild_shrinks {e : Expr} (he : e.WellTyped) {kids' : List Expr}
    (hk : List.Forall₂ (Shrinks P strict) e.kids kids') (hne : kids' ≠ e.kids) :
    Simplifies P e (e.rebuild kids') ∧ (strict → (e.rebuild kids').weight < e.weight) := by
  cases e with
  | constant c =>
    simp only [kids, List.forall₂_nil_left_iff] at hk
    exact absurd hk hne
  | notOptimized src =>
    obtain ⟨src', rfl, hs, hlt⟩ := kid_lighter hk hne
    refine hs.notOptimized.rebuilt (Simplifies.refl hs.typed) fun h => ?_
    have := hlt h
    simp only [Expr.weight]; omega
  | read root head index =>
    obtain ⟨index', rfl, hs, hlt⟩ := kid_lighter hk hne
    have hnode := hs.readIndex he
    refine hnode.rebuilt (ReadExpr_create_simplifies ⟨root, head⟩ hnode.typed) fun h => ?_
    have := hlt h
    simp only [Expr.weight]; omega
  | select c t f =>
    obtain ⟨c', rest, hc, hrest, rfl⟩ := List.forall₂_cons_left_iff.mp hk
    obtain ⟨t', f', rfl, ht, hf, hlt⟩ : ∃ t' f', rest = [t', f'] ∧ Shrinks P strict t t' ∧
        Shrinks P strict f f' ∧
        (strict → c'.weight + t'.weight + f'.weight < c.weight + t.weight + f.weight) := by
      have hlc := hc.weight
      by_cases hrne : rest = [t, f]
      · subst hrne
        refine ⟨t, f, rfl, Shrinks.refl he.2.1, Shrinks.refl he.2.2.1, fun h => ?_⟩
        have := (hc.lighter h).resolve_left fun h => hne (by rw [h]; rfl)
        omega
      · obtain ⟨t', f', hr, ht, hf, hlt⟩ := kids_lighter hrest hrne
        refine ⟨t', f', hr, ht, hf, fun h => ?_⟩
        have := hlt h
        omega
    have hnode := hc.select ht.toSimplifies hf.toSimplifies he
    refine hnode.rebuilt (SelectExpr_create_simplifies hnode.typed) fun h => ?_
    have := hlt h
    simp only [Expr.weight]; omega
  | concat l r =>
    obtain ⟨l', r', rfl, hl, hr, hlt⟩ := kids_lighter hk hne
    have hnode := hl.concat hr.toSimplifies
    refine hnode.rebuilt (ConcatExpr_create_simplifies hnode.typed) fun h => ?_
    have := hlt h
    simp only [Expr.weight]; omega
  | extract e off w =>
    obtain ⟨e', rfl, hs, hlt⟩ := kid_lighter hk hne
    have hnode := hs.extract he
    refine hnode.rebuilt (ExtractExpr_create_simplifies hnode.typed) fun h => ?_
    have := hlt h
    simp only [Expr.weight]; omega
  | not e =>
    obtain ⟨e', rfl, hs, hlt⟩ := kid_lighter hk hne
    refine hs.not.rebuilt (NotExpr_create_simplifies hs.not.typed) fun h => ?_
    have := hlt h
    simp only [Expr.weight]; omega
  | cast k src w =>
    obtain ⟨src', rfl, hs, hlt⟩ := kid_lighter hk hne
    have hnode := hs.cast he
    refine hnode.rebuilt (k.create_simplifies hnode.typed) fun h => ?_
    have := hlt h
    simp only [Expr.weight]; omega
  | binary k l r =>
    obtain ⟨l', r', rfl, hl, hr, hlt⟩ := kids_lighter hk hne
    have hnode := hl.binary hr.toSimplifies he
    refine hnode.rebuilt (k.create_simplifies hnode.typed) fun h => ?_
    have := hlt h
    simp only [Expr.weight]; omega

namespace ExprVisitor

def VisitedSound (P : Bytes → Prop) (strict : Prop) (Q : Expr → Prop) (visited : Visited) : Prop :=
  ∀ e r, visited.lookup e = some r → e.WellTyped → Q e → Shrinks P strict e r

def VisitOk (P : Bytes → Prop) (strict : Prop) (Q : Expr → Prop) (n : ℕ) (visit : Visit) : Prop :=
  ∀ visited e, VisitedSound P strict Q visited → e.WellTyped → Q e → e.weight < n →
    ∃ r visited', visit visited e = some (r, visited') ∧ VisitedSound P strict Q visited' ∧
      Shrinks P strict e r

/-- The actions of the visitor only put expressions in place that shrink what
was there. A recursive visitor visits what it rebuilds, so its results must get
lighter and may be anything. -/
structure Sound (P : Bytes → Prop) (strict : Prop) (Q : Expr → Prop) (v : ExprVisitor) : Prop where
  recursive : v.recursive = true → strict ∧ ∀ e, Q e
  kids : ∀ {e k}, Q e → k ∈ e.kids → Q k
  visitExpr : ∀ {e r}, e.WellTyped → Q e → e.isConstant = false →
    v.visitExpr e = .changeTo r → Shrinks P strict e r
  visitKind : ∀ {visit visited e}, VisitOk P strict Q e.weight visit →
    VisitedSound P strict Q visited → e.WellTyped → Q e →
    ∃ a visited', v.visitKind visit visited e = some (a, visited') ∧
      VisitedSound P strict Q visited' ∧ ∀ r, a = .changeTo r → Shrinks P strict e r
  visitExprPost : ∀ {e r}, e.WellTyped → e.isConstant = false →
    v.visitExprPost e = .changeTo r → Shrinks P strict e r

theorem VisitedSound.nil : VisitedSound P strict Q [] := fun _ _ h => by simp at h

theorem VisitedSound.snoc {visited : Visited} (h : VisitedSound P strict Q visited) {e r : Expr}
    (hr : Shrinks P strict e r) : VisitedSound P strict Q (visited ++ [(e, r)]) := by
  intro e' r' hlookup ht hq
  rw [List.lookup_append] at hlookup
  rcases hfound : visited.lookup e' with _ | found
  · rw [hfound, Option.none_or] at hlookup
    by_cases heq : e' = e
    · subst heq
      simp only [List.lookup_cons_self, Option.some.injEq] at hlookup
      exact hlookup ▸ hr
    · rw [List.lookup_cons, beq_false_of_ne heq] at hlookup
      simp at hlookup
  · rw [hfound, Option.some_or, Option.some.injEq] at hlookup
    exact hlookup ▸ h _ _ hfound ht hq

theorem VisitOk.mono {m n : ℕ} {visit : Visit} (h : VisitOk P strict Q n visit) (hmn : m ≤ n) :
    VisitOk P strict Q m visit :=
  fun visited e hv he hq hlt => h visited e hv he hq (lt_of_lt_of_le hlt hmn)

theorem visitKids_ok {n : ℕ} {visit : Visit} (hvisit : VisitOk P strict Q n visit) (ks : List Expr) :
    ∀ visited, VisitedSound P strict Q visited → (∀ k ∈ ks, k.WellTyped ∧ Q k ∧ k.weight < n) →
      ∃ ks' visited', visitKids visit visited ks = some (ks', visited') ∧
        VisitedSound P strict Q visited' ∧ List.Forall₂ (Shrinks P strict) ks ks' := by
  induction ks with
  | nil => exact fun visited hv _ => ⟨[], visited, rfl, hv, .nil⟩
  | cons k ks ih =>
    intro visited hv hks
    obtain ⟨⟨hk, hq, hlt⟩, hks⟩ := List.forall_mem_cons.mp hks
    obtain ⟨r, visited1, hrun, hv1, hr⟩ := hvisit visited k hv hk hq hlt
    obtain ⟨rs, visited2, hruns, hv2, hrs⟩ := ih visited1 hv1 hks
    exact ⟨r :: rs, visited2, by simp [visitKids, hrun, hruns], hv2, .cons hr hrs⟩

variable {v : ExprVisitor}

theorem changePost_shrinks (hv : v.Sound P strict Q) {e : Expr} (he : e.WellTyped) :
    Shrinks P strict e (v.changePost e) := by
  unfold changePost
  split_ifs with hc
  · exact Shrinks.refl he
  · split
    · rename_i hpost
      exact hv.visitExprPost he (by simpa using hc) hpost
    · exact Shrinks.refl he

theorem rebuildFrom_ok (hv : v.Sound P strict Q) {visit : Visit} {e : Expr}
    (hvisit : VisitOk P strict Q e.weight visit) {visited : Visited}
    (hs : VisitedSound P strict Q visited) (he : e.WellTyped) {ks : List Expr}
    (hk : List.Forall₂ (Shrinks P strict) e.kids ks) :
    ∃ r visited', v.rebuildFrom visit visited e ks = some (r, visited') ∧
      VisitedSound P strict Q visited' ∧ Shrinks P strict e r := by
  unfold rebuildFrom
  split_ifs with hne hrec
  · obtain ⟨hsimp, hlt⟩ := Expr.rebuild_shrinks he hk hne
    obtain ⟨hstrict, hq⟩ := hv.recursive hrec
    obtain ⟨r, visited', hr, hs', hshrink⟩ := hvisit visited _ hs hsimp.typed (hq _) (hlt hstrict)
    exact ⟨r, visited', hr, hs', Shrinks.trans ⟨hsimp, fun h => .inr (hlt h)⟩ hshrink⟩
  · obtain ⟨hsimp, hlt⟩ := Expr.rebuild_shrinks he hk hne
    exact ⟨_, _, rfl, hs, hsimp, fun h => .inr (hlt h)⟩
  · exact ⟨e, visited, rfl, hs, Shrinks.refl he⟩

theorem visitActual_ok (hv : v.Sound P strict Q) {visit : Visit} {e : Expr}
    (hvisit : VisitOk P strict Q e.weight visit) {visited : Visited}
    (hs : VisitedSound P strict Q visited) (he : e.WellTyped) (hq : Q e) :
    ∃ r visited', v.visitActual visit visited e = some (r, visited') ∧
      VisitedSound P strict Q visited' ∧ Shrinks P strict e r := by
  unfold visitActual
  split_ifs with hc
  · exact ⟨e, visited, rfl, hs, Shrinks.refl he⟩
  split
  · exact ⟨e, visited, rfl, hs, Shrinks.refl he⟩
  · rename_i r hr
    exact ⟨r, visited, rfl, hs, hv.visitExpr he hq (by simpa using hc) hr⟩
  obtain ⟨a, visited1, hkind, hs1, hchange⟩ := hv.visitKind hvisit hs he hq
  rw [hkind]
  cases a with
  | skipChildren => exact ⟨e, visited1, rfl, hs1, Shrinks.refl he⟩
  | changeTo r => exact ⟨r, visited1, rfl, hs1, hchange r rfl⟩
  | doChildren =>
    obtain ⟨ks, visited2, hkids, hs2, hk⟩ := visitKids_ok hvisit e.kids visited1 hs1
      fun k hk => ⟨Expr.wellTyped_of_mem_kids he hk, hv.kids hq hk, Expr.weight_lt_of_mem_kids hk⟩
    obtain ⟨r, visited3, hr, hs3, hshrink⟩ := rebuildFrom_ok hv hvisit hs2 he hk
    refine ⟨v.changePost r, visited3, ?_, hs3, hshrink.trans (changePost_shrinks hv hshrink.typed)⟩
    simp only [hkids, hr, some_bind, Option.pure_def]

theorem visit_ok (hv : v.Sound P strict Q) (useVisitorHash : Bool) (n : ℕ) :
    VisitOk P strict Q n (v.visit useVisitorHash n) := by
  induction n with
  | zero => exact fun _ _ _ _ _ h => absurd h (Nat.not_lt_zero _)
  | succ n ih =>
    intro visited e hs he hq hlt
    obtain ⟨r, visited1, hrun, hs1, hr⟩ :=
      visitActual_ok hv (ih.mono (Nat.lt_succ_iff.mp hlt)) hs he hq
    rw [visit]
    split_ifs with hmemo
    · exact ⟨r, visited1, hrun, hs1, hr⟩
    · split
      · rename_i found hfound
        exact ⟨found, visited, rfl, hs, hs _ _ hfound he hq⟩
      · refine ⟨r, visited1 ++ [(e, r)], ?_, hs1.snoc hr, hr⟩
        simp only [hrun, some_bind, Option.pure_def]

/-- The actions of the visitor put only expressions of a class in place, and do not
visit themselves. -/
structure Within (C : Expr → Prop) (v : ExprVisitor) : Prop where
  kids : ∀ {e k}, C e → k ∈ e.kids → C k
  rebuild : ∀ {e ks}, C e → (∀ k ∈ ks, C k) → C (e.rebuild ks)
  visitExpr : ∀ {e r}, v.visitExpr e = .changeTo r → C r
  visitKind : ∀ {visit visited e}, v.visitKind visit visited e = some (.doChildren, visited)
  visitExprPost : ∀ {e r}, v.visitExprPost e = .changeTo r → C r

variable {C : Expr → Prop}

def VisitWithin (C : Expr → Prop) (visit : Visit) : Prop :=
  ∀ {visited e r visited'}, (∀ p ∈ visited, C p.2) → C e → visit visited e = some (r, visited') →
    C r ∧ ∀ p ∈ visited', C p.2

theorem visitKids_within {visit : Visit} (hvisit : VisitWithin C visit) (ks : List Expr) :
    ∀ {visited ks' visited'}, (∀ p ∈ visited, C p.2) → (∀ k ∈ ks, C k) →
      visitKids visit visited ks = some (ks', visited') → (∀ k ∈ ks', C k) ∧ ∀ p ∈ visited', C p.2 := by
  induction ks with
  | nil =>
    intro visited ks' visited' hv _ hrun
    cases hrun
    exact ⟨by simp, hv⟩
  | cons k ks ih =>
    intro visited ks' visited' hv hks hrun
    obtain ⟨hk, hks⟩ := List.forall_mem_cons.mp hks
    simp only [visitKids, bind_eq_some, Prod.exists, Option.pure_def,
      Option.some.injEq, Prod.mk.injEq] at hrun
    obtain ⟨r, visited1, hr, rs, visited2, hrs, rfl, rfl⟩ := hrun
    obtain ⟨hCr, hv1⟩ := hvisit hv hk hr
    obtain ⟨hCrs, hv2⟩ := ih hv1 hks hrs
    exact ⟨List.forall_mem_cons.mpr ⟨hCr, hCrs⟩, hv2⟩

theorem rebuildFrom_within (hC : v.Within C) {visit : Visit} (hvisit : VisitWithin C visit)
    {visited visited' : Visited} {e r : Expr} {ks : List Expr} (hv : ∀ p ∈ visited, C p.2) (he : C e)
    (hks : ∀ k ∈ ks, C k) (hrun : v.rebuildFrom visit visited e ks = some (r, visited')) :
    C r ∧ ∀ p ∈ visited', C p.2 := by
  unfold rebuildFrom at hrun
  split_ifs at hrun
  · exact hvisit hv (hC.rebuild he hks) hrun
  · cases hrun
    exact ⟨hC.rebuild he hks, hv⟩
  · cases hrun
    exact ⟨he, hv⟩

theorem changePost_within (hC : v.Within C) {e : Expr} (he : C e) : C (v.changePost e) := by
  unfold changePost
  split_ifs
  · exact he
  · split
    · rename_i hpost
      exact hC.visitExprPost hpost
    · exact he

theorem visitActual_within (hC : v.Within C) {visit : Visit} (hvisit : VisitWithin C visit) :
    VisitWithin C (v.visitActual visit) := by
  intro visited e r visited' hv he hrun
  unfold visitActual at hrun
  split_ifs at hrun
  · cases hrun
    exact ⟨he, hv⟩
  · split at hrun
    · cases hrun
      exact ⟨he, hv⟩
    · rename_i hchange
      cases hrun
      exact ⟨hC.visitExpr hchange, hv⟩
    · simp only [hC.visitKind, bind_eq_some, Prod.exists, Option.pure_def,
        Option.some.injEq, Prod.mk.injEq] at hrun
      obtain ⟨ks, visited1, hks, e', visited2, he', rfl, rfl⟩ := hrun
      obtain ⟨hCks, hv1⟩ := visitKids_within hvisit e.kids hv (fun k hk => hC.kids he hk) hks
      obtain ⟨hCe', hv2⟩ := rebuildFrom_within hC hvisit hv1 he hCks he'
      exact ⟨changePost_within hC hCe', hv2⟩

theorem visit_within (hC : v.Within C) (useVisitorHash : Bool) (n : ℕ) :
    VisitWithin C (v.visit useVisitorHash n) := by
  induction n with
  | zero => exact fun _ _ hrun => by cases hrun
  | succ n ih =>
    intro visited e r visited' hv he hrun
    rw [visit] at hrun
    split_ifs at hrun
    · exact visitActual_within hC ih hv he hrun
    · split at hrun
      · rename_i res hres
        cases hrun
        obtain ⟨l1, l2, hmem, -⟩ := List.lookup_eq_some_iff.mp hres
        exact ⟨hv (e, r) (by rw [hmem]; simp), hv⟩
      · simp only [bind_eq_some, Prod.exists, Option.pure_def,
          Option.some.injEq, Prod.mk.injEq] at hrun
        obtain ⟨res, visited1, hres, rfl, rfl⟩ := hrun
        obtain ⟨hCres, hv1⟩ := visitActual_within hC ih hv he hres
        refine ⟨hCres, fun p hp => ?_⟩
        rcases List.mem_append.mp hp with hp | hp
        · exact hv1 p hp
        · rw [List.mem_singleton.mp hp]
          exact hCres

end ExprVisitor

end Klee
