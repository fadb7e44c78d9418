import DdKlee.Proofs.Query
import DdKlee.Proofs.SMTLIBPrinter

/-! The scan, the levels of the `let`s and the script that `generateOutput`
prints. The script is well-sorted, and the interpretations of the arrays that
satisfy it are the assignments that satisfy the constraints and falsify the
expression, where the scan has met every array and no hexadecimal literal is of
a width that its digits cannot have. -/

namespace Klee

open Expr
open SmtLib (Term Srt Value Decls Level Assert Script)

namespace ExprSMTLIBPrinter

/-- What the scan has recorded is in the expressions that it went through. -/
structure Scan.Inv (p : Expr → Prop) (s : Scan) : Prop where
  bindings : ∀ b ∈ s.bindings, b.AllSub p
  arrays : ∀ a ∈ s.usedArrays, ∃ head i, p (.read a head i)
  nodup : s.usedArrays.Nodup
  constant : s.haveConstantArray = true ↔ ∃ a ∈ s.usedArrays, a.isConstantArray = true

section Scanning

variable {p : Expr → Prop} {s : Scan}

theorem Scan.Inv.visit {e : Expr} {enter : Scan → Scan} (hs : s.Inv p) (he : e.AllSub p)
    (henter : ∀ s : Scan, s.Inv p → (enter s).Inv p) : (scan.visit e s enter).Inv p := by
  unfold scan.visit
  split_ifs with hseen hbound
  · exact hs
  · refine { hs with bindings := fun b hb => ?_ }
    rcases List.mem_append.mp hb with hb | hb
    · exact hs.bindings b hb
    · exact List.mem_singleton.mp hb ▸ he
  · exact henter _ { hs with }

theorem Scan.Inv.record {root : Array} {head : UpdateNode} {i : Expr} (hs : s.Inv p)
    (hread : p (.read root head i)) (hnew : root ∉ s.usedArrays) :
    Scan.Inv p { s with
      usedArrays := s.usedArrays ++ [root]
      haveConstantArray := s.haveConstantArray || root.isConstantArray } where
  bindings := hs.bindings
  arrays a ha := by
    rcases List.mem_append.mp ha with ha | ha
    · exact hs.arrays a ha
    · exact List.mem_singleton.mp ha ▸ ⟨head, i, hread⟩
  nodup := by
    rw [List.nodup_append]
    exact ⟨hs.nodup, List.nodup_singleton _, fun a ha b hb hab => hnew (List.mem_singleton.mp hb ▸ hab ▸ ha)⟩
  constant := by
    rw [Bool.or_eq_true, hs.constant]
    simp [or_and_right, exists_or]

mutual

theorem scan_inv : ∀ (e : Expr) {s : Scan}, e.AllSub p → s.Inv p → (scan e s).Inv p
  | .constant _, _, _, hs => hs
  | notOptimized src, _, h, hs => hs.visit h fun _ hs => scan_inv src h.2 hs
  | .read root head i, _, h, hs => hs.visit h fun s hs => by
    dsimp only
    split_ifs with hused
    · exact scan_inv i h.2.2 hs
    · exact scan_inv i h.2.2 (scanUpdates_inv head h.2.1 (hs.record h.1 hused))
  | select c t f, _, h, hs =>
    hs.visit h fun _ hs => scan_inv f h.2.2.2 (scan_inv t h.2.2.1 (scan_inv c h.2.1 hs))
  | concat l r, _, h, hs => hs.visit h fun _ hs => scan_inv r h.2.2 (scan_inv l h.2.1 hs)
  | extract e _ _, _, h, hs => hs.visit h fun _ hs => scan_inv e h.2 hs
  | .not e, _, h, hs => hs.visit h fun _ hs => scan_inv e h.2 hs
  | .cast _ src _, _, h, hs => hs.visit h fun _ hs => scan_inv src h.2 hs
  | binary _ l r, _, h, hs => hs.visit h fun _ hs => scan_inv r h.2.2 (scan_inv l h.2.1 hs)

theorem scanUpdates_inv : ∀ (head : UpdateNode) {s : Scan}, head.AllSub p → s.Inv p → (scanUpdates head s).Inv p
  | .null, _, _, hs => hs
  | .node next i v, _, h, hs => scanUpdates_inv next h.1 (scan_inv v h.2.2 (scan_inv i h.2.1 hs))

end

theorem scanExprs_inv {q : Query} (h : ∀ e ∈ q.expr :: q.constraints, e.AllSub p) : (scanExprs q).Inv p := by
  refine scan_inv q.expr (h _ List.mem_cons_self) ?_
  have hconstraints : ∀ c ∈ q.constraints, c.AllSub p := fun c hc => h c (List.mem_cons_of_mem _ hc)
  refine List.foldlRecOn q.constraints _ ?_ fun s hs c hc => scan_inv c (hconstraints c hc) hs
  exact ⟨by simp, by simp, by simp, by simp⟩

end Scanning

/-- The bindings are numbered one after the other, level by level. -/
def Numbered : ℕ → List (List (Expr × ℕ)) → Prop
  | _, [] => True
  | n, level :: levels => level.map Prod.snd = List.range' n level.length ∧ Numbered (n + level.length) levels

theorem unroll_numbered (fuel : ℕ) : ∀ (n : ℕ) (level : List Expr) (uses : List (Expr × List Expr)),
    Numbered n (unroll fuel n level uses) := by
  induction fuel with
  | zero => exact fun _ _ _ => trivial
  | succ fuel ih =>
    intro n level uses
    unfold unroll
    split_ifs
    · trivial
    · have hlength : (level.zip (List.range' n level.length)).length = level.length := by simp
      refine ⟨?_, ?_⟩
      · rw [hlength, List.map_snd_zip (by simp)]
      · rw [hlength]
        exact ih _ _ _

def pending (uses : List (Expr × List Expr)) : ℕ := uses.countP fun u => !u.2.isEmpty

theorem pending_erase (e : Expr) : ∀ (uses : List (Expr × List Expr)) (next : List Expr),
    pending (Deps.erase e uses next).uses + (Deps.erase e uses next).nonDepBindings.length ≤
      pending uses + next.length := by
  intro uses
  induction uses with
  | nil => exact fun next => le_rfl
  | cons u uses ih =>
    intro next
    obtain ⟨x, deps⟩ := u
    have hkeep := ih next
    unfold Deps.erase
    split_ifs with he
    · have hdeps : deps.isEmpty = false := by
        cases deps with
        | nil => cases he
        | cons _ _ => rfl
      by_cases hempty : (deps.filter (· ≠ e)).isEmpty = true
      · have hfreed := ih (next ++ [x])
        simp only [pending, List.countP_cons, hempty, hdeps, if_true, List.length_append, List.length_singleton]
          at hfreed ⊢
        simp only [Bool.not_true, Bool.false_eq_true, if_false, Bool.not_false, if_true]
        omega
      · simp only [pending, List.countP_cons, hempty, hdeps, Bool.false_eq_true, if_false] at hkeep ⊢
        simp only [Bool.not_false, if_true]
        omega
    · simp only [pending, List.countP_cons] at hkeep ⊢
      omega

theorem pending_unrollLevel (level : List Expr) : ∀ d : Deps,
    pending (unrollLevel level d).uses + (unrollLevel level d).nonDepBindings.length ≤
      pending d.uses + d.nonDepBindings.length := by
  induction level with
  | nil => exact fun d => le_rfl
  | cons e level ih => exact fun d => (ih _).trans (pending_erase e d.uses d.nonDepBindings)

/-- The rounds end: more fuel changes nothing. -/
theorem unroll_succ (fuel : ℕ) : ∀ (n : ℕ) (level : List Expr) (uses : List (Expr × List Expr)),
    pending uses < fuel → unroll (fuel + 1) n level uses = unroll fuel n level uses := by
  induction fuel with
  | zero => exact fun _ _ _ h => absurd h (Nat.not_lt_zero _)
  | succ fuel ih =>
    intro n level uses hfuel
    unfold unroll
    split_ifs
    · rfl
    · have hcount := pending_unrollLevel level ⟨uses, []⟩
      dsimp only
      congr 1
      by_cases hnext : (unrollLevel level ⟨uses, []⟩).nonDepBindings = []
      · rw [hnext]
        cases fuel <;> simp [unroll]
      · have hpos := List.length_pos_iff.mpr hnext
        simp only [List.length_nil] at hcount
        exact ih _ _ _ (by omega)

theorem orderedBindings_succ [LinearOrder Expr] (bindings : List Expr) :
    let uses := bindings.toFinset.sort.map fun e => (e, usesSubExprs bindings e)
    unroll (bindings.length + 1) 1 ((uses.filter (·.2.isEmpty)).map Prod.fst) uses = orderedBindings bindings := by
  intro uses
  have hlength : uses.length ≤ bindings.length := by
    simpa [uses] using List.toFinset_card_le bindings
  by_cases hfirst : uses.filter (·.2.isEmpty) = []
  · unfold orderedBindings
    rw [hfirst]
    cases bindings.length <;> simp [unroll, uses, hfirst]
  · refine unroll_succ _ _ _ _ ?_
    have hpos := List.length_pos_iff.mpr hfirst
    rw [← List.countP_eq_length_filter] at hpos
    have hsum := List.length_eq_countP_add_countP (fun u : Expr × List Expr => u.2.isEmpty) (l := uses)
    have hneg : pending uses = uses.countP fun u => ¬ u.2.isEmpty = true := by simp only [pending, Bool.not_eq_true, Bool.decide_eq_false]
    omega

section Bindings

variable {Q : Expr → Prop}

theorem erase_mem (e : Expr) : ∀ (uses : List (Expr × List Expr)) (next : List Expr), (∀ u ∈ uses, Q u.1) →
    (∀ x ∈ next, Q x) →
    (∀ u ∈ (Deps.erase e uses next).uses, Q u.1) ∧ ∀ x ∈ (Deps.erase e uses next).nonDepBindings, Q x := by
  intro uses
  induction uses with
  | nil => exact fun next huses hnext => ⟨huses, hnext⟩
  | cons u uses ih =>
    intro next huses hnext
    obtain ⟨x, deps⟩ := u
    obtain ⟨hx, huses⟩ := List.forall_mem_cons.mp huses
    have hnext' : ∀ y ∈ if (deps.filter (· ≠ e)).isEmpty then next ++ [x] else next, Q y := by
      split_ifs
      · exact List.forall_mem_append.mpr ⟨hnext, List.forall_mem_singleton.mpr hx⟩
      · exact hnext
    unfold Deps.erase
    split_ifs
    · exact ⟨List.forall_mem_cons.mpr ⟨hx, (ih _ huses hnext').1⟩, (ih _ huses hnext').2⟩
    · exact ⟨List.forall_mem_cons.mpr ⟨hx, (ih _ huses hnext).1⟩, (ih _ huses hnext).2⟩

theorem unrollLevel_mem (level : List Expr) : ∀ d : Deps, (∀ u ∈ d.uses, Q u.1) → (∀ x ∈ d.nonDepBindings, Q x) →
    (∀ u ∈ (unrollLevel level d).uses, Q u.1) ∧ ∀ x ∈ (unrollLevel level d).nonDepBindings, Q x := by
  induction level with
  | nil => exact fun d huses hnext => ⟨huses, hnext⟩
  | cons e level ih =>
    intro d huses hnext
    obtain ⟨huses', hnext'⟩ := erase_mem e d.uses d.nonDepBindings huses hnext
    exact ih _ huses' hnext'

theorem unroll_mem (fuel : ℕ) : ∀ (n : ℕ) (level : List Expr) (uses : List (Expr × List Expr)),
    (∀ x ∈ level, Q x) → (∀ u ∈ uses, Q u.1) → ∀ l ∈ unroll fuel n level uses, ∀ b ∈ l, Q b.1 := by
  induction fuel with
  | zero => simp [unroll]
  | succ fuel ih =>
    intro n level uses hlevel huses
    unfold unroll
    split_ifs
    · simp
    · obtain ⟨huses', hnext'⟩ := unrollLevel_mem level ⟨uses, []⟩ huses (by simp)
      refine List.forall_mem_cons.mpr ⟨fun b hb => hlevel _ (List.of_mem_zip hb).1, ?_⟩
      exact ih _ _ _ hnext' huses'

theorem orderedBindings_mem [LinearOrder Expr] {bindings : List Expr} (h : ∀ b ∈ bindings, Q b) :
    ∀ l ∈ orderedBindings bindings, ∀ b ∈ l, Q b.1 := by
  have huses : ∀ u ∈ bindings.toFinset.sort.map (fun e => (e, usesSubExprs bindings e)), Q u.1 := by
    intro u hu
    obtain ⟨e, he, rfl⟩ := List.mem_map.mp hu
    exact h e (by simpa using he)
  refine unroll_mem _ _ _ _ (fun x hx => ?_) huses
  obtain ⟨u, hu, rfl⟩ := List.mem_map.mp hx
  exact huses u (List.mem_of_mem_filter hu)

end Bindings

section Environment

variable {n : ℕ} {level : List (Expr × ℕ)} (hnum : level.map Prod.snd = List.range' n level.length)
  (print : Expr → Term)

include hnum

theorem nodup_level : ((level.map fun b => (b.2, print b.1)).map Prod.fst).Nodup := by
  rw [List.map_map]
  change (level.map Prod.snd).Nodup
  rw [hnum]
  exact List.nodup_range'

theorem extend_level {α : Type} (f : Term → α) (want : Expr → α) {vars : ℕ → α} {bindings : List (Expr × ℕ)}
    (hvars : ∀ b ∈ bindings, b.2 < n ∧ vars b.2 = want b.1) (hlevel : ∀ b ∈ level, f (print b.1) = want b.1) :
    ∀ b ∈ bindings ++ level,
      b.2 < n + level.length ∧ Level.extend (level.map fun b => (b.2, print b.1)) f vars b.2 = want b.1 := by
  have hrange : ∀ b ∈ level, n ≤ b.2 ∧ b.2 < n + level.length := fun b hb =>
    List.mem_range'_1.mp (hnum ▸ List.mem_map_of_mem hb)
  intro b hb
  unfold Level.extend
  rcases List.mem_append.mp hb with hb | hb
  · have hnone : (level.map fun b => (b.2, print b.1)).lookup b.2 = none := by
      refine List.lookup_eq_none_iff.mpr fun p hp => ?_
      obtain ⟨b', hb', rfl⟩ := List.mem_map.mp hp
      have := (hrange b' hb').1
      have := (hvars b hb).1
      simp
      omega
    rw [hnone]
    exact ⟨Nat.lt_add_right _ (hvars b hb).1, (hvars b hb).2⟩
  · rw [SmtLib.lookup_of_mem (nodup_level hnum print) (List.mem_map.mpr ⟨b, hb, rfl⟩)]
    exact ⟨(hrange b hb).2, hlevel b hb⟩

end Environment

section Sorts

variable {cdm : ConstantDisplayMode} {used : List Array} {decls : Decls}
  (hdecls : ∀ root ∈ used, decls root.name = some (root.domain, root.range))

include hdecls

theorem printLevels_wellSorted {body : Term} (levels : List (List (Expr × ℕ))) :
    ∀ (n : ℕ) (bindings : List (Expr × ℕ)) (vars : ℕ → Option Srt), Numbered n levels →
      (∀ b ∈ bindings, b.2 < n ∧ vars b.2 = some (srt b.1.getWidth (getSort b.1))) →
      (∀ l ∈ levels, ∀ b ∈ l, b.1.WellTyped ∧ b.1.AllSub (Printable cdm used)) →
      (∀ vars' : ℕ → Option Srt, (∀ b ∈ bindings ++ levels.flatten, vars' b.2 = some (srt b.1.getWidth (getSort b.1))) →
        body.sortOf decls vars' = some .bool) →
      Assert.wellSorted decls body vars (printLevels cdm bindings levels) := by
  induction levels with
  | nil =>
    intro n bindings vars _ hvars _ hbody
    exact hbody vars fun b hb => (hvars b (by simpa using hb)).2
  | cons level levels ih =>
    intro n bindings vars hnum hvars hlevels hbody
    obtain ⟨hnum, hrest⟩ := hnum
    obtain ⟨hlevel, hlevels⟩ := List.forall_mem_cons.mp hlevels
    have hsort : ∀ b ∈ level, (print cdm bindings b.1 (getSort b.1)).sortOf decls vars =
        some (srt b.1.getWidth (getSort b.1)) := fun b hb =>
      print_sortOf (fun b hb => (hvars b hb).2) hdecls (hlevel b hb).1 (hlevel b hb).2 _
    refine ⟨nodup_level hnum fun e => print cdm bindings e (getSort e), ?_, ?_⟩
    · intro t ht
      obtain ⟨b, hb, rfl⟩ := List.mem_map.mp ht
      exact hsort b hb ▸ rfl
    · refine ih (n + level.length) (bindings ++ level) _ hrest ?_ hlevels fun vars' hvars' => ?_
      · exact extend_level hnum (fun e => print cdm bindings e (getSort e)) _
          (fun e => some (srt e.getWidth (getSort e))) hvars hsort
      · exact hbody vars' (by simpa [List.append_assoc] using hvars')

theorem printAssert_wellSorted {levels : List (List (Expr × ℕ))} {n : ℕ} {e : Expr} (hnum : Numbered n levels)
    (hlevels : ∀ l ∈ levels, ∀ b ∈ l, b.1.WellTyped ∧ b.1.AllSub (Printable cdm used)) (ht : e.WellTyped)
    (h : e.AllSub (Printable cdm used)) :
    Assert.wellSorted decls (printAssert cdm levels e).body (fun _ => none) (printAssert cdm levels e).lets := by
  refine printLevels_wellSorted hdecls levels n [] _ hnum (by simp) hlevels fun vars hvars => ?_
  exact print_sortOf hvars hdecls ht h .bool

end Sorts

section Values

variable {cdm : ConstantDisplayMode} {used : List Array} {σ : Bytes} {arrays : String → SmtLib.Contents}
  (harrays : ∀ root ∈ used, (arrays root.name).range = root.range ∧
    ∀ i < 2 ^ root.domain, root.initial σ i = APInt.ofNat root.range ((arrays root.name).get i))

include harrays

theorem printLevels_eval {body : Term} {value : Value} (levels : List (List (Expr × ℕ))) :
    ∀ (n : ℕ) (bindings : List (Expr × ℕ)) (vars : ℕ → Value), Numbered n levels →
      (∀ b ∈ bindings, b.2 < n ∧ vars b.2 = valueAt (b.1.eval σ) (getSort b.1)) →
      (∀ l ∈ levels, ∀ b ∈ l, b.1.WellTyped ∧ b.1.AllSub (Printable cdm used) ∧ b.1.AllSub (DefinedAt σ)) →
      (∀ vars' : ℕ → Value, (∀ b ∈ bindings ++ levels.flatten, vars' b.2 = valueAt (b.1.eval σ) (getSort b.1)) →
        body.eval arrays vars' = value) →
      Assert.eval arrays body vars (printLevels cdm bindings levels) = value := by
  induction levels with
  | nil =>
    intro n bindings vars _ hvars _ hbody
    exact hbody vars fun b hb => (hvars b (by simpa using hb)).2
  | cons level levels ih =>
    intro n bindings vars hnum hvars hlevels hbody
    obtain ⟨hnum, hrest⟩ := hnum
    obtain ⟨hlevel, hlevels⟩ := List.forall_mem_cons.mp hlevels
    have hvalue : ∀ b ∈ level, (print cdm bindings b.1 (getSort b.1)).eval arrays vars =
        valueAt (b.1.eval σ) (getSort b.1) := fun b hb =>
      print_eval (fun b hb => (hvars b hb).2) harrays (hlevel b hb).1 (hlevel b hb).2.1 (hlevel b hb).2.2
        getWidth_of_getSort
    refine ih (n + level.length) (bindings ++ level) _ hrest ?_ hlevels fun vars' hvars' => ?_
    · exact extend_level hnum (fun e => print cdm bindings e (getSort e)) _
        (fun e => valueAt (e.eval σ) (getSort e)) hvars hvalue
    · exact hbody vars' (by simpa [List.append_assoc] using hvars')

/-- An assertion is true where its expression is. -/
theorem printAssert_eval {levels : List (List (Expr × ℕ))} {n : ℕ} {e : Expr} (hnum : Numbered n levels)
    (hlevels : ∀ l ∈ levels, ∀ b ∈ l, b.1.WellTyped ∧ b.1.AllSub (Printable cdm used) ∧ b.1.AllSub (DefinedAt σ))
    (he : IsConstraint e) (h : e.AllSub (Printable cdm used)) (hd : e.AllSub (DefinedAt σ)) (vars : ℕ → Value) :
    (Assert.eval arrays (printAssert cdm levels e).body vars (printAssert cdm levels e).lets).isTrue = true ↔
      e.holds σ := by
  have heval : Assert.eval arrays (printAssert cdm levels e).body vars (printAssert cdm levels e).lets =
      valueAt (e.eval σ) .bool :=
    printLevels_eval harrays levels n [] vars hnum (by simp) hlevels fun vars' hvars' =>
      print_eval hvars' harrays he.1 h hd fun _ => he.2
  rw [heval]
  exact isTrue_iff

end Values

section Asserted

/-- Nodes that negations and conjunctions of Bool expressions may be made of. -/
structure BoolNodes (p : Expr → Prop) : Prop where
  constant : ∀ c : APInt, c.width = 1 → p (constant c)
  node : ∀ k l r, k = .eq ∨ k = .and → l.getWidth = 1 → p (binary k l r)

variable {p : Expr → Prop} (hp : BoolNodes p) {l r e : Expr}

include hp

theorem AndExpr_createPartial_allSub {c : APInt} (hc : c.width = 1) (hw : l.getWidth = 1) (hl : l.AllSub p) :
    (AndExpr_createPartial l c).AllSub p := by
  unfold AndExpr_createPartial
  split_ifs
  · exact hl
  · exact hp.constant c hc
  · exact ⟨hp.node _ _ _ (.inr rfl) hw, hl, hp.constant c hc⟩

theorem AndExpr_create_allSub (hwl : l.getWidth = 1) (hwr : r.getWidth = 1) (hl : l.AllSub p) (hr : r.AllSub p) :
    (AndExpr.create l r).AllSub p := by
  unfold AndExpr.create bcreateR
  split
  · exact hp.constant _ hwl
  · exact AndExpr_createPartial_allSub hp hwl hwr hr
  · exact AndExpr_createPartial_allSub hp hwr hwl hl
  · exact ⟨hp.node _ _ _ (.inr rfl) hwl, hl, hr⟩

theorem createIsZero_allSub_of (h : (EqExpr_createPartialR (APInt.ofNat e.getWidth 0) e).AllSub p) :
    e.createIsZero.AllSub p := by
  rw [← createIsZero_eq]
  split
  · exact hp.constant _ rfl
  · exact h

theorem EqExpr_createPartialR_allSub {c : APInt} (hc : c.width = 1) (hr : IsConstraint r) (h : r.AllSub p) :
    (EqExpr_createPartialR c r).AllSub p := by
  have heq : ∀ {c : APInt} {r : Expr}, c.width = 1 → r.AllSub p → (EqExpr_create (.constant c) r).AllSub p := by
    intro c r hc h
    unfold EqExpr_create
    split_ifs
    · exact hp.constant _ rfl
    · exact ⟨hp.node _ _ _ (.inl rfl) hc, hp.constant c hc, h⟩
  fun_induction Klee.EqExpr_createPartialR c r with
  | case1 => exact h
  | case2 => exact h.2.2
  | case3 => exact heq hc h
  | case4 c _ _ left right ihl ihr =>
    obtain ⟨⟨hlt, hrt, hw⟩, hone⟩ := hr
    have hl : IsConstraint left := ⟨hlt, hone⟩
    have hr : IsConstraint right := ⟨hrt, hw.symm.trans hone⟩
    have hcreate := AndExpr_create_allSub hp (createIsZero_isConstraint hl).2 (createIsZero_isConstraint hr).2
      (createIsZero_allSub_of hp (ihl hl.2 hl h.2.1)) (createIsZero_allSub_of hp (ihr hr.2 hr h.2.2))
    rw [← createIsZero_eq left, ← createIsZero_eq right] at hcreate
    exact hcreate
  | case5 => exact heq hc h
  | _ => contradiction

theorem createIsZero_allSub (he : IsConstraint e) (h : e.AllSub p) : e.createIsZero.AllSub p :=
  createIsZero_allSub_of hp (EqExpr_createPartialR_allSub hp he.2 he h)

theorem foldl_AndExpr_create_allSub (es : List Expr) : ∀ acc : Expr, (∀ e ∈ es, IsConstraint e ∧ e.AllSub p) →
    IsConstraint acc → acc.AllSub p → (es.foldl AndExpr.create acc).AllSub p := by
  induction es with
  | nil => exact fun _ _ _ h => h
  | cons e es ih =>
    intro acc hes hacc h
    obtain ⟨⟨he, he'⟩, hes⟩ := List.forall_mem_cons.mp hes
    exact ih _ hes (AndExpr_create_ok hacc he).1 (AndExpr_create_allSub hp hacc.2 he.2 h he')

variable {q : Query} (hq : q.IsBool) (hall : ∀ e ∈ q.expr :: q.constraints, e.AllSub p)

include hq hall

theorem asserted_allSub {opts : Options} : ∀ e ∈ asserted opts q, e.AllSub p := by
  have hzero := createIsZero_allSub hp hq.expr (hall _ List.mem_cons_self)
  have hcons : ∀ c ∈ q.constraints, IsConstraint c ∧ c.AllSub p := fun c hc =>
    ⟨hq c (List.mem_cons_of_mem _ hc), hall c (List.mem_cons_of_mem _ hc)⟩
  unfold asserted
  split_ifs
  · exact List.forall_mem_append.mpr ⟨fun c hc => (hcons c hc).2, List.forall_mem_singleton.mpr hzero⟩
  · exact List.forall_mem_singleton.mpr
      (foldl_AndExpr_create_allSub hp _ _ hcons (createIsZero_isConstraint hq.expr) hzero)

end Asserted

theorem asserted_ok {q : Query} (hq : q.IsBool) (opts : Options) :
    (∀ e ∈ asserted opts q, IsConstraint e) ∧
      ∀ σ, (∀ e ∈ asserted opts q, e.holds σ) ↔ σ ∈ Models q.constraints ∧ ¬ q.expr.holds σ := by
  have hzero := createIsZero_isConstraint hq.expr
  have hcons : ∀ c ∈ q.constraints, IsConstraint c := fun c hc => hq c (List.mem_cons_of_mem _ hc)
  unfold asserted
  split_ifs
  · refine ⟨List.forall_mem_append.mpr ⟨hcons, List.forall_mem_singleton.mpr hzero⟩, fun σ => ?_⟩
    rw [List.forall_mem_append, List.forall_mem_singleton, holds_createIsZero hq.expr]
    rfl
  · obtain ⟨htyped, hholds⟩ := foldl_AndExpr_create_ok q.constraints q.expr.createIsZero hcons hzero
    refine ⟨List.forall_mem_singleton.mpr htyped, fun σ => ?_⟩
    rw [List.forall_mem_singleton, queryAssert, hholds, holds_createIsZero hq.expr, and_comm]
    rfl

def assignmentOf (arrays : String → SmtLib.Contents) : Bytes := fun a i => BitVec.ofNat 8 ((arrays a.name).get i)

def Agrees (used : List Array) (arrays : String → SmtLib.Contents) : Prop :=
  ∀ a ∈ used, ∀ ce ∈ a.constantValues.zipIdx, APInt.ofNat 8 ((arrays a.name).get ce.2) = ce.1

section ConstantArrays

variable (cdm : ConstantDisplayMode) {a : Array} (ha : a.domain = 32 ∧ a.range = 8)

include ha

theorem printConstant_element {ce : APInt} (hce : ce ∈ a.constantValues) :
    (∀ decls vars, (printConstant cdm ce).sortOf decls vars = some (.bitVec 8)) ∧
      ∀ arrays vars, (printConstant cdm ce).eval arrays vars = .bv ce := by
  have hw : ce.width = 8 := (a.constant_range ce hce).trans ha.2
  have hsort : getSort (constant ce) = .bitvector := by simp [getSort, hw]
  have hok : (0 < ce.width ∧ ce.width < 2 ^ 32) ∧ HexWidth ce.width := by
    rw [hw]
    exact ⟨by decide, .inr (by decide)⟩
  constructor
  · intro decls vars
    rw [printConstant_sortOf hok.1.1 hok.1.2 (fun _ => hok.2), hsort, srt, hw]
  · intro arrays vars
    rw [printConstant_eval hok.1.1 hok.1.2 (fun _ => hok.2), hsort, valueAt]

theorem printConstantArray_wellSorted {decls : Decls} (hdecl : decls a.name = some (a.domain, a.range)) :
    ∀ t ∈ printConstantArray cdm a, Assert.wellSorted decls t.body (fun _ => none) t.lets := by
  intro t ht
  obtain ⟨⟨ce, i⟩, hmem, rfl⟩ := List.mem_map.mp ht
  have hce := (printConstant_element cdm ha (List.fst_mem_of_mem_zipIdx hmem)).1 decls fun _ => none
  simp [Assert.wellSorted, Term.sortOf, hdecl, hce, ha, digitsOk_toString]

theorem printConstantArray_eval {arrays : String → SmtLib.Contents} (hrange : (arrays a.name).range = 8) :
    (∀ t ∈ printConstantArray cdm a, (Assert.eval arrays t.body (fun _ => .bool false) t.lets).isTrue = true) ↔
      ∀ ce ∈ a.constantValues.zipIdx, APInt.ofNat 8 ((arrays a.name).get ce.2) = ce.1 := by
  have hvalue : ∀ ce ∈ a.constantValues.zipIdx,
      Term.eval arrays (fun _ => .bool false)
        (.eq (.select (.symbol a.name) (.dec (toString 10 ce.2) a.domain)) (printConstant cdm ce.1)) =
      .bool ((APInt.ofNat 8 ((arrays a.name).get ce.2)).eq ce.1) := by
    intro ce hmem
    have hce := (printConstant_element cdm ha (List.fst_mem_of_mem_zipIdx hmem)).2 arrays
      fun _ => .bool false
    have hsize : ce.2 < 2 ^ 32 := by
      have hlt : ce.2 < a.constantValues.length := List.snd_lt_of_mem_zipIdx hmem
      rcases a.constant_size with hnil | hlength
      · simp [hnil] at hlt
      · exact lt_trans (hlength ▸ hlt) a.size_lt
    simp only [Term.eval, hce, hrange, ofDigits_toString, ha.1, APInt.toNat_ofNat, Nat.mod_eq_of_lt hsize, Value.eq]
  unfold printConstantArray
  rw [List.forall_mem_map]
  refine forall₂_congr fun ce hmem => ?_
  change (Term.eval arrays (fun _ => .bool false) _).isTrue = true ↔ _
  rw [hvalue ce hmem, Value.isTrue, APInt.eq_iff]
  exact ((a.constant_range ce.1 (List.fst_mem_of_mem_zipIdx hmem)).trans ha.2).symm

end ConstantArrays

theorem initial_assignmentOf {used : List Array} {arrays : String → SmtLib.Contents} (h : Agrees used arrays) {a : Array}
    (hused : a ∈ used) (ha : a.domain = 32 ∧ a.range = 8) (i : ℕ) :
    a.initial (assignmentOf arrays) i = APInt.ofNat a.range ((arrays a.name).get i) := by
  unfold Array.initial
  cases hget : a.constantValues[i]? with
  | none => simp [assignmentOf, ha.2, APInt.ofNat]
  | some ce =>
    rw [ha.2, h a hused (ce, i) (List.mk_mem_zipIdx_iff_getElem?.mpr hget)]

theorem mem_sortedArrays {s : Scan} {a : Array} : a ∈ sortedArrays s ↔ a ∈ s.usedArrays :=
  (List.mergeSort_perm s.usedArrays _).mem_iff

theorem printable_boolNodes {cdm : ConstantDisplayMode} {used : List Array} : BoolNodes (Printable cdm used) where
  constant c hc := ⟨by simp [getWidth, hc], by simp [getWidth, hc], fun _ => .inl hc⟩
  node k l r hk hw := by
    have hone : (binary k l r).getWidth = 1 := by rcases hk with rfl | rfl <;> simp [getWidth, BinaryKind.isCmp, hw]
    refine ⟨by rw [hone]; decide, by rw [hone]; decide, ?_⟩
    rcases hk with rfl | rfl <;> trivial

theorem definedAt_boolNodes {σ : Bytes} : BoolNodes (DefinedAt σ) where
  constant _ _ := trivial
  node k l r hk _ := by rcases hk with rfl | rfl <;> trivial

section Script

variable [LinearOrder Expr] {opts : Options} {q : Query}

/-- A query of Bool expressions over arrays of bytes with names of their own,
where the scan has met every array and every literal can be written. -/
structure Prints (opts : Options) (q : Query) : Prop where
  bool : q.IsBool
  nodes : ∀ e ∈ q.expr :: q.constraints, e.AllSub (Printable opts.cdm (scanExprs q).usedArrays)
  bytes : ∀ a ∈ (scanExprs q).usedArrays, a.domain = 32 ∧ a.range = 8
  names : ∀ a ∈ (scanExprs q).usedArrays, ∀ b ∈ (scanExprs q).usedArrays, a.name = b.name → a = b

theorem boundLevels_numbered (opts : Options) (q : Query) : Numbered 1 (boundLevels opts q) := by
  unfold boundLevels
  cases opts.abbrMode with
  | abbrNone => trivial
  | abbrLet => exact unroll_numbered _ _ _ _

theorem boundLevels_allSub {p : Expr → Prop} (h : ∀ e ∈ q.expr :: q.constraints, e.AllSub p) :
    ∀ l ∈ boundLevels opts q, ∀ b ∈ l, b.1.AllSub p := by
  unfold boundLevels
  cases opts.abbrMode with
  | abbrNone => simp
  | abbrLet => exact orderedBindings_mem (scanExprs_inv h).bindings

namespace Prints

variable (h : Prints opts q)

include h

omit [LinearOrder Expr] in
theorem typed : ∀ e ∈ q.expr :: q.constraints, e.AllSub Expr.WellTyped := fun e he => (h.bool e he).1.allSub

theorem declared_nodup : ((generateOutput opts q).decls.map Prod.fst).Nodup := by
  have hnodup : (sortedArrays (scanExprs q)).Nodup :=
    (List.mergeSort_perm _ _).nodup_iff.mpr (scanExprs_inv h.nodes).nodup
  have hmap : (generateOutput opts q).decls.map Prod.fst = (sortedArrays (scanExprs q)).map Array.name := by
    simp [generateOutput, Function.comp_def]
  rw [hmap]
  exact hnodup.map_on fun a ha b hb => h.names a (mem_sortedArrays.mp ha) b (mem_sortedArrays.mp hb)

theorem declared : ∀ a ∈ (scanExprs q).usedArrays,
    (generateOutput opts q).declared a.name = some (a.domain, a.range) := fun a ha =>
  SmtLib.lookup_of_mem h.declared_nodup (List.mem_map.mpr ⟨a, mem_sortedArrays.mpr ha, rfl⟩)

theorem wellSorted : (generateOutput opts q).WellSorted := by
  refine ⟨h.declared_nodup, fun t ht => ?_⟩
  rcases List.mem_append.mp ht with ht | ht
  · split_ifs at ht
    · obtain ⟨a, ha, ht⟩ := List.mem_flatMap.mp ht
      have hused := mem_sortedArrays.mp ha
      exact printConstantArray_wellSorted _ (h.bytes a hused) (h.declared a hused) t ht
    · cases ht
  · obtain ⟨e, he, rfl⟩ := List.mem_map.mp ht
    have hlevels : ∀ l ∈ boundLevels opts q, ∀ b ∈ l,
        b.1.WellTyped ∧ b.1.AllSub (Printable opts.cdm (scanExprs q).usedArrays) := fun l hl b hb =>
      ⟨(boundLevels_allSub h.typed l hl b hb).self, boundLevels_allSub h.nodes l hl b hb⟩
    exact printAssert_wellSorted h.declared (boundLevels_numbered opts q) hlevels ((asserted_ok h.bool opts).1 e he).1
      (asserted_allSub printable_boolNodes h.bool h.nodes e he)

theorem constant_asserts {arrays : String → SmtLib.Contents} (hint : (generateOutput opts q).Interprets arrays) :
    (∀ t ∈ if (scanExprs q).haveConstantArray then (sortedArrays (scanExprs q)).flatMap (printConstantArray opts.cdm)
        else [], (Assert.eval arrays t.body (fun _ => .bool false) t.lets).isTrue = true) ↔
      Agrees (scanExprs q).usedArrays arrays := by
  have hrange : ∀ a ∈ (scanExprs q).usedArrays, (arrays a.name).range = 8 := fun a ha =>
    (hint _ (List.mem_map.mpr ⟨a, mem_sortedArrays.mpr ha, rfl⟩)).2.trans (h.bytes a ha).2
  split_ifs with hconst
  · rw [List.forall_mem_flatMap]
    refine ⟨fun hall a ha => ?_, fun hagrees a ha => ?_⟩
    · exact (printConstantArray_eval _ (h.bytes a ha) (hrange a ha)).mp (hall a (mem_sortedArrays.mpr ha))
    · have hused := mem_sortedArrays.mp ha
      exact (printConstantArray_eval _ (h.bytes a hused) (hrange a hused)).mpr (hagrees a hused)
  · -- no array that was met is constant
    refine ⟨fun _ a ha ce hce => ?_, by simp⟩
    have hsym : a.isConstantArray = false := by
      by_contra hne
      exact hconst ((scanExprs_inv h.nodes).constant.mpr ⟨a, ha, by simpa using hne⟩)
    have hnil : a.constantValues = [] := by simpa [Array.isConstantArray, Array.isSymbolicArray] using hsym
    simp [hnil] at hce

theorem satisfiedBy_iff {arrays : String → SmtLib.Contents} (hint : (generateOutput opts q).Interprets arrays)
    (hdef : ∀ e ∈ q.expr :: q.constraints, e.AllSub (DefinedAt (assignmentOf arrays))) :
    (generateOutput opts q).SatisfiedBy arrays ↔ Agrees (scanExprs q).usedArrays arrays ∧
      assignmentOf arrays ∈ Models q.constraints ∧ ¬ q.expr.holds (assignmentOf arrays) := by
  rw [Script.SatisfiedBy, generateOutput]
  dsimp only
  rw [List.forall_mem_append, h.constant_asserts hint, List.forall_mem_map]
  refine and_congr_right fun hagrees => ?_
  have harrays : ∀ root ∈ (scanExprs q).usedArrays, (arrays root.name).range = root.range ∧
      ∀ i < 2 ^ root.domain, root.initial (assignmentOf arrays) i =
        APInt.ofNat root.range ((arrays root.name).get i) := fun root hroot =>
    ⟨(hint _ (List.mem_map.mpr ⟨root, mem_sortedArrays.mpr hroot, rfl⟩)).2,
      fun i _ => initial_assignmentOf hagrees hroot (h.bytes root hroot) i⟩
  have hlevels : ∀ l ∈ boundLevels opts q, ∀ b ∈ l, b.1.WellTyped ∧
      b.1.AllSub (Printable opts.cdm (scanExprs q).usedArrays) ∧ b.1.AllSub (DefinedAt (assignmentOf arrays)) :=
    fun l hl b hb => ⟨(boundLevels_allSub h.typed l hl b hb).self, boundLevels_allSub h.nodes l hl b hb,
      boundLevels_allSub hdef l hl b hb⟩
  rw [← (asserted_ok h.bool opts).2]
  refine forall₂_congr fun e he => ?_
  exact printAssert_eval harrays (boundLevels_numbered opts q) hlevels ((asserted_ok h.bool opts).1 e he)
    (asserted_allSub printable_boolNodes h.bool h.nodes e he)
    (asserted_allSub definedAt_boolNodes h.bool hdef e he) _

end Prints

end Script

def arrayA : Array := .symbolic 0 "a" 4 Array.four_lt_size

def arrayB : Array := .symbolic 1 "b" 4 Array.four_lt_size

/-- `a[1]` after a write at the index `b[0]`, read twice. -/
def sharedRead : Query :=
  let index := .read arrayB .null (ConstantExpr.alloc 0 32)
  let value := .read arrayA (.node .null (.cast .zext index 32) (ConstantExpr.alloc 5 8)) (ConstantExpr.alloc 1 32)
  { constraints := [binary .ult value (ConstantExpr.alloc 9 8)], expr := binary .eq index value }

/-- `a[0] = 0`, and an expression that reads `a` after a write at the index
`b[0]`. -/
def maskedUpdate : Query where
  constraints := [binary .eq (ConstantExpr.alloc 0 8) (.read arrayA .null (ConstantExpr.alloc 0 32))]
  expr :=
    binary .eq (ConstantExpr.alloc 7 8)
      (.read arrayA
        (.node .null (.cast .zext (.read arrayB .null (ConstantExpr.alloc 0 32)) 32) (ConstantExpr.alloc 5 8))
        (ConstantExpr.alloc 1 32))

def fiveBits : Query where
  constraints := []
  expr := binary .eq (ConstantExpr.alloc 3 5) (extract (.read arrayA .null (ConstantExpr.alloc 0 32)) 0 5)

theorem fiveBits_not_bool : Term.sortOf (fun name => [("a", 32, 8)].lookup name) (fun _ => none)
    (print .hex [] (queryAssert fiveBits) .bool) ≠ some .bool := by decide

end ExprSMTLIBPrinter

end Klee
