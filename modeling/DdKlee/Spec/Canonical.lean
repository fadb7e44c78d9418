import DdKlee.Spec.Expr

/-! What holds of every expression in an expression, and the canonical
expressions: the ones the constructors of `Expr.cpp` leave behind. -/

namespace Klee

mutual

/-- The expression and every expression in it, those in the updates of a read
included, satisfies `p`. -/
def Expr.AllSub (p : Expr → Prop) : Expr → Prop
  | .constant c => p (.constant c)
  | .notOptimized src => p (.notOptimized src) ∧ src.AllSub p
  | .read root head i => p (.read root head i) ∧ head.AllSub p ∧ i.AllSub p
  | .select c t f => p (.select c t f) ∧ c.AllSub p ∧ t.AllSub p ∧ f.AllSub p
  | .concat l r => p (.concat l r) ∧ l.AllSub p ∧ r.AllSub p
  | .extract e off w => p (.extract e off w) ∧ e.AllSub p
  | .not e => p (.not e) ∧ e.AllSub p
  | .cast k src w => p (.cast k src w) ∧ src.AllSub p
  | .binary k l r => p (.binary k l r) ∧ l.AllSub p ∧ r.AllSub p

def UpdateNode.AllSub (p : Expr → Prop) : UpdateNode → Prop
  | .null => True
  | .node next i v => next.AllSub p ∧ i.AllSub p ∧ v.AllSub p

end

mutual

instance Expr.decAllSub (p : Expr → Prop) [DecidablePred p] : (e : Expr) → Decidable (e.AllSub p)
  | .constant c => inferInstanceAs (Decidable (p (.constant c)))
  | .notOptimized src =>
      have := Expr.decAllSub p src
      inferInstanceAs (Decidable (p (.notOptimized src) ∧ src.AllSub p))
  | .read root head i =>
      have := UpdateNode.decAllSub p head
      have := Expr.decAllSub p i
      inferInstanceAs (Decidable (p (.read root head i) ∧ head.AllSub p ∧ i.AllSub p))
  | .select c t f =>
      have := Expr.decAllSub p c
      have := Expr.decAllSub p t
      have := Expr.decAllSub p f
      inferInstanceAs (Decidable (p (.select c t f) ∧ c.AllSub p ∧ t.AllSub p ∧ f.AllSub p))
  | .concat l r =>
      have := Expr.decAllSub p l
      have := Expr.decAllSub p r
      inferInstanceAs (Decidable (p (.concat l r) ∧ l.AllSub p ∧ r.AllSub p))
  | .extract e off w =>
      have := Expr.decAllSub p e
      inferInstanceAs (Decidable (p (.extract e off w) ∧ e.AllSub p))
  | .not e =>
      have := Expr.decAllSub p e
      inferInstanceAs (Decidable (p (.not e) ∧ e.AllSub p))
  | .cast k src w =>
      have := Expr.decAllSub p src
      inferInstanceAs (Decidable (p (.cast k src w) ∧ src.AllSub p))
  | .binary k l r =>
      have := Expr.decAllSub p l
      have := Expr.decAllSub p r
      inferInstanceAs (Decidable (p (.binary k l r) ∧ l.AllSub p ∧ r.AllSub p))

instance UpdateNode.decAllSub (p : Expr → Prop) [DecidablePred p] :
    (head : UpdateNode) → Decidable (head.AllSub p)
  | .null => inferInstanceAs (Decidable True)
  | .node next i v =>
      have := UpdateNode.decAllSub p next
      have := Expr.decAllSub p i
      have := Expr.decAllSub p v
      inferInstanceAs (Decidable (next.AllSub p ∧ i.AllSub p ∧ v.AllSub p))

end

namespace Expr

/-- The comparisons that their constructors turn around or negate do not
occur. -/
def isCanonicalNode : Expr → Bool
  | binary .ne _ _ | binary .ugt _ _ | binary .uge _ _ | binary .sgt _ _ | binary .sge _ _ => false
  | _ => true

/-- The expressions with an interval of 64-bit numbers. -/
def Fits64 (e : Expr) : Prop := e.AllSub fun e => 0 < e.getWidth ∧ e.getWidth ≤ 64

def Canonical (e : Expr) : Prop := e.AllSub fun e => e.isCanonicalNode = true

instance (e : Expr) : Decidable e.Fits64 := inferInstanceAs (Decidable (e.AllSub _))

instance (e : Expr) : Decidable e.Canonical := inferInstanceAs (Decidable (e.AllSub _))

end Expr

theorem Expr.AllSub.self {p : Expr → Prop} {e : Expr} (h : e.AllSub p) : p e := by
  cases e with
  | constant c => exact h
  | _ => exact h.1

mutual

theorem Expr.AllSub.and {p q : Expr → Prop} : ∀ {e : Expr}, e.AllSub p → e.AllSub q →
    e.AllSub fun e => p e ∧ q e
  | .constant _, hp, hq => ⟨hp, hq⟩
  | .notOptimized _, hp, hq => ⟨⟨hp.1, hq.1⟩, hp.2.and hq.2⟩
  | .read _ _ _, hp, hq => ⟨⟨hp.1, hq.1⟩, hp.2.1.and hq.2.1, hp.2.2.and hq.2.2⟩
  | .select _ _ _, hp, hq =>
    ⟨⟨hp.1, hq.1⟩, hp.2.1.and hq.2.1, hp.2.2.1.and hq.2.2.1, hp.2.2.2.and hq.2.2.2⟩
  | .concat _ _, hp, hq => ⟨⟨hp.1, hq.1⟩, hp.2.1.and hq.2.1, hp.2.2.and hq.2.2⟩
  | .extract _ _ _, hp, hq => ⟨⟨hp.1, hq.1⟩, hp.2.and hq.2⟩
  | .not _, hp, hq => ⟨⟨hp.1, hq.1⟩, hp.2.and hq.2⟩
  | .cast _ _ _, hp, hq => ⟨⟨hp.1, hq.1⟩, hp.2.and hq.2⟩
  | .binary _ _ _, hp, hq => ⟨⟨hp.1, hq.1⟩, hp.2.1.and hq.2.1, hp.2.2.and hq.2.2⟩

theorem UpdateNode.AllSub.and {p q : Expr → Prop} : ∀ {head : UpdateNode}, head.AllSub p →
    head.AllSub q → head.AllSub fun e => p e ∧ q e
  | .null, _, _ => trivial
  | .node _ _ _, hp, hq => ⟨hp.1.and hq.1, hp.2.1.and hq.2.1, hp.2.2.and hq.2.2⟩

end

mutual

theorem Expr.AllSub.mono {p q : Expr → Prop} (hpq : ∀ e, p e → q e) : ∀ {e : Expr}, e.AllSub p → e.AllSub q
  | .constant _, h => hpq _ h
  | .notOptimized _, h => ⟨hpq _ h.1, h.2.mono hpq⟩
  | .read _ _ _, h => ⟨hpq _ h.1, h.2.1.mono hpq, h.2.2.mono hpq⟩
  | .select _ _ _, h => ⟨hpq _ h.1, h.2.1.mono hpq, h.2.2.1.mono hpq, h.2.2.2.mono hpq⟩
  | .concat _ _, h => ⟨hpq _ h.1, h.2.1.mono hpq, h.2.2.mono hpq⟩
  | .extract _ _ _, h => ⟨hpq _ h.1, h.2.mono hpq⟩
  | .not _, h => ⟨hpq _ h.1, h.2.mono hpq⟩
  | .cast _ _ _, h => ⟨hpq _ h.1, h.2.mono hpq⟩
  | .binary _ _ _, h => ⟨hpq _ h.1, h.2.1.mono hpq, h.2.2.mono hpq⟩

theorem UpdateNode.AllSub.mono {p q : Expr → Prop} (hpq : ∀ e, p e → q e) :
    ∀ {head : UpdateNode}, head.AllSub p → head.AllSub q
  | .null, _ => trivial
  | .node _ _ _, h => ⟨h.1.mono hpq, h.2.1.mono hpq, h.2.2.mono hpq⟩

end

mutual

theorem Expr.WellTyped.allSub : ∀ {e : Expr}, e.WellTyped → e.AllSub Expr.WellTyped
  | .constant _, _ => trivial
  | .notOptimized src, h => ⟨h, Expr.WellTyped.allSub (e := src) h⟩
  | .read _ _ _, h => ⟨h, h.1.allSub, h.2.1.allSub⟩
  | .select _ _ _, h => ⟨h, h.1.allSub, h.2.1.allSub, h.2.2.1.allSub⟩
  | .concat _ _, h => ⟨h, h.1.allSub, h.2.allSub⟩
  | .extract _ _ _, h => ⟨h, h.1.allSub⟩
  | .not e, h => ⟨h, Expr.WellTyped.allSub (e := e) h⟩
  | .cast _ _ _, h => ⟨h, h.1.allSub⟩
  | .binary _ _ _, h => ⟨h, h.1.allSub, h.2.1.allSub⟩

theorem UpdateNode.WellTyped.allSub {root : Array} :
    ∀ {head : UpdateNode}, head.WellTyped root → head.AllSub Expr.WellTyped
  | .null, _ => trivial
  | .node _ _ _, h => ⟨h.1.allSub, h.2.1.allSub, h.2.2.1.allSub⟩

end

end Klee
