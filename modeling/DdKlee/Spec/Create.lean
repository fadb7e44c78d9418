import DdKlee.Spec.ConstantExpr

/-! The simplifying constructors of `Expr.cpp`, with `-const-array-opt` off.
Asserted width agreements are preconditions and not tested.

`AddExpr_createPartialR`, `SubExpr_createPartialR` and `EqExpr_createPartialR`
call `create` back with a constant on the left. There `create` is the folding
of two constants or again the partial constructor, so these calls are written
out here, which makes the recursions structural; `Proofs.Create` restates them
through `create` as in the source. -/

namespace Klee

open Expr

namespace ConstantExpr

/-- `ConstantExpr::alloc(v, w)` as an expression. -/
def alloc (v w : ℕ) : Expr := .constant (APInt.ofNat w v)

end ConstantExpr

/-- The macros `BCREATE` and `CMPCREATE`: fold two constants, otherwise call the
constructor of the kind. -/
def bcreate (k : BinaryKind) (create : Expr → Expr → Expr) : Expr → Expr → Expr
  | constant cl, constant cr => constant (k.apply cl cr)
  | l, r => create l r

/-- The macros `BCREATE_R` and `CMPCREATE_T`, with constructors for a constant
on the right and on the left. -/
def bcreateR (k : BinaryKind) (create : Expr → Expr → Expr) (createPartial : Expr → APInt → Expr)
    (createPartialR : APInt → Expr → Expr) : Expr → Expr → Expr
  | constant cl, constant cr => constant (k.apply cl cr)
  | constant cl, r => createPartialR cl r
  | l, constant cr => createPartial l cr
  | l, r => create l r

def AndExpr_createPartial (l : Expr) (cr : APInt) : Expr :=
  if ConstantExpr.isAllOnes cr then l
  else if ConstantExpr.isZero cr then constant cr
  else binary .and l (constant cr)

def AndExpr_createPartialR (cl : APInt) (r : Expr) : Expr := AndExpr_createPartial r cl

def AndExpr_create (l r : Expr) : Expr := binary .and l r

def AndExpr.create : Expr → Expr → Expr :=
  bcreateR .and AndExpr_create AndExpr_createPartial AndExpr_createPartialR

def OrExpr_createPartial (l : Expr) (cr : APInt) : Expr :=
  if ConstantExpr.isAllOnes cr then constant cr
  else if ConstantExpr.isZero cr then l
  else binary .or l (constant cr)

def OrExpr_createPartialR (cl : APInt) (r : Expr) : Expr := OrExpr_createPartial r cl

def OrExpr_create (l r : Expr) : Expr := binary .or l r

def OrExpr.create : Expr → Expr → Expr :=
  bcreateR .or OrExpr_create OrExpr_createPartial OrExpr_createPartialR

def EqExpr_create (l r : Expr) : Expr :=
  if l = r then ConstantExpr.alloc 1 1 else binary .eq l r

def EqExpr_createPartialR (cl : APInt) (r : Expr) : Expr :=
  if cl.width = 1 then
    if ConstantExpr.isTrue cl then r
    else
      -- 0 == ...
      match r with
      | binary .eq (constant ce) right =>
          -- 0 == (0 == A) => A
          if ce.width = 1 ∧ ConstantExpr.isFalse ce then right
          else EqExpr_create (constant cl) (binary .eq (constant ce) right)
      | binary .or left right =>
          -- transform not(or(a,b)) to and(not a, not b)
          AndExpr.create
            (match left with
              | constant c => constant (APInt.ofBool (c.eq (APInt.ofNat c.width 0)))
              | _ => EqExpr_createPartialR (APInt.ofNat left.getWidth 0) left)
            (match right with
              | constant c => constant (APInt.ofBool (c.eq (APInt.ofNat c.width 0)))
              | _ => EqExpr_createPartialR (APInt.ofNat right.getWidth 0) right)
      | r => EqExpr_create (constant cl) r
  else
    match r with
    | .cast k src _ =>
        -- (sext(a,T)==c) == (a==c) and (zext(a,T)==c) == (a==c)
        let trunc := ConstantExpr.ZExt cl src.getWidth
        -- pathological check, make sure it is possible to extend to this value
        if cl = k.apply trunc cl.width then
          match src with
          | constant c => constant (APInt.ofBool (c.eq trunc))
          | _ => EqExpr_createPartialR trunc src
        else ConstantExpr.alloc 0 1
    | binary .add (constant c1) b =>
        -- c0 = c1 + b => c0 - c1 = b
        EqExpr_createPartialR (cl.sub c1) b
    | binary .sub (constant c1) b =>
        -- c0 = c1 - b => c1 - c0 = b
        EqExpr_createPartialR (c1.sub cl) b
    | r => EqExpr_create (constant cl) r

def EqExpr_createPartial (l : Expr) (cr : APInt) : Expr := EqExpr_createPartialR cr l

def EqExpr.create : Expr → Expr → Expr :=
  bcreateR .eq EqExpr_create EqExpr_createPartial EqExpr_createPartialR

def Expr.createIsZero (e : Expr) : Expr :=
  EqExpr.create e (ConstantExpr.alloc 0 e.getWidth)

def NeExpr.create (l r : Expr) : Expr :=
  EqExpr.create (ConstantExpr.alloc 0 1) (EqExpr.create l r)

def XorExpr_createPartialR (cl : APInt) (r : Expr) : Expr :=
  if ConstantExpr.isZero cl then r
  else if cl.width = 1 then EqExpr_createPartial r (APInt.ofNat 1 0)
  else binary .xor (constant cl) r

def XorExpr_createPartial (l : Expr) (cr : APInt) : Expr := XorExpr_createPartialR cr l

def XorExpr_create (l r : Expr) : Expr := binary .xor l r

def XorExpr.create : Expr → Expr → Expr :=
  bcreateR .xor XorExpr_create XorExpr_createPartial XorExpr_createPartialR

mutual

def AddExpr_createPartialR (cl : APInt) (r : Expr) : Expr :=
  if cl.width = 1 then XorExpr_createPartialR cl r
  else if ConstantExpr.isZero cl then r
  else
    match r with
    | binary .add (constant c) x =>
        -- A + (B+c) == (A+B) + c
        match x with
        | constant v => constant ((cl.add c).add v)
        | _ => AddExpr_createPartialR (cl.add c) x
    | binary .sub (constant c) x =>
        -- A + (B-c) == (A+B) - c
        match x with
        | constant v => constant ((cl.add c).sub v)
        | _ => SubExpr_createPartialR (cl.add c) x
    | r => binary .add (constant cl) r

def SubExpr_createPartialR (cl : APInt) (r : Expr) : Expr :=
  if cl.width = 1 then XorExpr_createPartialR cl r
  else
    match r with
    | binary .add (constant c) x =>
        -- A - (B+c) == (A-B) - c
        match x with
        | constant v => constant ((cl.sub c).sub v)
        | _ => SubExpr_createPartialR (cl.sub c) x
    | binary .sub (constant c) x =>
        -- A - (B-c) == (A-B) + c
        match x with
        | constant v => constant ((cl.sub c).add v)
        | _ => AddExpr_createPartialR (cl.sub c) x
    | r => binary .sub (constant cl) r

end

/-- `AddExpr::create` with a constant on the left. -/
def AddExpr.createK (k : APInt) (r : Expr) : Expr :=
  match r with
  | constant v => constant (k.add v)
  | _ => AddExpr_createPartialR k r

/-- `SubExpr::create` with a constant on the left. -/
def SubExpr.createK (k : APInt) (r : Expr) : Expr :=
  match r with
  | constant v => constant (k.sub v)
  | _ => SubExpr_createPartialR k r

def AddExpr_createPartial (l : Expr) (cr : APInt) : Expr := AddExpr_createPartialR cr l

/-- `l - c => l + (-c)` -/
def SubExpr_createPartial (l : Expr) (cr : APInt) : Expr :=
  AddExpr_createPartial l ((APInt.ofNat cr.width 0).sub cr)

/-- `SubExpr::create` with a constant on the right. -/
def SubExpr.createByK (l : Expr) (k : APInt) : Expr :=
  match l with
  | constant v => constant (v.sub k)
  | l => SubExpr_createPartial l k

mutual

def AddExpr.create (l r : Expr) : Expr :=
  match l, r with
  | constant cl, constant cr => constant (cl.add cr)
  | constant cl, r => AddExpr_createPartialR cl r
  | l, constant cr => AddExpr_createPartial l cr
  | l, r =>
      if l.getWidth = 1 then XorExpr_create l r
      else
        match l, r with
        -- (k+a)+b = k+(a+b)
        | binary .add (constant k) a, r => AddExpr.createK k (AddExpr.create a r)
        -- (k-a)+b = k+(b-a)
        | binary .sub (constant k) a, r => AddExpr.createK k (SubExpr.create r a)
        -- a + (k+b) = k+(a+b)
        | l, binary .add (constant k) b => AddExpr.createK k (AddExpr.create l b)
        -- a + (k-b) = k+(a-b)
        | l, binary .sub (constant k) b => AddExpr.createK k (SubExpr.create l b)
        | l, r => binary .add l r
termination_by l.size + r.size
decreasing_by all_goals (simp only [Expr.size]; omega)

def SubExpr.create (l r : Expr) : Expr :=
  match l, r with
  | constant cl, constant cr => constant (cl.sub cr)
  | constant cl, r => SubExpr_createPartialR cl r
  | l, constant cr => SubExpr_createPartial l cr
  | l, r =>
      if l.getWidth = 1 then XorExpr_create l r
      else if l = r then ConstantExpr.alloc 0 l.getWidth
      else
        match l, r with
        -- (k+a)-b = k+(a-b)
        | binary .add (constant k) a, r => AddExpr.createK k (SubExpr.create a r)
        -- (k-a)-b = k-(a+b)
        | binary .sub (constant k) a, r => SubExpr.createK k (AddExpr.create a r)
        -- a - (k+b) = (a-c) - k
        | l, binary .add (constant k) b => SubExpr.createByK (SubExpr.create l b) k
        -- a - (k-b) = (a+b) - k
        | l, binary .sub (constant k) b => SubExpr.createByK (AddExpr.create l b) k
        | l, r => binary .sub l r
termination_by l.size + r.size
decreasing_by all_goals (simp only [Expr.size]; omega)

end

/-- The case of `AddExpr::create` for two operands that are no constants. -/
def AddExpr_create (l r : Expr) : Expr :=
  if l.getWidth = 1 then XorExpr_create l r
  else
    match l, r with
    | binary .add (constant k) a, r => AddExpr.create (constant k) (AddExpr.create a r)
    | binary .sub (constant k) a, r => AddExpr.create (constant k) (SubExpr.create r a)
    | l, binary .add (constant k) b => AddExpr.create (constant k) (AddExpr.create l b)
    | l, binary .sub (constant k) b => AddExpr.create (constant k) (SubExpr.create l b)
    | l, r => binary .add l r

/-- The case of `SubExpr::create` for two operands that are no constants. -/
def SubExpr_create (l r : Expr) : Expr :=
  if l.getWidth = 1 then XorExpr_create l r
  else if l = r then ConstantExpr.alloc 0 l.getWidth
  else
    match l, r with
    | binary .add (constant k) a, r => AddExpr.create (constant k) (SubExpr.create a r)
    | binary .sub (constant k) a, r => SubExpr.create (constant k) (AddExpr.create a r)
    | l, binary .add (constant k) b => SubExpr.create (SubExpr.create l b) (constant k)
    | l, binary .sub (constant k) b => SubExpr.create (AddExpr.create l b) (constant k)
    | l, r => binary .sub l r

def MulExpr_createPartialR (cl : APInt) (r : Expr) : Expr :=
  if cl.width = 1 then AndExpr_createPartialR cl r
  else if ConstantExpr.isOne cl then r
  else if ConstantExpr.isZero cl then constant cl
  else binary .mul (constant cl) r

def MulExpr_createPartial (l : Expr) (cr : APInt) : Expr := MulExpr_createPartialR cr l

def MulExpr_create (l r : Expr) : Expr :=
  if l.getWidth = 1 then binary .and l r else binary .mul l r

def MulExpr.create : Expr → Expr → Expr :=
  bcreateR .mul MulExpr_create MulExpr_createPartial MulExpr_createPartialR

def UDivExpr_create (l r : Expr) : Expr :=
  if l.getWidth = 1 then l -- r must be 1
  else binary .udiv l r

def SDivExpr_create (l r : Expr) : Expr :=
  if l.getWidth = 1 then l -- r must be 1
  else binary .sdiv l r

def URemExpr_create (l r : Expr) : Expr :=
  if l.getWidth = 1 then ConstantExpr.alloc 0 1 -- r must be 1
  else binary .urem l r

def SRemExpr_create (l r : Expr) : Expr :=
  if l.getWidth = 1 then ConstantExpr.alloc 0 1 -- r must be 1
  else binary .srem l r

def ShlExpr_create (l r : Expr) : Expr :=
  if l.getWidth = 1 then AndExpr.create l r.createIsZero -- l & !r
  else binary .shl l r

def LShrExpr_create (l r : Expr) : Expr :=
  if l.getWidth = 1 then AndExpr.create l r.createIsZero -- l & !r
  else binary .lshr l r

def AShrExpr_create (l r : Expr) : Expr :=
  if l.getWidth = 1 then l else binary .ashr l r

def UltExpr_create (l r : Expr) : Expr :=
  if l.getWidth = 1 then AndExpr.create l.createIsZero r -- !l && r
  else binary .ult l r

def UleExpr_create (l r : Expr) : Expr :=
  if l.getWidth = 1 then OrExpr.create l.createIsZero r -- !(l && !r)
  else binary .ule l r

def SltExpr_create (l r : Expr) : Expr :=
  if l.getWidth = 1 then AndExpr.create l r.createIsZero -- l && !r
  else binary .slt l r

def SleExpr_create (l r : Expr) : Expr :=
  if l.getWidth = 1 then OrExpr.create l r.createIsZero -- !(!l && r)
  else binary .sle l r

def UDivExpr.create := bcreate .udiv UDivExpr_create
def SDivExpr.create := bcreate .sdiv SDivExpr_create
def URemExpr.create := bcreate .urem URemExpr_create
def SRemExpr.create := bcreate .srem SRemExpr_create
def ShlExpr.create := bcreate .shl ShlExpr_create
def LShrExpr.create := bcreate .lshr LShrExpr_create
def AShrExpr.create := bcreate .ashr AShrExpr_create
def UltExpr.create := bcreate .ult UltExpr_create
def UleExpr.create := bcreate .ule UleExpr_create
def SltExpr.create := bcreate .slt SltExpr_create
def SleExpr.create := bcreate .sle SleExpr_create

def UgtExpr.create (l r : Expr) : Expr := UltExpr.create r l
def UgeExpr.create (l r : Expr) : Expr := UleExpr.create r l
def SgtExpr.create (l r : Expr) : Expr := SltExpr.create r l
def SgeExpr.create (l r : Expr) : Expr := SleExpr.create r l

/-- The `create` function of a binary kind. -/
def BinaryKind.create : BinaryKind → Expr → Expr → Expr
  | .add => AddExpr.create
  | .sub => SubExpr.create
  | .mul => MulExpr.create
  | .udiv => UDivExpr.create
  | .sdiv => SDivExpr.create
  | .urem => URemExpr.create
  | .srem => SRemExpr.create
  | .and => AndExpr.create
  | .or => OrExpr.create
  | .xor => XorExpr.create
  | .shl => ShlExpr.create
  | .lshr => LShrExpr.create
  | .ashr => AShrExpr.create
  | .eq => EqExpr.create
  | .ne => NeExpr.create
  | .ult => UltExpr.create
  | .ule => UleExpr.create
  | .ugt => UgtExpr.create
  | .uge => UgeExpr.create
  | .slt => SltExpr.create
  | .sle => SleExpr.create
  | .sgt => SgtExpr.create
  | .sge => SgeExpr.create

/-- The body of `ConcatExpr::create` over the `ExtractExpr::create` it calls. -/
def ConcatExpr.createWith (extractCreate : Expr → ℕ → ℕ → Expr) (l r : Expr) : Expr :=
  match l, r with
  | constant cl, constant cr => constant (ConstantExpr.Concat cl cr)
  -- Merge contiguous Extracts
  | extract el ol wl, extract er or wr =>
      if el = er ∧ or + wr = ol then extractCreate el or (wl + wr)
      else concat (extract el ol wl) (extract er or wr)
  | l, r => concat l r

/-- `ConcatExpr::create` merges an extract from a term no larger than the one
at hand; the test of the size is there for the termination of the recursion
and always succeeds (`Proofs.Create`). -/
def ExtractExpr.create (expr : Expr) (off w : ℕ) : Expr :=
  if w = expr.getWidth then expr
  else
    match expr with
    | constant c => constant (ConstantExpr.Extract c off w)
    | concat left right =>
        -- if the extract skips the right side of the concat
        if right.getWidth ≤ off then ExtractExpr.create left (off - right.getWidth) w
        -- if the extract skips the left side of the concat
        else if off + w ≤ right.getWidth then ExtractExpr.create right off w
        -- E(C(x,y)) = C(E(x), E(y)); the width on the left is `w - right + off`
        -- modulo the size of `unsigned`
        else
          ConcatExpr.createWith
            (fun e o v =>
              if e.size < (concat left right).size then ExtractExpr.create e o v
              else extract e o v)
            (ExtractExpr.create left 0 (w + off - right.getWidth))
            (ExtractExpr.create right off (right.getWidth - off))
    | e => extract e off w
termination_by expr.size
decreasing_by all_goals (simp only [Expr.size] at *; omega)

def ConcatExpr.create (l r : Expr) : Expr := ConcatExpr.createWith ExtractExpr.create l r

def NotExpr.create : Expr → Expr
  | constant c => constant (ConstantExpr.Not c)
  | e => Expr.not e

/-- `ZExtExpr::create` and `SExtExpr::create`. -/
def CastKind.create (k : CastKind) (e : Expr) (w : ℕ) : Expr :=
  if w = e.getWidth then e
  else if w < e.getWidth then ExtractExpr.create e 0 w -- trunc
  else
    match e with
    | constant c => constant (k.apply c w)
    | e => .cast k e w

def ZExtExpr.create (e : Expr) (w : ℕ) : Expr := CastKind.zext.create e w

def SExtExpr.create (e : Expr) (w : ℕ) : Expr := CastKind.sext.create e w

def NotOptimizedExpr.create (src : Expr) : Expr := notOptimized src

def SelectExpr.create (c t f : Expr) : Expr :=
  match c with
  | constant ce => if ConstantExpr.isTrue ce then t else f
  | c =>
      if t = f then t
      else if t.getWidth = 1 then -- c ? t : f  <=> (c and t) or (not c and f)
        match t, f with
        | constant ct, f =>
            if ConstantExpr.isTrue ct then OrExpr.create c f
            else AndExpr.create c.createIsZero f
        | t, constant cf =>
            if ConstantExpr.isTrue cf then OrExpr.create c.createIsZero t
            else AndExpr.create c t
        | t, f => select c t f
      else select c t f

/-- The loop of `ReadExpr::create`: from the most recent update on, either the
written value of the first update that must be at `index`, or the updates from
the first one whose place is unknown. -/
def ReadExpr.rollback (index : Expr) : UpdateNode → Expr ⊕ UpdateNode
  | .null => .inr .null
  | .node next i v =>
      match EqExpr.create index i with
      | constant ce =>
          if ConstantExpr.isTrue ce then .inl v -- Return the found value
          else ReadExpr.rollback index next
      | _ => .inr (.node next i v) -- Found write with symbolic index

/-- A constant index of more than 64 bits fails an assertion in the source. -/
def ReadExpr.create (ul : UpdateList) (index : Expr) : Expr :=
  match ReadExpr.rollback index ul.head with
  | .inl v => v
  | .inr un =>
      match index with
      | constant ce =>
          if ce.toNat < ul.root.size then
            match un, ul.root.constantValues[ce.toNat]? with
            -- No updates with symbolic index to a constant array have been found
            | .null, some v => constant v
            -- Create shortened update list
            | un, _ => read ul.root un (constant ce)
          else read ul.root ul.head (constant ce)
      | index => read ul.root ul.head index

/-- An operator with the operands its `create` function takes. -/
inductive Operation
  | read (ul : UpdateList) (index : Expr)
  | select (c t f : Expr)
  | concat (l r : Expr)
  | extract (e : Expr) (off w : ℕ)
  | not (e : Expr)
  | cast (kind : CastKind) (e : Expr) (w : ℕ)
  | binary (kind : BinaryKind) (l r : Expr)
deriving DecidableEq

namespace Operation

def create : Operation → Expr
  | read ul index => ReadExpr.create ul index
  | select c t f => SelectExpr.create c t f
  | concat l r => ConcatExpr.create l r
  | extract e off w => ExtractExpr.create e off w
  | not e => NotExpr.create e
  | cast k e w => k.create e w
  | binary k l r => k.create l r

/-- The operation on the values of the operands. -/
def apply (σ : Bytes) : Operation → APInt
  | read ul index => ul.head.lookup σ ul.root (index.eval σ)
  | select c t f => if ConstantExpr.isTrue (c.eval σ) then t.eval σ else f.eval σ
  | concat l r => ConstantExpr.Concat (l.eval σ) (r.eval σ)
  | extract e off w => ConstantExpr.Extract (e.eval σ) off w
  | not e => ConstantExpr.Not (e.eval σ)
  | cast k e w => k.apply (e.eval σ) w
  | binary k l r => k.apply (l.eval σ) (r.eval σ)

/-- The operands are well typed and their widths match. A cast may widen or
truncate. -/
def Matching : Operation → Prop
  | read ul index => ul.WellTyped ∧ index.WellTyped ∧ index.getWidth = ul.root.domain
  | select c t f =>
      c.WellTyped ∧ t.WellTyped ∧ f.WellTyped ∧ c.getWidth = 1 ∧ t.getWidth = f.getWidth
  | concat l r => l.WellTyped ∧ r.WellTyped
  | extract e off w => e.WellTyped ∧ 0 < w ∧ off + w ≤ e.getWidth
  | not e => e.WellTyped
  | cast _ e w => e.WellTyped ∧ 0 < w
  | binary _ l r => l.WellTyped ∧ r.WellTyped ∧ l.getWidth = r.getWidth

instance : DecidablePred Matching
  | read ul index =>
      inferInstanceAs (Decidable (ul.WellTyped ∧ index.WellTyped ∧ index.getWidth = ul.root.domain))
  | select c t f =>
      inferInstanceAs (Decidable (c.WellTyped ∧ t.WellTyped ∧ f.WellTyped ∧ c.getWidth = 1 ∧
        t.getWidth = f.getWidth))
  | concat l r => inferInstanceAs (Decidable (l.WellTyped ∧ r.WellTyped))
  | extract e off w => inferInstanceAs (Decidable (e.WellTyped ∧ 0 < w ∧ off + w ≤ e.getWidth))
  | not e => inferInstanceAs (Decidable e.WellTyped)
  | cast _ e w => inferInstanceAs (Decidable (e.WellTyped ∧ 0 < w))
  | binary _ l r =>
      inferInstanceAs (Decidable (l.WellTyped ∧ r.WellTyped ∧ l.getWidth = r.getWidth))

/-- The expressions an operator is applied to. -/
def operands : Operation → List Expr
  | read ul index => index :: ul.head.exprs
  | select c t f => [c, t, f]
  | concat l r => [l, r]
  | extract e _ _ => [e]
  | not e => [e]
  | cast _ e _ => [e]
  | binary _ l r => [l, r]

end Operation

/-- What the `create` functions build from constants, without
`NotOptimizedExpr`. -/
inductive Expr.Created : Expr → Prop
  | constant (v : APInt) : Expr.Created (.constant v)
  | create (op : Operation) (matching : op.Matching) (operands : ∀ e ∈ op.operands, Expr.Created e) :
      Expr.Created op.create

end Klee
