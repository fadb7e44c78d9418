import DdKlee.Spec.Create

/-! `ExprVisitor`: the traversal that rebuilds an expression from its visited
kids, with the memo table `visited` of one visitor object passed along. The
recursion takes fuel, since with `recursive` set a rebuilt expression is visited
again; `none` means that the fuel ran out. -/

namespace Klee

open Expr

namespace Expr

/-- `getKid(0) .. getKid(getNumKids() - 1)`. The kid of a read is its index. -/
def kids : Expr → List Expr
  | constant _ => []
  | notOptimized src => [src]
  | read _ _ index => [index]
  | select c t f => [c, t, f]
  | concat l r => [l, r]
  | extract e _ _ => [e]
  | not e => [e]
  | .cast _ src _ => [src]
  | binary _ l r => [l, r]

def rebuild : Expr → List Expr → Expr
  | notOptimized _, [src] => NotOptimizedExpr.create src
  | read root head _, [index] => ReadExpr.create ⟨root, head⟩ index
  | select _ _ _, [c, t, f] => SelectExpr.create c t f
  | concat _ _, [l, r] => ConcatExpr.create l r
  | extract _ off w, [e] => ExtractExpr.create e off w
  | not _, [e] => NotExpr.create e
  | .cast k _ w, [src] => k.create src w
  | binary k _ _, [l, r] => k.create l r
  | e, _ => e

end Expr

inductive Action
  | skipChildren
  | doChildren
  | changeTo (argument : Expr)
deriving DecidableEq

abbrev Visited := List (Expr × Expr)

/-- A visit in the middle of a traversal: the table and the expression to the
result and the table afterwards. -/
abbrev Visit := Visited → Expr → Option (Expr × Visited)

/-- The virtual methods of a visitor with their defaults. `visitKind` stands for
`visitNotOptimized` to `visitSge`, which may themselves visit. -/
structure ExprVisitor where
  recursive : Bool := false
  visitExpr : Expr → Action := fun _ => .doChildren
  visitKind : Visit → Visited → Expr → Option (Action × Visited) :=
    fun _ visited _ => some (.doChildren, visited)
  visitExprPost : Expr → Action := fun _ => .skipChildren

namespace ExprVisitor

def visitKids (visit : Visit) : Visited → List Expr → Option (List Expr × Visited)
  | visited, [] => some ([], visited)
  | visited, kid :: rest => do
      let (kid', visited) ← visit visited kid
      let (rest', visited) ← visitKids visit visited rest
      return (kid' :: rest', visited)

/-- The expression rebuilt from its visited kids, if one of them changed. -/
def rebuildFrom (v : ExprVisitor) (visit : Visit) (visited : Visited) (e : Expr) (kids : List Expr) :
    Option (Expr × Visited) :=
  if kids ≠ e.kids then
    if v.recursive then visit visited (e.rebuild kids) else some (e.rebuild kids, visited)
  else some (e, visited)

/-- The end of `visitActual`, where `visitExprPost` may change the result. -/
def changePost (v : ExprVisitor) (e : Expr) : Expr :=
  if e.isConstant then e
  else
    match v.visitExprPost e with
    | .changeTo argument => argument
    | _ => e

/-- `visitActual` over the `visit` it calls. -/
def visitActual (v : ExprVisitor) (visit : Visit) (visited : Visited) (e : Expr) :
    Option (Expr × Visited) :=
  if e.isConstant then some (e, visited)
  else
    match v.visitExpr e with
    | .skipChildren => some (e, visited)
    | .changeTo argument => some (argument, visited)
    | .doChildren =>
        match v.visitKind visit visited e with
        | none => none
        | some (.skipChildren, visited) => some (e, visited)
        | some (.changeTo argument, visited) => some (argument, visited)
        | some (.doChildren, visited) => do
            let (kids, visited) ← visitKids visit visited e.kids
            let (e, visited) ← v.rebuildFrom visit visited e kids
            return (v.changePost e, visited)

def visit (v : ExprVisitor) (useVisitorHash : Bool) : ℕ → Visit
  | 0, _, _ => none
  | fuel + 1, visited, e =>
      if !useVisitorHash || e.isConstant then
        v.visitActual (v.visit useVisitorHash fuel) visited e
      else
        match visited.lookup e with
        | some res => some (res, visited)
        | none => do
            let (res, visited) ← v.visitActual (v.visit useVisitorHash fuel) visited e
            return (res, visited ++ [(e, res)])

end ExprVisitor

end Klee
