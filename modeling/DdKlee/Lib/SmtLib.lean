import DdKlee.Lib.APInt

/-! SMT-LIB 2 without quantifiers over bit-vectors and arrays: the terms, their
sorts and what they mean. A literal is kept as its digits, most significant
first, so that its width is read off the text as the standard says. -/

namespace SmtLib

inductive Srt
  | bool
  | bitVec (width : ℕ)
  | array (domain range : ℕ)
deriving DecidableEq, Repr

inductive BvOp
  | add | sub | mul | udiv | sdiv | urem | srem
  | and | or | xor | shl | lshr | ashr
deriving DecidableEq, Repr

inductive BvPred
  | ult | ule | ugt | uge | slt | sle | sgt | sge
deriving DecidableEq, Repr

inductive BoolOp
  | and | or | xor
deriving DecidableEq, Repr

/-- `bin` is `#b..`, `hex` is `#x..` and `dec` is `(_ bv.. width)`; `var` is a
variable that a `let` binds. -/
inductive Term
  | true
  | false
  | bin (digits : List ℕ)
  | hex (digits : List ℕ)
  | dec (digits : List ℕ) (width : ℕ)
  | var (n : ℕ)
  | symbol (name : String)
  | select (a i : Term)
  | store (a i v : Term)
  | concat (t u : Term)
  | extract (high low : ℕ) (t : Term)
  | zeroExtend (extra : ℕ) (t : Term)
  | signExtend (extra : ℕ) (t : Term)
  | bvnot (t : Term)
  | bv (op : BvOp) (t u : Term)
  | cmp (p : BvPred) (t u : Term)
  | eq (t u : Term)
  | distinct (t u : Term)
  | not (t : Term)
  | bool (op : BoolOp) (t u : Term)
  | ite (c t u : Term)
deriving DecidableEq, Repr

abbrev Decls := String → Option (ℕ × ℕ)

def digitsOk (base : ℕ) (digits : List ℕ) : Bool := !digits.isEmpty && digits.all (· < base)

namespace Term

/-- The sort of a term, `none` if it is not well-sorted. -/
def sortOf (decls : Decls) (vars : ℕ → Option Srt) : Term → Option Srt
  | true | false => some .bool
  | bin digits => if digitsOk 2 digits then some (.bitVec digits.length) else none
  | hex digits => if digitsOk 16 digits then some (.bitVec (4 * digits.length)) else none
  | dec digits width => if digitsOk 10 digits && 0 < width then some (.bitVec width) else none
  | var n => vars n
  | symbol name => (decls name).map fun (domain, range) => .array domain range
  | select a i =>
      match a.sortOf decls vars, i.sortOf decls vars with
      | some (.array domain range), some (.bitVec w) => if w = domain then some (.bitVec range) else none
      | _, _ => none
  | store a i v =>
      match a.sortOf decls vars, i.sortOf decls vars, v.sortOf decls vars with
      | some (.array domain range), some (.bitVec w), some (.bitVec w') =>
          if w = domain ∧ w' = range then some (.array domain range) else none
      | _, _, _ => none
  | concat t u =>
      match t.sortOf decls vars, u.sortOf decls vars with
      | some (.bitVec w), some (.bitVec w') => some (.bitVec (w + w'))
      | _, _ => none
  | extract high low t =>
      match t.sortOf decls vars with
      | some (.bitVec w) => if low ≤ high ∧ high < w then some (.bitVec (high - low + 1)) else none
      | _ => none
  | zeroExtend extra t | signExtend extra t =>
      match t.sortOf decls vars with
      | some (.bitVec w) => some (.bitVec (w + extra))
      | _ => none
  | bvnot t =>
      match t.sortOf decls vars with
      | some (.bitVec w) => some (.bitVec w)
      | _ => none
  | bv _ t u =>
      match t.sortOf decls vars, u.sortOf decls vars with
      | some (.bitVec w), some (.bitVec w') => if w = w' then some (.bitVec w) else none
      | _, _ => none
  | cmp _ t u =>
      match t.sortOf decls vars, u.sortOf decls vars with
      | some (.bitVec w), some (.bitVec w') => if w = w' then some .bool else none
      | _, _ => none
  | eq t u | distinct t u =>
      match t.sortOf decls vars, u.sortOf decls vars with
      | some s, some s' => if s = s' then some .bool else none
      | _, _ => none
  | not t => if t.sortOf decls vars = some .bool then some .bool else none
  | bool _ t u =>
      if t.sortOf decls vars = some .bool ∧ u.sortOf decls vars = some .bool then some .bool else none
  | ite c t u =>
      match t.sortOf decls vars, u.sortOf decls vars with
      | some s, some s' => if c.sortOf decls vars = some .bool ∧ s = s' then some s else none
      | _, _ => none

def symbols : Term → List String
  | true | false | bin _ | hex _ | dec _ _ | var _ => []
  | symbol name => [name]
  | extract _ _ t | zeroExtend _ t | signExtend _ t | bvnot t | not t => t.symbols
  | select t u | concat t u | bv _ t u | cmp _ t u | eq t u | distinct t u | bool _ t u => t.symbols ++ u.symbols
  | store t u v | ite t u v => t.symbols ++ u.symbols ++ v.symbols

theorem declared_of_sortOf {decls : Decls} {vars : ℕ → Option Srt} {t : Term} :
    ∀ {s : Srt}, t.sortOf decls vars = some s → ∀ name ∈ t.symbols, (decls name).isSome = Bool.true := by
  induction t with
  | true | false | bin _ | hex _ | dec _ _ | var _ =>
    intro s _ name hname
    cases hname
  | symbol name =>
    intro s h name' hname
    obtain ⟨d, hd, -⟩ := Option.map_eq_some_iff.mp h
    obtain rfl := List.mem_singleton.mp hname
    rw [hd]
    rfl
  | extract _ _ t ih | zeroExtend _ t ih | signExtend _ t ih | bvnot t ih =>
    intro s h
    simp only [sortOf] at h
    split at h
    · rename_i ht
      exact ih ht
    · cases h
  | not t ih =>
    intro s h
    simp only [sortOf] at h
    split_ifs at h with ht
    exact ih ht
  | select t u iht ihu | concat t u iht ihu | bv _ t u iht ihu | cmp _ t u iht ihu | eq t u iht ihu
  | distinct t u iht ihu =>
    intro s h name hname
    simp only [sortOf] at h
    split at h
    · rename_i ht hu
      exact (List.mem_append.mp hname).elim (iht ht name) (ihu hu name)
    · cases h
  | bool _ t u iht ihu =>
    intro s h name hname
    simp only [sortOf] at h
    split_ifs at h with htu
    exact (List.mem_append.mp hname).elim (iht htu.1 name) (ihu htu.2 name)
  | store t u v iht ihu ihv =>
    intro s h name hname
    simp only [sortOf] at h
    split at h
    · rename_i ht hu hv
      rcases List.mem_append.mp hname with hname | hname
      · exact (List.mem_append.mp hname).elim (iht ht name) (ihu hu name)
      · exact ihv hv name hname
    · cases h
  | ite c t u ihc iht ihu =>
    intro s h name hname
    simp only [sortOf] at h
    split at h
    · rename_i ht hu
      split_ifs at h with hc
      rcases List.mem_append.mp hname with hname | hname
      · exact (List.mem_append.mp hname).elim (ihc hc.1 name) (iht ht name)
      · exact ihu hu name hname
    · cases h

end Term

/-- The contents of an array, at the indices of `domain` bits. -/
structure Contents where
  domain : ℕ
  range : ℕ
  get : ℕ → ℕ

inductive Value
  | bool (b : Bool)
  | bv (a : APInt)
  | array (c : Contents)

def Value.sort : Value → Srt
  | bool _ => .bool
  | bv a => .bitVec a.width
  | array c => .array c.domain c.range

def Value.isTrue : Value → Bool
  | bool b => b
  | _ => false

/-- The number that digits stand for, most significant first. -/
def ofDigits (base : ℕ) (digits : List ℕ) : ℕ := digits.foldl (fun n d => n * base + d) 0

theorem ofDigits_replicate_append (base k : ℕ) (digits : List ℕ) :
    ofDigits base (List.replicate k 0 ++ digits) = ofDigits base digits := by
  induction k with
  | zero => rfl
  | succ k ih =>
    rw [List.replicate_succ, List.cons_append, ofDigits, List.foldl_cons, Nat.zero_mul]
    exact ih

theorem ofDigits_reverse_digits (base n : ℕ) : ofDigits base (Nat.digits base n).reverse = n := by
  have h : ∀ digits : List ℕ, ofDigits base digits.reverse = Nat.ofDigits base digits := by
    intro digits
    rw [ofDigits, List.foldl_reverse]
    induction digits with
    | nil => rfl
    | cons d digits ih => rw [List.foldr_cons, ih, Nat.ofDigits_cons, Nat.mul_comm, Nat.add_comm]
  rw [h, Nat.ofDigits_digits]

def BvOp.apply {w : ℕ} : BvOp → BitVec w → BitVec w → BitVec w
  | .add, x, y => x + y
  | .sub, x, y => x - y
  | .mul, x, y => x * y
  | .udiv, x, y => x.smtUDiv y
  | .sdiv, x, y => x.smtSDiv y
  | .urem, x, y => x % y
  | .srem, x, y => x.srem y
  | .and, x, y => x &&& y
  | .or, x, y => x ||| y
  | .xor, x, y => x ^^^ y
  | .shl, x, y => x <<< y
  | .lshr, x, y => x >>> y
  | .ashr, x, y => x.sshiftRight' y

theorem smtUDiv_eq {w : ℕ} {x y : BitVec w} (hy : y ≠ 0#w) : x.smtUDiv y = x / y := by
  rw [BitVec.smtUDiv_eq, if_neg hy]

theorem smtSDiv_eq {w : ℕ} {x y : BitVec w} (hy : y ≠ 0#w) : x.smtSDiv y = x.sdiv y := by
  have hneg : y.neg ≠ 0#w := fun h => hy (neg_eq_zero.mp h)
  unfold BitVec.smtSDiv BitVec.sdiv
  simp only [smtUDiv_eq hy, smtUDiv_eq hneg, BitVec.udiv_eq]

def BvPred.apply {w : ℕ} : BvPred → BitVec w → BitVec w → Bool
  | .ult, x, y => x.ult y
  | .ule, x, y => x.ule y
  | .ugt, x, y => y.ult x
  | .uge, x, y => y.ule x
  | .slt, x, y => x.slt y
  | .sle, x, y => x.sle y
  | .sgt, x, y => y.slt x
  | .sge, x, y => y.sle x

def BoolOp.apply : BoolOp → Bool → Bool → Bool
  | .and, a, b => a && b
  | .or, a, b => a || b
  | .xor, a, b => a ^^ b

/-- The equality of values of one sort; arrays are not compared here. -/
def Value.eq : Value → Value → Bool
  | bool b, bool b' => b == b'
  | bv a, bv b => a.eq b
  | _, _ => false

namespace Term

/-- The value of a term. Where it is not well-sorted, the value is arbitrary. -/
def eval (arrays : String → Contents) (vars : ℕ → Value) : Term → Value
  | true => .bool Bool.true
  | false => .bool Bool.false
  | bin digits => .bv (APInt.ofNat digits.length (ofDigits 2 digits))
  | hex digits => .bv (APInt.ofNat (4 * digits.length) (ofDigits 16 digits))
  | dec digits width => .bv (APInt.ofNat width (ofDigits 10 digits))
  | var n => vars n
  | symbol name => .array (arrays name)
  | select a i =>
      match a.eval arrays vars, i.eval arrays vars with
      | .array c, .bv x => .bv (APInt.ofNat c.range (c.get x.toNat))
      | _, _ => .bool Bool.false
  | store a i v =>
      match a.eval arrays vars, i.eval arrays vars, v.eval arrays vars with
      | .array c, .bv x, .bv y => .array { c with get := fun j => if j = x.toNat then y.toNat else c.get j }
      | _, _, _ => .bool Bool.false
  | concat t u =>
      match t.eval arrays vars, u.eval arrays vars with
      | .bv a, .bv b => .bv ⟨a.width + b.width, a.bits ++ b.bits⟩
      | _, _ => .bool Bool.false
  | extract high low t =>
      match t.eval arrays vars with
      | .bv a => .bv ⟨high - low + 1, a.bits.extractLsb' low (high - low + 1)⟩
      | _ => .bool Bool.false
  | zeroExtend extra t =>
      match t.eval arrays vars with
      | .bv a => .bv (a.zextOrTrunc (a.width + extra))
      | _ => .bool Bool.false
  | signExtend extra t =>
      match t.eval arrays vars with
      | .bv a => .bv (a.sextOrTrunc (a.width + extra))
      | _ => .bool Bool.false
  | bvnot t =>
      match t.eval arrays vars with
      | .bv a => .bv a.not
      | _ => .bool Bool.false
  | bv op t u =>
      match t.eval arrays vars, u.eval arrays vars with
      | .bv a, .bv b => .bv ⟨a.width, op.apply a.bits (a.rhs b)⟩
      | _, _ => .bool Bool.false
  | cmp p t u =>
      match t.eval arrays vars, u.eval arrays vars with
      | .bv a, .bv b => .bool (p.apply a.bits (a.rhs b))
      | _, _ => .bool Bool.false
  | eq t u => .bool ((t.eval arrays vars).eq (u.eval arrays vars))
  | distinct t u => .bool (!(t.eval arrays vars).eq (u.eval arrays vars))
  | not t => .bool (!(t.eval arrays vars).isTrue)
  | bool op t u => .bool (op.apply (t.eval arrays vars).isTrue (u.eval arrays vars).isTrue)
  | ite c t u => if (c.eval arrays vars).isTrue then t.eval arrays vars else u.eval arrays vars

end Term

theorem mem_of_lookup {α β : Type} [DecidableEq α] {l : List (α × β)} {a : α} {b : β} (h : l.lookup a = some b) :
    (a, b) ∈ l := by
  obtain ⟨l1, l2, rfl, -⟩ := List.lookup_eq_some_iff.mp h
  simp

theorem lookup_of_mem {α β : Type} [DecidableEq α] {l : List (α × β)} {a : α} {b : β}
    (hnodup : (l.map Prod.fst).Nodup) (h : (a, b) ∈ l) : l.lookup a = some b := by
  obtain ⟨l1, l2, rfl⟩ := List.append_of_mem h
  refine List.lookup_eq_some_iff.mpr ⟨l1, l2, rfl, fun p hp => ?_⟩
  rw [List.map_append, List.map_cons, List.nodup_append] at hnodup
  have hne := hnodup.2.2 p.1 (List.mem_map_of_mem hp) a List.mem_cons_self
  simpa using Ne.symm hne

/-- The variables of a `let`, which are bound at the same time. -/
abbrev Level := List (ℕ × Term)

/-- An assertion: nested `let`s, the outermost first, around a term. -/
structure Assert where
  lets : List Level
  body : Term

structure Script where
  decls : List (String × ℕ × ℕ)
  asserts : List Assert

def Level.extend {α : Type} (level : Level) (f : Term → α) (vars : ℕ → α) : ℕ → α := fun n =>
  match level.lookup n with
  | some t => f t
  | none => vars n

def Level.sorts (decls : Decls) (vars : ℕ → Option Srt) (level : Level) : ℕ → Option Srt :=
  level.extend (Term.sortOf decls vars) vars

def Level.values (arrays : String → Contents) (vars : ℕ → Value) (level : Level) : ℕ → Value :=
  level.extend (Term.eval arrays vars) vars

def Assert.wellSorted (decls : Decls) (body : Term) : (ℕ → Option Srt) → List Level → Prop
  | vars, [] => body.sortOf decls vars = some .bool
  | vars, level :: lets =>
      (level.map Prod.fst).Nodup ∧ (∀ b ∈ level, (b.2.sortOf decls vars).isSome = true) ∧
        wellSorted decls body (level.sorts decls vars) lets

def Assert.eval (arrays : String → Contents) (body : Term) : (ℕ → Value) → List Level → Value
  | vars, [] => body.eval arrays vars
  | vars, level :: lets => eval arrays body (level.values arrays vars) lets

def Assert.symbols (a : Assert) : List String :=
  (a.lets.flatMap fun level => level.flatMap fun b => b.2.symbols) ++ a.body.symbols

theorem Assert.declared_of_wellSorted {decls : Decls} {body : Term} :
    ∀ (lets : List Level) {vars : ℕ → Option Srt}, Assert.wellSorted decls body vars lets →
      ∀ name ∈ Assert.symbols ⟨lets, body⟩, (decls name).isSome = true
  | [], _, h => Term.declared_of_sortOf h
  | level :: lets, _, h => by
    intro name hname
    simp only [Assert.symbols, List.flatMap_cons, List.append_assoc, List.mem_append] at hname
    rcases hname with hname | hname
    · obtain ⟨b, hb, hname⟩ := List.mem_flatMap.mp hname
      obtain ⟨s, hs⟩ := Option.isSome_iff_exists.mp (h.2.1 b hb)
      exact Term.declared_of_sortOf hs name hname
    · exact declared_of_wellSorted lets h.2.2 name (List.mem_append.mpr hname)

namespace Script

variable (s : Script)

def declared : Decls := fun name => s.decls.lookup name

/-- The names are declared once, and every assertion is a well-sorted Bool term. -/
def WellSorted : Prop :=
  (s.decls.map Prod.fst).Nodup ∧ ∀ a ∈ s.asserts, Assert.wellSorted s.declared a.body (fun _ => none) a.lets

def Interprets (arrays : String → Contents) : Prop :=
  ∀ d ∈ s.decls, (arrays d.1).domain = d.2.1 ∧ (arrays d.1).range = d.2.2

def SatisfiedBy (arrays : String → Contents) : Prop :=
  ∀ a ∈ s.asserts, (Assert.eval arrays a.body (fun _ => .bool false) a.lets).isTrue = true

end Script

end SmtLib
