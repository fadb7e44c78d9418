import Mathlib

/-! `ParserImpl::ParseNumberToken`. The lexer takes all letters, digits and underscores, so that
the character after a token is no letter. -/

namespace Klee.Parser

/-- The digit that a character stands for, in any radix. -/
def digit (c : Char) : Option ℕ :=
  if '0' ≤ c ∧ c ≤ '9' then some (c.toNat - '0'.toNat)
  else if 'a' ≤ c ∧ c ≤ 'z' then some (c.toNat - 'a'.toNat + 10)
  else if 'A' ≤ c ∧ c ≤ 'Z' then some (c.toNat - 'A'.toNat + 10)
  else none

def accumulate {m : ℕ} (Radix : ℕ) : BitVec m → List Char → Except String (BitVec m)
  | Val, [] => .ok Val
  | Val, c :: rest =>
      if c = '_' then accumulate Radix Val rest
      else
        match digit c with
        | none => .error "invalid character in numeric token."
        | some Digit =>
            if Digit ≥ Radix then .error "invalid character in numeric token (out of range)."
            else accumulate Radix (Val * BitVec.ofNat m Radix + BitVec.ofNat m Digit) rest

def detectSign (S : List Char) : Bool × List Char :=
  if S.head? = some '+' then (false, S.tail)
  else if S.head? = some '-' then (true, S.tail)
  else (false, S)

/-- `Radix`, `RadixBits` and the digits. -/
def detectRadix (length : ℕ) (S : List Char) : ℕ × ℕ × List Char :=
  if length ≥ 2 ∧ S[0]? = some '0' then
    if S[1]? = some 'b' then (2, 1, S.drop 2)
    else if S[1]? = some 'o' then (8, 3, S.drop 2)
    else if S[1]? = some 'x' then (16, 4, S.drop 2)
    else (10, 4, S)
  else (10, 4, S)

/-- The value of the digits, truncated or extended with zeros. -/
def parseDigits (type : ℕ) (HasMinus : Bool) (Radix RadixBits : ℕ) (S : List Char) : Except String (BitVec type) := do
  let Val ← accumulate Radix (0 : BitVec (RadixBits * S.length)) S
  let Val := if HasMinus then -Val else Val
  return Val.setWidth type

/-- An error stands for its report, after which the constant 0 is returned. -/
def ParseNumberToken (type : ℕ) (Tok : List Char) : Except String (BitVec type) :=
  let (HasMinus, S) := detectSign Tok
  let (Radix, RadixBits, S) := detectRadix Tok.length S
  if Radix ≠ 10 ∧ S = [] then .error "invalid numeric token (no digits)."
  else parseDigits type HasMinus Radix RadixBits S

end Klee.Parser
