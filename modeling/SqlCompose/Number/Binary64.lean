/-! # Binary floating point of 64 bits

A finite number is `± mantissa · 2 ^ exponent` in its one normal form: the mantissa has 53 bits, or
fewer with the least exponent. `nearest` rounds a quotient to it, a tie to the even mantissa.
-/

namespace SqlCompose.Number

inductive Binary64 where
  | nan
  | infinite (negative : Bool)
  | finite (negative : Bool) (mantissa : Nat) (exponent : Int)
  deriving DecidableEq, Inhabited

namespace Binary64

def leastExponent : Int := -1074

def greatestExponent : Int := 971

def roundHalfEven (num den : Nat) : Nat :=
  let q := num / den
  let r := num % den
  if 2 * r < den then q else if 2 * r > den then q + 1 else q + q % 2

def inUnits (num den : Nat) (e : Int) : Nat × Nat :=
  if e ≥ 0 then (num, den * Nat.pow 2 e.toNat) else (num * Nat.pow 2 (-e).toNat, den)

def exponentFor (num den : Nat) : Int :=
  let guess : Int := (num.log2 : Int) - den.log2 - 53
  let scaled := inUnits num den guess
  let e := if scaled.1 / scaled.2 ≥ Nat.pow 2 53 then guess + 1 else guess
  max e leastExponent

def nearest (negative : Bool) (num den : Nat) : Binary64 :=
  if num == 0 then .finite negative 0 leastExponent
  else
    let e := exponentFor num den
    let scaled := inUnits num den e
    let m := roundHalfEven scaled.1 scaled.2
    let (m, e) := if m == Nat.pow 2 53 then (Nat.pow 2 52, e + 1) else (m, e)
    if e > greatestExponent then .infinite negative else .finite negative m e

/-- The number nearest to `± digits · 10 ^ power`. Far exponents are settled without computing the power. -/
def ofDecimal (negative : Bool) (digits : Nat) (power : Int) : Binary64 :=
  let magnitude : Int := (digits.log2 : Int) * 30103 / 100000 + power
  if digits == 0 || magnitude < -400 then .finite negative 0 leastExponent
  else if magnitude > 400 then .infinite negative
  else if power ≥ 0 then nearest negative (digits * Nat.pow 10 power.toNat) 1
  else nearest negative digits (Nat.pow 10 (-power).toNat)

def signed (negative : Bool) (n : Nat) : Int := if negative then -(n : Int) else n

def toInt? : Binary64 → Option Int
  | .finite negative m e =>
    if e ≥ 0 then some (signed negative (m * Nat.pow 2 e.toNat))
    else if m % Nat.pow 2 (-e).toNat == 0 then some (signed negative (m / Nat.pow 2 (-e).toNat))
    else none
  | _ => none

def truncate? : Binary64 → Option Int
  | .finite negative m e =>
    some (signed negative (if e ≥ 0 then m * Nat.pow 2 e.toNat else m / Nat.pow 2 (-e).toNat))
  | _ => none

def same : Binary64 → Binary64 → Bool
  | .nan, _ => false
  | _, .nan => false
  | .finite a m e, .finite b n f => m == n && e == f && (a == b || m == 0)
  | .infinite a, .infinite b => a == b
  | _, _ => false

def isZero : Binary64 → Bool
  | .finite _ 0 _ => true
  | _ => false

end Binary64

end SqlCompose.Number
