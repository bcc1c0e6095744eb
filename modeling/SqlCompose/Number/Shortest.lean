import SqlCompose.Number.Binary64

/-! # Shortest decimals

The shortest decimal of a positive number is the one with the fewest digits among those that round
back to it; of two such the nearer, at a tie the one with the even last digit. Grids of one, two, …
seventeen digits are tried in turn, and on each grid the two neighbours of the number. All comparisons
are made on whole numbers.
-/

namespace SqlCompose.Number

structure Decimal where
  digits : Nat
  power : Int
  deriving DecidableEq, Inhabited

namespace Decimal

def digitCount (n : Nat) : Nat := (Nat.toDigits 10 n).length

def stripZeros : (fuel : Nat) → Decimal → Decimal
  | 0, d => d
  | fuel + 1, d =>
    if d.digits != 0 && d.digits % 10 == 0 then stripZeros fuel ⟨d.digits / 10, d.power + 1⟩ else d

def toBinary64 (d : Decimal) : Binary64 := Binary64.ofDecimal false d.digits d.power

def quotient (m : Nat) (e : Int) : Nat × Nat :=
  if e ≥ 0 then (m * Nat.pow 2 e.toNat, 1) else (m, Nat.pow 2 (-e).toNat)

/-- The power of ten just below a number: `10 ^ k ≤ num / den < 10 ^ (k + 1)`. -/
def leadingPower (num den : Nat) : Int :=
  let guess : Int := (digitCount num : Int) - digitCount den
  let reaches (k : Int) : Bool :=
    if k ≥ 0 then num ≥ den * Nat.pow 10 k.toNat else num * Nat.pow 10 (-k).toNat ≥ den
  if reaches guess then guess else guess - 1

/-- The two neighbours of `num / den` on the grid of multiples of `10 ^ power`, with twice the
remainder and the step that it is compared with. -/
def neighbours (num den : Nat) (power : Int) : Decimal × Decimal × Nat × Nat :=
  let (n, d) := if power ≥ 0 then (num, den * Nat.pow 10 power.toNat) else (num * Nat.pow 10 (-power).toNat, den)
  (⟨n / d, power⟩, ⟨n / d + 1, power⟩, 2 * (n % d), d)

def onGrid? (x : Binary64) (num den : Nat) (power : Int) : Option Decimal :=
  let (low, high, twice, step) := neighbours num den power
  let lowFits := low.toBinary64 == x
  let highFits := high.toBinary64 == x
  let preferLow := twice < step || (twice == step && low.digits % 2 == 0)
  if lowFits && (preferLow || !highFits) then some low
  else if highFits then some high
  else none

def shortest (m : Nat) (e : Int) : Decimal :=
  if m == 0 then ⟨0, 0⟩
  else
    let (num, den) := quotient m e
    let top := leadingPower num den
    let x := Binary64.finite false m e
    let found := (List.range 17).findSome? (fun (k : Nat) => onGrid? x num den (top - k))
    let d := found.getD ⟨num / den, 0⟩
    stripZeros (digitCount d.digits) d

end Decimal

end SqlCompose.Number
