import SqlCompose.Number.Shortest
import SqlCompose.Text.Blank
import SqlCompose.Text.Characters

/-! # Number texts

Whole numbers are written in plain decimal. A floating-point number is written by its shortest
decimal: positionally while the point stands from three places before the first digit to sixteen after it,
and otherwise with an exponent of a sign and at least two digits.
-/

namespace SqlCompose.Number

def writeInt (n : Int) : String :=
  if n < 0 then "-" ++ String.ofList (Nat.toDigits 10 n.natAbs) else String.ofList (Nat.toDigits 10 n.natAbs)

def zeros (n : Nat) : List Char := List.replicate n '0'

def positional (digits : List Char) (point : Int) : List Char :=
  if point ≤ 0 then ['0', '.'] ++ zeros (-point).toNat ++ digits
  else
    let whole := digits.take point.toNat ++ zeros (point.toNat - digits.length)
    let fraction := digits.drop point.toNat
    whole ++ ['.'] ++ (if fraction.isEmpty then ['0'] else fraction)

def writeExponent (e : Int) : List Char :=
  let digits := Nat.toDigits 10 e.natAbs
  ['e', if e < 0 then '-' else '+'] ++ zeros (2 - digits.length) ++ digits

def scientific (digits : List Char) (point : Int) : List Char :=
  let fraction := digits.drop 1
  digits.take 1 ++ (if fraction.isEmpty then [] else '.' :: fraction) ++ writeExponent (point - 1)

def writeDecimal (d : Decimal) : List Char :=
  let digits := Nat.toDigits 10 d.digits
  let point : Int := digits.length + d.power
  if d.digits == 0 then ['0', '.', '0']
  else if -4 < point && point ≤ 16 then positional digits point
  else scientific digits point

def Binary64.write : Binary64 → String
  | .nan => "nan"
  | .infinite negative => if negative then "-inf" else "inf"
  | .finite negative m e =>
    String.ofList ((if negative then ['-'] else []) ++ writeDecimal (Decimal.shortest m e))

def natOfDigits (digits : List Nat) : Nat := digits.foldl (fun n d => 10 * n + d) 0

def readDigits (s : List Char) : Nat := natOfDigits (s.map (fun c => c.toNat - 48))

def takeDigits (s : List Char) : List Char × List Char :=
  (s.takeWhile Text.isAsciiDigit, s.dropWhile Text.isAsciiDigit)

def takeSign : List Char → Bool × List Char
  | '-' :: rest => (true, rest)
  | '+' :: rest => (false, rest)
  | s => (false, s)

def Binary64.readDecimal? (negative : Bool) (s : List Char) : Option Binary64 :=
  let (whole, rest) := takeDigits s
  let (fraction, rest) :=
    match rest with
    | '.' :: more => takeDigits more
    | _ => ([], rest)
  let value (power : Int) : Binary64 :=
    .ofDecimal negative (readDigits (whole ++ fraction)) (power - fraction.length)
  if whole.isEmpty && fraction.isEmpty then none
  else
    match rest with
    | [] => some (value 0)
    | mark :: more =>
      if mark == 'e' || mark == 'E' then
        let (down, more) := takeSign more
        let (power, rest) := takeDigits more
        if power.isEmpty || !rest.isEmpty then none
        else some (value (Binary64.signed down (readDigits power)))
      else none

def Binary64.read? (s : String) : Option Binary64 :=
  let (negative, rest) := takeSign s.toList
  if rest == ['n', 'a', 'n'] then some .nan
  else if rest == ['i', 'n', 'f'] then some (.infinite negative)
  else readDecimal? negative rest

def groupedDigits? (digit? : Char → Option Nat) : (afterDigit : Bool) → List Char → Option (List Nat)
  | afterDigit, [] => if afterDigit then some [] else none
  | afterDigit, c :: rest =>
    match digit? c with
    | some d => (groupedDigits? digit? true rest).map (d :: ·)
    | none => if afterDigit && c == '_' then groupedDigits? digit? false rest else none

/-- The greatest number of digits that a text of a whole number may have. -/
def maxDigits : Nat := 4300

/-- Blanks that may stand around a number: all but the information separators. -/
def isPadding (c : Char) : Bool := Text.isBlank c && !(28 ≤ c.toNat && c.toNat ≤ 31)

def unpad (s : List Char) : List Char := ((s.dropWhile isPadding).reverse.dropWhile isPadding).reverse

def readInt? (s : String) : Option Int :=
  let (negative, rest) := takeSign (unpad s.toList)
  (groupedDigits? Text.digitValue? false rest).bind fun digits =>
    if digits.length > maxDigits then none else some (Binary64.signed negative (natOfDigits digits))

/-- The text without its leading zeros, and without underscores among them. The last of these characters
stays before a point and at the end. A sign may stand before the other digits or after the zeros. -/
def withoutLeadingZeros? (s : List Char) : Option (List Char) :=
  let isFiller (c : Char) : Bool := c == '0' || c == '_'
  let starts (c : Char) : Bool := Text.isAsciiDigit c || c == '-'
  match s with
  | '0' :: _ =>
    let last := (s.takeWhile isFiller).getLast?.toList
    match s.dropWhile isFiller with
    | [] => some last
    | '.' :: rest => some (last ++ '.' :: rest)
    | c :: rest => if starts c then some (c :: rest) else none
  | c :: _ => if starts c then some s else none
  | [] => none

def withoutZeros? : List Char → Option (List Char)
  | '-' :: rest => (withoutLeadingZeros? rest).map ('-' :: ·)
  | s => withoutLeadingZeros? s

def withoutFraction (s : List Char) : List Char :=
  let zeros := (s.dropWhile (· != '.')).drop 1
  if !zeros.isEmpty && zeros.all (· == '0') then s.takeWhile (· != '.') else s

def hasDouble (c : Char) : List Char → Bool
  | a :: b :: rest => (a == c && b == c) || hasDouble c (b :: rest)
  | _ => false

def withoutUnderscores (s : List Char) : List Char :=
  if s.head? == some '_' || s.getLast? == some '_' || hasDouble '_' s then s else s.filter (· != '_')

/-- A number in its plain form: a minus or no sign, and digits that start with a zero only if it is alone. -/
def readPlain? (s : List Char) : Option Int :=
  let (negative, digits) :=
    match s with
    | '-' :: rest => (true, rest)
    | _ => (false, s)
  if digits.length > maxDigits || digits.isEmpty || !digits.all Text.isAsciiDigit then none
  else if digits.head? == some '0' && digits.length > 1 then none
  else some (Binary64.signed negative (readDigits digits))

def withoutPlus? : List Char → Option (List Char)
  | '+' :: '-' :: _ => none
  | '+' :: rest => some rest
  | s => some s

/-- A whole number in ASCII digits, blanks around it. Zeros may stand in front, either before the minus or
behind it, single underscores between digits, and a fraction of zeros behind. -/
def readWhole? (s : String) : Option Int := do
  let s ← withoutZeros? (← withoutPlus? (unpad s.toList))
  readPlain? (withoutUnderscores (withoutFraction s))

end SqlCompose.Number
