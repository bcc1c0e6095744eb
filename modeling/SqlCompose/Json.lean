import SqlCompose.Fault
import SqlCompose.Number.Notation
import SqlCompose.Value.Mapping

/-! # Reading JSON

The reader walks over the remaining characters. A flaw is reported with the characters that were left at
its place, from which its offset, line and column follow. Beside the numbers of the standard the words
`NaN`, `Infinity` and `-Infinity` are read; a repeated key keeps its first place and its last value.
-/

namespace SqlCompose.Json

inductive Failure where
  /-- What is wrong, and the characters left at that place. -/
  | flaw (reason : String) (rest : List Char)
  /-- A whole number with too many digits. -/
  | tooLong
  /-- Lists and mappings inside each other, too many of them. -/
  | tooDeep
  deriving Inhabited

def isSpace (c : Char) : Bool := c == ' ' || c == '\t' || c == '\n' || c == '\r'

def skip (s : List Char) : List Char := s.dropWhile isSpace

def hexValue? (c : Char) : Option Nat :=
  let n := c.toNat
  if 48 ≤ n && n ≤ 57 then some (n - 48)
  else if 97 ≤ n && n ≤ 102 then some (n - 87)
  else if 65 ≤ n && n ≤ 70 then some (n - 55)
  else none

def unit? : List Char → Option Nat
  | a :: b :: c :: d :: _ :: _ => do
    return ((← hexValue? a) * 16 + (← hexValue? b)) * 256 + (← hexValue? c) * 16 + (← hexValue? d)
  | _ => none

def isHighSurrogate (n : Nat) : Bool := 0xD800 ≤ n && n < 0xDC00

def isLowSurrogate (n : Nat) : Bool := 0xDC00 ≤ n && n < 0xE000

/-- The character of a code unit. A surrogate on its own, which no `Char` is, becomes the replacement
character, so texts that differ only in such surrogates are read as one text. -/
def charOfUnit (n : Nat) : Char :=
  if isHighSurrogate n || isLowSurrogate n then '\uFFFD' else Char.ofNat n

def charOfPair (high low : Nat) : Char := Char.ofNat (0x10000 + (high - 0xD800) * 0x400 + (low - 0xDC00))

def escaped? : Char → Option Char
  | '\x22' => some '\x22'
  | '\\' => some '\\'
  | '/' => some '/'
  | 'b' => some '\x08'
  | 'f' => some '\x0c'
  | 'n' => some '\n'
  | 'r' => some '\r'
  | 't' => some '\t'
  | _ => none

/-- The character of a code, where `s` stands behind the `u`, and how many characters it takes with its `u`.
Two codes that form a pair are one character. -/
def code (s : List Char) : Except Failure (Char × Nat) :=
  match unit? s with
  | none => .error (.flaw "Invalid \\uXXXX escape" ('u' :: s))
  | some n =>
    match isHighSurrogate n, s.drop 4 with
    | true, '\\' :: 'u' :: more =>
      if more.length < 5 then .ok (charOfUnit n, 5)
      else
        match unit? more with
        | none => .error (.flaw "Invalid \\uXXXX escape" ('u' :: more))
        | some low => .ok (if isLowSurrogate low then (charOfPair n low, 11) else (charOfUnit n, 5))
    | _, _ => .ok (charOfUnit n, 5)

def escape (start s : List Char) : Except Failure (Char × Nat) :=
  match s with
  | [] => .error (.flaw "Unterminated string starting at" start)
  | 'u' :: rest => code rest
  | c :: _ =>
    match escaped? c with
    | some e => .ok (e, 1)
    | none => .error (.flaw "Invalid \\escape" ('\\' :: s))

def stringBody (start : List Char) : List Char → Except Failure (List Char × List Char)
  | [] => .error (.flaw "Unterminated string starting at" start)
  | c :: rest =>
    if c == '\x22' then .ok ([], rest)
    else if c == '\\' then
      match escape start rest with
      | .error f => .error f
      | .ok (e, used) => (stringBody start (rest.drop used)).map (fun (cs, rest) => (e :: cs, rest))
    else if c.toNat < 32 then .error (.flaw "Invalid control character at" (c :: rest))
    else (stringBody start rest).map (fun (cs, rest) => (c :: cs, rest))
termination_by s => s.length
decreasing_by all_goals (simp only [List.length_drop, List.length_cons]; omega)

def wholeDigits (s : List Char) : List Char × List Char :=
  match s with
  | '0' :: rest => (['0'], rest)
  | s => Number.takeDigits s

def fraction (s : List Char) : List Char × List Char :=
  match s with
  | '.' :: rest =>
    let (digits, more) := Number.takeDigits rest
    if digits.isEmpty then ([], s) else ('.' :: digits, more)
  | _ => ([], s)

def exponent (s : List Char) : List Char × List Char :=
  match s with
  | [] => ([], s)
  | mark :: rest =>
    if mark == 'e' || mark == 'E' then
      let (negative, unsigned) := Number.takeSign rest
      let (digits, more) := Number.takeDigits unsigned
      if digits.isEmpty then ([], s) else (['e', if negative then '-' else '+'] ++ digits, more)
    else ([], s)

def number (s : List Char) : Except Failure (Value × List Char) :=
  let (negative, unsigned) :=
    match s with
    | '-' :: rest => (true, rest)
    | _ => (false, s)
  let (whole, rest) := wholeDigits unsigned
  let (decimals, rest) := fraction rest
  let (power, rest) := exponent rest
  if whole.isEmpty then .error (.flaw "Expecting value" s)
  else if decimals.isEmpty && power.isEmpty then
    if whole.length > Number.maxDigits then .error .tooLong
    else .ok (.int (Number.Binary64.signed negative (Number.readDigits whole)), rest)
  else
    match Number.Binary64.readDecimal? negative (whole ++ decimals ++ power) with
    | some x => .ok (.float x, rest)
    | none => .error (.flaw "Expecting value" s)

def words : List (List Char × Value) :=
  [("null".toList, .null), ("true".toList, .bool true), ("false".toList, .bool false),
   ("NaN".toList, .float .nan), ("Infinity".toList, .float (.infinite false)),
   ("-Infinity".toList, .float (.infinite true))]

def atom (s : List Char) : Except Failure (Value × List Char) :=
  match words.find? (fun w => w.1.isPrefixOf s) with
  | some (word, v) => .ok (v, s.drop word.length)
  | none => number s

/-- How many lists and mappings may stand inside each other. -/
def maxLevels : Nat := 990

mutual
def value : (levels fuel : Nat) → List Char → Except Failure (Value × List Char)
  | _, 0, s => .error (.flaw "Expecting value" s)
  | levels, fuel + 1, s =>
    match s, levels with
    | '\x22' :: rest, _ => do
      let (cs, rest) ← stringBody s rest
      return (.text (String.ofList cs), rest)
    | '[' :: _, 0 | '\x7b' :: _, 0 => .error .tooDeep
    | '[' :: rest, levels + 1 =>
      match skip rest with
      | ']' :: rest => .ok (.list [], rest)
      | rest => do
        let (items, rest) ← elements levels fuel rest
        return (.list items, rest)
    | '\x7b' :: rest, levels + 1 =>
      match skip rest with
      | '\x7d' :: rest => .ok (.mapping [], rest)
      | rest => do
        let (entries, rest) ← members levels fuel rest
        return (.mapping (Entries.ofList entries), rest)
    | s, _ => atom s

def elements : (levels fuel : Nat) → List Char → Except Failure (List Value × List Char)
  | _, 0, s => .error (.flaw "Expecting value" s)
  | levels, fuel + 1, s => do
    let (v, rest) ← value levels fuel s
    match skip rest with
    | ']' :: rest => return ([v], rest)
    | ',' :: rest =>
      let (vs, rest) ← elements levels fuel (skip rest)
      return (v :: vs, rest)
    | rest => .error (.flaw "Expecting ',' delimiter" rest)

def members : (levels fuel : Nat) → List Char → Except Failure (Entries × List Char)
  | _, 0, s => .error (.flaw "Expecting value" s)
  | levels, fuel + 1, s =>
    match s with
    | '\x22' :: rest => do
      let (key, rest) ← stringBody s rest
      match skip rest with
      | ':' :: rest =>
        let (v, rest) ← value levels fuel (skip rest)
        match skip rest with
        | '\x7d' :: rest => return ([(.text (String.ofList key), v)], rest)
        | ',' :: rest =>
          let (entries, rest) ← members levels fuel (skip rest)
          return ((.text (String.ofList key), v) :: entries, rest)
        | rest => .error (.flaw "Expecting ',' delimiter" rest)
      | rest => .error (.flaw "Expecting ':' delimiter" rest)
    | s => .error (.flaw "Expecting property name enclosed in double quotes" s)
end

/-- The value of a whole text. Between two characters that are used up, at most two calls are made. -/
def document (s : List Char) : Except Failure Value :=
  if s.head? == some '\uFEFF' then
    .error (.flaw "Unexpected UTF-8 BOM (decode using utf-8-sig)" s)
  else do
    let (v, rest) ← value maxLevels (2 * s.length + 2) (skip s)
    match skip rest with
    | [] => return v
    | rest => .error (.flaw "Extra data" rest)

def flawAfter (reason : String) (before : List Char) : JsonFlaw :=
  { reason, line := before.count '\n' + 1
    column := (before.reverse.takeWhile (· != '\n')).length + 1, offset := before.length }

/-- The value of a text, which a flaw reports as `source`. -/
def read (text : String) (source : Value) : Except Fault Value :=
  match document text.toList with
  | .ok v => .ok v
  | .error .tooLong => .error (.misuse .unreadable)
  | .error .tooDeep => .error (.misuse .tooDeep)
  | .error (.flaw reason rest) =>
    .error (.badJson (flawAfter reason (text.toList.take (text.toList.length - rest.length))) source)

end SqlCompose.Json
