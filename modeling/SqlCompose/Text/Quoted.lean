import SqlCompose.Text.Printable
import SqlCompose.Text.Split

/-! # Quoted texts in messages

A text stands between apostrophes, or between double quotes when it has an apostrophe and no double
quote. The quote and the backslash are escaped by a backslash, line feed, carriage return and tab by
their letters, and other unprintable characters by their code in two, four or eight hexadecimal digits.
-/

namespace SqlCompose.Text

def quoteFor (s : List Char) : Char := if s.contains '\x27' && !s.contains '\x22' then '\x22' else '\x27'

def hexDigits (width n : Nat) : List Char :=
  let digits := Nat.toDigits 16 n
  List.replicate (width - digits.length) '0' ++ digits

def escapeCode (n : Nat) : List Char :=
  if n < 0x100 then ['\\', 'x'] ++ hexDigits 2 n
  else if n < 0x10000 then ['\\', 'u'] ++ hexDigits 4 n
  else ['\\', 'U'] ++ hexDigits 8 n

def escapeChar (quote c : Char) : List Char :=
  if c == quote || c == '\\' then ['\\', c]
  else if c == '\n' then ['\\', 'n']
  else if c == '\r' then ['\\', 'r']
  else if c == '\t' then ['\\', 't']
  else if isPrintable c then [c]
  else escapeCode c.toNat

def quoted (s : String) : String :=
  let cs := s.toList
  let q := quoteFor cs
  String.ofList ([q] ++ cs.flatMap (escapeChar q) ++ [q])

def quoteByte (quote : Char) (b : UInt8) : List Char :=
  if b < 128 then escapeChar quote (Char.ofNat b.toNat) else escapeCode b.toNat

def quotedBytes (b : List UInt8) : String :=
  let q := quoteFor (b.map (fun x => Char.ofNat x.toNat))
  String.ofList (['b', q] ++ b.flatMap (quoteByte q) ++ [q])

end SqlCompose.Text
