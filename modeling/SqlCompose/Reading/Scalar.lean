import SqlCompose.Number.Notation
import SqlCompose.Value.Elements

/-! # Lenient reading of single values

Fields of a fixed type accept what plainly stands for a value of that type: bytes for the text they
encode, numbers and words for truth values, and whole numbers in any notation.
-/

namespace SqlCompose

abbrev Reading := ExceptT Fault (StateM Memory)

namespace Value

def trueWords : List String := ["1", "on", "t", "true", "y", "yes"]

def falseWords : List String := ["0", "off", "f", "false", "n", "no"]

def truthOfWord? (s : String) : Option Bool :=
  let word := s.map Char.toLower
  if trueWords.contains word then some true
  else if falseWords.contains word then some false
  else none

def truthOfInt? (n : Int) : Option Bool := if n == 1 then some true else if n == 0 then some false else none

def readBool? : Value → Option Bool
  | .bool b => some b
  | .int n => truthOfInt? n
  | .float x => x.toInt?.bind truthOfInt?
  | v => v.readText?.bind truthOfWord?

/-- A whole number; a floating-point one must lie below the sixty-third power of two in size. -/
def readInt? : Value → Option Int
  | .bool b => some b.toNat
  | .int n => some n
  | .float x => x.toInt?.filter (fun n => n.natAbs < Nat.pow 2 63)
  | v => v.readText?.bind Number.readWhole?

def readOperator? : Value → Option Operator
  | .operator op => some op
  | v => v.readText?.bind Operator.ofToken?

def readNamed? (m : Memory) (v : Value) : Option (List (String × Value)) := (v.entries? m).bind Entries.named?

def readParams? (m : Memory) (v : Value) : Option Entries := (v.readNamed? m).map Entries.ofNames

def readTexts? (m : Memory) (v : Value) : Option (List (String × String)) :=
  (v.readNamed? m).bind (List.mapM (fun e => e.2.readText?.map (fun s => (e.1, s))))

end Value

namespace Reading

def ofMemory {α : Type} (read : Memory → Except Fault α) : Reading α := do
  match read (← get) with
  | .ok a => return a
  | .error f => throw f

def eachOfStream {α : Type} (f : Value → Reading α) (cell : Nat) : (limit : Nat) → Reading (List α)
  | 0 => return []
  | limit + 1 => do
    match (← get).next? cell with
    | none => return []
    | some (v, m) =>
      set m
      let a ← f v
      return a :: (← eachOfStream f cell limit)

/-- `f` on each member of a sequence or field of a record; a stream keeps the items behind a fault. -/
def each {α : Type} (f : Value → Reading α) (v : Value) : Reading (Option (List α)) := do
  let m ← get
  match v with
  | .stream cell => return some (← eachOfStream f cell (m.stream cell).length)
  | _ =>
    match (v.sequence? m).or ((v.fields? m).map (List.map Value.ofField)) with
    | none => return none
    | some items => return some (← items.mapM f)

def listed (v : Value) : Reading (Option (List Value)) := each pure v

end Reading

end SqlCompose
