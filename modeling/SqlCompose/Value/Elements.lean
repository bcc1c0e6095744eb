import SqlCompose.Fault

/-! # What a value holds

Many places accept any value that lists something: a text lists its characters, bytes their numbers, a
mapping its keys, and a typed condition, a join or a query its named fields.
-/

namespace SqlCompose

namespace Value

def ofField (f : String × Value) : Value := .tuple [.text f.1, f.2]

def fields? (m : Memory) : Value → Option (List (String × Value))
  | .expression sql params => some [("text", .text sql), ("params", .mapping params)]
  | .raw sql => some [("sql", .text sql)]
  | .pairs columns => some [("pairs", .mapping (Entries.ofNames columns))]
  | .operation op operands => some [("op", .operator op), ("operands", .list operands)]
  | .join keyword table on => some [("type", .text keyword), ("table", .text table), ("on", on)]
  | .query cell => some (m.fields cell)
  | _ => none

def entries? (m : Memory) : Value → Option Entries
  | .mapping entries => some entries
  | .shared home => some (m.mapping home)
  | _ => none

/-- The members of a list, a tuple, a set or a range, and what a stream has left. -/
def sequence? (m : Memory) : Value → Option (List Value)
  | .list items | .tuple items | .set items => some items
  | .range start stop step => some (rangeItems start stop step)
  | .stream cell => some (m.stream cell)
  | _ => none

/-- Whether a value stands for several values: a sequence or a record, expressions apart. -/
def listsValues : Value → Bool
  | .list _ | .tuple _ | .set _ | .range .. | .stream _ => true
  | .raw _ | .pairs _ | .operation .. | .join .. | .query _ => true
  | _ => false

def elements? (m : Memory) (v : Value) : Option (List Value) :=
  match v, v.text? with
  | _, some s => some (ofChars s)
  | .bytes b, none => some (ofBytes b)
  | v, none =>
    ((v.sequence? m).or ((v.entries? m).map Entries.keys)).or ((v.fields? m).map (List.map ofField))

def maxLength : Nat := Nat.pow 2 63 - 1

def length (m : Memory) (v : Value) : Except Misuse Nat :=
  match v, v.fields? m with
  | .stream _, _ | _, some _ => .error .wrongType
  | .range start stop step, none =>
    let n := rangeLength start stop step
    if n ≤ maxLength then .ok n else .error .unbounded
  | v, none => (v.elements? m).elim (.error .wrongType) (fun items => .ok items.length)

/-- The greatest number of members that are held at once. Machines differ in it; this stands for all of them. -/
def maxHeld : Nat := Nat.pow 2 32

def held (m : Memory) (v : Value) : Except Misuse (List Value) :=
  match v with
  | .range start stop step =>
    let n := rangeLength start stop step
    if maxLength < n then .error .unbounded
    else if maxHeld < n then .error .tooMany
    else .ok (rangeItems start stop step)
  | v => (v.elements? m).elim (.error .wrongType) .ok

/-- Whether a value counts as present: nothing, zero and what is empty do not. -/
def isTruthy (m : Memory) : Value → Bool
  | .null => false
  | .bool b => b
  | .int n => n != 0
  | .float x => !x.isZero
  | .text s => s != ""
  | .bytes b => !b.isEmpty
  | .list items | .tuple items | .set items => !items.isEmpty
  | .range start stop step => rangeLength start stop step != 0
  | .mapping entries => !entries.isEmpty
  | .shared home => !(m.mapping home).isEmpty
  | _ => true

end Value

end SqlCompose
