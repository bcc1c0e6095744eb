import SqlCompose.Number.Binary64
import SqlCompose.Value.Operator

/-! # Values

A value is what a caller may write in a query: data to be bound, names, conditions in their compact or
their typed form, fragments of SQL, and references to the cells of a memory. A `shared` mapping can be
extended by a statement that uses it as its parameter collection, a `stream` gives its items once, and
a `query` refers to parameters that grow with every build. Those parameters are a shared mapping too.
-/

namespace SqlCompose

inductive Home where
  /-- In a cell of its own. -/
  | cell (n : Nat)
  /-- With the query of a cell, as the mapping that was made with it. -/
  | query (n : Nat)
  deriving DecidableEq, Repr, Inhabited

inductive Value where
  | null
  | bool (b : Bool)
  | int (n : Int)
  | float (x : Number.Binary64)
  | text (s : String)
  | bytes (b : List UInt8)
  | operator (op : Operator)
  | direction (d : Direction)
  | list (items : List Value)
  | tuple (items : List Value)
  | set (items : List Value)
  | range (start stop step : Int)
  | mapping (entries : List (Value × Value))
  | shared (home : Home)
  | stream (cell : Nat)
  | expression (sql : String) (params : List (Value × Value))
  | raw (sql : String)
  | pairs (columns : List (String × Value))
  | operation (op : Operator) (operands : List Value)
  | join (keyword table : String) (on : Value)
  | query (cell : Nat)
  | scope (params namePrefix : Value)
  deriving Inhabited

abbrev Entries := List (Value × Value)

namespace Value

/-- The text of a value that is a text. Operators and directions count as their tokens. -/
def text? : Value → Option String
  | .text s => some s
  | .operator op => some op.token
  | .direction d => some d.token
  | _ => none

def kind : Value → String
  | .null => "NoneType"
  | .bool _ => "bool"
  | .int _ => "int"
  | .float _ => "float"
  | .text _ => "str"
  | .bytes _ => "bytes"
  | .operator _ => "ConditionOp"
  | .direction _ => "SortDirection"
  | .list _ => "list"
  | .tuple _ => "tuple"
  | .set _ => "frozenset"
  | .range .. => "range"
  | .mapping _ => "dict"
  | .shared _ => "dict"
  | .stream _ => "generator"
  | .expression .. => "Expression"
  | .raw _ => "RawSql"
  | .pairs _ => "HashCondition"
  | .operation .. => "OperatorCondition"
  | .join .. => "JoinClause"
  | .query _ => "QuerySpec"
  | .scope .. => "RuntimeContext"

def rangeLength (start stop step : Int) : Nat :=
  if step > 0 then ((stop - start + step - 1) / step).toNat
  else if step < 0 then ((start - stop - step - 1) / (-step)).toNat
  else 0

def rangeItems (start stop step : Int) : List Value :=
  (List.range (rangeLength start stop step)).map (fun (k : Nat) => .int (start + k * step))

def ofBytes (b : List UInt8) : List Value := b.map (fun x => .int x.toNat)

def ofChars (s : String) : List Value := s.toList.map (fun c => .text (String.singleton c))

def utf8? (b : List UInt8) : Option String := String.fromUTF8? ⟨b.toArray⟩

def readText? : Value → Option String
  | .bytes b => utf8? b
  | v => v.text?

end Value

end SqlCompose
