import SqlCompose.Number.Notation
import SqlCompose.Text.Quoted
import SqlCompose.Value.Mapping

/-! # Values as text

`spell` writes a value as a message names it, `display` as a statement shows it where a text is
expected: a text as it is, an expression as its SQL. The texts of memory cells are given from outside.
-/

namespace SqlCompose

structure CellTexts where
  mapping : Home → String
  query : Nat → List (String × String)

namespace Value

def spellBool (b : Bool) : String := if b then "True" else "False"

def spellOperator (op : Operator) : String :=
  "<" ++ op.qualified ++ ": " ++ Text.quoted op.token ++ ">"

def spellDirection (d : Direction) : String :=
  "<" ++ d.qualified ++ ": " ++ Text.quoted d.token ++ ">"

def spellTuple : List String → String
  | [item] => "(" ++ item ++ ",)"
  | items => "(" ++ ", ".intercalate items ++ ")"

def spellRange (start stop step : Int) : String :=
  let ends := Number.writeInt start ++ ", " ++ Number.writeInt stop
  "range(" ++ (if step == 1 then ends else ends ++ ", " ++ Number.writeInt step) ++ ")"

def spellFields (separator : String) (fields : List (String × String)) : String :=
  separator.intercalate (fields.map (fun f => f.1 ++ "=" ++ f.2))

def spellMapping (entries : List String) : String := "\x7b" ++ ", ".intercalate entries ++ "\x7d"

mutual
def spell (cells : CellTexts) : Value → String
  | .null => "None"
  | .bool b => spellBool b
  | .int n => Number.writeInt n
  | .float x => x.write
  | .text s => Text.quoted s
  | .bytes b => Text.quotedBytes b
  | .operator op => spellOperator op
  | .direction d => spellDirection d
  | .list items => "[" ++ ", ".intercalate (spellAll cells items) ++ "]"
  | .tuple items => spellTuple (spellAll cells items)
  | .set items =>
    match items with
    | [] => "frozenset()"
    | item :: rest => "frozenset(\x7b" ++ ", ".intercalate (spell cells item :: spellAll cells rest) ++ "\x7d)"
  | .range start stop step => spellRange start stop step
  | .mapping entries => spellMapping (spellEntries cells entries)
  | .shared home => cells.mapping home
  | .stream _ => "<generator object>"
  | .expression sql params =>
    "Expression(" ++ spellFields ", "
      [("text", Text.quoted sql), ("params", spellMapping (spellEntries cells params))] ++ ")"
  | .raw sql => "RawSql(" ++ spellFields ", " [("sql", Text.quoted sql)] ++ ")"
  | .pairs columns =>
    "HashCondition(" ++ spellFields ", " [("pairs", spellMapping (spellNamed cells columns))] ++ ")"
  | .operation op operands =>
    "OperatorCondition(" ++ spellFields ", "
      [("op", spellOperator op), ("operands", "[" ++ ", ".intercalate (spellAll cells operands) ++ "]")] ++ ")"
  | .join keyword table on =>
    "JoinClause(" ++ spellFields ", "
      [("type", Text.quoted keyword), ("table", Text.quoted table), ("on", spell cells on)] ++ ")"
  | .query cell => "QuerySpec(" ++ spellFields ", " (cells.query cell) ++ ")"
  | .scope params namePrefix =>
    "RuntimeContext(" ++ spellFields ", "
      [("params", spell cells params), ("prefix", spell cells namePrefix)] ++ ")"

def spellAll (cells : CellTexts) : List Value → List String
  | [] => []
  | v :: vs => spell cells v :: spellAll cells vs

def spellEntries (cells : CellTexts) : List (Value × Value) → List String
  | [] => []
  | (k, v) :: rest => (spell cells k ++ ": " ++ spell cells v) :: spellEntries cells rest

def spellNamed (cells : CellTexts) : List (String × Value) → List String
  | [] => []
  | (name, v) :: rest => (Text.quoted name ++ ": " ++ spell cells v) :: spellNamed cells rest
end

def display (cells : CellTexts) : Value → String
  | .text s => s
  | .operator op => op.qualified
  | .direction d => d.qualified
  | .expression sql _ => sql
  | .raw sql => spellFields " " [("sql", Text.quoted sql)]
  | .pairs columns => spellFields " " [("pairs", spellMapping (spellNamed cells columns))]
  | .operation op operands =>
    spellFields " "
      [("op", spellOperator op), ("operands", "[" ++ ", ".intercalate (spellAll cells operands) ++ "]")]
  | .join keyword table on =>
    spellFields " " [("type", Text.quoted keyword), ("table", Text.quoted table), ("on", spell cells on)]
  | .query cell => spellFields " " (cells.query cell)
  | v => spell cells v

end Value

end SqlCompose
