import SqlCompose.Reading.Scalar

/-! # Records read field by field

A record is read from named values. All fields are read even if one fails, and a name that no field has
fails too; the failure lists the names. An expression is special where it is written as a mapping: it
must at least name its text.
-/

namespace SqlCompose

abbrev Checked (α : Type) := Except (List String) α

namespace Checked

def ofFields {α : Type} (result : Option α) (fields : List (String × Bool)) (unknown : List String) :
    Checked α :=
  match result, unknown with
  | some a, [] => .ok a
  | _, _ => .error ((fields.filter (fun f => !f.2)).map (·.1) ++ unknown)

def orFault {α : Type} (kind : RecordKind) : Checked α → Except Fault α
  | .ok a => .ok a
  | .error fields => .error (.invalidRecord kind fields)

end Checked

def Value.reportedName (m : Memory) (v : Value) : String :=
  match v.text?, v with
  | some s, _ => s
  | none, .bool b => Number.writeInt b.toNat
  | none, v => m.spell v

namespace Entries

def field? (entries : Entries) (name : String) : Option Value := entries.get? (.text name)

def unknown (m : Memory) (known : List String) (entries : Entries) : List String :=
  (entries.keys.map (fun key => (key, key.reportedName m))).filterMap fun (key, name) =>
    if key.text?.isSome && known.contains name then none else some name

def areArguments (entries : Entries) : Bool := entries.keys.all (fun key => key.text?.isSome)

end Entries

namespace Record

def arguments (m : Memory) (v : Value) : Except Fault Entries :=
  match v.entries? m with
  | none => .error (.misuse .wrongType)
  | some entries => if entries.areArguments then .ok entries else .error (.misuse .wrongType)

/-- An expression of a text and parameters; parameters that are not present are none. -/
def expression (m : Memory) (text params : Value) (unknown : List String) : Checked (String × Entries) :=
  let sql := text.readText?
  let params := if params.isTruthy m then params.readParams? m else some []
  Checked.ofFields (do return (← sql, ← params)) [("text", sql.isSome), ("params", params.isSome)] unknown

def expressionOfArguments (m : Memory) : List Value → Except Fault Value
  | [text] => build text .null
  | [text, params] => build text params
  | _ => .error (.misuse .wrongType)
where
  build (text params : Value) : Except Fault Value :=
    ((expression m text params []).orFault .expression).map (fun e => .expression e.1 e.2)

/-- An expression written as a mapping; `none` if a field fails. The name `self` is taken. -/
def expressionOfEntries (m : Memory) (entries : Entries) : Except Fault (Option (String × Entries)) :=
  match entries.areArguments && (entries.field? "self").isNone, entries.field? "text" with
  | true, some text =>
    let unknown := entries.unknown m ["text", "params"]
    .ok (expression m text ((entries.field? "params").getD .null) unknown).toOption
  | _, _ => .error (.misuse .wrongType)

def join (m : Memory) (entries : Entries) : Checked Value :=
  let keyword := (entries.field? "type").bind Value.readText?
  let table := (entries.field? "table").bind Value.readText?
  let on := (entries.field? "on").getD .null
  Checked.ofFields (do return .join (← keyword) (← table) on)
    [("type", keyword.isSome), ("table", table.isSome)] (entries.unknown m ["type", "table", "on"])

def rawCondition (sql : Value) : Checked Value :=
  Checked.ofFields (sql.readText?.map .raw) [("sql", false)] []

def hashCondition (m : Memory) (columns : Value) : Checked Value :=
  Checked.ofFields ((columns.readNamed? m).map .pairs) [("pairs", false)] []

def operatorCondition (op operands : Value) : Reading (Checked Value) := do
  let op := op.readOperator?
  let operands ← Reading.listed operands
  return Checked.ofFields (do return .operation (← op) (← operands))
    [("op", op.isSome), ("operands", operands.isSome)] []

end Record

end SqlCompose
