import SqlCompose.Name

/-! # Conditions

A condition is raw SQL, a mapping from columns to values that all have to hold, or an operator with its
operands. `typed` reads the compact form of a condition as its typed form; `compile` writes a condition.
No tokens at all mean that there is no condition: connectives leave such operands out, and a
membership test over no values is either such a condition or the constant `0=1`.
-/

namespace SqlCompose

/-- The operator that stands at the head of an operator form. -/
def Operator.ofValue (v : Value) : Except Fault Operator :=
  match v with
  | .operator op => .ok op
  | _ =>
    match v.text?.bind Operator.read? with
    | some op => .ok op
    | none => .error (.unknownOperator v)

namespace Condition

def typedPairs (entries : Entries) : Except Fault Value :=
  if entries.isEmpty then .ok .null
  else
    match entries.named? with
    | some columns => .ok (.pairs columns)
    | none => .error (.keysNotNames entries.keys)

def typedForm : List Value → Except Fault Value
  | [] => .ok .null
  | head :: operands => (Operator.ofValue head).map (fun op => .operation op operands)

def typed (m : Memory) : Value → Except Fault Value
  | .null => .ok .null
  | .raw sql => .ok (.raw sql)
  | .pairs columns => .ok (.pairs columns)
  | .operation op operands => .ok (.operation op operands)
  | .list items | .tuple items => typedForm items
  | v =>
    match v.text?, v.entries? m with
    | some sql, _ => .ok (.raw sql)
    | none, some entries => typedPairs entries
    | none, none => .error (.unsupportedShape v.kind)

def never : Sql := [.text "0=1"]

/-- A test over no values: no row passes it, and every row passes its negation. -/
def overNothing (negated : Bool) : Sql := if negated then [] else never

def grouped (word : String) (parts : List Sql) : Sql :=
  [.text "("] ++ Sql.join (") " ++ word ++ " (") parts ++ [.text ")"]

/-- The parts that say something, joined by `word`; a single one stands alone. -/
def connected (word : String) (parts : List Sql) : Sql :=
  match parts.filter (fun part => !part.isEmpty) with
  | [] => []
  | [part] => part
  | many => grouped word many

def parenthesized (sql : Sql) : Sql := [.text "("] ++ sql ++ [.text ")"]

def tupled (parts : List Sql) : Sql := parenthesized (Sql.commas parts)

def entry (s : Setting) : Value → Build Sql
  | .null => return [.text "NULL"]
  | v => Build.rendered s v

/-- The value under a column, if `v` is a mapping; else `v` itself. -/
def field (s : Setting) (column v : Value) : Build Value := do
  match v.entries? (← Build.view s) with
  | none => return v
  | some entries =>
    if column.isKey then return (entries.get? column).getD .null else Build.misuse .wrongType

def valuesOf (s : Setting) (v : Value) : Build (List Value) :=
  if v.listsValues then Build.elements s v else return [v]

def singleMember (s : Setting) (negated : Bool) (column : Value) (values : List Value) : Build Sql := do
  let entries ← values.mapM (fun v => do entry s (← field s column v))
  let name ← Build.columnName s column
  match entries with
  | [one] => return name ++ [.text (if negated then "<>" else "=")] ++ one
  | many => return name ++ [.text (if negated then " NOT IN " else " IN ")] ++ tupled many

def memberRow (s : Setting) (negated : Bool) (columns : List Value) (row : Value) : Build Sql := do
  match row.entries? (← Build.view s) with
  | none => Build.fail (.rowNotMapping (.member negated) row)
  | some _ => return tupled (← columns.mapM (fun column => do entry s (← field s column row)))

def compositeMember (s : Setting) (negated : Bool) (columns rows : List Value) : Build Sql := do
  let rows ← rows.mapM (memberRow s negated columns)
  let names ← Build.nameList (← columns.mapM (Build.listedColumn s))
  return parenthesized names ++ [.text (if negated then " NOT IN " else " IN ")] ++ tupled rows

def columns? : Value → Option (List Value)
  | .list items | .tuple items => some items
  | _ => none

def member (s : Setting) (negated : Bool) (column values : Value) : Build Sql := do
  let values ← valuesOf s values
  if values.isEmpty then return overNothing negated
  else
    match columns? column with
    | some [] => return overNothing negated
    | some [single] => singleMember s negated single values
    | some columns => compositeMember s negated columns values
    | none => singleMember s negated column values

def like (s : Setting) (any negated : Bool) (column values : Value) : Build Sql := do
  let values ← valuesOf s values
  if values.isEmpty then return overNothing negated
  else
    let name ← Build.columnName s column
    let word := if negated then " NOT LIKE " else " LIKE "
    let parts ← values.mapM (fun v => return name ++ [.text word] ++ (← Build.rendered s v))
    return Sql.join (if any then " OR " else " AND ") parts

def between (s : Setting) (negated : Bool) (column low high : Value) : Build Sql := do
  let name ← Build.columnName s column
  let low ← Build.rendered s low
  let high ← Build.rendered s high
  return name ++ [.text (if negated then " NOT BETWEEN " else " BETWEEN ")] ++ low ++ [.text " AND "] ++ high

def comparison (s : Setting) (c : Comparison) (column value : Value) : Build Sql := do
  let name ← Build.columnName s column
  return name ++ [.text c.token] ++ (← Build.rendered s value)

def pair (s : Setting) (column : String) (v : Value) : Build Sql :=
  if v.listsValues then member s false (.text column) v
  else
    match v with
    | .null => return Sql.column column ++ [.text " IS NULL"]
    | v => return Sql.column column ++ [.text "="] ++ (← Build.rendered s v)

def pairs (s : Setting) (columns : List (String × Value)) : Build Sql := do
  match ← columns.mapM (fun c => pair s c.1 c.2) with
  | [part] => return part
  | parts => return grouped "AND" parts

def operate (s : Setting) (op : Operator) (operands : List Value) (inner : Build (List Sql)) :
    Build Sql :=
  match op, operands with
  | .and, _ | .or, _ => return connected op.token (← inner)
  | .between negated, [column, low, high] => between s negated column low high
  | .between _, _ => Build.fail (.operandCount op 3 operands.length)
  | .member negated, [column, values] => member s negated column values
  | .like any negated, [column, values] => like s any negated column values
  | .compare c, [column, value] => comparison s c column value
  | _, _ => Build.fail (.operandCount op 2 operands.length)

/-- A condition without operands: raw SQL, a mapping of columns, or none. -/
def simple (s : Setting) (v : Value) : Build Sql := do
  match typed (← Build.view s) v with
  | .error f => Build.fail f
  | .ok (.raw sql) => return [.text sql]
  | .ok (.pairs columns) => pairs s columns
  | .ok _ => return []

/-- An operand that is an operator or a sort direction: raw SQL that keeps its label. -/
def symbol? : Value → Option Sql
  | .operator op => some [.symbol op.token op.qualified]
  | .direction d => some [.symbol d.token d.qualified]
  | _ => none

mutual
def compile (s : Setting) : Value → Build Sql
  | .expression sql params => Build.rendered s (.expression sql params)
  | .operation op operands => operate s op operands (compileAll s operands)
  | .list items => compileForm s items
  | .tuple items => compileForm s items
  | v => simple s v

def compileForm (s : Setting) : List Value → Build Sql
  | [] => return []
  | head :: operands => do
    match Operator.ofValue head with
    | .error f => Build.fail f
    | .ok op => operate s op operands (compileAll s operands)

def compileAll (s : Setting) : List Value → Build (List Sql)
  | [] => return []
  | v :: vs => do
    let sql ←
      match symbol? v with
      | some sql => pure sql
      | none => compile s v
    return sql :: (← compileAll s vs)
end

end Condition

end SqlCompose
