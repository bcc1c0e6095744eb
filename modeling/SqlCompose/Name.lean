import SqlCompose.Draft
import SqlCompose.Text.Alias

/-! # Names in statements

Table and column names are texts; one that holds an opening parenthesis is an expression and stays as
it is. Other values are refused, except that a collection which holds the parenthesis as a member is
shown as it is written, and that a dialect without quotes shows any value as a column.
-/

namespace SqlCompose

namespace Sql

def aliasedTable (name : String) : Sql :=
  if isExpression name then [.text name]
  else
    match Text.tableAlias? name.toList with
    | some (t, a) => table (String.ofList t) ++ [.text " "] ++ table (String.ofList a)
    | none => table name

def aliasedColumn (name : String) : Sql :=
  if isExpression name then [.text name]
  else
    match Text.columnAlias? name.toList with
    | some (c, a) => column (String.ofList c) ++ [.text " AS "] ++ column (String.ofList a)
    | none => column name

def columnsOfText (s : String) : Sql :=
  if isExpression s then [.text s] else commas ((Text.names s).map column)

end Sql

namespace Build

def soughtInStream (wanted : String) (cell : Nat) : (limit : Nat) → Build Bool
  | 0 => return false
  | limit + 1 => do
    match ← next? cell with
    | none => return false
    | some v => if v.text? == some wanted then return true else soughtInStream wanted cell limit

/-- Whether a value holds a text: as a part, a member or a key. -/
def holds (s : Setting) (needle : Char) (v : Value) : Build Bool := do
  let wanted := String.singleton needle
  match v.text? with
  | some t => return Text.hasChar needle t
  | none =>
    match v with
    | .expression .. | .raw _ | .pairs _ | .operation .. | .join .. | .query _ => return false
    | .bytes _ => misuse .wrongType
    | .stream cell => soughtInStream wanted cell ((← get).memory.stream cell).length
    | _ => return (← elements s v).any (fun item => item.text? == some wanted)

def shown (s : Setting) (v : Value) : Build Sql := do return [.text ((← view s).display v)]

def columnName (s : Setting) (v : Value) : Build Sql := do
  match v with
  | .text name => return Sql.column name
  | _ =>
    if ← holds s '(' v then shown s v
    else if ← holds s '.' v then misuse .noSuchOperation
    else
      match s.dialect.quote, v.text? with
      | none, _ => shown s v
      | some _, some name => return Sql.column name
      | some _, none => misuse .noSuchOperation

/-- The name of a column for a list of names. A collection that holds an opening parenthesis gives none. -/
def listedColumn (s : Setting) (v : Value) : Build (Option Sql) := do
  match v with
  | .text name => return some (Sql.column name)
  | _ => if ← holds s '(' v then return none else return some (← columnName s v)

def nameList (names : List (Option Sql)) : Build Sql :=
  match names.mapM id with
  | some names => return Sql.commas names
  | none => misuse .wrongType

def tableName (s : Setting) (v : Value) : Build Sql := do
  match v.text? with
  | some name => return Sql.table name
  | none => if ← holds s '(' v then shown s v else misuse .noSuchOperation

def columnItem (s : Setting) (binding : Bool) : Value → Build (Option Sql)
  | .expression sql params => do
    if binding then adopt s params
    return some [.text sql]
  | v => listedColumn s v

def columnList (s : Setting) (binding : Bool) (v : Value) : Build Sql := do
  match v.text? with
  | some names => return Sql.columnsOfText names
  | none => nameList (← each s v (columnItem s binding))

end Build

end SqlCompose
