import SqlCompose.ColumnType
import SqlCompose.Options
import SqlCompose.Statement

/-! # Schema statements

Statements that create and change tables, columns, keys and indexes. They bind nothing; column types are
resolved through the types of the dialect and of the options.
-/

namespace SqlCompose

namespace Options

/-- The column types in force for a dialect: a type that the options name changes in place, others follow. -/
def columnTypes (o : Options) (d : Dialect) : ColumnType.TypeMap := Text.putAll d.types o.types

end Options

namespace Schema

open Build (adoptAll columnList columnName each eachEntry fail misuse pairOf shown tableName view)

def text (s : String) : Build Sql := return [.text s]

def sequence (parts : List (Build Sql)) : Build Sql := do return (← parts.mapM id).flatten

def columnType (types : ColumnType.TypeMap) (v : Value) : Build Value :=
  match v.text? with
  | some name => return ((ColumnType.resolve? types name).map Value.text).getD v
  | none => misuse .wrongType

def shownType (types : ColumnType.TypeMap) (s : Setting) (v : Value) : Build Sql := do
  shown s (← columnType types v)

def columnLine (types : ColumnType.TypeMap) (s : Setting) (name type : Value) : Build Sql :=
  sequence [text "\t", columnName s name, text " ", shownType types s type]

def tableLine (types : ColumnType.TypeMap) (s : Setting) (v : Value) : Build Sql := do
  match v.text? with
  | some _ => sequence [text "\t", shown s v]
  | none =>
    let (name, type) ← pairOf s v
    columnLine types s name type

def tableLines (types : ColumnType.TypeMap) (s : Setting) (columns : Value) : Build (List Sql) := do
  match columns.entries? (← view s) with
  | some _ => eachEntry s columns (fun e => columnLine types s e.1 e.2)
  | none => each s columns (tableLine types s)

def createTable (types : ColumnType.TypeMap) (s : Setting) (table columns options : Value) : Build Sql := do
  let lines ← tableLines types s columns
  if lines.isEmpty then fail (.noColumns table)
  else
    let body := [.text " (\n"] ++ Sql.join ",\n" lines ++ [.text "\n)"]
    let ending := match options with | .null => [] | v => [text " ", shown s v]
    sequence ([text "CREATE TABLE ", tableName s table, return body] ++ ending)

def alterTable (s : Setting) (table : Value) (change : List (Build Sql)) : Build Sql :=
  sequence ([text "ALTER TABLE ", tableName s table] ++ change)

def addColumn (types : ColumnType.TypeMap) (s : Setting) (table column type : Value) : Build Sql :=
  alterTable s table [text " ADD ", columnName s column, text " ", shownType types s type]

/-- The column is named twice, since its name stays. -/
def alterColumn (types : ColumnType.TypeMap) (s : Setting) (table column type : Value) : Build Sql := do
  let name ← columnName s column
  alterTable s table [text " CHANGE ", return name, text " ", return name, text " ", shownType types s type]

def addPrimaryKey (s : Setting) (name table columns : Value) : Build Sql :=
  alterTable s table [text " ADD CONSTRAINT ", columnName s name, text " PRIMARY KEY (",
    columnList s false columns, text ")"]

def dropConstraint (s : Setting) (name table : Value) : Build Sql :=
  alterTable s table [text " DROP CONSTRAINT ", columnName s name]

def action (s : Setting) (event : String) : Value → List (Build Sql)
  | .null => []
  | v => [text (" ON " ++ event ++ " "), shown s v]

def addForeignKey (s : Setting) (name table columns target targetColumns delete update : Value) : Build Sql :=
  alterTable s table ([text " ADD CONSTRAINT ", columnName s name, text " FOREIGN KEY (",
    columnList s false columns, text ") REFERENCES ", tableName s target, text " (",
    columnList s false targetColumns, text ")"] ++ action s "DELETE" delete ++ action s "UPDATE" update)

def createIndex (s : Setting) (name table columns unique : Value) : Build Sql := do
  let keyword := if unique.isTruthy (← view s) then "CREATE UNIQUE INDEX " else "CREATE INDEX "
  sequence [text keyword, tableName s name, text " ON ", tableName s table, text " (",
    columnList s false columns, text ")"]

def dropIndex (s : Setting) (name table : Value) : Build Sql :=
  sequence [text "DROP INDEX ", tableName s name, text " ON ", tableName s table]

/-- The statement of a command, given by its name and its arguments; trailing arguments may be left out
where they have a default. -/
def command (types : ColumnType.TypeMap) (s : Setting) (name : String) (args : List Value) : Build Sql :=
  match name, args with
  | "create_table", [table, columns] => createTable types s table columns .null
  | "create_table", [table, columns, options] => createTable types s table columns options
  | "rename_table", [old, new] =>
    sequence [text "RENAME TABLE ", tableName s old, text " TO ", tableName s new]
  | "drop_table", [table] => sequence [text "DROP TABLE ", tableName s table]
  | "truncate_table", [table] => sequence [text "TRUNCATE TABLE ", tableName s table]
  | "add_column", [table, column, type] => addColumn types s table column type
  | "drop_column", [table, column] => alterTable s table [text " DROP COLUMN ", columnName s column]
  | "rename_column", [table, old, new] =>
    alterTable s table [text " RENAME COLUMN ", columnName s old, text " TO ", columnName s new]
  | "alter_column", [table, column, type] => alterColumn types s table column type
  | "add_primary_key", [name, table, columns] => addPrimaryKey s name table columns
  | "drop_primary_key", [name, table] => dropConstraint s name table
  | "add_foreign_key", [name, table, columns, target, targetColumns] =>
    addForeignKey s name table columns target targetColumns .null .null
  | "add_foreign_key", [name, table, columns, target, targetColumns, delete] =>
    addForeignKey s name table columns target targetColumns delete .null
  | "add_foreign_key", [name, table, columns, target, targetColumns, delete, update] =>
    addForeignKey s name table columns target targetColumns delete update
  | "drop_foreign_key", [name, table] => dropConstraint s name table
  | "create_index", [name, table, columns] => createIndex s name table columns (.bool false)
  | "create_index", [name, table, columns, unique] => createIndex s name table columns unique
  | "drop_index", [name, table] => dropIndex s name table
  | _, _ => misuse .wrongType

def build (o : Options) (d : Dialect) (name : String) (args : List Value) (m : Memory) :
    Except Fault String × Memory :=
  let (result, m) := Build.aside (command (o.columnTypes d) (o.setting d) name args) m
  (result.map d.render, m)

def physicalType (o : Options) (d : Dialect) (args : List Value) (m : Memory) : Except Fault Value × Memory :=
  match args with
  | [type] => Build.aside (columnType (o.columnTypes d) type) m
  | _ => (.error (.misuse .wrongType), m)

def resolveTypes (templates : Value) (types : List String) (m : Memory) :
    Except Fault (List Value) × Memory :=
  let (result, d) := (adoptAll (({} : Options).setting .plain) templates).runOn { bindings := [], memory := m }
  (result.bind (fun _ => (types.mapM (ColumnType.resolveIn d.bindings)).mapError Fault.misuse), d.memory)

end Schema

end SqlCompose
