import SqlCompose.Query.Clause

/-! # Statements

A statement is its SQL together with its parameter collection. The caller may own the collection: bindings
are then added to it in place, also by a statement that fails half-way. A collection that is no mapping
takes no bindings; it stays as it is, but it must have a length.
-/

namespace SqlCompose

structure Statement where
  sql : Sql
  params : Value
  dialect : Dialect
  deriving Inhabited

namespace Statement

def text (t : Statement) : String := t.dialect.render t.sql

end Statement

namespace Build

def aside {α : Type} (step : Build α) (m : Memory) : Except Fault α × Memory :=
  let (result, d) := step.runOn { bindings := [], memory := m }
  (result, d.memory)

/-- Where a step over a parameter collection binds, and the draft it starts with. A value that is no mapping
takes no bindings. -/
def opening (s : Setting) (params : Value) (m : Memory) : Setting × Draft :=
  match params with
  | .shared home => ({ s with collection := .shared home }, { bindings := m.mapping home, memory := m })
  | .mapping entries => (s, { bindings := entries, memory := m })
  | _ =>
    let refusal :=
      match params.length m with
      | .ok _ => .wrongType
      | .error misuse => misuse
    ({ s with collection := .fixed refusal }, { bindings := [], memory := m })

/-- The parameter collection after a step, and the memory: a shared mapping has been extended in place. -/
def closing (params : Value) (d : Draft) : Value × Memory :=
  match params with
  | .shared home => (params, d.memory.setMapping home d.bindings)
  | .mapping _ => (.mapping d.bindings, d.memory)
  | _ => (params, d.memory)

end Build

def Build.over {α : Type} (s : Setting) (params : Value) (step : Setting → Build α) (m : Memory) :
    Except Fault (α × Value) × Memory :=
  let (s, d) := Build.opening s params m
  let (result, d) := (step s).runOn d
  let (params, m) := Build.closing params d
  (result.map (fun a => (a, params)), m)

namespace Statement

/-- The statement of SQL and its parameter collection, which must have a length. -/
def ofOutcome (d : Dialect) (outcome : Except Fault (Sql × Value) × Memory) :
    Except Fault Statement × Memory :=
  let (result, m) := outcome
  (result.bind (fun (sql, params) =>
    match params.length m with
    | .ok _ => .ok { sql, params, dialect := d }
    | .error misuse => .error (.misuse misuse)), m)

/-- The collection of a statement, which starts one of its own if it is given none. -/
def collectionOf : Value → Value
  | .null => .mapping []
  | v => v

def compose (s : Setting) (params : Value) (body : Setting → Build Sql) (m : Memory) :
    Except Fault Statement × Memory :=
  ofOutcome s.dialect (Build.over s (collectionOf params) body m)

end Statement

/-- The statement of a query. Its parameters receive the bindings. -/
def Query.build (s : Setting) (v : Value) (m : Memory) : Except Fault Statement × Memory :=
  match v with
  | .query cell =>
    let (result, d) := (Query.compile { s with collection := .shared (m.home cell) } cell).runOn
      { bindings := m.params cell, memory := m }
    (result.map (fun sql => { sql, params := .mapping d.bindings, dialect := s.dialect }),
      d.memory.setMapping (m.home cell) d.bindings)
  | _ => (.error (.misuse .noSuchOperation), m)

namespace Statement

open Build (columnName each eachEntry listedColumn misuse fail nameList rendered tableName view)

def insert (table columns : Value) (s : Setting) : Build Sql := do
  let names ← each s columns (listedColumn s)
  let values ← eachEntry s columns (fun e => rendered s e.2)
  let target ← tableName s table
  let names ← nameList names
  return [.text "INSERT INTO "] ++ target ++ [.text " "] ++ Condition.parenthesized names ++
    [.text " VALUES "] ++ Condition.tupled values

def batchRow (s : Setting) (width : Nat) (row : Value) : Build Sql := do
  match row.length (← view s) with
  | .error m => misuse m
  | .ok n =>
    if n == width then return Condition.tupled (← each s row (rendered s)) else fail (.rowWidth n width)

def batchInsert (table columns rows : Value) (s : Setting) : Build Sql := do
  if !rows.isTruthy (← view s) then fail .noRows
  else
    let target ← tableName s table
    let names ← each s columns (listedColumn s)
    if !s.dialect.batchInsert then fail (.unsupported s.dialect.name .batchInsert)
    else
      let tuples ← each s rows (batchRow s names.length)
      let names ← nameList names
      return [.text "INSERT INTO "] ++ target ++ [.text " "] ++ Condition.parenthesized names ++
        [.text " VALUES "] ++ Sql.commas tuples

def filtered (s : Setting) (sql : Sql) (condition : Value) : Build Sql := do
  let filter ← Query.filterClause s "WHERE" condition
  return if filter.isEmpty then sql else sql ++ [.text " "] ++ filter

def assignment (s : Setting) (e : Value × Value) : Build Sql := do
  let name ← columnName s e.1
  return name ++ [.text "="] ++ (← rendered s e.2)

def update (table columns condition : Value) (s : Setting) : Build Sql := do
  let lines ← eachEntry s columns (assignment s)
  let target ← tableName s table
  filtered s ([.text "UPDATE "] ++ target ++ [.text " SET "] ++ Sql.commas lines) condition

def delete (table condition : Value) (s : Setting) : Build Sql := do
  let target ← tableName s table
  filtered s ([.text "DELETE FROM "] ++ target) condition

/-- The next value of a sequence: a whole number, or what truncates to one or is written as one, in bytes
only by ASCII digits. -/
def sequenceValue : Value → Except Fault Int
  | .null => .ok 1
  | .bool b => .ok b.toNat
  | .int n => .ok n
  | .float .nan => .error (.misuse .unreadable)
  | .float x => x.truncate?.elim (.error (.misuse .unbounded)) .ok
  | .bytes b => ofDigits (if b.all (· < 128) then Value.utf8? b else none)
  | v => v.text?.elim (.error (.misuse .wrongType)) (fun s => ofDigits (some s))
where
  ofDigits (s : Option String) : Except Fault Int :=
    (s.bind Number.readInt?).elim (.error (.misuse .unreadable)) .ok

def resetSequence (table value : Value) (s : Setting) : Build Sql := do
  let target ← tableName s table
  match s.dialect.sequenceReset with
  | none => fail (.unsupported s.dialect.name .sequenceReset)
  | some text =>
    match sequenceValue value with
    | .error f => fail f
    | .ok n => return [.text "ALTER TABLE "] ++ target ++ [.text (text ++ Number.writeInt n)]

def checkIntegrity (check : Value) (s : Setting) : Build Sql := do
  match s.dialect.integritySwitch with
  | none => fail (.unsupported s.dialect.name .integritySwitch)
  | some text => return [.text (text ++ if check.isTruthy (← view s) then "1" else "0")]

end Statement

end SqlCompose
