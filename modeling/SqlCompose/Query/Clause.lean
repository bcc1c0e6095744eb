import SqlCompose.Condition
import SqlCompose.Query.Reading

/-! # The clauses of a query

Every clause is written from its part of a query; a clause that says nothing is empty and is left out.
A join is an expression, or a keyword, a table and a condition, in any of three notations.
-/

namespace SqlCompose

namespace Build

def item (s : Setting) (name : String → Sql) : Item → Build Sql
  | .name text => return name text
  | .expression sql params => do
    adopt s params
    return [.text sql]

def items (s : Setting) (name : String → Sql) (l : List Item) : Build Sql := do
  return Sql.commas (← l.mapM (item s name))

end Build

structure Join where
  keyword : String
  table : String
  on : Value
  deriving Inhabited

namespace Join

def ofList? : List Value → Option Join
  | keyword :: table :: rest => do return ⟨← keyword.text?, ← table.text?, rest.headD .null⟩
  | _ => none

def ofValue? (m : Memory) (v : Value) : Option Join :=
  match v with
  | .join keyword table on => some ⟨keyword, table, on⟩
  | .list items | .tuple items => ofList? items
  | v =>
    match (v.entries? m).map (Record.join m) with
    | some (.ok (.join keyword table on)) => some ⟨keyword, table, on⟩
    | _ => none

def compile (s : Setting) (j : Join) : Build Sql := do
  let target := [.text (j.keyword ++ " ")] ++ Sql.aliasedTable j.table
  let condition ← Condition.compile s j.on
  return if condition.isEmpty then target else target ++ [.text " ON "] ++ condition.alone

def compileEntry (s : Setting) : Value → Build Sql
  | .expression sql params => Build.rendered s (.expression sql params)
  | v => do
    match ofValue? (← Build.view s) v with
    | some j => compile s j
    | none => Build.fail (.malformedJoin v)

end Join

namespace Query

def clauses (s : Setting) (parts : List Sql) : Sql :=
  Sql.join s.separator (parts.filter (fun part => !part.isEmpty))

def selectClause (s : Setting) (q : Query) : Build Sql := do
  let keyword := (if q.distinct then "SELECT DISTINCT" else "SELECT") ++ (q.selectOption.elim "" (" " ++ ·))
  if q.columns.isEmpty then return [.text (keyword ++ " *")]
  else return [.text (keyword ++ " ")] ++ (← Build.items s Sql.aliasedColumn q.columns)

def fromClause (s : Setting) (q : Query) : Build Sql := do
  if q.tables.isEmpty then return []
  else return [.text "FROM "] ++ (← Build.items s Sql.aliasedTable q.tables)

def joinClause (s : Setting) (q : Query) : Build Sql := do
  return Sql.join s.separator (← q.joins.mapM (Join.compileEntry s))

def filterClause (s : Setting) (keyword : String) (condition : Value) : Build Sql := do
  let sql ← Condition.compile s condition
  return if sql.isEmpty then [] else [.text (keyword ++ " ")] ++ sql.alone

def groupClause (s : Setting) (q : Query) : Build Sql := do
  if q.groups.isEmpty then return []
  else return [.text "GROUP BY "] ++ (← Build.items s Sql.column q.groups)

def sortKey (s : Setting) (e : String × SortKey) : Build Sql :=
  match e.2 with
  | .expression sql params => Build.item s Sql.column (.expression sql params)
  | .direction .ascending => return Sql.column e.1
  | .direction .descending => return Sql.column e.1 ++ [.text " DESC"]

def orderClause (s : Setting) (q : Query) : Build Sql := do
  if q.order.isEmpty then return []
  else return [.text "ORDER BY "] ++ Sql.commas (← q.order.mapM (sortKey s))

def limitClause (q : Query) : Sql :=
  let limit := (q.limit.filter (fun n => 0 ≤ n)).map (fun n => "LIMIT " ++ Number.writeInt n)
  let offset := (q.offset.filter (fun n => 0 < n)).map (fun n => "OFFSET " ++ Number.writeInt n)
  match limit.toList ++ offset.toList with
  | [] => []
  | parts => [.text (" ".intercalate parts)]

def unionText (members : List Sql) : Sql :=
  [.text "UNION (\n"] ++ Sql.join "\n) UNION (\n" members ++ [.text "\n)"]

/-- The draft after the query in a cell has been given all bindings so far. -/
def handed (s : Setting) (cell : Nat) (d : Draft) : Draft :=
  { d with memory :=
      d.memory.setMapping (d.memory.home cell) (Entries.merge ((d.view s).params cell) d.bindings) }

/-- One member: raw SQL, or a query. A query's parameters are taken over before it is written, and
afterwards it has all bindings so far. -/
def member (s : Setting) (compile : Nat → Build Sql) : Member → Build Sql
  | .sql sql => return [.text sql]
  | .query cell => do
    Build.adopt s ((← Build.view s).params cell)
    let sql ← compile cell
    modify (handed s cell)
    return sql

def unionClause (s : Setting) (compile : Nat → Build Sql) (q : Query) : Build Sql := do
  if q.members.isEmpty then return []
  else return unionText (← q.members.mapM (member s compile))

def compileWith (s : Setting) (compile : Nat → Build Sql) (q : Query) : Build Sql := do
  let select ← selectClause s q
  let tables ← fromClause s q
  let joins ← joinClause s q
  let filter ← filterClause s "WHERE" q.filter
  let groups ← groupClause s q
  let groupFilter ← filterClause s "HAVING" q.groupFilter
  let union ← unionClause s compile q
  let order ← orderClause s q
  return clauses s [select, tables, joins, filter, groups, groupFilter, union, order, limitClause q]

/-- The SQL of the query in a cell. Its members are in earlier cells: a query that is a member of its own
is never written to its end. -/
def compile (s : Setting) (cell : Nat) : Build Sql := do
  compileWith s (fun earlier => if _h : earlier < cell then compile s earlier else Build.misuse .tooDeep)
    ((← get).memory.query cell)
termination_by cell

end Query

end SqlCompose
