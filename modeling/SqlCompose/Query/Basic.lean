import SqlCompose.Value.Mapping

/-! # Queries

A query describes one `SELECT` statement. Its members are the statements that follow it under `UNION`:
raw SQL, or queries of the same memory. Only the parameters change after a query has been made: they are a
mapping that the query refers to, which other queries may refer to as well.
-/

namespace SqlCompose

/-- A column or table: a name, or SQL with its own parameters. -/
inductive Item where
  | name (s : String)
  | expression (sql : String) (params : Entries)
  deriving Inhabited

/-- How a query sorts by one column: in a direction, or by an expression in its place. -/
inductive SortKey where
  | direction (d : Direction)
  | expression (sql : String) (params : Entries)
  deriving Inhabited

inductive Member where
  | query (cell : Nat)
  | sql (s : String)
  deriving Inhabited

structure Query where
  columns : List Item := []
  distinct : Bool := false
  selectOption : Option String := none
  tables : List Item := []
  joins : List Value := []
  filter : Value := .null
  groups : List Item := []
  groupFilter : Value := .null
  members : List Member := []
  order : List (String × SortKey) := []
  limit : Option Int := none
  offset : Option Int := none
  /-- The mapping that was made with the query. -/
  params : Entries := []
  /-- Where its parameters are kept, if they are another mapping. -/
  home : Option Home := none
  deriving Inhabited

def Item.toValue : Item → Value
  | .name s => .text s
  | .expression sql params => .expression sql params

def SortKey.toValue : SortKey → Value
  | .direction d => .direction d
  | .expression sql params => .expression sql params

def Member.toValue : Member → Value
  | .query cell => .query cell
  | .sql s => .text s

/-- The clauses by name, in the order in which a query lists them; `params` stands for the parameters. -/
def Query.fields (params : Value) (q : Query) : List (String × Value) :=
  [("SELECT", .list (q.columns.map Item.toValue)),
   ("DISTINCT", .bool q.distinct),
   ("SELECT_OPTION", (q.selectOption.map Value.text).getD .null),
   ("FROM", .list (q.tables.map Item.toValue)),
   ("JOIN", .list q.joins),
   ("WHERE", q.filter),
   ("GROUP_BY", .list (q.groups.map Item.toValue)),
   ("HAVING", q.groupFilter),
   ("UNION", .list (q.members.map Member.toValue)),
   ("ORDER_BY", .mapping (q.order.map (fun e => (.text e.1, e.2.toValue)))),
   ("LIMIT", (q.limit.map Value.int).getD .null),
   ("OFFSET", (q.offset.map Value.int).getD .null),
   ("params", params)]

end SqlCompose
