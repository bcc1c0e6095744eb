import SqlCompose.Reading.Record
import SqlCompose.Text.Alias

/-! # Reading queries

A query is read from a mapping of its clauses. Columns, tables and sort orders may be given as one
comma-separated text, and the members of a union as mappings of their own; such members become new
queries, nested at most so deep.
-/

namespace SqlCompose

namespace Item

/-- The items of a text: the whole of it if it is an expression, else its comma-separated parts. -/
def ofText (s : String) : List Value :=
  if Text.hasChar '(' s then [.text s] else (Text.names s).map Value.text

/-- A name, an expression, or a mapping that stands for one. -/
def read (m : Memory) (v : Value) : Except Fault (Option Item) :=
  match v with
  | .expression sql params => .ok (some (.expression sql params))
  | v =>
    match v.readText?, v.entries? m with
    | some s, _ => .ok (some (.name s))
    | none, some entries =>
      (Record.expressionOfEntries m entries).map (Option.map (fun e => .expression e.1 e.2))
    | none, none => .ok none

def readAll (v : Value) : Reading (Option (List Item)) := do
  let readItem (v : Value) : Reading (Option Item) := Reading.ofMemory (fun m => read m v)
  match v, v.text? with
  | _, some s => return (← (ofText s).mapM readItem).mapM id
  | .expression .., none => return (← [v].mapM readItem).mapM id
  | _, none => return (← Reading.each readItem v).bind (List.mapM id)

end Item

namespace SortKey

def ofDescending (descending : Bool) : SortKey :=
  .direction (if descending then .descending else .ascending)

def ofItem (item : String) : String × SortKey :=
  match Text.sortItem? item.toList with
  | some (column, descending) => (String.ofList column, ofDescending descending)
  | none => (item, .direction .ascending)

def ofText (s : String) : List (String × SortKey) :=
  Text.putAll [] ((Text.names s).map ofItem)

/-- A direction in any letter case, an expression, or a mapping that stands for one. -/
def read (m : Memory) (v : Value) : Except Fault (Option SortKey) :=
  match v, v.text? with
  | _, some s => .ok ((Direction.ofToken? (String.ofList (Text.keyword s.toList))).map .direction)
  | .bytes b, none => .ok (((Value.utf8? b).bind Direction.ofToken?).map .direction)
  | .expression sql params, none => .ok (some (.expression sql params))
  | v, none =>
    match v.entries? m with
    | none => .ok none
    | some entries =>
      (Record.expressionOfEntries m entries).map (Option.map (fun e => .expression e.1 e.2))

def readEntry (m : Memory) (e : Value × Value) : Except Fault (Option (String × SortKey)) :=
  (read m e.2).map (fun key => do return (← e.1.readText?, ← key))

def readAll (m : Memory) (v : Value) : Except Fault (Option (List (String × SortKey))) :=
  match v, v.text?, v.entries? m with
  | .null, _, _ => .ok (some [])
  | _, some s, _ => .ok (some (ofText s))
  | _, none, none => .ok none
  | _, none, some entries => do
    let keys ← entries.mapM (readEntry m)
    return (keys.mapM id).map (Text.putAll [])

end SortKey

namespace Member

/-- A member of a union; `nested` reads a query from a mapping. -/
def read (nested : Entries → Reading (Option Nat)) (v : Value) : Reading (Option Member) := do
  match v with
  | .query cell => return some (.query cell)
  | v =>
    match v.readText?, v.entries? (← get) with
    | some s, _ => return some (.sql s)
    | none, some entries => return (← nested entries).map .query
    | none, none => return none

def readAll (nested : Entries → Reading (Option Nat)) (v : Value) : Reading (Option (List Member)) := do
  match v, v.text?, v.entries? (← get) with
  | .query _, _, _ | _, some _, _ | _, none, some _ => return (← [v].mapM (read nested)).mapM id
  | _, none, none => return (← Reading.each (read nested) v).bind (List.mapM id)

end Member

namespace Query

def clauseNames : List String := (Query.fields .null {}).map (·.1)

def readOptional {α : Type} (read? : Value → Option α) : Value → Option (Option α)
  | .null => some none
  | v => (read? v).map some

def readClause {α : Type} (entries : Entries) (name : String) (absent : α)
    (read : Value → Reading (Option α)) : Reading (Option α) :=
  match entries.field? name with
  | none => return some absent
  | some v => read v

def ofEntries (nested : Entries → Reading (Option Nat)) (entries : Entries) : Reading (Checked Query) := do
  let columns ← readClause entries "SELECT" [] Item.readAll
  let distinct ← readClause entries "DISTINCT" false (fun v => pure v.readBool?)
  let selectOption ← readClause entries "SELECT_OPTION" none (fun v => pure (readOptional Value.readText? v))
  let tables ← readClause entries "FROM" [] Item.readAll
  let joins ← readClause entries "JOIN" [] Reading.listed
  let filter ← readClause entries "WHERE" .null (fun v => pure (some v))
  let groups ← readClause entries "GROUP_BY" [] Item.readAll
  let groupFilter ← readClause entries "HAVING" .null (fun v => pure (some v))
  let members ← readClause entries "UNION" [] (Member.readAll nested)
  let order ← readClause entries "ORDER_BY" [] (fun v => Reading.ofMemory (fun m => SortKey.readAll m v))
  let limit ← readClause entries "LIMIT" none (fun v => pure (readOptional Value.readInt? v))
  let offset ← readClause entries "OFFSET" none (fun v => pure (readOptional Value.readInt? v))
  let params ← readClause entries "params" [] (fun v => Reading.ofMemory (fun m => .ok (v.readParams? m)))
  let query : Option Query := do
    return { columns := ← columns, distinct := ← distinct, selectOption := ← selectOption
             tables := ← tables, joins := ← joins, filter := ← filter, groups := ← groups
             groupFilter := ← groupFilter, members := ← members, order := ← order
             limit := ← limit, offset := ← offset, params := ← params }
  return Checked.ofFields query
    [("SELECT", columns.isSome), ("DISTINCT", distinct.isSome), ("SELECT_OPTION", selectOption.isSome),
     ("FROM", tables.isSome), ("JOIN", joins.isSome), ("GROUP_BY", groups.isSome),
     ("UNION", members.isSome), ("ORDER_BY", order.isSome), ("LIMIT", limit.isSome),
     ("OFFSET", offset.isSome), ("params", params.isSome)]
    (entries.unknown (← get) clauseNames)

def allocate (q : Query) : Reading Nat := do
  let m ← get
  set (m.addQuery q).2
  return m.queries.size

def readNested : (levels : Nat) → Entries → Reading (Option Nat)
  | 0, _ => return none
  | levels + 1, entries => do
    match ← ofEntries (readNested levels) entries with
    | .ok q => return some (← allocate q)
    | .error _ => return none

/-- How many levels of members a query may have that are written as mappings. -/
def greatestNesting : Nat := 253

/-- A new query with these clauses. -/
def read (entries : Entries) : Reading (Checked Value) := do
  match ← ofEntries (readNested greatestNesting) entries with
  | .ok q => return .ok (.query (← allocate q))
  | .error fields => return .error fields

/-- A query as it is, or a new one from a mapping. -/
def ofValue (v : Value) : Reading (Checked Value) := do
  match v, v.entries? (← get) with
  | .query cell, _ => return .ok (.query cell)
  | _, some entries => read entries
  | _, none => return .error []

end Query

end SqlCompose
