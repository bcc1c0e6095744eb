import SqlCompose.Proofs.Request

/-! # The literals of a statement

What a statement has to bind, read off its input in the order in which it is written: everything in a value's place
that is neither an expression nor a `NULL` of the text. An input may use up streams and may be the very collection
that receives the bindings, so each part is read from the draft that the parts before it leave.
-/
namespace SqlCompose
open Build

variable {α β : Type}

abbrev Reads := Draft → List Value

namespace Reads

def nothing : Reads := fun _ => []

def literal : Value → Reads
  | .expression .. => nothing
  | v => fun _ => [v]

def after (step : Build α) (rest : α → Reads) : Reads := fun d =>
  match step.runOn d with
  | (.ok a,e) => rest a e
  | (.error _,_) => []

def sequel (step : Build α) (reads : Reads) (rest : α → Reads) : Reads := fun d => reads d ++ after step rest d

def inTurn (step : α → Build β) (reads : α → Reads) : List α → Reads
  | [] => nothing
  | a :: l => sequel (step a) (reads a) (fun _ => inTurn step reads l)

def ofStream (step : Value → Build β) (reads : Value → Reads) (cell : Nat) : (limit : Nat) → Reads
  | 0 => nothing
  | limit + 1 => after (next? cell) fun
    | none => nothing
    | some v => sequel (step v) (reads v) (fun _ => ofStream step reads cell limit)

def ofRange (step : Value → Build β) (reads : Value → Reads) (first by_ : Int) : (left : Nat) → Reads
  | 0 => nothing
  | left + 1 =>
    sequel (step (.int first)) (reads (.int first)) (fun _ => ofRange step reads (first + by_) by_ left)

def ofBindings (step : Value × Value → Build β) (reads : Value × Value → Reads) (size : Nat) : (left : Nat) → Reads
  | 0 => nothing
  | left + 1 => fun d =>
    match d.bindings[size - (left + 1)]? with
    | none => []
    | some e => sequel (step e) (reads e) (fun _ => ofBindings step reads size left) d

def ofEntries (s : Setting) (v : Value) (step : Value × Value → Build β) (reads : Value × Value → Reads) : Reads :=
  fun d =>
    match v.entries? (d.view s) with
    | none => []
    | some entries =>
      if s.receives v then ofBindings step reads entries.length entries.length d else inTurn step reads entries d

def ofElements (s : Setting) (v : Value) (step : Value → Build β) (reads : Value → Reads) : Reads := fun d =>
  match v with
  | .stream cell => ofStream step reads cell (d.memory.stream cell).length d
  | .range start stop by_ => ofRange step reads start by_ (Value.rangeLength start stop by_) d
  | _ =>
    match v.elements? (d.view s) with
    | none => []
    | some items =>
      if s.receives v then ofBindings (fun e => step e.1) (fun e => reads e.1) items.length items.length d
      else inTurn step reads items d

end Reads

open Reads

namespace Condition

def entryReads : Value → Reads
  | .null => nothing
  | v => literal v

def singleReads (s : Setting) (column : Value) (values : List Value) : Reads :=
  inTurn (fun v => do entry s (← field s column v)) (fun v => after (field s column v) entryReads) values

def rowReads (s : Setting) (columns : List Value) (row : Value) : Reads :=
  inTurn (fun column => do entry s (← field s column row)) (fun column => after (field s column row) entryReads)
    columns

def memberReads (s : Setting) (negated : Bool) (column values : Value) : Reads :=
  after (valuesOf s values) fun values =>
    if values.isEmpty then nothing
    else
      match columns? column with
      | some [] => nothing
      | some [single] => singleReads s single values
      | some columns => inTurn (memberRow s negated columns) (rowReads s columns) values
      | none => singleReads s column values

def likeReads (s : Setting) (column values : Value) : Reads :=
  after (valuesOf s values) fun values =>
    if values.isEmpty then nothing else after (columnName s column) fun _ => inTurn (rendered s) literal values

def pairReads (s : Setting) (column : String) (v : Value) : Reads :=
  if v.listsValues then memberReads s false (.text column) v else entryReads v

def pairsReads (s : Setting) (columns : List (String × Value)) : Reads :=
  inTurn (fun c => pair s c.1 c.2) (fun c => pairReads s c.1 c.2) columns

def operateReads (s : Setting) (op : Operator) (operands : List Value) (inner : Reads) : Reads :=
  match op, operands with
  | .and, _ | .or, _ => inner
  | .between _, [column,low,high] =>
    after (columnName s column) fun _ => sequel (rendered s low) (literal low) fun _ => literal high
  | .member negated, [column,values] => memberReads s negated column values
  | .like _ _, [column,values] => likeReads s column values
  | .compare _, [column,value] => after (columnName s column) fun _ => literal value
  | _, _ => nothing

def simpleReads (s : Setting) (v : Value) : Reads := fun d =>
  match typed (d.view s) v with
  | .ok (.pairs columns) => pairsReads s columns d
  | _ => []

mutual
def reads (s : Setting) : Value → Reads
  | .expression .. => nothing
  | .operation op operands => operateReads s op operands (readsAll s operands)
  | .list items => readsForm s items
  | .tuple items => readsForm s items
  | v => simpleReads s v

def readsForm (s : Setting) : List Value → Reads
  | [] => nothing
  | head :: operands =>
    match Operator.ofValue head with
    | .error _ => nothing
    | .ok op => operateReads s op operands (readsAll s operands)

def readsAll (s : Setting) : List Value → Reads
  | [] => nothing
  | v :: vs =>
    match symbol? v with
    | some _ => readsAll s vs
    | none => sequel (compile s v) (reads s v) (fun _ => readsAll s vs)
end

end Condition

def Join.reads (s : Setting) : Value → Reads
  | .expression .. => nothing
  | v => fun d =>
    match Join.ofValue? (d.view s) v with
    | some j => Condition.reads s j.on d
    | none => []

namespace Query

def memberReads (s : Setting) (reads : Nat → Reads) : Member → Reads
  | .sql _ => nothing
  | .query cell => fun d => after (adopt s ((d.view s).params cell)) (fun _ => reads cell) d

def readsWith (s : Setting) (compile : Nat → Build Sql) (reads : Nat → Reads) (q : Query) : Reads :=
  after (selectClause s q) fun _ =>
  after (fromClause s q) fun _ =>
  sequel (joinClause s q) (inTurn (Join.compileEntry s) (Join.reads s) q.joins) fun _ =>
  sequel (filterClause s "WHERE" q.filter) (Condition.reads s q.filter) fun _ =>
  after (groupClause s q) fun _ =>
  sequel (filterClause s "HAVING" q.groupFilter) (Condition.reads s q.groupFilter) fun _ =>
  inTurn (member s compile) (memberReads s reads) q.members

def reads (s : Setting) (cell : Nat) : Reads := fun d =>
  readsWith s (fun earlier => if earlier < cell then compile s earlier else misuse .tooDeep)
    (fun earlier => if _h : earlier < cell then reads s earlier else nothing) (d.memory.query cell) d
termination_by cell

end Query

namespace Statement

def insertReads (s : Setting) (columns : Value) : Reads :=
  after (each s columns (listedColumn s)) fun _ => ofEntries s columns (fun e => rendered s e.2) (fun e => literal e.2)

def batchReads (s : Setting) (table columns rows : Value) : Reads :=
  after (tableName s table) fun _ =>
  after (each s columns (listedColumn s)) fun names =>
  ofElements s rows (batchRow s names.length) (fun row => ofElements s row (rendered s) literal)

def updateReads (s : Setting) (table columns condition : Value) : Reads :=
  sequel (eachEntry s columns (assignment s))
    (ofEntries s columns (assignment s) (fun e => after (columnName s e.1) fun _ => literal e.2)) fun _ =>
  after (tableName s table) fun _ => Condition.reads s condition

def deleteReads (s : Setting) (table condition : Value) : Reads :=
  after (tableName s table) fun _ => Condition.reads s condition

end Statement

def Request.reads (s : Setting) : Request → Reads
  | .query cell => Query.reads s cell
  | .insert _ columns _ => Statement.insertReads s columns
  | .batchInsert table columns rows _ => Statement.batchReads s table columns rows
  | .update table columns condition _ => Statement.updateReads s table columns condition
  | .delete table condition _ => Statement.deleteReads s table condition
  | .filter spec _ => Condition.reads s spec

/-- The literals of a request in the order of its input. -/
def Request.literals (s : Setting) (m : Memory) (r : Request) : List Value :=
  r.reads (r.setting s m) (r.start s m)

end SqlCompose
