import SqlCompose.Options
import SqlCompose.Proofs.Run

/-! # Requests

All that can be asked for in one call and binds values: a statement of each kind, or a condition on its own. A
request runs one step over one parameter collection, and its answer is read off the draft that the step leaves.
-/
namespace SqlCompose

inductive Request where
  | query (cell : Nat)
  | insert (table columns params : Value)
  | batchInsert (table columns rows params : Value)
  | update (table columns condition params : Value)
  | delete (table condition params : Value)
  /-- A condition alone. -/
  | filter (spec params : Value)
  deriving Inhabited

def Statement.parts (t : Statement) : Sql × Value := (t.sql,t.params)

namespace Request
variable {s : Setting} {m : Memory} {r : Request}

/-- The answer to a request, and the memory after it. -/
def perform (s : Setting) (m : Memory) : Request → Except Fault (Sql × Value) × Memory
  | .query cell => (Query.build s (.query cell) m).map (·.map Statement.parts) id
  | .insert table columns params =>
    (Statement.compose s params (Statement.insert table columns) m).map (·.map Statement.parts) id
  | .batchInsert table columns rows params =>
    (Statement.compose s params (Statement.batchInsert table columns rows) m).map (·.map Statement.parts) id
  | .update table columns condition params =>
    (Statement.compose s params (Statement.update table columns condition) m).map (·.map Statement.parts) id
  | .delete table condition params =>
    (Statement.compose s params (Statement.delete table condition) m).map (·.map Statement.parts) id
  | .filter spec params => Build.over s params (fun s => Condition.compile s spec) m

def body (s : Setting) : Request → Build Sql
  | .query cell => Query.compile s cell
  | .insert table columns _ => Statement.insert table columns s
  | .batchInsert table columns rows _ => Statement.batchInsert table columns rows s
  | .update table columns condition _ => Statement.update table columns condition s
  | .delete table condition _ => Statement.delete table condition s
  | .filter spec _ => Condition.compile s spec

def params (m : Memory) : Request → Value
  | .query cell => .shared (m.home cell)
  | .insert _ _ params | .batchInsert _ _ _ params | .update _ _ _ params | .delete _ _ params =>
    Statement.collectionOf params
  | .filter _ params => params

def setting (s : Setting) (m : Memory) (r : Request) : Setting := (Build.opening s (r.params m) m).1

def start (s : Setting) (m : Memory) (r : Request) : Draft := (Build.opening s (r.params m) m).2

def outcome (s : Setting) (m : Memory) (r : Request) : Except Fault Sql × Draft :=
  (r.body (r.setting s m)).runOn (r.start s m)

/-- The draft that a request's step leaves, however it ends. -/
def final (s : Setting) (m : Memory) (r : Request) : Draft := (r.outcome s m).2

end Request

end SqlCompose
