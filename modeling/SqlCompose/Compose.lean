import SqlCompose.Json
import SqlCompose.Registry
import SqlCompose.Schema

/-! # Composing for a target

A query is given as it is, as a mapping, or as a JSON text of one; it is composed for a target of the
registry. Conditions and column lists can also be composed on their own, over the parameters of a scope.
-/

namespace SqlCompose

def Query.parse (v : Value) : Reading Value := do
  match v.text? with
  | none => check none v
  | some text =>
    match Json.read text v with
    | .error f => throw f
    | .ok query => check (some v) query
where
  check (source : Option Value) (v : Value) : Reading Value := do
    match ← Query.ofValue v with
    | .ok query => return query
    | .error fields => throw (.invalidQuery fields source)

def Reading.runOn {α : Type} (step : Reading α) (m : Memory) : Except Fault α × Memory :=
  Id.run (StateT.run step.run m)

namespace Registry

def composeQuery (r : Registry) (o : Options) (target : String) (query : Value) (m : Memory) :
    Except Fault Statement × Memory :=
  match (Query.parse query).runOn m with
  | (.error f, m) => (.error f, m)
  | (.ok query, m) =>
    match r.create target with
    | .error f => (.error f, m)
    | .ok d => Query.build (o.setting d) query m

end Registry

namespace Value

def params? (m : Memory) : Value → Option Value
  | .scope params _ => some params
  | .query cell => some (.mapping (m.params cell))
  | .expression _ params => some (.mapping params)
  | _ => none

end Value

namespace Build

/-- The outcome of a step over the parameters of a scope, with the parameters after it. Any other value takes
no bindings, but it may have parameters to show. -/
def within {α : Type} (d : Dialect) (v : Value) (step : Setting → Build α) (m : Memory) :
    Except Fault (α × Value) × Memory :=
  match v with
  | .scope params stem => Build.over { dialect := d, stem := m.display stem, separator := " " } params step m
  | _ =>
    let (result, m) := aside (step { dialect := d, stem := "", separator := " ", collection := .missing }) m
    (result.bind (fun a => (v.params? m).elim (.error (.misuse .noSuchOperation)) (fun p => .ok (a, p))), m)

end Build

end SqlCompose
