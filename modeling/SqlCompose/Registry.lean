import SqlCompose.Dialect
import SqlCompose.Fault
import SqlCompose.Text.Blank
import SqlCompose.Text.Lowercase

/-! # The registry of targets

A registry maps target names to dialects, and aliases to target names. Names are trimmed and compared in
lower case, and a name is looked up among the aliases first.
-/

namespace SqlCompose

structure Registry where
  targets : List (String × Dialect)
  aliases : List (String × String)
  deriving Inhabited

namespace Registry

def canonical (name : String) : String := Text.lower (String.ofList (Text.trim name.toList))

def names (r : Registry) : List String := (r.targets.map (·.1)).mergeSort

def resolve (r : Registry) (name : String) : Except Fault String :=
  let key := canonical name
  let target := (r.aliases.lookup key).getD key
  if (r.targets.lookup target).isSome then .ok target else .error (.unknownTarget name r.names)

def register (r : Registry) (name : String) (d : Dialect) (aliases : List String) : Registry :=
  let target := canonical name
  { targets := Text.put target d r.targets
    aliases := aliases.foldl (fun known a => Text.put (canonical a) target known) r.aliases }

/-- Removes a target together with all aliases that stand for it. -/
def unregister (r : Registry) (name : String) : Except Fault Registry := do
  let target ← r.resolve name
  return { targets := r.targets.filter (fun e => e.1 != target)
           aliases := r.aliases.filter (fun e => e.2 != target) }

def create (r : Registry) (name : String) : Except Fault Dialect := do
  let target ← r.resolve name
  match r.targets.lookup target with
  | some d => return d
  | none => throw (.unknownTarget name r.names)

def builtin : Registry :=
  (((({ targets := [], aliases := [] } : Registry).register "sqlite" .sqlite ["sqlite3"]).register
    "postgres" .postgres ["postgresql", "pgsql"]).register "mysql" .mysql ["mariadb"])

end Registry

end SqlCompose
