import SqlCompose.Text.Split

/-! # SQL as tokens

A statement is composed of tokens before any dialect is chosen: verbatim text, the path of a name, the
placeholder of a bound value, and the symbol that an operator or a sort direction stands for where raw SQL
is expected. A path lists its segments; a starred path ends in a bare `*`. A symbol is written by its text
among other parts, and by its label where it is all that is said.
-/

namespace SqlCompose

structure Path where
  segments : List String
  starred : Bool := false
  deriving DecidableEq, Repr, Inhabited

inductive Token where
  | text (s : String)
  | path (p : Path)
  | placeholder (name : String)
  | symbol (text label : String)
  deriving DecidableEq, Repr, Inhabited

abbrev Sql := List Token

namespace Path

def ofTable (name : String) : Path := ⟨(Text.splitOn '.' name.toList).map String.ofList, false⟩

/-- The path of a column name: as for a table, but a last segment `*` stays bare. -/
def ofColumn (name : String) : Path :=
  match Text.cutLast? '.' name.toList with
  | some (table, ['*']) => ⟨(Text.splitOn '.' table).map String.ofList, true⟩
  | some _ => ofTable name
  | none => if name == "*" then ⟨[], true⟩ else ⟨[name], false⟩

end Path

namespace Token

def isEmpty : Token → Bool
  | .text s => s == ""
  | _ => false

end Token

namespace Sql

def isEmpty (sql : Sql) : Bool := sql.all Token.isEmpty

/-- Names that hold an opening parenthesis are expressions and stay as they are. -/
def isExpression (name : String) : Bool := Text.hasChar '(' name

def table (name : String) : Sql := if isExpression name then [.text name] else [.path (.ofTable name)]

def column (name : String) : Sql := if isExpression name then [.text name] else [.path (.ofColumn name)]

def join (separator : String) (parts : List Sql) : Sql := Text.between [.text separator] parts

/-- SQL in a place of its own: a sole symbol shows its label. -/
def alone : Sql → Sql
  | [.symbol _ label] => [.text label]
  | sql => sql

def commas (parts : List Sql) : Sql := join ", " parts

end Sql

end SqlCompose
