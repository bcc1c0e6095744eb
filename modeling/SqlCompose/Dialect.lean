import SqlCompose.Fault
import SqlCompose.Sql

/-! # Dialects

A dialect is a record of spellings and abilities: how identifiers are quoted, how placeholders are
written, which physical types stand for the abstract ones, and which statements it can express.
-/

namespace SqlCompose

inductive PlaceholderStyle where
  | colon
  | percent
  deriving DecidableEq, Repr, Inhabited

structure Dialect where
  name : String
  /-- The quote around identifiers, doubled inside; without one, identifiers stay bare. -/
  quote : Option Char
  placeholders : PlaceholderStyle
  types : List (String × String) := []
  batchInsert : Bool := false
  /-- The text before the next value of a sequence, after the table. -/
  sequenceReset : Option String := none
  /-- The text before the state of the integrity switch. -/
  integritySwitch : Option String := none
  deriving Inhabited

namespace Dialect

def quoteIdentifier (d : Dialect) (s : String) : String :=
  match d.quote with
  | none => s
  | some q => String.ofList ([q] ++ s.toList.flatMap (fun c => if c == q then [q, q] else [c]) ++ [q])

def placeholder (d : Dialect) (name : String) : String :=
  match d.placeholders with
  | .colon => ":" ++ name
  | .percent => "%(" ++ name ++ ")s"

def renderPath (d : Dialect) (p : Path) : String :=
  ".".intercalate (p.segments.map d.quoteIdentifier ++ if p.starred then ["*"] else [])

def renderToken (d : Dialect) : Token → String
  | .text s => s
  | .path p => d.renderPath p
  | .placeholder name => d.placeholder name
  | .symbol s _ => s

def render (d : Dialect) (sql : Sql) : String := String.join (sql.map d.renderToken)

def plain : Dialect :=
  { name := "plain", quote := none, placeholders := .colon }

def sqlite : Dialect :=
  { name := "sqlite", quote := some '\x22', placeholders := .colon
    batchInsert := true
    integritySwitch := some "PRAGMA foreign_keys="
    types :=
      [("pk", "integer PRIMARY KEY AUTOINCREMENT NOT NULL"),
       ("bigpk", "integer PRIMARY KEY AUTOINCREMENT NOT NULL"),
       ("string", "varchar(255)"), ("text", "text"), ("smallint", "smallint"), ("integer", "integer"),
       ("bigint", "bigint"), ("boolean", "boolean"), ("float", "float"), ("decimal", "decimal(10,0)"),
       ("datetime", "datetime"), ("timestamp", "timestamp"), ("time", "time"), ("date", "date"),
       ("binary", "blob"), ("money", "decimal(19,4)")] }

def postgres : Dialect :=
  { name := "postgres", quote := some '\x22', placeholders := .percent
    batchInsert := true
    types :=
      [("pk", "serial NOT NULL PRIMARY KEY"), ("bigpk", "bigserial NOT NULL PRIMARY KEY"),
       ("string", "varchar(255)"), ("text", "text"), ("smallint", "smallint"), ("integer", "integer"),
       ("bigint", "bigint"), ("boolean", "boolean"), ("float", "double precision"),
       ("decimal", "numeric(10,0)"), ("datetime", "timestamp"), ("timestamp", "timestamp"),
       ("time", "time"), ("date", "date"), ("binary", "bytea"), ("money", "numeric(19,4)")] }

def mysql : Dialect :=
  { name := "mysql", quote := some '\x60', placeholders := .percent
    batchInsert := true
    sequenceReset := some " AUTO_INCREMENT="
    integritySwitch := some "SET FOREIGN_KEY_CHECKS = "
    types :=
      [("pk", "int(11) NOT NULL AUTO_INCREMENT PRIMARY KEY"),
       ("bigpk", "bigint(20) NOT NULL AUTO_INCREMENT PRIMARY KEY"),
       ("string", "varchar(255)"), ("text", "text"), ("smallint", "smallint(6)"), ("integer", "int(11)"),
       ("bigint", "bigint(20)"), ("boolean", "tinyint(1)"), ("float", "float"), ("decimal", "decimal"),
       ("datetime", "datetime"), ("timestamp", "timestamp"), ("time", "time"), ("date", "date"),
       ("binary", "blob"), ("money", "decimal(19,4)")] }

end Dialect

end SqlCompose
