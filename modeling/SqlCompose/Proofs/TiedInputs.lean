import SqlCompose.Proofs.Cells
import SqlCompose.Proofs.Request
import Mathlib.Data.List.Forall2

/-! # Inputs that differ in literals

Two inputs are tied if they are the same apart from the literals in the places of values. Mappings have the same keys
there, and lists the same length. What is read for its text is the same on both sides, and the mappings and queries that
it refers to take no bindings. Ties say for which purposes the cells of the two memories may be read.
-/
namespace SqlCompose
open List

structure Ties where
  /-- The shared mappings that may take bindings. -/
  growing : Home → Prop
  /-- Whether those may be read as data. -/
  readable : Prop
  /-- The shared mappings that are the same on both sides. -/
  frozen : Home → Prop
  apart : ∀ home, frozen home → ¬ growing home
  /-- The queries that may be written. -/
  written : Nat → Prop
  /-- The queries that are the same on both sides. -/
  settled : Nat → Prop
  /-- The queries that may be read as data. -/
  data : Nat → Prop
  /-- The streams whose items may be read as values. -/
  values : Nat → Prop
  /-- The streams whose items may be read as names. -/
  names : Nat → Prop
  /-- The streams whose items may be read as rows. -/
  rows : Nat → Prop

def Ties.Reads (t : Ties) (home : Home) : Prop := t.readable ∨ ¬ t.growing home

namespace Value
variable (t : Ties)

def isAtom : Value → Bool
  | .null | .bool _ | .int _ | .float _ | .text _ | .bytes _ | .operator _ | .direction _ | .range .. | .raw _ => true
  | _ => false

/-- What reads the same on both sides. -/
inductive Fixed : Value → Prop where
  | atom {v : Value} (h : v.isAtom) : Fixed v
  | stream {cell : Nat} (h : t.names cell) : Fixed (.stream cell)
  | list {items : List Value} (h : ∀ v ∈ items, Fixed v) : Fixed (.list items)
  | tuple {items : List Value} (h : ∀ v ∈ items, Fixed v) : Fixed (.tuple items)
  | set {items : List Value} (h : ∀ v ∈ items, Fixed v) : Fixed (.set items)
  | mapping {entries : Entries} (hk : ∀ e ∈ entries, Fixed e.1) (hv : ∀ e ∈ entries, Fixed e.2) : Fixed (.mapping entries)
  | expression {sql : String} {params : Entries} (hk : ∀ e ∈ params, Fixed e.1) (hv : ∀ e ∈ params, Fixed e.2) :
    Fixed (.expression sql params)
  | pairs {columns : List (String × Value)} (h : ∀ c ∈ columns, Fixed c.2) : Fixed (.pairs columns)
  | operation {op : Operator} {operands : List Value} (h : ∀ v ∈ operands, Fixed v) : Fixed (.operation op operands)
  | join {keyword table : String} {on : Value} (h : Fixed on) : Fixed (.join keyword table on)
  | scope {params namePrefix : Value} (hp : Fixed params) (hn : Fixed namePrefix) : Fixed (.scope params namePrefix)
  | shared {home : Home} (h : t.frozen home) : Fixed (.shared home)
  | query {cell : Nat} (h : t.settled cell) : Fixed (.query cell)

def isLiteral (v : Value) : Bool :=
  match v with
  | .null | .expression .. | .mapping _ | .shared _ => false
  | v => !v.listsValues

def isExpression : Value → Bool
  | .expression .. => true
  | _ => false

/-- Values that differ in literals. -/
inductive Alike : Value → Value → Prop where
  | literal {v w : Value} (hv : v.isLiteral) (hw : w.isLiteral) : Alike v w
  | fixed {v : Value} (h : v.Fixed t) : Alike v v
  | expression {sql : String} {params : Entries} (hk : t.readable → ∀ e ∈ params, e.1.Fixed t)
    (hv : t.readable → ∀ e ∈ params, Alike e.2 e.2) : Alike (.expression sql params) (.expression sql params)
  | list {xs ys : List Value} (h : Forall₂ Alike xs ys) : Alike (.list xs) (.list ys)
  | tuple {xs ys : List Value} (h : Forall₂ Alike xs ys) : Alike (.tuple xs) (.tuple ys)
  | set {xs ys : List Value} (h : Forall₂ Alike xs ys) : Alike (.set xs) (.set ys)
  | mapping {es es' : Entries} (hk : es.keys = es'.keys) (hv : Forall₂ Alike es.values es'.values) :
    Alike (.mapping es) (.mapping es')
  | pairs {columns columns' : List (String × Value)} (hn : columns.map (·.1) = columns'.map (·.1))
    (hv : Forall₂ Alike (columns.map (·.2)) (columns'.map (·.2))) : Alike (.pairs columns) (.pairs columns')
  | operation {op : Operator} {xs ys : List Value} (h : Forall₂ Alike xs ys) : Alike (.operation op xs) (.operation op ys)
  | join {keyword table : String} {on on' : Value} (h : Alike on on') : Alike (.join keyword table on) (.join keyword table on')
  | shared {home : Home} (h : t.Reads home) : Alike (.shared home) (.shared home)
  | stream {cell : Nat} (h : t.values cell) : Alike (.stream cell) (.stream cell)
  | query {cell : Nat} (h : t.data cell) : Alike (.query cell) (.query cell)

inductive Bound : Value → Value → Prop where
  | plain {v w : Value} (hv : v.isExpression = false) (hw : w.isExpression = false) (h : t.readable → v.Alike t w) :
    Bound v w
  | alike {v w : Value} (h : v.Alike t w) : Bound v w

inductive Row : Value → Value → Prop where
  | list {xs ys : List Value} (h : Forall₂ (Bound t) xs ys) : Row (.list xs) (.list ys)
  | tuple {xs ys : List Value} (h : Forall₂ (Bound t) xs ys) : Row (.tuple xs) (.tuple ys)
  | set {xs ys : List Value} (h : Forall₂ (Bound t) xs ys) : Row (.set xs) (.set ys)
  | mapping {es es' : Entries} (hk : es.keys = es'.keys) (h : ∀ k ∈ es.keys, k.Fixed t) : Row (.mapping es) (.mapping es')
  | shared {home : Home} (h : t.Reads home) : Row (.shared home) (.shared home)
  | fixed {v : Value} (h : v.Fixed t) : Row v v
  | unsized {v : Value} (h : ∀ m, v.length m = .error .wrongType) : Row v v

inductive Rows : Value → Value → Prop where
  | list {xs ys : List Value} (h : Forall₂ (Row t) xs ys) : Rows (.list xs) (.list ys)
  | tuple {xs ys : List Value} (h : Forall₂ (Row t) xs ys) : Rows (.tuple xs) (.tuple ys)
  | set {xs ys : List Value} (h : Forall₂ (Row t) xs ys) : Rows (.set xs) (.set ys)
  | stream {cell : Nat} (h : t.rows cell) : Rows (.stream cell) (.stream cell)
  | shared {home : Home} (h : t.Reads home) : Rows (.shared home) (.shared home)
  | fixed {v : Value} (h : v.Fixed t) : Rows v v

inductive Columns : Value → Value → Prop where
  | mapping {es es' : Entries} (hk : es.keys = es'.keys) (h : ∀ k ∈ es.keys, k.Fixed t)
    (hv : Forall₂ (Bound t) es.values es'.values) : Columns (.mapping es) (.mapping es')
  | shared {home : Home} (h : t.Reads home) : Columns (.shared home) (.shared home)
  | fixed {v : Value} (h : v.Fixed t) : Columns v v

end Value

def Operator.Tied (t : Ties) : Operator → Value → Value → Prop
  | .member _ | .like .. => Value.Alike t
  | _ => Value.Bound t

namespace Condition
variable (t : Ties)

def isSimple : Value → Bool
  | .expression .. | .pairs _ | .mapping _ | .shared _ | .operation .. | .list _ | .tuple _ => false
  | _ => true

mutual
inductive Tied : Value → Value → Prop where
  | same {v : Value} (h : isSimple v) : Tied v v
  | expression {sql : String} {params : Entries}
    (h : (Value.expression sql params).Alike t (.expression sql params)) :
    Tied (.expression sql params) (.expression sql params)
  | pairs {columns columns' : List (String × Value)} (hn : columns.map (·.1) = columns'.map (·.1))
    (hv : Forall₂ (Value.Alike t) (columns.map (·.2)) (columns'.map (·.2))) : Tied (.pairs columns) (.pairs columns')
  | mapping {es es' : Entries} (hk : es.keys = es'.keys) (hv : Forall₂ (Value.Alike t) es.values es'.values) :
    Tied (.mapping es) (.mapping es')
  | shared {home : Home} (h : t.Reads home) : Tied (.shared home) (.shared home)
  | operation {op : Operator} {xs ys : List Value} (h : Operands op xs ys) : Tied (.operation op xs) (.operation op ys)
  | list {xs ys : List Value} (h : Form xs ys) : Tied (.list xs) (.list ys)
  | tuple {xs ys : List Value} (h : Form xs ys) : Tied (.tuple xs) (.tuple ys)

inductive Form : List Value → List Value → Prop where
  | nil : Form [] []
  | cons {head : Value} {xs ys : List Value} (h : ∀ op, Operator.ofValue head = .ok op → Operands op xs ys) :
    Form (head :: xs) (head :: ys)

inductive Operands : Operator → List Value → List Value → Prop where
  | and {xs ys : List Value} (h : Forall₂ Tied xs ys) : Operands .and xs ys
  | or {xs ys : List Value} (h : Forall₂ Tied xs ys) : Operands .or xs ys
  | none {op : Operator} : Operands op [] []
  | test {op : Operator} {column : Value} {xs ys : List Value} (hop : op ≠ .and ∧ op ≠ .or) (hc : column.Fixed t)
    (h : Forall₂ (op.Tied t) xs ys) : Operands op (column :: xs) (column :: ys)
end

end Condition

namespace Join
variable (t : Ties)

inductive Listed : List Value → List Value → Prop where
  | short {xs ys : List Value} (hx : xs.length < 2) (hy : ys.length < 2) : Listed xs ys
  | long {keyword table : Value} {xs ys : List Value} (h : Condition.Tied t (xs.headD .null) (ys.headD .null)) :
    Listed (keyword :: table :: xs) (keyword :: table :: ys)

inductive Tied : Value → Value → Prop where
  | expression {sql : String} {params : Entries}
    (h : (Value.expression sql params).Alike t (.expression sql params)) :
    Tied (.expression sql params) (.expression sql params)
  | join {keyword table : String} {on on' : Value} (h : Condition.Tied t on on') :
    Tied (.join keyword table on) (.join keyword table on')
  | list {xs ys : List Value} (h : Listed t xs ys) : Tied (.list xs) (.list ys)
  | tuple {xs ys : List Value} (h : Listed t xs ys) : Tied (.tuple xs) (.tuple ys)
  | mapping {es es' : Entries} (hk : es.keys = es'.keys) (hw : es.field? "type" = es'.field? "type")
    (ht : es.field? "table" = es'.field? "table")
    (h : Condition.Tied t ((es.field? "on").getD .null) ((es'.field? "on").getD .null)) :
    Tied (.mapping es) (.mapping es')
  | shared {home : Home} (h : t.frozen home) : Tied (.shared home) (.shared home)
  | malformed {v : Value} (hx : v.isExpression = false) (h : ∀ m, ofValue? m v = none) : Tied v v

end Join

/-- Queries that differ in the literals of their conditions, and in what their parameters stand for. -/
structure Query.Tied (t : Ties) (q q' : Query) : Prop where
  columns : q.columns = q'.columns
  distinct : q.distinct = q'.distinct
  selectOption : q.selectOption = q'.selectOption
  tables : q.tables = q'.tables
  joins : Forall₂ (Join.Tied t) q.joins q'.joins
  filter : Condition.Tied t q.filter q'.filter
  groups : q.groups = q'.groups
  groupFilter : Condition.Tied t q.groupFilter q'.groupFilter
  members : q.members = q'.members
  written : ∀ cell, Member.query cell ∈ q.members → t.written cell
  order : q.order = q'.order
  limit : q.limit = q'.limit
  offset : q.offset = q'.offset
  home : q.home = q'.home
  items : ∀ i ∈ q.columns ++ q.tables ++ q.groups, i.toValue.Alike t i.toValue
  sortKeys : ∀ e ∈ q.order, e.2.toValue.Alike t e.2.toValue

def Entries.Tied (t : Ties) (read : Prop) : Entries → Entries → Prop :=
  Forall₂ (fun e e' => e.1 = e'.1 ∧ (read → e.1.Fixed t ∧ e.2.Alike t e'.2))

structure Ties.Streams (t : Ties) (cell : Nat) (xs ys : List Value) : Prop where
  values : t.values cell → Forall₂ (Value.Alike t) xs ys
  names : t.names cell → xs = ys ∧ ∀ v ∈ xs, v.Fixed t
  rows : t.rows cell → Forall₂ (Value.Row t) xs ys

/-- Memories of which each cell may be read for the purposes of its ties. -/
structure Memory.Tied (t : Ties) (m m' : Memory) : Prop where
  size : m.streams.size = m'.streams.size
  holds : ∀ home, m.Holds home ↔ m'.Holds home
  streams : ∀ cell, t.Streams cell (m.stream cell) (m'.stream cell)
  mappings : ∀ home, Entries.Tied t (t.Reads home) (m.mapping home) (m'.mapping home)
  queries : ∀ cell, t.written cell → Query.Tied t (m.query cell) (m'.query cell)
  growing : ∀ cell, t.written cell → t.growing (m.home cell)
  data : ∀ cell, t.data cell → Forall₂ (fun f f' => f.1 = f'.1 ∧ f.2.Alike t f'.2) (m.fields cell) (m'.fields cell)
  frozen : ∀ home, t.frozen home →
    m.mapping home = m'.mapping home ∧ ∀ e ∈ m.mapping home, e.1.Fixed t ∧ e.2.Fixed t
  settled : ∀ cell, t.settled cell → m.fields cell = m'.fields cell ∧ ∀ f ∈ m.fields cell, f.2.Fixed t

inductive Value.Params (t : Ties) : Value → Value → Prop where
  | mapping {es es' : Entries} (hk : es.keys = es'.keys) : Params t (.mapping es) (.mapping es')
  | shared {home : Home} (h : t.growing home) : Params t (.shared home) (.shared home)
  | other {v : Value} (hm : ∀ es, v ≠ .mapping es) (hs : ∀ home, v ≠ .shared home) : Params t v v

/-- Requests that differ in literals. -/
inductive Request.Tied (t : Ties) : Request → Request → Prop where
  | query {cell : Nat} (h : t.written cell) : Tied t (.query cell) (.query cell)
  | insert {table columns columns' params params' : Value} (ht : table.Fixed t) (hc : columns.Columns t columns')
    (hp : params.Params t params') : Tied t (.insert table columns params) (.insert table columns' params')
  | batchInsert {table columns columns' rows rows' params params' : Value} (ht : table.Fixed t)
    (hc : columns.Columns t columns') (hr : rows.Rows t rows') (hp : params.Params t params') :
    Tied t (.batchInsert table columns rows params) (.batchInsert table columns' rows' params')
  | update {table columns columns' condition condition' params params' : Value} (ht : table.Fixed t)
    (hc : columns.Columns t columns') (hw : Condition.Tied t condition condition') (hp : params.Params t params') :
    Tied t (.update table columns condition params) (.update table columns' condition' params')
  | delete {table condition condition' params params' : Value} (ht : table.Fixed t)
    (hw : Condition.Tied t condition condition') (hp : params.Params t params') :
    Tied t (.delete table condition params) (.delete table condition' params')
  | filter {spec spec' params params' : Value} (hw : Condition.Tied t spec spec') (hp : params.Params t params') :
    Tied t (.filter spec params) (.filter spec' params')

/-- A fault without the values that its message reports. -/
def Fault.bare : Fault → Fault
  | .unknownOperator _ => .unknownOperator .null
  | .keysNotNames _ => .keysNotNames []
  | .rowNotMapping op _ => .rowNotMapping op .null
  | .malformedJoin _ => .malformedJoin .null
  | .noColumns _ => .noColumns .null
  | f => f

end SqlCompose
