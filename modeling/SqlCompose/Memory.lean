import SqlCompose.Query.Basic
import SqlCompose.Value.Spelling

/-! # Memory

What can change while queries are used lives in numbered cells: the items that a stream has left, the
entries of a mapping that serves as a parameter collection, and the queries. A shared mapping has a cell of
its own or was made with a query, and any number of queries may keep their parameters in it. A reference to
a cell that does not exist reads as empty.
-/

namespace SqlCompose

structure Memory where
  streams : Array (List Value) := #[]
  mappings : Array Entries := #[]
  queries : Array Query := #[]
  deriving Inhabited

namespace Memory

def stream (m : Memory) (cell : Nat) : List Value := m.streams.getD cell []

def query (m : Memory) (cell : Nat) : Query := m.queries.getD cell {}

def mapping (m : Memory) : Home → Entries
  | .cell n => m.mappings.getD n []
  | .query n => (m.query n).params

/-- Where the query in a cell keeps its parameters. -/
def home (m : Memory) (cell : Nat) : Home := (m.query cell).home.getD (.query cell)

/-- The parameters of the query in a cell. -/
def params (m : Memory) (cell : Nat) : Entries := m.mapping (m.home cell)

/-- The clauses of the query in a cell. Its parameters are shared with everyone who gets them from here. -/
def fields (m : Memory) (cell : Nat) : List (String × Value) := (m.query cell).fields (.shared (m.home cell))

def addStream (m : Memory) (items : List Value) : Value × Memory :=
  (.stream m.streams.size, { m with streams := m.streams.push items })

def addMapping (m : Memory) (entries : Entries) : Value × Memory :=
  (.shared (.cell m.mappings.size), { m with mappings := m.mappings.push entries })

def addQuery (m : Memory) (q : Query) : Value × Memory :=
  (.query m.queries.size, { m with queries := m.queries.push q })

def setStream (m : Memory) (cell : Nat) (items : List Value) : Memory :=
  { m with streams := m.streams.setIfInBounds cell items }

def next? (m : Memory) (cell : Nat) : Option (Value × Memory) :=
  match m.stream cell with
  | [] => none
  | v :: rest => some (v, m.setStream cell rest)

def setParams (m : Memory) (cell : Nat) (params : Entries) : Memory :=
  { m with queries := m.queries.modify cell (fun q => { q with params }) }

def setMapping (m : Memory) (home : Home) (entries : Entries) : Memory :=
  match home with
  | .cell n => { m with mappings := m.mappings.setIfInBounds n entries }
  | .query n => m.setParams n entries

/-- The texts of the cells, references followed through at most `depth` cells. -/
def cellTexts (m : Memory) : (depth : Nat) → CellTexts
  | 0 => { mapping := fun _ => "\x7b...\x7d", query := fun _ => [] }
  | depth + 1 =>
    let inner := cellTexts m depth
    { mapping := fun home => Value.spell inner (.mapping (m.mapping home))
      query := fun cell => (m.fields cell).map (fun f => (f.1, f.2.spell inner)) }

/-- No chain of references is longer, cycles apart: it visits each mapping, each query and its parameters. -/
def texts (m : Memory) : CellTexts := m.cellTexts (m.mappings.size + 2 * m.queries.size)

def spell (m : Memory) (v : Value) : String := v.spell m.texts

def display (m : Memory) (v : Value) : String := v.display m.texts

end Memory

end SqlCompose
