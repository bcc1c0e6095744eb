import SqlCompose.Dialect
import SqlCompose.Value.Elements

/-! # Drafts

While a statement is composed it collects bindings. The draft holds the bindings so far, the memory that
the statement reads and the placeholders that were given out; all of them survive a failure. A bound value
is named by the setting's stem and the number of bindings before it, so a name may be taken: its value is
then replaced and the number of bindings stays. What a value lists is gone through item by item: a stream
keeps the items behind a failure, and a mapping must not grow by the bindings that its own items bring.
-/

namespace SqlCompose

inductive Collection where
  /-- A mapping of the statement's own. -/
  | own
  /-- A shared mapping. -/
  | shared (home : Home)
  /-- A value that is no mapping, and the misuse that binding to it is. -/
  | fixed (refusal : Misuse)
  /-- No collection at all. -/
  | missing
  deriving DecidableEq, Repr, Inhabited

/-- What stays fixed while one statement is composed. -/
structure Setting where
  dialect : Dialect
  stem : String
  separator : String
  collection : Collection := .own
  deriving Inhabited

structure Draft where
  bindings : Entries
  memory : Memory
  /-- The placeholders that have been given out, each with the value it was given out for, in order. -/
  given : List (String × Value) := []
  deriving Inhabited

/-- A step of composition. -/
abbrev Build := ExceptT Fault (StateM Draft)

namespace Draft

/-- The memory as the statement sees it, its own bindings included. -/
def view (s : Setting) (d : Draft) : Memory :=
  match s.collection with
  | .shared home => d.memory.setMapping home d.bindings
  | _ => d.memory

end Draft

namespace Setting

def placeholderName (s : Setting) (n : Nat) : String := s.stem ++ Number.writeInt n

def receives (s : Setting) : Value → Bool
  | .shared home => s.collection == .shared home
  | _ => false

end Setting

namespace Draft

def nextName (s : Setting) (d : Draft) : String := s.placeholderName d.bindings.length

def bound (s : Setting) (v : Value) (d : Draft) : Draft :=
  { d with bindings := Entries.put (.text (d.nextName s)) v d.bindings
           given := d.given ++ [(d.nextName s, v)] }

def adopted (more : Entries) (d : Draft) : Draft := { d with bindings := Entries.merge d.bindings more }

def drained (cell : Nat) (items : List Value) (d : Draft) : Draft :=
  { d with memory := d.memory.setStream cell items }

end Draft

namespace Build

variable {α : Type}

/-- The outcome of a step on a draft, and the draft it leaves. -/
def runOn (step : Build α) (d : Draft) : Except Fault α × Draft := Id.run (StateT.run step.run d)

def fail (f : Fault) : Build α := throw f

def misuse (m : Misuse) : Build α := throw (.misuse m)

/-- Reads the memory, the statement's own bindings included. -/
def view (s : Setting) : Build Memory := do return (← get).view s

def bindValue (s : Setting) (v : Value) : Build String := do
  match s.collection with
  | .missing => misuse .noSuchOperation
  | .fixed refusal => misuse refusal
  | .own | .shared _ =>
    let d ← get
    set (d.bound s v)
    return d.nextName s

def adopt (s : Setting) (more : Entries) : Build Unit := do
  match s.collection with
  | .missing | .fixed _ => misuse .noSuchOperation
  | .own | .shared _ => modify (fun d => d.adopted more)

def next? (cell : Nat) : Build (Option Value) := do
  let d ← get
  match d.memory.next? cell with
  | none => return none
  | some (v, memory) =>
    set { d with memory }
    return some v

def elements (s : Setting) (v : Value) : Build (List Value) := do
  match v.held (← view s) with
  | .error m => misuse m
  | .ok items =>
    if let .stream cell := v then modify (fun d => d.drained cell [])
    return items

def eachOfStream (f : Value → Build α) (cell : Nat) : (limit : Nat) → Build (List α)
  | 0 => return []
  | limit + 1 => do
    match ← next? cell with
    | none => return []
    | some v =>
      let a ← f v
      return a :: (← eachOfStream f cell limit)

def eachOfRange (f : Value → Build α) (first step : Int) : (left : Nat) → Build (List α)
  | 0 => return []
  | left + 1 => do
    let a ← f (.int first)
    return a :: (← eachOfRange f (first + step) step left)

/-- `f` on the last `left` of `size` bindings, which must stay `size` many. -/
def eachBinding (f : Value × Value → Build α) (size : Nat) : (left : Nat) → Build (List α)
  | 0 => return []
  | left + 1 => do
    match (← get).bindings[size - (left + 1)]? with
    | none => return []
    | some e =>
      let a ← f e
      if (← get).bindings.length != size then misuse .grewMeanwhile
      else return a :: (← eachBinding f size left)

def eachEntry (s : Setting) (v : Value) (f : Value × Value → Build α) : Build (List α) := do
  match v.entries? (← view s) with
  | none => misuse .noSuchOperation
  | some entries => if s.receives v then eachBinding f entries.length entries.length else entries.mapM f

def each (s : Setting) (v : Value) (f : Value → Build α) : Build (List α) := do
  match v with
  | .stream cell => eachOfStream f cell ((← get).memory.stream cell).length
  | .range start stop step => eachOfRange f start step (Value.rangeLength start stop step)
  | _ =>
    match v.elements? (← view s) with
    | none => misuse .wrongType
    | some items =>
      if s.receives v then eachBinding (fun e => f e.1) items.length items.length else items.mapM f

/-- The two members of a pair; a stream gives out one item more to show that there are no others. -/
def pairOf (s : Setting) (v : Value) : Build (Value × Value) := do
  let items ←
    match v with
    | .stream cell => eachOfStream pure cell 3
    | .range start stop step => eachOfRange pure start step (min 3 (Value.rangeLength start stop step))
    | _ => elements s v
  match items with
  | [a, b] => return (a, b)
  | _ => misuse .unreadable

def adoptAll (s : Setting) (v : Value) : Build Unit := do
  match v.entries? (← view s) with
  | some entries => adopt s entries
  | none =>
    adopt s []
    let _ ← each s v fun item => do
      match ← elements s item with
      | [key, value] => if key.isKey then adopt s [(key, value)] else misuse .wrongType
      | _ => misuse .unreadable

/-- A value in a value's place: an expression is written out and brings its bindings, all else is bound. -/
def rendered (s : Setting) : Value → Build Sql
  | .expression sql params => do adopt s params; return [.text sql]
  | v => do return [.placeholder (← bindValue s v)]

end Build

end SqlCompose
