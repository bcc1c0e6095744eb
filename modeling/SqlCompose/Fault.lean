import SqlCompose.Memory

/-! # Faults

Each fault is named for its cause and carries what its message reports. A misuse is a value in a place
where it has no meaning at all; misuses have no message.

Some limits belong to the machine. Four of them end in a fault or a refusal, as anything does that cannot be
read: `Number.maxDigits`, `Json.maxLevels`, `Query.greatestNesting` and `Value.maxHeld`. Beyond these there
are none: a condition may nest to any depth, a number of any length is written out, and a memory never runs
full.
-/

namespace SqlCompose

inductive Misuse where
  /-- An operation met a value of a type it does not accept. -/
  | wrongType
  /-- A value lacks the operation that its place calls for. -/
  | noSuchOperation
  /-- A text or number cannot be read as what its place calls for. -/
  | unreadable
  /-- A number has no finite whole part, or is too large for a count. -/
  | unbounded
  /-- A mapping grew while its entries were gone through. -/
  | grewMeanwhile
  /-- More members than the machine can hold at once. -/
  | tooMany
  /-- Something nests deeper than it can be followed. -/
  | tooDeep
  deriving DecidableEq, Repr, Inhabited

inductive Feature where
  | batchInsert
  | sequenceReset
  | integritySwitch
  deriving DecidableEq, Repr, Inhabited

inductive RecordKind where
  | query | rawCondition | hashCondition | operatorCondition | expression | join | options
  deriving DecidableEq, Repr, Inhabited

structure JsonFlaw where
  reason : String
  line : Nat
  column : Nat
  offset : Nat
  deriving DecidableEq, Repr, Inhabited

inductive Fault where
  | unknownOperator (token : Value)
  | operandCount (op : Operator) (expected received : Nat)
  | unsupportedShape (kind : String)
  | keysNotNames (keys : List Value)
  | rowNotMapping (op : Operator) (row : Value)
  | malformedJoin (entry : Value)
  | noRows
  | rowWidth (received expected : Nat)
  | noColumns (table : Value)
  | unsupported (dialect : String) (feature : Feature)
  | unknownTarget (name : String) (registered : List String)
  | badJson (flaw : JsonFlaw) (source : Value)
  | invalidQuery (fields : List String) (source : Option Value)
  | invalidRecord (kind : RecordKind) (fields : List String)
  | misuse (m : Misuse)
  deriving Inhabited

namespace Feature

def describe : Feature → String
  | .batchInsert => "batch insert"
  | .sequenceReset => "resetting sequence"
  | .integritySwitch => "enabling/disabling integrity check"

end Feature

def RecordKind.name : RecordKind → String
  | .query => "QuerySpec"
  | .rawCondition => "RawSql"
  | .hashCondition => "HashCondition"
  | .operatorCondition => "OperatorCondition"
  | .expression => "Expression"
  | .join => "JoinClause"
  | .options => "DialectOptions"

def JsonFlaw.describe (f : JsonFlaw) : String :=
  s!"{f.reason}: line {f.line} column {f.column} (char {f.offset})"

namespace Fault

def countWord : Nat → String
  | 1 => "one"
  | 2 => "two"
  | 3 => "three"
  | n => Number.writeInt n

def message (m : Memory) : Fault → String
  | .unknownOperator token => "Found unknown operator in query: " ++ m.spell token
  | .operandCount op expected received =>
    s!"Operator '{op.token}' requires {countWord expected} operands, got {Number.writeInt received}."
  | .unsupportedShape kind => "Unsupported condition shape: " ++ kind
  | .keysNotNames keys => "Hash condition keys must be column names, got " ++ m.spell (.list keys)
  | .rowNotMapping op row => s!"Composite '{op.token}' expects mapping rows, got {m.spell row}."
  | .malformedJoin entry =>
    "A join clause must be specified as a sequence of join type, join table, and optionally join condition; got " ++
      m.spell entry ++ "."
  | .noRows => "Batch insert requires at least one row."
  | .rowWidth received expected =>
    s!"Batch insert row has {Number.writeInt received} values, expected {Number.writeInt expected}."
  | .noColumns table => s!"Table '{m.display table}' needs at least one column."
  | .unsupported dialect feature => s!"{dialect} does not support {feature.describe}."
  | .unknownTarget name registered =>
    s!"Unsupported dialect target: '{name}'. Registered targets: " ++
      m.spell (.list (registered.map Value.text)) ++ "."
  | .badJson flaw _ => "Invalid JSON: " ++ flaw.describe
  | .invalidQuery .. => "QuerySpec structure is invalid"
  | .invalidRecord .. | .misuse _ => ""

/-- The names of the fields that failed, in order and without repetition. -/
def failedFields : Fault → List String
  | .invalidQuery fields _ | .invalidRecord _ fields => fields.mergeSort.eraseDups
  | _ => []

def clause? : Fault → Option String
  | .malformedJoin _ => some "JOIN"
  | .noRows | .rowWidth .. => some "VALUES"
  | .noColumns _ => some "CREATE TABLE"
  | _ => none

end Fault

end SqlCompose
