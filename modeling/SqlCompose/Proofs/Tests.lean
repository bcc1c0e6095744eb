import SqlCompose.Condition
import SqlCompose.Proofs.Cells

/-! # The tests of a condition

Below its connectives a condition is made of tests: operators over their operands, and conditions that have no
operands. What a condition reads it reads in one of its tests.
-/
namespace SqlCompose

namespace Value

def listed (m : Memory) (v : Value) : List Value := if v.listsValues then (v.elements? m).getD [] else [v]

def stream? : Value → Option Nat
  | .stream n => some n
  | _ => none

end Value

def Operator.connects : Operator → Bool
  | .and | .or => true
  | _ => false

namespace Condition

inductive Test where
  | operation (op : Operator) (operands : List Value)
  /-- Raw SQL, an expression, a mapping of columns, or nothing. -/
  | simple (v : Value)

def testsOf (op : Operator) (operands : List Value) (inner : List Test) : List Test :=
  if op.connects then inner else [.operation op operands]

theorem testsOf_connective {op : Operator} {operands : List Value} {inner : List Test} (h : op.connects) :
    testsOf op operands inner = inner := if_pos h

theorem testsOf_test {op : Operator} {operands : List Value} {inner : List Test} (h : op.connects = false) :
    testsOf op operands inner = [.operation op operands] := if_neg (by simp [h])

mutual
def tests : Value → List Test
  | .operation op operands => testsOf op operands (testsOfAll operands)
  | .list items => testsOfForm items
  | .tuple items => testsOfForm items
  | v => [.simple v]

def testsOfForm : List Value → List Test
  | [] => []
  | head :: operands =>
    match Operator.ofValue head with
    | .error _ => []
    | .ok op => testsOf op operands (testsOfAll operands)

def testsOfAll : List Value → List Test
  | [] => []
  | v :: vs => tests v ++ testsOfAll vs
end

namespace Test

def columns : Test → List Value
  | .operation (.member _) [column, _] => (columns? column).getD [column]
  | .operation (.like _ _) [column, _] | .operation (.compare _) [column, _] => [column]
  | .operation (.between _) [column, _, _] => [column]
  | _ => []

def pairLists (m : Memory) (v : Value) : List Value :=
  match typed m v with
  | .ok (.pairs columns) => (columns.map (·.2)).filter Value.listsValues
  | _ => []

def lists (m : Memory) : Test → List Value
  | .operation (.member _) [_, values] | .operation (.like _ _) [_, values] => [values]
  | .simple v => pairLists m v
  | _ => []

/-- The values of membership tests, which are looked into if they are mappings. -/
def rows (m : Memory) : Test → List Value
  | .operation (.member _) [_, values] => values.listed m
  | .simple v => (pairLists m v).flatMap (Value.listed m)
  | _ => []

end Test

end Condition

end SqlCompose
