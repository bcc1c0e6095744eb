import SqlCompose.Proofs.ConditionShapes
import SqlCompose.Proofs.Formula

/-! # Conditions as trees

A condition of operators and mappings of columns is traced as a tree. In the tree each literal stands with the name
that its placeholder is given when the literals before it have been bound. Raw SQL, expressions and columns that are
expressions are not traced.
-/
namespace SqlCompose
variable {α β : Type}

/-- A step of tracing a condition. It goes on with the draft behind the literals that it has come upon. -/
abbrev Tracing := StateT Draft Option

namespace Tracing

def ofBuild (p : Build α) : Tracing α := fun d =>
  match p.runOn d with
  | (.ok a,e) => some (a,e)
  | (.error _,_) => none

def literal (s : Setting) : Value → Tracing (String × Value)
  | .expression _ _ => failure
  | v => fun d => some ((d.nextName s,v),d.bound s v)

def operand (s : Setting) : Value → Tracing (Operand (String × Value))
  | .null => return .null
  | v => do return .bound (← literal s v)

def column : Value → Tracing String
  | .text name => if Sql.isExpression name then failure else return name
  | _ => failure

def entry (s : Setting) (column v : Value) : Tracing (Operand (String × Value)) := do
  operand s (← ofBuild (Condition.field s column v))

def row (s : Setting) (columns : List Value) (v : Value) : Tracing (List (Operand (String × Value))) := do
  match v.entries? (← ofBuild (Build.view s)) with
  | none => failure
  | some _ => columns.mapM (fun c => entry s c v)

def singleMember (s : Setting) (negated : Bool) (name : Value) (values : List Value) :
    Tracing (Leaf (String × Value)) := do
  let entries ← values.mapM (entry s name)
  return .member negated (← column name) entries

def rowMember (s : Setting) (negated : Bool) (names rows : List Value) : Tracing (Leaf (String × Value)) := do
  let rows ← rows.mapM (row s names)
  return .rowMember negated (← names.mapM column) rows

def member (s : Setting) (negated : Bool) (name values : Value) : Tracing (Leaf (String × Value)) := do
  let values ← ofBuild (Condition.valuesOf s values)
  match Condition.columns? name with
  | some [] => return .rowMember negated [] []
  | some [single] => singleMember s negated single values
  | some names => rowMember s negated names values
  | none => singleMember s negated name values

def like (s : Setting) (any negated : Bool) (name values : Value) : Tracing (Leaf (String × Value)) := do
  let values ← ofBuild (Condition.valuesOf s values)
  let name ← column name
  return .like any negated name (← values.mapM (literal s))

def between (s : Setting) (negated : Bool) (name low high : Value) : Tracing (Leaf (String × Value)) := do
  let name ← column name
  let low ← literal s low
  return .between negated name low (← literal s high)

def comparison (s : Setting) (c : Comparison) (name v : Value) : Tracing (Leaf (String × Value)) := do
  let name ← column name
  return .compare c name (← literal s v)

def leaf (s : Setting) (op : Operator) (operands : List Value) : Tracing (Leaf (String × Value)) :=
  match op, operands with
  | .between negated, [name, low, high] => between s negated name low high
  | .member negated, [name, values] => member s negated name values
  | .like any negated, [name, values] => like s any negated name values
  | .compare c, [name, v] => comparison s c name v
  | _, _ => failure

def pair (s : Setting) (c : String × Value) : Tracing (Leaf (String × Value)) :=
  if c.2.listsValues then member s false (.text c.1) c.2
  else
    match c.2 with
    | .null => return .isNull (← column (.text c.1))
    | v => comparison s .eq (.text c.1) v

def hash (s : Setting) (v : Value) : Tracing (Tree (String × Value)) := do
  match Condition.typed (← ofBuild (Build.view s)) v with
  | .ok (.pairs (c :: columns)) => return .hash (← (c :: columns).mapM (pair s))
  | _ => failure

def operate (s : Setting) (op : Operator) (operands : List Value) (inner : Tracing (List (Tree (String × Value)))) :
    Tracing (Tree (String × Value)) :=
  match op with
  | .and => return .node false (← inner)
  | .or => return .node true (← inner)
  | op => return .leaf (← leaf s op operands)

mutual
def tree (s : Setting) : Value → Tracing (Tree (String × Value))
  | .operation op operands => operate s op operands (trees s operands)
  | .list items => form s items
  | .tuple items => form s items
  | v => hash s v

def form (s : Setting) : List Value → Tracing (Tree (String × Value))
  | [] => failure
  | head :: operands =>
    match Operator.ofValue head with
    | .error _ => failure
    | .ok op => operate s op operands (trees s operands)

def trees (s : Setting) : List Value → Tracing (List (Tree (String × Value)))
  | [] => return []
  | v :: vs => do
    let t ← tree s v
    return t :: (← trees s vs)
end

variable {s : Setting} {v : Value} {op : Operator} {operands : List Value}

theorem tree_of_operation? (h : Condition.operation? v = some (op,operands)) :
    tree s v = operate s op operands (trees s operands) := by
  rcases Condition.operation?_eq_some h with rfl | ⟨head,rfl | rfl,hop⟩
  · rw [tree]
  · rw [tree,form,hop]
  · rw [tree,form,hop]

theorem tree_of_empty (h : Condition.Empty v) : tree s v = failure := by
  rcases h with rfl | rfl <;> rw [tree,form]

theorem tree_of_unread {x : Fault} (h : Condition.Unread v x) : tree s v = failure := by
  obtain ⟨head,operands,rfl | rfl,hop⟩ := h <;> rw [tree,form,hop]

theorem tree_of_bare (h : Condition.Bare v) : tree s v = hash s v := by
  cases v <;> first | rfl | exact h.elim

theorem trees_eq_mapM (operands : List Value) : trees s operands = operands.mapM (tree s) := by
  induction operands with
  | nil => rw [trees,List.mapM_nil]
  | cons v vs ih => rw [trees,List.mapM_cons,ih]

end Tracing

end SqlCompose
