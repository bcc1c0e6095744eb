import SqlCompose.Sql
import SqlCompose.Value.Operator

/-! # Conditions as boolean formulas

A condition tree is made of tests on columns, of mappings from columns to tests that all have to hold, and of the two
connectives. Its formula is over atomic predicates. What a predicate compares with is left open: in a tree it is a
value, in a text the name of a placeholder.
-/
namespace SqlCompose
variable {α β γ : Type}

def connective (any : Bool) : String := if any then "OR" else "AND"

inductive Operand (α : Type) where
  | null
  | bound (a : α)
  deriving DecidableEq, Repr, Inhabited

/-- The atomic predicates of SQL conditions. -/
inductive Predicate (α : Type) where
  | isNull (column : Path)
  | compare (c : Comparison) (column : Path) (operand : Operand α)
  | between (negated : Bool) (column : Path) (low high : Operand α)
  | member (negated : Bool) (column : Path) (values : List (Operand α))
  | rowMember (negated : Bool) (columns : List Path) (rows : List (List (Operand α)))
  | like (negated : Bool) (column : Path) (pattern : Operand α)
  deriving DecidableEq, Repr, Inhabited

inductive Formula (α : Type) where
  | atom (p : Predicate α)
  /-- What no row satisfies. -/
  | never
  | all (parts : List (Formula α))
  | any (parts : List (Formula α))
  deriving Inhabited

namespace Formula

def gather (any : Bool) : List (Formula α) → Option (Formula α)
  | [] => none
  | [f] => some f
  | fs => some (if any then .any fs else .all fs)

def overNothing (negated : Bool) : Option (Formula α) := if negated then none else some .never

end Formula

inductive Leaf (α : Type) where
  | isNull (column : String)
  | compare (c : Comparison) (column : String) (a : α)
  | between (negated : Bool) (column : String) (low high : α)
  | member (negated : Bool) (column : String) (values : List (Operand α))
  | rowMember (negated : Bool) (columns : List String) (rows : List (List (Operand α)))
  | like (any negated : Bool) (column : String) (patterns : List α)
  deriving Inhabited

inductive Tree (α : Type) where
  | leaf (l : Leaf α)
  /-- A mapping of columns. -/
  | hash (pairs : List (Leaf α))
  | node (any : Bool) (operands : List (Tree α))
  deriving Inhabited

namespace Operand

def map (f : α → β) : Operand α → Operand β
  | .null => .null
  | .bound a => .bound (f a)

def values : Operand α → List α
  | .null => []
  | .bound a => [a]

end Operand

namespace Leaf

def map (f : α → β) : Leaf α → Leaf β
  | .isNull column => .isNull column
  | .compare c column a => .compare c column (f a)
  | .between negated column low high => .between negated column (f low) (f high)
  | .member negated column values => .member negated column (values.map (Operand.map f))
  | .rowMember negated columns rows => .rowMember negated columns (rows.map (List.map (Operand.map f)))
  | .like any negated column patterns => .like any negated column (patterns.map f)

def values : Leaf α → List α
  | .isNull _ => []
  | .compare _ _ a => [a]
  | .between _ _ low high => [low,high]
  | .member _ _ values => values.flatMap Operand.values
  | .rowMember _ _ rows => rows.flatMap (List.flatMap Operand.values)
  | .like _ _ _ patterns => patterns

/-- What a test says. Membership of one value is equality, and of no values or no columns it is a constant; several
patterns are a conjunction or a disjunction. -/
def formula : Leaf α → Option (Formula α)
  | .isNull column => some (.atom (.isNull (.ofColumn column)))
  | .compare c column a => some (.atom (.compare c (.ofColumn column) (.bound a)))
  | .between negated column low high => some (.atom (.between negated (.ofColumn column) (.bound low) (.bound high)))
  | .member negated column values =>
    match values with
    | [] => Formula.overNothing negated
    | [one] => some (.atom (.compare (if negated then .ne else .eq) (.ofColumn column) one))
    | many => some (.atom (.member negated (.ofColumn column) many))
  | .rowMember negated columns rows =>
    if columns.isEmpty || rows.isEmpty then Formula.overNothing negated
    else some (.atom (.rowMember negated (columns.map Path.ofColumn) rows))
  | .like any negated column patterns =>
    if patterns.isEmpty then Formula.overNothing negated
    else Formula.gather any (patterns.map (fun p => .atom (.like negated (.ofColumn column) (.bound p))))

end Leaf

namespace Tree

mutual
def map (f : α → β) : Tree α → Tree β
  | .leaf l => .leaf (l.map f)
  | .hash pairs => .hash (pairs.map (Leaf.map f))
  | .node any operands => .node any (mapAll f operands)

def mapAll (f : α → β) : List (Tree α) → List (Tree β)
  | [] => []
  | t :: ts => map f t :: mapAll f ts
end

mutual
def values : Tree α → List α
  | .leaf l => l.values
  | .hash pairs => pairs.flatMap Leaf.values
  | .node _ operands => valuesAll operands

def valuesAll : List (Tree α) → List α
  | [] => []
  | t :: ts => values t ++ valuesAll ts
end

mutual
/-- What a condition says: a mapping that all its columns hold, a connective what its operands say. Operands that say
nothing are left out. -/
def formula : Tree α → Option (Formula α)
  | .leaf l => l.formula
  | .hash pairs => Formula.gather false (pairs.filterMap Leaf.formula)
  | .node any operands => Formula.gather any (formulas operands)

def formulas : List (Tree α) → List (Formula α)
  | [] => []
  | t :: ts => (formula t).toList ++ formulas ts
end

/-- Induction over trees, the operands of a connective being a list. -/
@[elab_as_elim]
theorem induct {P : Tree α → Prop} (leaf : ∀ l, P (.leaf l)) (hash : ∀ pairs, P (.hash pairs))
    (node : ∀ connective operands, (∀ t ∈ operands, P t) → P (.node connective operands)) (t : Tree α) : P t := by
  cases t with
  | leaf l => exact leaf l
  | hash pairs => exact hash pairs
  | node connective operands => exact node connective operands (fun t _ => induct leaf hash node t)
termination_by sizeOf t

theorem formulas_eq_filterMap (ts : List (Tree α)) : formulas ts = ts.filterMap formula := by
  induction ts with
  | nil => rfl
  | cons t ts ih => cases h : t.formula <;> simp [formulas,ih,h]

end Tree

end SqlCompose
