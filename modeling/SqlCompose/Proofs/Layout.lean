import SqlCompose.Condition
import SqlCompose.Proofs.Lexing

/-! # How conditions are laid out

A condition is written as a predicate, the constant that is never true, several patterns in a row without parentheses,
or several parts in parentheses. The layout of a tree says which of these it is, and which operands are left out.
-/
namespace SqlCompose
variable {α β : Type}

inductive Layout (α : Type) where
  | atom (p : Predicate α)
  | never
  /-- Predicates with a connective between them. -/
  | row (any : Bool) (first second : Predicate α) (more : List (Predicate α))
  /-- Parts in parentheses with a connective between them. -/
  | group (any : Bool) (first second : Layout α) (more : List (Layout α))
  deriving Inhabited

namespace Layout

mutual
def formula : Layout α → Formula α
  | .atom p => .atom p
  | .never => .never
  | .row any first second more =>
    let parts := .atom first :: .atom second :: more.map Formula.atom
    if any then .any parts else .all parts
  | .group any first second more =>
    let parts := formula first :: formula second :: formulas more
    if any then .any parts else .all parts

def formulas : List (Layout α) → List (Formula α)
  | [] => []
  | x :: xs => formula x :: formulas xs
end

def gather (any : Bool) : List (Layout α) → Option (Layout α)
  | [] => none
  | [x] => some x
  | x :: y :: more => some (.group any x y more)

def overNothing (negated : Bool) : Option (Layout α) := if negated then none else some .never

end Layout

def Leaf.layout : Leaf α → Option (Layout α)
  | .isNull column => some (.atom (.isNull (.ofColumn column)))
  | .compare c column a => some (.atom (.compare c (.ofColumn column) (.bound a)))
  | .between negated column low high => some (.atom (.between negated (.ofColumn column) (.bound low) (.bound high)))
  | .member negated column values =>
    match values with
    | [] => Layout.overNothing negated
    | [one] => some (.atom (.compare (if negated then .ne else .eq) (.ofColumn column) one))
    | many => some (.atom (.member negated (.ofColumn column) many))
  | .rowMember negated columns rows =>
    if columns.isEmpty || rows.isEmpty then Layout.overNothing negated
    else some (.atom (.rowMember negated (columns.map Path.ofColumn) rows))
  | .like any negated column patterns =>
    match patterns.map (fun p => Predicate.like negated (.ofColumn column) (.bound p)) with
    | [] => Layout.overNothing negated
    | [p] => some (.atom p)
    | p :: q :: more => some (.row any p q more)

namespace Tree

mutual
def layout : Tree α → Option (Layout α)
  | .leaf l => l.layout
  | .hash pairs => Layout.gather false (pairs.filterMap Leaf.layout)
  | .node any operands => Layout.gather any (layouts operands)

def layouts : List (Tree α) → List (Layout α)
  | [] => []
  | t :: ts => (layout t).toList ++ layouts ts
end

end Tree

/-- Induction over layouts, the further parts of a group being a list. -/
@[elab_as_elim]
theorem Layout.induct {P : Layout α → Prop} (atom : ∀ p, P (.atom p)) (never : P .never)
    (row : ∀ any first second more, P (.row any first second more))
    (group : ∀ any first second more, P first → P second → (∀ x ∈ more, P x) → P (.group any first second more))
    (x : Layout α) : P x := by
  cases x with
  | atom p => exact atom p
  | never => exact never
  | row any first second more => exact row any first second more
  | group any first second more =>
    exact group any first second more (induct atom never row group first) (induct atom never row group second)
      (fun x _ => induct atom never row group x)
termination_by sizeOf x

/-! ## A layout says what its tree says -/

theorem Layout.formulas_eq_map (xs : List (Layout α)) : formulas xs = xs.map formula := by
  induction xs with
  | nil => rfl
  | cons x xs ih => rw [formulas,ih,List.map_cons]

theorem Formula.gather_map (any : Bool) (xs : List (Layout α)) :
    Formula.gather any (xs.map Layout.formula) = (Layout.gather any xs).map Layout.formula := by
  cases xs with
  | nil => rfl
  | cons x xs =>
    cases xs with
    | nil => rfl
    | cons y more =>
      simp only [List.map_cons,Formula.gather,Layout.gather,Option.map_some,Layout.formula,Layout.formulas_eq_map]

theorem Leaf.formula_eq (l : Leaf α) : l.formula = l.layout.map Layout.formula := by
  cases l with
  | isNull column => rfl
  | compare c column a => rfl
  | between negated column low high => rfl
  | member negated column values =>
    cases values with
    | nil => cases negated <;> rfl
    | cons v values => cases values <;> rfl
  | rowMember negated columns rows =>
    by_cases h : columns.isEmpty || rows.isEmpty
    · simp only [formula,layout,h,if_true]
      cases negated <;> rfl
    · simp only [formula,layout,h]
      rfl
  | like any negated column patterns =>
    cases patterns with
    | nil => cases negated <;> rfl
    | cons p patterns =>
      cases patterns with
      | nil => rfl
      | cons p' more => simp [formula,layout,Formula.gather,Layout.formula,Function.comp_def]

namespace Tree

theorem layouts_eq_filterMap (ts : List (Tree α)) : layouts ts = ts.filterMap layout := by
  induction ts with
  | nil => rfl
  | cons t ts ih => cases h : t.layout <;> simp [layouts,ih,h]

theorem formula_eq (t : Tree α) : t.formula = t.layout.map Layout.formula := by
  induction t using induct with
  | leaf l => exact l.formula_eq
  | hash pairs =>
    rw [formula,layout,← Formula.gather_map,List.map_filterMap]
    exact congrArg _ (List.filterMap_congr (fun l _ => l.formula_eq))
  | node any ts ih =>
    rw [formula,layout,formulas_eq_filterMap,layouts_eq_filterMap,← Formula.gather_map,List.map_filterMap]
    exact congrArg _ (List.filterMap_congr ih)

end Tree

end SqlCompose
