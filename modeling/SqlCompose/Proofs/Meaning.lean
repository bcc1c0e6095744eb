import SqlCompose.Proofs.Legibility

/-! # What conditions mean

A tree has a meaning of its own: a membership or pattern test over no values passes no row, and its negation passes
every row. A formula has the meaning that SQL gives it, and saying nothing means to filter nothing. Whatever row passes
the formula of a tree passes the tree. The converse holds as long as no disjunction has operands that are written as
nothing beside others: what is left of it asks for more.
-/
namespace SqlCompose

variable {α β δ : Type}

/-! ## Rows -/

/-- A row of a table as conditions see it. A test that is unknown does not pass. -/
structure TableRow (δ : Type) where
  column : Path → δ
  isNull : δ → Prop
  compare : Comparison → δ → δ → Prop
  like : (negated : Bool) → δ → δ → Prop

variable {w : TableRow δ} {value : α → δ}

namespace Operand

def Passes (w : TableRow δ) (value : α → δ) (c : Comparison) (column : Path) : Operand α → Prop
  | .null => False
  | .bound a => w.compare c (w.column column) (value a)

def RowEquals (w : TableRow δ) (value : α → δ) (columns : List Path) (row : List (Operand α)) : Prop :=
  ∀ x ∈ columns.zip row, x.2.Passes w value .eq x.1

def RowDiffers (w : TableRow δ) (value : α → δ) (columns : List Path) (row : List (Operand α)) : Prop :=
  ∃ x ∈ columns.zip row, x.2.Passes w value .ne x.1

end Operand

def Predicate.Holds (w : TableRow δ) (value : α → δ) : Predicate α → Prop
  | .isNull column => w.isNull (w.column column)
  | .compare c column o => o.Passes w value c column
  | .between false column low high => low.Passes w value .ge column ∧ high.Passes w value .le column
  | .between true column low high => low.Passes w value .lt column ∨ high.Passes w value .gt column
  | .member false column values => ∃ o ∈ values, o.Passes w value .eq column
  | .member true column values => ∀ o ∈ values, o.Passes w value .ne column
  | .rowMember false columns rows => ∃ row ∈ rows, Operand.RowEquals w value columns row
  | .rowMember true columns rows => ∀ row ∈ rows, Operand.RowDiffers w value columns row
  | .like _ _ .null => False
  | .like negated column (.bound a) => w.like negated (w.column column) (value a)

namespace Formula

mutual
/-- Whether a row passes a formula. -/
def Holds (w : TableRow δ) (value : α → δ) : Formula α → Prop
  | .atom p => p.Holds w value
  | .never => False
  | .all parts => AllHold w value parts
  | .any parts => AnyHolds w value parts

def AllHold (w : TableRow δ) (value : α → δ) : List (Formula α) → Prop
  | [] => True
  | f :: fs => Holds w value f ∧ AllHold w value fs

def AnyHolds (w : TableRow δ) (value : α → δ) : List (Formula α) → Prop
  | [] => False
  | f :: fs => Holds w value f ∨ AnyHolds w value fs
end

def Says (w : TableRow δ) (value : α → δ) (f : Option (Formula α)) : Prop := ∀ g, f = some g → g.Holds w value

theorem allHold_iff (fs : List (Formula α)) : AllHold w value fs ↔ ∀ f ∈ fs, f.Holds w value := by
  induction fs with
  | nil => simp [AllHold]
  | cons f fs ih => simp [AllHold,ih]

theorem anyHolds_iff (fs : List (Formula α)) : AnyHolds w value fs ↔ ∃ f ∈ fs, f.Holds w value := by
  induction fs with
  | nil => simp [AnyHolds]
  | cons f fs ih => simp [AnyHolds,ih]

@[simp] theorem says_none : Says w value (none : Option (Formula α)) := nofun

@[simp] theorem says_some {f : Formula α} : Says w value (some f) ↔ f.Holds w value := by simp [Says]

theorem says_gather_all (fs : List (Formula α)) : Says w value (gather false fs) ↔ ∀ f ∈ fs, f.Holds w value := by
  match fs with
  | [] => simp [gather]
  | [f] => simp [gather]
  | f :: g :: more =>
    show Says w value (some (.all (f :: g :: more))) ↔ _
    rw [says_some]
    exact allHold_iff _

theorem says_gather_any (fs : List (Formula α)) :
    Says w value (gather true fs) ↔ fs = [] ∨ ∃ f ∈ fs, f.Holds w value := by
  match fs with
  | [] => simp [gather]
  | [f] => simp [gather]
  | f :: g :: more =>
    show Says w value (some (.any (f :: g :: more))) ↔ _
    rw [says_some]
    exact (anyHolds_iff _).trans (by simp)

theorem says_overNothing (negated : Bool) : Says w value (overNothing negated : Option (Formula α)) ↔ negated := by
  cases negated <;> simp [overNothing,Holds]

end Formula

open Formula (Says)

/-! ## What a tree means -/

/-- Whether a row passes a test. Over no values no row does, and every row passes the negation. -/
def Leaf.Holds (w : TableRow δ) (value : α → δ) : Leaf α → Prop
  | .isNull column => w.isNull (w.column (.ofColumn column))
  | .compare c column a => w.compare c (w.column (.ofColumn column)) (value a)
  | .between false column low high =>
    w.compare .ge (w.column (.ofColumn column)) (value low) ∧ w.compare .le (w.column (.ofColumn column)) (value high)
  | .between true column low high =>
    w.compare .lt (w.column (.ofColumn column)) (value low) ∨ w.compare .gt (w.column (.ofColumn column)) (value high)
  | .member false column values => ∃ o ∈ values, o.Passes w value .eq (.ofColumn column)
  | .member true column values => ∀ o ∈ values, o.Passes w value .ne (.ofColumn column)
  | .rowMember false columns rows =>
    columns ≠ [] ∧ ∃ row ∈ rows, Operand.RowEquals w value (columns.map Path.ofColumn) row
  | .rowMember true columns rows =>
    columns = [] ∨ ∀ row ∈ rows, Operand.RowDiffers w value (columns.map Path.ofColumn) row
  | .like any negated column patterns =>
    if patterns = [] then negated = true
    else if any then ∃ p ∈ patterns, w.like negated (w.column (.ofColumn column)) (value p)
    else ∀ p ∈ patterns, w.like negated (w.column (.ofColumn column)) (value p)

def Leaf.silent : Leaf α → Bool
  | .member negated _ values => negated && values.isEmpty
  | .rowMember negated columns rows => negated && (columns.isEmpty || rows.isEmpty)
  | .like _ negated _ patterns => negated && patterns.isEmpty
  | _ => false

namespace Tree

mutual
/-- Whether a row passes a condition. -/
def Holds (w : TableRow δ) (value : α → δ) : Tree α → Prop
  | .leaf l => l.Holds w value
  | .hash pairs => ∀ l ∈ pairs, l.Holds w value
  | .node false operands => AllHold w value operands
  | .node true operands => AnyHolds w value operands

def AllHold (w : TableRow δ) (value : α → δ) : List (Tree α) → Prop
  | [] => True
  | t :: ts => Holds w value t ∧ AllHold w value ts

def AnyHolds (w : TableRow δ) (value : α → δ) : List (Tree α) → Prop
  | [] => False
  | t :: ts => Holds w value t ∨ AnyHolds w value ts
end

mutual
def silent : Tree α → Bool
  | .leaf l => l.silent
  | .hash pairs => pairs.all Leaf.silent
  | .node _ operands => silentAll operands

def silentAll : List (Tree α) → Bool
  | [] => true
  | t :: ts => silent t && silentAll ts
end

mutual
def everyNode (p : Bool → List (Tree α) → Bool) : Tree α → Bool
  | .leaf _ | .hash _ => true
  | .node connective operands => p connective operands && everyNodeOf p operands

def everyNodeOf (p : Bool → List (Tree α) → Bool) : List (Tree α) → Bool
  | [] => true
  | t :: ts => everyNode p t && everyNodeOf p ts
end

/-- Whether every disjunction has an operand. -/
def filled (t : Tree α) : Bool := t.everyNode (fun connective operands => !connective || !operands.isEmpty)

def uniform (t : Tree α) : Bool :=
  t.everyNode (fun connective operands => !connective || operands.all silent || operands.all (fun t => !t.silent))

theorem allHold_iff (ts : List (Tree α)) : AllHold w value ts ↔ ∀ t ∈ ts, t.Holds w value := by
  induction ts with
  | nil => simp [AllHold]
  | cons t ts ih => simp [AllHold,ih]

theorem anyHolds_iff (ts : List (Tree α)) : AnyHolds w value ts ↔ ∃ t ∈ ts, t.Holds w value := by
  induction ts with
  | nil => simp [AnyHolds]
  | cons t ts ih => simp [AnyHolds,ih]

theorem silentAll_iff (ts : List (Tree α)) : silentAll ts ↔ ∀ t ∈ ts, t.silent := by
  induction ts with
  | nil => simp [silentAll]
  | cons t ts ih => simp [silentAll,ih]

theorem everyNodeOf_iff {p : Bool → List (Tree α) → Bool} (ts : List (Tree α)) :
    everyNodeOf p ts ↔ ∀ t ∈ ts, t.everyNode p := by
  induction ts with
  | nil => simp [everyNodeOf]
  | cons t ts ih => simp [everyNodeOf,ih]

end Tree

/-! ## The formula of a tree -/

theorem Leaf.says_iff (l : Leaf α) : Says w value l.formula ↔ l.Holds w value := by
  cases l with
  | isNull column => exact Formula.says_some
  | compare c column a => exact Formula.says_some
  | between negated column low high =>
    rw [formula,Formula.says_some]
    cases negated <;> rfl
  | member negated column values =>
    rcases values with _ | ⟨o,_ | ⟨o',more⟩⟩
    · rw [formula,Formula.says_overNothing]
      cases negated <;> simp [Holds]
    · rw [formula,Formula.says_some]
      cases negated <;> simp [Holds,Formula.Holds,Predicate.Holds]
    · show Says w value (some (.atom (.member negated (.ofColumn column) (o :: o' :: more)))) ↔ _
      rw [Formula.says_some]
      cases negated <;> rfl
  | rowMember negated columns rows =>
    by_cases hempty : columns.isEmpty || rows.isEmpty
    · rw [formula,if_pos hempty,Formula.says_overNothing]
      simp only [Bool.or_eq_true,List.isEmpty_iff] at hempty
      rcases hempty with rfl | rfl <;> cases negated <;> simp [Holds]
    · rw [formula,if_neg hempty,Formula.says_some]
      simp only [Bool.or_eq_true,List.isEmpty_iff,not_or] at hempty
      cases negated <;> simp [Holds,Formula.Holds,Predicate.Holds,hempty.1]
  | like any negated column patterns =>
    by_cases hempty : patterns = []
    · subst hempty
      simpa [formula,Holds] using Formula.says_overNothing negated
    · have hne : ¬ patterns.isEmpty = true := by simpa using hempty
      rw [formula,if_neg hne]
      cases any with
      | false => simp [Formula.says_gather_all,Holds,hempty,Formula.Holds,Predicate.Holds]
      | true => simp [Formula.says_gather_any,Holds,hempty,Formula.Holds,Predicate.Holds]

theorem Leaf.formula_eq_none (l : Leaf α) : l.formula = none ↔ l.silent := by
  cases l with
  | isNull column => simp [formula,silent]
  | compare c column a => simp [formula,silent]
  | between negated column low high => simp [formula,silent]
  | member negated column values =>
    rcases values with _ | ⟨o,_ | ⟨o',more⟩⟩
    · cases negated <;> simp [formula,silent,Formula.overNothing]
    · simp [formula,silent]
    · simp [formula,silent]
  | rowMember negated columns rows =>
    cases hempty : columns.isEmpty || rows.isEmpty <;> cases negated <;>
      simp [formula,silent,hempty,Formula.overNothing]
  | like any negated column patterns =>
    rcases patterns with _ | ⟨p,_ | ⟨p',more⟩⟩
    · cases negated <;> simp [formula,silent,Formula.overNothing]
    · simp [formula,silent,Formula.gather]
    · simp [formula,silent,Formula.gather]

theorem Formula.gather_eq_none {any : Bool} {fs : List (Formula α)} : gather any fs = none ↔ fs = [] := by
  match fs with
  | [] => simp [gather]
  | [f] => simp [gather]
  | f :: g :: more => simp [gather]

namespace Tree

theorem formula_eq_none (t : Tree α) : t.formula = none ↔ t.silent := by
  induction t using induct with
  | leaf l => exact l.formula_eq_none
  | hash pairs => simp [formula,silent,Formula.gather_eq_none,Leaf.formula_eq_none]
  | node any ts ih =>
    rw [formula,Formula.gather_eq_none,formulas_eq_filterMap,List.filterMap_eq_nil_iff,silent,silentAll_iff]
    exact forall₂_congr ih

theorem says_hash (pairs : List (Leaf α)) : Says w value (hash pairs).formula ↔ (hash pairs).Holds w value := by
  rw [formula,Formula.says_gather_all,Holds]
  constructor
  · intro h l hl
    refine l.says_iff.mp (fun f hf => ?_)
    exact h f (List.mem_filterMap.mpr ⟨l,hl,hf⟩)
  · intro h f hf
    obtain ⟨l,hl,hf⟩ := List.mem_filterMap.mp hf
    exact l.says_iff.mpr (h l hl) f hf

/-- A conjunction says what its operands say: those that say nothing pass every row. -/
theorem says_conjunction (ts : List (Tree α)) :
    Says w value (node false ts).formula ↔ ∀ t ∈ ts, Says w value t.formula := by
  rw [formula,Formula.says_gather_all,formulas_eq_filterMap]
  constructor
  · intro h t ht f hf
    exact h f (List.mem_filterMap.mpr ⟨t,ht,hf⟩)
  · intro h f hf
    obtain ⟨t,ht,hf⟩ := List.mem_filterMap.mp hf
    exact h t ht f hf

/-- A disjunction says what one of its operands says, unless none of them says anything. -/
theorem says_disjunction (ts : List (Tree α)) : Says w value (node true ts).formula ↔
    (∀ t ∈ ts, t.silent) ∨ ∃ t ∈ ts, ¬ t.silent ∧ Says w value t.formula := by
  rw [formula,Formula.says_gather_any,formulas_eq_filterMap,List.filterMap_eq_nil_iff]
  refine or_congr (forall₂_congr (fun t _ => t.formula_eq_none)) ?_
  constructor
  · rintro ⟨f,hf,hw⟩
    obtain ⟨t,ht,hf⟩ := List.mem_filterMap.mp hf
    refine ⟨t,ht,?_,?_⟩
    · rw [← formula_eq_none,hf]
      exact Option.some_ne_none f
    · rw [hf]
      exact Formula.says_some.mpr hw
  · rintro ⟨t,ht,hs,hw⟩
    rw [← formula_eq_none] at hs
    obtain ⟨f,hf⟩ := Option.ne_none_iff_exists'.mp hs
    exact ⟨f,List.mem_filterMap.mpr ⟨t,ht,hf⟩,hw f hf⟩

/-- What is written passes no row that the condition does not pass. -/
theorem holds_of_says {t : Tree α} (hf : t.filled) (h : Says w value t.formula) : t.Holds w value := by
  induction t using induct with
  | leaf l => exact l.says_iff.mp h
  | hash pairs => exact (says_hash pairs).mp h
  | node any ts ih =>
    simp only [filled,everyNode,Bool.and_eq_true,everyNodeOf_iff] at hf
    obtain ⟨hne,hts⟩ := hf
    cases any with
    | false => exact (allHold_iff ts).mpr (fun t ht => ih t ht (hts t ht) ((says_conjunction ts).mp h t ht))
    | true =>
      refine (anyHolds_iff ts).mpr ?_
      rcases (says_disjunction ts).mp h with hs | ⟨t,ht,_,hw⟩
      · -- there is an operand, and like all of them it is written as nothing
        obtain ⟨t,ht⟩ := List.exists_mem_of_ne_nil ts (by simpa using hne)
        refine ⟨t,ht,ih t ht (hts t ht) ?_⟩
        rw [t.formula_eq_none.mpr (hs t ht)]
        exact Formula.says_none
      · exact ⟨t,ht,ih t ht (hts t ht) hw⟩

/-- What is written passes every row that the condition passes, if no disjunction leaves out some of its operands. -/
theorem says_of_holds {t : Tree α} (hu : t.uniform) (h : t.Holds w value) : Says w value t.formula := by
  induction t using induct with
  | leaf l => exact l.says_iff.mpr h
  | hash pairs => exact (says_hash pairs).mpr h
  | node any ts ih =>
    simp only [uniform,everyNode,Bool.and_eq_true,everyNodeOf_iff] at hu
    obtain ⟨hne,hts⟩ := hu
    cases any with
    | false => exact (says_conjunction ts).mpr (fun t ht => ih t ht (hts t ht) ((allHold_iff ts).mp h t ht))
    | true =>
      obtain ⟨t,ht,hw⟩ := (anyHolds_iff ts).mp h
      refine (says_disjunction ts).mpr ?_
      simp only [Bool.not_true,Bool.false_or,Bool.or_eq_true,List.all_eq_true,Bool.not_eq_true'] at hne
      rcases hne with hs | hs
      · exact .inl hs
      · exact .inr ⟨t,ht,by simp [hs t ht],ih t ht (hts t ht) hw⟩

end Tree

/-! ## Other names for the same values -/

section Renaming
variable {f : α → β} {other : β → δ}

theorem exists_map_congr {l : List α} {p : β → Prop} {q : α → Prop} (h : ∀ a ∈ l, (p (f a) ↔ q a)) :
    (∃ b ∈ l.map f, p b) ↔ ∃ a ∈ l, q a := by
  simp only [List.mem_map,exists_exists_and_eq_and]
  exact exists_congr (fun a => and_congr_right (h a))

theorem forall_map_congr {l : List α} {p : β → Prop} {q : α → Prop} (h : ∀ a ∈ l, (p (f a) ↔ q a)) :
    (∀ b ∈ l.map f, p b) ↔ ∀ a ∈ l, q a :=
  List.forall_mem_map.trans (forall₂_congr h)

theorem Operand.passes_map {c : Comparison} {column : Path} {o : Operand α} (h : ∀ a ∈ o.values, other (f a) = value a) :
    (o.map f).Passes w other c column ↔ o.Passes w value c column := by
  cases o with
  | null => exact Iff.rfl
  | bound a => simp [map,Passes,h a (.head _)]

theorem Operand.rowEquals_map {columns : List Path} {row : List (Operand α)}
    (h : ∀ o ∈ row, ∀ a ∈ o.values, other (f a) = value a) :
    RowEquals w other columns (row.map (Operand.map f)) ↔ RowEquals w value columns row := by
  unfold RowEquals
  rw [List.zip_map_right]
  exact forall_map_congr (fun x hx => passes_map (h x.2 (List.of_mem_zip hx).2))

theorem Operand.rowDiffers_map {columns : List Path} {row : List (Operand α)}
    (h : ∀ o ∈ row, ∀ a ∈ o.values, other (f a) = value a) :
    RowDiffers w other columns (row.map (Operand.map f)) ↔ RowDiffers w value columns row := by
  unfold RowDiffers
  rw [List.zip_map_right]
  exact exists_map_congr (fun x hx => passes_map (h x.2 (List.of_mem_zip hx).2))

theorem Leaf.holds_map {l : Leaf α} (h : ∀ a ∈ l.values, other (f a) = value a) :
    (l.map f).Holds w other ↔ l.Holds w value := by
  cases l with
  | isNull column => exact Iff.rfl
  | compare c column a => simp [map,Holds,h a (by simp [values])]
  | between negated column low high =>
    have hlow := h low (by simp [values])
    have hhigh := h high (by simp [values])
    cases negated <;> simp [map,Holds,hlow,hhigh]
  | member negated column os =>
    have ho : ∀ o ∈ os, ∀ a ∈ o.values, other (f a) = value a :=
      fun o ho a ha => h a (List.mem_flatMap.mpr ⟨o,ho,ha⟩)
    cases negated with
    | false => exact exists_map_congr (fun o hm => Operand.passes_map (ho o hm))
    | true => exact forall_map_congr (fun o hm => Operand.passes_map (ho o hm))
  | rowMember negated columns rows =>
    have hr : ∀ row ∈ rows, ∀ o ∈ row, ∀ a ∈ o.values, other (f a) = value a :=
      fun row hr o ho a ha => h a (List.mem_flatMap.mpr ⟨row,hr,List.mem_flatMap.mpr ⟨o,ho,ha⟩⟩)
    cases negated with
    | false => exact and_congr_right (fun _ => exists_map_congr (fun row hm => Operand.rowEquals_map (hr row hm)))
    | true => exact or_congr_right (forall_map_congr (fun row hm => Operand.rowDiffers_map (hr row hm)))
  | like any negated column patterns =>
    have hp : ∀ p ∈ patterns, (w.like negated (w.column (.ofColumn column)) (other (f p)) ↔
        w.like negated (w.column (.ofColumn column)) (value p)) :=
      fun p hm => by rw [h p hm]
    have hany := exists_map_congr (p := fun b => w.like negated (w.column (.ofColumn column)) (other b)) hp
    have hall := forall_map_congr (p := fun b => w.like negated (w.column (.ofColumn column)) (other b)) hp
    simp only [map,Holds,List.map_eq_nil_iff,hany,hall]

theorem Leaf.silent_map (l : Leaf α) : (l.map f).silent = l.silent := by
  cases l <;> simp [map,silent]

namespace Tree

theorem holds_map {t : Tree α} (h : ∀ a ∈ t.values, other (f a) = value a) :
    (t.map f).Holds w other ↔ t.Holds w value := by
  induction t using induct with
  | leaf l => exact l.holds_map h
  | hash pairs => exact forall_map_congr (fun l hl => l.holds_map (fun a ha => h a (List.mem_flatMap.mpr ⟨l,hl,ha⟩)))
  | node any ts ih =>
    rw [values,valuesAll_eq] at h
    have ht : ∀ t ∈ ts, ((t.map f).Holds w other ↔ t.Holds w value) :=
      fun t ht => ih t ht (fun a ha => h a (List.mem_flatMap.mpr ⟨t,ht,ha⟩))
    rw [map,mapAll_eq]
    cases any with
    | false =>
      rw [Holds,Holds,allHold_iff,allHold_iff]
      exact forall_map_congr ht
    | true =>
      rw [Holds,Holds,anyHolds_iff,anyHolds_iff]
      exact exists_map_congr ht

theorem silent_map (t : Tree α) : (t.map f).silent = t.silent := by
  rw [Bool.eq_iff_iff]
  induction t using induct with
  | leaf l => rw [map,silent,silent,l.silent_map]
  | hash pairs => simp [map,silent,Leaf.silent_map]
  | node any ts ih =>
    rw [map,mapAll_eq,silent,silent,silentAll_iff,silentAll_iff]
    exact forall_map_congr ih

theorem everyNode_map {p : Bool → List (Tree β) → Bool} {p' : Bool → List (Tree α) → Bool}
    (h : ∀ any ts, p any (ts.map (map f)) = p' any ts) (t : Tree α) : (t.map f).everyNode p ↔ t.everyNode p' := by
  induction t using induct with
  | leaf l => exact Iff.rfl
  | hash pairs => exact Iff.rfl
  | node any ts ih =>
    rw [map,mapAll_eq,everyNode,everyNode,Bool.and_eq_true,Bool.and_eq_true,h,everyNodeOf_iff,everyNodeOf_iff]
    exact and_congr_right (fun _ => forall_map_congr ih)

theorem filled_map (t : Tree α) : (t.map f).filled ↔ t.filled :=
  everyNode_map (fun any ts => by simp) t

theorem uniform_map (t : Tree α) : (t.map f).uniform ↔ t.uniform :=
  everyNode_map (fun any ts => by simp [Function.comp_def,silent_map]) t

end Tree

end Renaming

end SqlCompose
