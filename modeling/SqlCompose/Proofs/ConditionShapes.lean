import SqlCompose.Proofs.Extent
import SqlCompose.Proofs.Tests

/-! # The shapes of conditions

An operator stands over its operands in a record, or at the head of a list or a tuple; a list without an operator at its
head is empty or cannot be read; any other condition is an expression or is bare, without operands. These are all shapes
of conditions. What is shown of every shape holds of every condition, by induction on the operands.
-/
namespace SqlCompose
open Build

variable {s : Setting} {d : Draft} {v : Value}

namespace Condition
variable {op : Operator} {operands : List Value}

def operation? : Value → Option (Operator × List Value)
  | .operation op operands => some (op,operands)
  | .list (head :: operands) | .tuple (head :: operands) =>
    match Operator.ofValue head with
    | .ok op => some (op,operands)
    | .error _ => none
  | _ => none

def Bare : Value → Prop
  | .list _ | .tuple _ | .operation .. => False
  | _ => True

def Empty (v : Value) : Prop := v = .list [] ∨ v = .tuple []

def Unread (v : Value) (x : Fault) : Prop :=
  ∃ head operands, (v = .list (head :: operands) ∨ v = .tuple (head :: operands)) ∧ Operator.ofValue head = .error x

theorem operation?_eq_some (h : operation? v = some (op,operands)) : v = .operation op operands ∨
    ∃ head, (v = .list (head :: operands) ∨ v = .tuple (head :: operands)) ∧ Operator.ofValue head = .ok op := by
  have hform : ∀ head os, operation? (.list (head :: os)) = some (op,operands) →
      os = operands ∧ Operator.ofValue head = .ok op := by
    intro head os h
    cases hop : Operator.ofValue head with
    | error x => simp only [operation?,hop,reduceCtorEq] at h
    | ok _ =>
      simp only [operation?,hop] at h
      cases h
      exact ⟨rfl,rfl⟩
  cases v with
  | operation =>
    cases h
    exact .inl rfl
  | list items =>
    cases items with
    | nil => cases h
    | cons head os =>
      obtain ⟨rfl,hop⟩ := hform head os h
      exact .inr ⟨head,.inl rfl,hop⟩
  | tuple items =>
    cases items with
    | nil => cases h
    | cons head os =>
      obtain ⟨rfl,hop⟩ := hform head os h
      exact .inr ⟨head,.inr rfl,hop⟩
  | _ => cases h

def withOperands : Value → List Value → Value
  | .operation op _,operands => .operation op operands
  | .list (head :: _),operands => .list (head :: operands)
  | .tuple (head :: _),operands => .tuple (head :: operands)
  | v,_ => v

theorem operation?_withOperands (h : operation? v = some (op,operands)) (others : List Value) :
    operation? (withOperands v others) = some (op,others) := by
  rcases operation?_eq_some h with rfl | ⟨head,rfl | rfl,hop⟩ <;> simp only [withOperands,operation?]
  · rw [hop]
  · rw [hop]

theorem withOperands_self (h : operation? v = some (op,operands)) : withOperands v operands = v := by
  rcases operation?_eq_some h with rfl | ⟨head,rfl | rfl,-⟩ <;> rfl

theorem sizeOf_operand (h : operation? v = some (op,operands)) {o : Value} (ho : o ∈ operands) : sizeOf o < sizeOf v := by
  have hlt := List.sizeOf_lt_of_mem ho
  rcases operation?_eq_some h with rfl | ⟨head,rfl | rfl,-⟩ <;> simp <;> omega

theorem empty_or_unread {items : List Value} (hv : v = .list items ∨ v = .tuple items) (h : operation? v = none) :
    Empty v ∨ ∃ x, Unread v x := by
  cases items with
  | nil => exact .inl hv
  | cons head operands =>
    cases hop : Operator.ofValue head with
    | error x => exact .inr ⟨x,head,operands,hv,hop⟩
    | ok op => rcases hv with rfl | rfl <;> simp [operation?,hop] at h

@[elab_as_elim]
theorem induct {P : Value → Prop} (expression : ∀ sql params, P (.expression sql params))
    (operation : ∀ v op operands, operation? v = some (op,operands) → (∀ o ∈ operands, P o) → P v)
    (empty : ∀ v, Empty v → P v) (unread : ∀ v x, Unread v x → P v)
    (bare : ∀ v, Bare v → (∀ sql params, v ≠ .expression sql params) → P v) (v : Value) : P v := by
  cases h : operation? v with
  | some o => exact operation v o.1 o.2 h (fun w _ => induct expression operation empty unread bare w)
  | none =>
    have hform : ∀ items, v = .list items ∨ v = .tuple items → P v := by
      intro items hv
      rcases empty_or_unread hv h with hempty | ⟨x,hunread⟩
      · exact empty v hempty
      · exact unread v x hunread
    cases v with
    | expression sql params => exact expression sql params
    | operation op operands => cases h
    | list items => exact hform items (.inl rfl)
    | tuple items => exact hform items (.inr rfl)
    | _ => exact bare _ trivial nofun
termination_by sizeOf v
decreasing_by exact sizeOf_operand h ‹_›

/-! ## What a shape is compiled to -/

theorem compile_of_operation? (h : operation? v = some (op,operands)) :
    compile s v = operate s op operands (compileAll s operands) := by
  rcases operation?_eq_some h with rfl | ⟨head,rfl | rfl,hop⟩
  · rw [compile]
  · rw [compile,compileForm,hop]
  · rw [compile,compileForm,hop]

theorem compile_of_empty (h : Empty v) : compile s v = pure [] := by
  rcases h with rfl | rfl <;> simp only [compile,compileForm]

theorem compile_of_unread {x : Fault} (h : Unread v x) : compile s v = fail x := by
  obtain ⟨head,operands,rfl | rfl,hop⟩ := h <;> simp only [compile,compileForm,hop]

theorem compile_of_bare (h : Bare v) (hx : ∀ sql params, v ≠ .expression sql params) : compile s v = simple s v := by
  cases v with
  | expression sql params => exact absurd rfl (hx sql params)
  | list items => exact h.elim
  | tuple items => exact h.elim
  | operation op operands => exact h.elim
  | _ => rfl

def asOperand (s : Setting) (v : Value) : Build Sql :=
  match symbol? v with
  | some sql => pure sql
  | none => compile s v

theorem asOperand_of_none (h : symbol? v = none) : asOperand s v = compile s v := by
  unfold asOperand
  rw [h]

theorem compileAll_asOperand (v : Value) (vs : List Value) : compileAll s (v :: vs) =
    asOperand s v >>= fun sql => compileAll s vs >>= fun parts => pure (sql :: parts) := by
  rw [compileAll,asOperand]
  cases symbol? v <;> rfl

theorem compileAll_eq_mapM (operands : List Value) : compileAll s operands = operands.mapM (asOperand s) := by
  induction operands with
  | nil => rw [compileAll,List.mapM_nil]
  | cons v vs ih => rw [compileAll_asOperand,List.mapM_cons,ih]

/-! ## The tests of a shape -/

theorem tests_of_operation? (h : operation? v = some (op,operands)) :
    tests v = testsOf op operands (testsOfAll operands) := by
  rcases operation?_eq_some h with rfl | ⟨head,rfl | rfl,hop⟩
  · rw [tests]
  · rw [tests,testsOfForm,hop]
  · rw [tests,testsOfForm,hop]

theorem tests_of_bare (h : Bare v) : tests v = [.simple v] := by
  cases v <;> first | rfl | cases h

theorem testsOfAll_eq_flatMap (operands : List Value) : testsOfAll operands = operands.flatMap tests := by
  induction operands with
  | nil => rw [testsOfAll,List.flatMap_nil]
  | cons v vs ih => rw [testsOfAll,List.flatMap_cons,ih]

theorem mem_testsOfAll {o : Value} (ho : o ∈ operands) {t : Test} (ht : t ∈ tests o) : t ∈ testsOfAll operands := by
  rw [testsOfAll_eq_flatMap]
  exact List.mem_flatMap.mpr ⟨o,ho,ht⟩

/-- A condition that shows no text of its own is no operator and no sort direction. -/
theorem symbol?_eq_none (h : .simple v ∈ tests v → v.text? = none) : symbol? v = none := by
  cases v with
  | operator op => cases h (.head _)
  | direction direction => cases h (.head _)
  | _ => rfl

end Condition

/-- The operands of a condition in an extent are in it. -/
theorem Extent.Covers.operands {x : Extent} (h : x.Covers s d) (hx : x.value v) {op : Operator} {operands : List Value}
    (hv : Condition.operation? v = some (op,operands)) : ∀ o ∈ operands, x.value o := by
  rcases Condition.operation?_eq_some hv with rfl | ⟨head,rfl | rfl,-⟩
  · exact h.elements (h.fields hx rfl ("operands",.list operands) (by simp)) rfl
  · exact fun o ho => h.elements hx rfl o (.tail _ ho)
  · exact fun o ho => h.elements hx rfl o (.tail _ ho)

end SqlCompose
