import SqlCompose.Proofs.Cells

/-! # Expressions that are come upon

What is true of every expression in a memory and in a value is true of those that are come upon from the value, however
far references are followed. So none is come upon where there is none.
-/
namespace SqlCompose

variable {p : String → Entries → Bool} {m : Memory} {v : Value} {es : Entries} {sql : String} {params : Entries}

namespace Value

mutual
def everyExpression (p : String → Entries → Bool) : Value → Bool
  | .expression sql params => p sql params && everyExpressionUnder p params
  | .list items => everyExpressionOf p items
  | .tuple items => everyExpressionOf p items
  | .set items => everyExpressionOf p items
  | .mapping entries => everyExpressionUnder p entries
  | .pairs columns => everyExpressionAt p columns
  | .operation _ operands => everyExpressionOf p operands
  | .join _ _ on => everyExpression p on
  | _ => true

def everyExpressionOf (p : String → Entries → Bool) : List Value → Bool
  | [] => true
  | v :: vs => everyExpression p v && everyExpressionOf p vs

def everyExpressionUnder (p : String → Entries → Bool) : List (Value × Value) → Bool
  | [] => true
  | e :: es => everyExpression p e.1 && everyExpression p e.2 && everyExpressionUnder p es

def everyExpressionAt (p : String → Entries → Bool) : List (String × Value) → Bool
  | [] => true
  | c :: cs => everyExpression p c.2 && everyExpressionAt p cs
end

theorem everyExpressionOf_iff (vs : List Value) : everyExpressionOf p vs ↔ ∀ v ∈ vs, v.everyExpression p := by
  induction vs with
  | nil => simp [everyExpressionOf]
  | cons v vs ih => simp [everyExpressionOf,ih]

theorem everyExpressionUnder_iff (es : Entries) :
    everyExpressionUnder p es ↔ ∀ e ∈ es, e.1.everyExpression p ∧ e.2.everyExpression p := by
  induction es with
  | nil => simp [everyExpressionUnder]
  | cons e es ih => simp [everyExpressionUnder,ih,and_assoc]

theorem everyExpressionAt_iff (cs : List (String × Value)) :
    everyExpressionAt p cs ↔ ∀ c ∈ cs, c.2.everyExpression p := by
  induction cs with
  | nil => simp [everyExpressionAt]
  | cons c cs ih => simp [everyExpressionAt,ih]

end Value

def Memory.everyExpression (p : String → Entries → Bool) (m : Memory) : Bool :=
  m.streams.all (Value.everyExpressionOf p) && m.mappings.all (Value.everyExpressionUnder p) &&
    m.queries.all (fun q => Value.everyExpressionAt p (q.fields .null) && Value.everyExpressionUnder p q.params)

namespace Memory
variable {n : Nat}

theorem all_getD {α : Type} {a : Array α} {p : α → Bool} (h : a.all p) {y : α} (hy : p y) : p (a.getD n y) := by
  rw [Array.getD_eq_getD_getElem?]
  cases hn : a[n]? with
  | none => exact hy
  | some x => exact Array.all_eq_true'.mp h x (Array.mem_of_getElem? hn)

theorem everyExpression_stream (h : m.everyExpression p) (n : Nat) : ∀ v ∈ m.stream n, v.everyExpression p := by
  simp only [everyExpression,Bool.and_eq_true] at h
  exact (Value.everyExpressionOf_iff _).mp (all_getD h.1.1 rfl)

theorem everyExpression_query (h : m.everyExpression p) (n : Nat) :
    Value.everyExpressionAt p ((m.query n).fields .null) ∧ Value.everyExpressionUnder p (m.query n).params := by
  simp only [everyExpression,Bool.and_eq_true] at h
  have hq := all_getD (n := n) h.2 (y := {}) rfl
  rw [Bool.and_eq_true] at hq
  exact hq

theorem everyExpression_mapping (h : m.everyExpression p) (home : Home) :
    ∀ e ∈ m.mapping home, e.1.everyExpression p ∧ e.2.everyExpression p := by
  apply (Value.everyExpressionUnder_iff _).mp
  cases home with
  | cell n =>
    simp only [everyExpression,Bool.and_eq_true] at h
    exact all_getD h.1.2 rfl
  | query n => exact (everyExpression_query h n).2

theorem everyExpression_fields (h : m.everyExpression p) (n : Nat) : ∀ f ∈ m.fields n, f.2.everyExpression p := by
  have hnull := (Value.everyExpressionAt_iff _).mp (everyExpression_query h n).1
  intro f hf
  simp only [fields,Query.fields,List.mem_cons,List.not_mem_nil,or_false] at hf
  simp only [Query.fields,List.mem_cons,List.not_mem_nil,or_false] at hnull
  rcases hf with hf | hf | hf | hf | hf | hf | hf | hf | hf | hf | hf | hf | rfl
  all_goals first | exact hnull f (by simp [hf]) | rfl

end Memory

namespace Value

theorem everyExpression_entries (hm : m.everyExpression p) (hv : v.everyExpression p) (he : v.entries? m = some es) :
    ∀ e ∈ es, e.1.everyExpression p ∧ e.2.everyExpression p := by
  cases v with
  | mapping entries =>
    cases he
    rw [everyExpression] at hv
    exact (everyExpressionUnder_iff _).mp hv
  | shared home =>
    cases he
    exact Memory.everyExpression_mapping hm home
  | _ => cases he

theorem everyExpression_fields {fs : List (String × Value)} (hm : m.everyExpression p) (hv : v.everyExpression p)
    (hf : v.fields? m = some fs) : ∀ f ∈ fs, f.2.everyExpression p := by
  cases v with
  | expression sql params =>
    cases hf
    rw [everyExpression,Bool.and_eq_true] at hv
    simpa [everyExpression] using hv.2
  | raw sql =>
    cases hf
    simp [everyExpression]
  | pairs columns =>
    cases hf
    rw [everyExpression,everyExpressionAt_iff] at hv
    simp only [List.mem_singleton,forall_eq,everyExpression,everyExpressionUnder_iff,Entries.ofNames,
      List.forall_mem_map,true_and]
    exact hv
  | operation op operands =>
    cases hf
    rw [everyExpression] at hv
    simpa [everyExpression] using hv
  | join keyword table on =>
    cases hf
    rw [everyExpression] at hv
    simpa [everyExpression] using hv
  | query cell =>
    cases hf
    exact Memory.everyExpression_fields hm cell
  | _ => cases hf

theorem everyExpression_sequence {items : List Value} (hm : m.everyExpression p) (hv : v.everyExpression p)
    (hs : v.sequence? m = some items) : ∀ w ∈ items, w.everyExpression p := by
  cases v with
  | list l | tuple l | set l =>
    cases hs
    rw [everyExpression] at hv
    exact (everyExpressionOf_iff _).mp hv
  | range start stop step =>
    cases hs
    simp [rangeItems,everyExpression]
  | stream cell =>
    cases hs
    exact Memory.everyExpression_stream hm cell
  | _ => cases hs

theorem everyExpression_elements {items : List Value} (hm : m.everyExpression p) (hv : v.everyExpression p)
    (hi : v.elements? m = some items) : ∀ w ∈ items, w.everyExpression p := by
  unfold elements? at hi
  split at hi
  · cases hi
    simp [ofChars,everyExpression]
  · cases hi
    simp [ofBytes,everyExpression]
  · next w _ _ _ =>
    rw [Option.or_eq_some_iff,Option.or_eq_some_iff] at hi
    rcases hi with (hs | ⟨-,he⟩) | ⟨-,hf⟩
    · exact everyExpression_sequence hm hv hs
    · obtain ⟨entries,hentries,rfl⟩ := Option.map_eq_some_iff.mp he
      exact List.forall_mem_map.mpr (fun e h => (everyExpression_entries hm hv hentries e h).1)
    · obtain ⟨fs,hfields,rfl⟩ := Option.map_eq_some_iff.mp hf
      refine List.forall_mem_map.mpr (fun f h => ?_)
      simpa [ofField,everyExpression,everyExpressionOf] using everyExpression_fields hm hv hfields f h

theorem everyExpression_parts (hm : m.everyExpression p) (hv : v.everyExpression p) :
    ∀ w ∈ v.parts m, w.everyExpression p := by
  intro w hw
  unfold parts at hw
  rcases List.mem_append.mp hw with hw | hw
  · rcases List.mem_append.mp hw with hw | hw
    · cases hi : v.elements? m with
      | none => simp [hi] at hw
      | some items => exact everyExpression_elements hm hv hi w (by simpa [hi] using hw)
    · cases he : v.entries? m with
      | none => simp [he,Entries.values] at hw
      | some entries =>
        rw [he] at hw
        obtain ⟨e,he',rfl⟩ := List.mem_map.mp hw
        exact (everyExpression_entries hm hv he e he').2
  · cases hf : v.fields? m with
    | none => simp [hf] at hw
    | some fs =>
      rw [hf] at hw
      obtain ⟨f,hf',rfl⟩ := List.mem_map.mp hw
      exact everyExpression_fields hm hv hf f hf'

/-- What is true of every expression is true of those that are come upon. -/
theorem Reaches.of_everyExpression (h : v.Reaches m (.expression sql params)) (hm : m.everyExpression p)
    (hv : v.everyExpression p) : p sql params := by
  have hx : (Value.expression sql params).everyExpression p :=
    h.induct (P := fun w => w.everyExpression p) hv (fun _ hv => everyExpression_parts hm hv)
  rw [everyExpression,Bool.and_eq_true] at hx
  exact hx.1

def bare (v : Value) : Bool := v.everyExpression (fun _ _ => false)

end Value

def Memory.bare (m : Memory) : Bool := m.everyExpression (fun _ _ => false)

/-- Where there are no expressions none is come upon. -/
theorem Value.not_reaches_expression (hm : m.bare) (hv : v.bare) : ¬ v.Reaches m (.expression sql params) :=
  fun h => Bool.false_ne_true (h.of_everyExpression hm hv)

end SqlCompose
