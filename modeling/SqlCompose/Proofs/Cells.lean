import SqlCompose.Value.Elements
import Mathlib.Logic.Relation

/-! # What values hold

The parts of a value depend on the memory only through the cells that it refers to. Parameters are written to
mappings and nowhere else, so they leave the clauses of all queries and all streams as they are.
-/
namespace SqlCompose
open Relation

/-- What a value gives at once: what it lists, what stands under its keys, and its fields. -/
def Value.parts (m : Memory) (v : Value) : List Value :=
  (v.elements? m).getD [] ++ ((v.entries? m).getD []).values ++ ((v.fields? m).getD []).map (·.2)

def Value.Reaches (m : Memory) : Value → Value → Prop := ReflTransGen (fun v p => p ∈ v.parts m)

namespace Value
variable {m : Memory} {v p : Value}

theorem parts_stream (m : Memory) (cell : Nat) : (stream cell).parts m = m.stream cell := by
  simp [parts,elements?,text?,sequence?,entries?,fields?,Entries.values]

theorem parts_shared (m : Memory) (home : Home) :
    (shared home).parts m = (m.mapping home).keys ++ (m.mapping home).values := by
  simp [parts,elements?,text?,sequence?,entries?,fields?]

theorem mem_parts_of_elements {items : List Value} (h : v.elements? m = some items) (hp : p ∈ items) :
    p ∈ v.parts m := by
  simp [parts,h,hp]

theorem mem_parts_of_entries {es : Entries} (h : v.entries? m = some es) {e : Value × Value} (he : e ∈ es) :
    e.1 ∈ v.parts m ∧ e.2 ∈ v.parts m := by
  have hk : v.elements? m = some es.keys := by
    cases v <;> simp only [entries?,reduceCtorEq] at h <;>
      simp [elements?,text?,sequence?,entries?,h]
  constructor
  · exact mem_parts_of_elements hk (List.mem_map_of_mem he)
  · simp only [parts,h,Option.getD_some,List.mem_append]
    exact .inl (.inr (List.mem_map_of_mem he))

theorem mem_parts_of_fields {fs : List (String × Value)} (h : v.fields? m = some fs) {f : String × Value}
    (hf : f ∈ fs) : f.2 ∈ v.parts m := by
  simp only [parts,h,Option.getD_some,List.mem_append]
  exact .inr (List.mem_map_of_mem hf)

end Value

/-- What holds of a value and passes on to parts holds of all that it reaches. -/
theorem Value.Reaches.induct {m : Memory} {v w : Value} {P : Value → Prop} (h : v.Reaches m w) (hv : P v)
    (hp : ∀ v, P v → ∀ p ∈ v.parts m, P p) : P w := by
  induction h with
  | refl => exact hv
  | tail _ hm ih => exact hp _ ih _ hm

theorem getD_setIfInBounds {α : Type} (a : Array α) (i n : Nat) (x y : α) :
    (a.setIfInBounds i x).getD n y = if n = i ∧ i < a.size then x else a.getD n y := by
  simp only [Array.getD_eq_getD_getElem?,Array.getElem?_setIfInBounds]
  by_cases h : i = n
  · subst h
    by_cases hb : i < a.size
    · simp [hb]
    · simp [hb]
  · simp [h,Ne.symm h]

theorem getD_modify {α : Type} (a : Array α) (i n : Nat) (f : α → α) (y : α) :
    (a.modify i f).getD n y = if n = i ∧ i < a.size then f (a.getD n y) else a.getD n y := by
  simp only [Array.getD_eq_getD_getElem?,Array.getElem?_modify]
  by_cases h : i = n
  · subst h
    by_cases hb : i < a.size
    · simp [hb]
    · simp [hb]
  · simp [h,Ne.symm h]

namespace Memory
variable {m : Memory} {v p : Value} {home other : Home} {cell n : Nat} {es : Entries}

def Holds (m : Memory) : Home → Prop
  | .cell n => n < m.mappings.size
  | .query n => n < m.queries.size

theorem query_setParams (m : Memory) (cell n : Nat) (es : Entries) :
    (m.setParams cell es).query n =
      if n = cell ∧ cell < m.queries.size then { m.query n with params := es } else m.query n :=
  getD_modify m.queries cell n (fun q => { q with params := es }) {}

theorem query_setMapping (m : Memory) (home : Home) (n : Nat) (es : Entries) :
    ∃ es', (m.setMapping home es).query n = { m.query n with params := es' } := by
  cases home with
  | cell c => exact ⟨_,rfl⟩
  | query c =>
    simp only [setMapping]
    rw [query_setParams]
    split
    · exact ⟨es,rfl⟩
    · exact ⟨_,rfl⟩

theorem home_of_none (h : (m.query n).home = none) : m.home n = .query n := by
  rw [home,h,Option.getD_none]

def detached (m : Memory) (cell : Nat) : Query := { m.query cell with params := m.params cell,home := none }

theorem detached_of_none (h : (m.query n).home = none) : m.detached n = m.query n := by
  unfold detached params
  rw [home_of_none h,mapping,← h]

theorem home_of_query {m' : Memory} (h : ∃ es, m'.query n = { m.query n with params := es }) :
    m'.home n = m.home n := by
  obtain ⟨es,h⟩ := h
  rw [home,h]
  rfl

theorem fields_of_query {m' : Memory} (h : ∃ es, m'.query n = { m.query n with params := es }) :
    m'.fields n = m.fields n := by
  rw [fields,fields,home_of_query h]
  obtain ⟨es,h⟩ := h
  rw [h]
  rfl

@[simp]
theorem home_setMapping (m : Memory) (home : Home) (n : Nat) (es : Entries) :
    (m.setMapping home es).home n = m.home n := home_of_query (m.query_setMapping home n es)

theorem fields_setMapping (m : Memory) (home : Home) (n : Nat) (es : Entries) :
    (m.setMapping home es).fields n = m.fields n := fields_of_query (m.query_setMapping home n es)

theorem stream_setMapping (m : Memory) (home : Home) (n : Nat) (es : Entries) :
    (m.setMapping home es).stream n = m.stream n := by
  cases home <;> rfl

theorem mapping_setMapping_self (h : m.Holds home) : (m.setMapping home es).mapping home = es := by
  cases home with
  | cell n =>
    simp only [setMapping,mapping]
    rw [getD_setIfInBounds,if_pos ⟨rfl,h⟩]
  | query n =>
    simp only [setMapping,mapping]
    rw [query_setParams,if_pos ⟨rfl,h⟩]

theorem mapping_setMapping_of_ne (h : other ≠ home) : (m.setMapping home es).mapping other = m.mapping other := by
  cases home with
  | cell n =>
    cases other with
    | query k => rfl
    | cell k =>
      have hk : ¬ (k = n ∧ n < m.mappings.size) := fun hk => h (by rw [hk.1])
      simp only [setMapping,mapping]
      rw [getD_setIfInBounds,if_neg hk]
  | query n =>
    cases other with
    | cell k => rfl
    | query k =>
      have hk : ¬ (k = n ∧ n < m.queries.size) := fun hk => h (by rw [hk.1])
      simp only [setMapping,mapping]
      rw [query_setParams,if_neg hk]

theorem mapping_setMapping_of_not_holds (h : ¬ m.Holds home) :
    (m.setMapping home es).mapping other = m.mapping other := by
  by_cases hn : other = home
  · subst hn
    cases other with
    | cell n =>
      simp only [setMapping,mapping]
      rw [getD_setIfInBounds,if_neg (fun hk => h hk.2)]
    | query n =>
      simp only [setMapping,mapping]
      rw [query_setParams,if_neg (fun hk => h hk.2)]
  · exact mapping_setMapping_of_ne hn

theorem mapping_of_not_holds (h : ¬ m.Holds home) : m.mapping home = [] := by
  cases home with
  | cell n =>
    have hn : m.mappings.size ≤ n := Nat.le_of_not_lt h
    simp [mapping,Array.getD_eq_getD_getElem?,hn]
  | query n =>
    have hn : m.queries.size ≤ n := Nat.le_of_not_lt h
    simp [mapping,query,Array.getD_eq_getD_getElem?,hn]

theorem holds_setParams (m : Memory) (cell : Nat) (es : Entries) (home : Home) :
    (m.setParams cell es).Holds home ↔ m.Holds home := by
  cases home <;> simp [Holds,setParams]

theorem holds_setMapping (m : Memory) (other : Home) (es : Entries) (home : Home) :
    (m.setMapping other es).Holds home ↔ m.Holds home := by
  cases other with
  | cell n => cases home <;> simp [Holds,setMapping]
  | query n => exact holds_setParams m n es home

/-- Writing back what a mapping holds changes nothing. -/
theorem setMapping_self (m : Memory) (home : Home) : m.setMapping home (m.mapping home) = m := by
  cases home with
  | cell n =>
    obtain ⟨streams,mappings,queries⟩ := m
    simp only [setMapping,mapping,Memory.mk.injEq,true_and,and_true]
    apply Array.ext
    · simp
    · intro i h _
      rw [Array.getElem_setIfInBounds]
      split
      · simp_all
      · rfl
  | query n =>
    obtain ⟨streams,mappings,queries⟩ := m
    simp only [setMapping,setParams,mapping,query,Memory.mk.injEq,true_and]
    apply Array.ext
    · simp
    · intro i h _
      rw [Array.getElem_modify]
      split
      · simp_all
      · rfl

/-- What is written last stays. -/
theorem setMapping_setMapping (m : Memory) (home : Home) (es es' : Entries) :
    (m.setMapping home es).setMapping home es' = m.setMapping home es' := by
  cases home with
  | cell n => simp [setMapping]
  | query n =>
    simp only [setMapping,setParams,Memory.mk.injEq,true_and]
    apply Array.ext
    · simp
    · intro i h _
      rw [Array.getElem_modify,Array.getElem_modify,Array.getElem_modify]
      split
      · rfl
      · rfl

theorem stream_setStream (m : Memory) (cell n : Nat) (items : List Value) :
    (m.setStream cell items).stream n = if n = cell ∧ cell < m.streams.size then items else m.stream n :=
  getD_setIfInBounds m.streams cell n items []

/-- A change of memory that keeps the clauses of all queries gives new parts only through mappings. -/
theorem parts_of_agree {m' : Memory} {new : Value → Prop} (hq : ∀ n, m'.fields n = m.fields n)
    (hs : ∀ n, ∀ p ∈ m'.stream n, p ∈ m.stream n)
    (hm : ∀ h, v = .shared h → m'.mapping h = m.mapping h ∨ ∀ e ∈ m'.mapping h, new e.1 ∧ new e.2)
    (hp : p ∈ v.parts m') : p ∈ v.parts m ∨ new p := by
  cases v with
  | stream n =>
    rw [Value.parts_stream] at hp ⊢
    exact .inl (hs n p hp)
  | shared h =>
    rw [Value.parts_shared] at hp ⊢
    rcases hm h rfl with he | hn
    · rw [he] at hp
      exact .inl hp
    · right
      rcases List.mem_append.mp hp with hp | hp
      · obtain ⟨e,he,rfl⟩ := List.mem_map.mp hp
        exact (hn e he).1
      · obtain ⟨e,he,rfl⟩ := List.mem_map.mp hp
        exact (hn e he).2
  | query n =>
    left
    simpa [Value.parts,Value.elements?,Value.text?,Value.sequence?,Value.entries?,Value.fields?,hq] using hp
  | _ => exact .inl hp

end Memory

end SqlCompose
