import SqlCompose.Proofs.AliasCuts
import SqlCompose.Proofs.Binding
import SqlCompose.Proofs.Grouping
import SqlCompose.Proofs.Pyformat

/-! # Statements without raw SQL

A statement is tame if it has no raw SQL and all that stands for a table or a column is a name. If besides it has no
expression and its collection is empty at the start, then its bindings are counted through from zero, and the collections
that it extends have no other keys, so whatever is looked up on the way is what was there at the start, or a placeholder.
-/
namespace SqlCompose
open Relation
open Request (Joins)

variable {A : Char → Prop} {x : Extent} {s : Setting} {m : Memory} {r : Request} {start d e : Draft} {v w : Value}

/-! ## Which statements are tame -/

def Value.Nameable (A : Char → Prop) (m : Memory) (v : Value) : Prop :=
  match v.text? with
  | some name => IsName A name
  | none => ∀ w ∈ (v.elements? m).getD [], w.text? ≠ some "("

namespace Condition

structure Wordless (A : Char → Prop) (m : Memory) (v : Value) : Prop where
  text : v.text? = none
  raw : ∀ sql, v ≠ .raw sql
  columns : ∀ columns, v = .pairs columns → ∀ c ∈ columns, IsName A c.1
  keys : v.hasEntries → ∀ key ∈ (v.elements? m).getD [], ∀ name, key.readText? = some name → IsName A name

def Test.Tame (A : Char → Prop) (m : Memory) : Test → Prop
  | .operation op operands => ∀ c ∈ (Test.operation op operands).columns, c.Nameable A m
  | .simple v => Wordless A m v

def Tame (A : Char → Prop) (m : Memory) (v : Value) : Prop := ∀ t ∈ tests v, t.Tame A m

end Condition

structure Query.Tame (A : Char → Prop) (m : Memory) (q : Query) : Prop where
  columns : ∀ name, .name name ∈ q.columns → IsName A name
  option : q.selectOption = none
  tables : ∀ name, .name name ∈ q.tables → IsName A name
  joins : ∀ v ∈ q.joins, ∀ j, Join.ofValue? m v = some j →
    '%' ∉ j.keyword.toList ∧ IsName A j.table ∧ Condition.Tame A m j.on
  filter : Condition.Tame A m q.filter
  groups : ∀ name, .name name ∈ q.groups → IsName A name
  groupFilter : Condition.Tame A m q.groupFilter
  members : ∀ sql, .sql sql ∉ q.members
  order : ∀ e ∈ q.order, IsName A e.1

namespace Request

def Tame (A : Char → Prop) (m : Memory) : Request → Prop
  | .query cell => ∀ c, ReflTransGen (Joins m) cell c → (m.query c).Tame A m
  | .insert table columns _ => table.Nameable A m ∧ ∀ c ∈ (columns.elements? m).getD [], c.Nameable A m
  | .batchInsert table columns _ _ => table.Nameable A m ∧ ∀ c ∈ (columns.elements? m).getD [], c.Nameable A m
  | .update table columns condition _ =>
    table.Nameable A m ∧ (∀ c ∈ (columns.elements? m).getD [], c.Nameable A m) ∧ Condition.Tame A m condition
  | .delete table condition _ => table.Nameable A m ∧ Condition.Tame A m condition
  | .filter spec _ => Condition.Tame A m spec

/-- A statement without expressions, the collection of which is empty at the start, and those of its members too. -/
structure Unseeded (m : Memory) (r : Request) : Prop where
  collects : r.Collects m
  collection : (r.params m).entries? m = some []
  members : ∀ c, (r.extent m).member c → m.params c = []
  expressions : ∀ sql params, ¬ (r.extent m).value (.expression sql params)

end Request

/-! ## Bindings counted through from zero -/

namespace Entries
variable {es more : Entries}

/-- Merging keys that are there already brings none. -/
theorem keys_merge_of_subset (h : ∀ k ∈ more.keys, k ∈ es.keys) (hsame : ∀ k ∈ es.keys, k.same k) :
    (es.merge more).keys = es.keys := by
  unfold merge
  induction more generalizing es with
  | nil => rfl
  | cons e more ih =>
    obtain ⟨he,hmore⟩ := List.forall_mem_cons.mp h
    have hany : es.keys.any (·.same e.1) = true := List.any_eq_true.mpr ⟨e.1,he,hsame _ he⟩
    have hput : (put e.1 e.2 es).keys = es.keys := keys_put.trans (if_pos hany)
    have hrest : (more.foldl (fun acc e => put e.1 e.2 acc) (put e.1 e.2 es)).keys = (put e.1 e.2 es).keys :=
      ih (by rwa [hput]) (by rwa [hput])
    rw [List.foldl_cons]
    exact hrest.trans hput

end Entries

/-- What holds of every draft on the way of a statement that starts with no bindings: they are counted through, no mapping
has got other keys, and else nothing has changed except that streams have been used up. -/
structure Draft.Counted (x : Extent) (s : Setting) (d start : Draft) : Prop where
  covers : x.Covers s d
  numbers : d.placeholders = (List.range d.given.length).map s.placeholderName
  keys : d.bindings.keys = d.placeholders.map .text
  members : ∀ c, x.member c → start.memory.params c = []
  mapping : ∀ home, d.memory.mapping home = start.memory.mapping home ∨
    ∀ k ∈ (d.memory.mapping home).keys, k ∈ d.bindings.keys
  stream : ∀ n, ∀ v ∈ d.memory.stream n, v ∈ start.memory.stream n
  query : ∀ n, ∃ es, d.memory.query n = { start.memory.query n with params := es }
  holds : ∀ home, d.memory.Holds home ↔ start.memory.Holds home

namespace Draft.Counted

theorem mem_keys (h : d.Counted x s start) {k : Value} (hk : k ∈ d.bindings.keys) : ∃ n, k = .text (s.placeholderName n) := by
  rw [h.keys,h.numbers] at hk
  simp only [List.map_map,List.mem_map,List.mem_range,Function.comp_apply] at hk
  obtain ⟨n,-,rfl⟩ := hk
  exact ⟨n,rfl⟩

theorem length_bindings (h : d.Counted x s start) : d.bindings.length = d.given.length := by
  have hkeys := congrArg List.length h.keys
  simpa [Entries.keys,Draft.placeholders] using hkeys

theorem names (h : d.Counted x s start) : d.bindings.names = d.placeholders := by
  have hkeys : d.bindings.names = d.bindings.keys.filterMap Value.text? := by
    simp [Entries.names,Entries.keys,List.filterMap_map]
  rw [hkeys,h.keys,List.filterMap_map]
  exact List.filterMap_some

theorem nodup (h : d.Counted x s start) : d.placeholders.Nodup := by
  rw [h.numbers]
  exact List.Nodup.map (fun _ _ => s.placeholderName_inj.mp) List.nodup_range

/-- The next number is new. -/
theorem bound (h : d.Counted x s start) (hc : x.Covers s (d.bound s v)) : (d.bound s v).Counted x s start := by
  have hnext : d.nextName s = s.placeholderName d.given.length := by rw [Draft.nextName,h.length_bindings]
  have hnew : d.nextName s ∉ d.bindings.names := by
    rw [h.names,h.numbers,hnext]
    intro hm
    obtain ⟨n,hn,hname⟩ := List.mem_map.mp hm
    have hn := List.mem_range.mp hn
    have := s.placeholderName_inj.mp hname
    omega
  have hbindings : (d.bound s v).bindings = d.bindings ++ [(.text (d.nextName s),v)] := Entries.put_of_not_mem hnew
  have hkeys : (d.bound s v).bindings.keys = d.bindings.keys ++ [.text (d.nextName s)] := by
    rw [hbindings]
    exact List.map_append
  have hsub : ∀ k ∈ d.bindings.keys, k ∈ (d.bound s v).bindings.keys := by
    intro k hk
    rw [hkeys]
    exact List.mem_append_left _ hk
  refine ⟨hc,?_,?_,h.members,fun home => ?_,h.stream,h.query,h.holds⟩
  · have hnumbers := h.numbers
    unfold Draft.placeholders at hnumbers ⊢
    simp [Draft.bound,hnumbers,List.range_succ,hnext]
  · have hplaces : (d.bound s v).placeholders = d.placeholders ++ [d.nextName s] := List.map_append
    rw [hkeys,h.keys,hplaces,List.map_append]
    rfl
  · exact (h.mapping home).imp_right (fun hk k hm => hsub k (hk k hm))

/-- Taking over what is there already. -/
theorem adopted {more : Entries} (h : d.Counted x s start) (hc : x.Covers s (d.adopted more))
    (hm : ∀ k ∈ more.keys, k ∈ d.bindings.keys) : (d.adopted more).Counted x s start := by
  have hsame : ∀ k ∈ d.bindings.keys, k.same k := by
    intro k hk
    obtain ⟨n,rfl⟩ := h.mem_keys hk
    rw [Value.same_of_text_left (k := .text _) rfl]
    exact beq_self_eq_true _
  have hkeys : (d.adopted more).bindings.keys = d.bindings.keys := Entries.keys_merge_of_subset hm hsame
  refine ⟨hc,h.numbers,hkeys.trans h.keys,h.members,?_,h.stream,h.query,h.holds⟩
  rw [hkeys]
  exact h.mapping

/-- A member has no keys but those of the bindings. -/
theorem mem_keys_of_member {c : Nat} (h : d.Counted x s start) (hm : x.member c) {k : Value}
    (hk : k ∈ ((d.view s).params c).keys) : k ∈ d.bindings.keys := by
  rcases d.params_cases s c with hp | hp <;> rw [hp] at hk
  · exact hk
  · rw [Memory.params,Memory.home_of_query (h.query c)] at hk
    rcases h.mapping (start.memory.home c) with hsame | hkeys
    · have hempty : start.memory.mapping (start.memory.home c) = [] := h.members c hm
      rw [hsame,hempty] at hk
      cases hk
    · exact hkeys k hk

theorem step (hx : ∀ sql params, ¬ x.value (.expression sql params)) (st : x.Step s d e) (h : d.Counted x s start) :
    e.Counted x s start := by
  have hc := st.covers h.covers
  cases st with
  | bind hv => exact h.bound hc
  | adopt hv => exact absurd hv (hx _ _)
  | take hm => exact h.adopted hc (fun _ => h.mem_keys_of_member hm)
  | @hand c hm =>
    have hmerged : ∀ k ∈ (Entries.merge ((d.view s).params c) d.bindings).keys, k ∈ d.bindings.keys := by
      intro k hk
      rcases Entries.mem_keys_merge hk with hk | hk
      · exact h.mem_keys_of_member hm hk
      · exact hk
    refine ⟨hc,h.numbers,h.keys,h.members,fun home => ?_,fun n v hv => ?_,fun n => ?_,fun home => ?_⟩
    · rcases Query.mapping_handed_cases s c d home with hp | ⟨-,hp⟩ <;> rw [hp]
      · exact h.mapping home
      · exact .inr hmerged
    · rw [Query.stream_handed] at hv
      exact h.stream n v hv
    · obtain ⟨es,hes⟩ := h.query n
      obtain ⟨more,hmore⟩ := (Extent.Step.hand (s := s) d hm).query n
      exact ⟨more,by rw [hmore,hes]⟩
    · exact (Query.holds_handed s c d home).trans (h.holds home)
  | @drain cell items hi =>
    refine ⟨hc,h.numbers,h.keys,h.members,fun home => ?_,fun n v hv => ?_,h.query,fun home => ?_⟩
    · rw [d.mapping_drained cell items home]
      exact h.mapping home
    · exact h.stream n v (Draft.mem_stream_drained hi hv)
    · exact (d.holds_drained cell items home).trans (h.holds home)

theorem steps (hx : ∀ sql params, ¬ x.value (.expression sql params)) (st : ReflTransGen (x.Step s) d e)
    (h : d.Counted x s start) : e.Counted x s start :=
  Extent.keep_steps (P := fun e => e.Counted x s start) (fun _ _ st h => h.step hx st) st h

/-! ### What is looked up on the way -/

theorem mapping_view (h : d.Counted x s start) (home : Home) :
    (d.view s).mapping home = (start.view s).mapping home ∨ ∀ k ∈ ((d.view s).mapping home).keys, k ∈ d.bindings.keys := by
  by_cases hc : s.collection = .shared home ∧ d.memory.Holds home
  · rw [Draft.view_mapping_own hc.1 hc.2]
    exact .inr (fun k hk => hk)
  · have hstart : ¬ (s.collection = .shared home ∧ start.memory.Holds home) :=
      fun hs => hc ⟨hs.1,(h.holds home).mpr hs.2⟩
    rw [Draft.view_mapping_other hc,Draft.view_mapping_other hstart]
    exact h.mapping home

/-- The elements of a value are those that it had, and placeholders. -/
theorem mem_elements (h : d.Counted x s start) (hw : w ∈ (v.elements? (d.view s)).getD []) :
    w ∈ (v.elements? (start.view s)).getD [] ∨ ∃ n, w = .text (s.placeholderName n) := by
  cases v with
  | shared home =>
    have hkeys : w ∈ ((d.view s).mapping home).keys := hw
    rcases h.mapping_view home with hm | hm
    · rw [hm] at hkeys
      exact .inl hkeys
    · exact .inr (h.mem_keys (hm w hkeys))
  | stream n =>
    simp only [Value.elements?,Value.text?,Value.sequence?,Value.entries?,Value.fields?,Draft.view_stream] at hw ⊢
    exact .inl (h.stream n w hw)
  | query n =>
    have hfields : (d.view s).fields n = (start.view s).fields n := by
      rw [Draft.view_fields,Draft.view_fields]
      exact Memory.fields_of_query (h.query n)
    simp only [Value.elements?,Value.text?,Value.sequence?,Value.entries?,Value.fields?,hfields] at hw ⊢
    exact .inl hw
  | _ => exact .inl hw

end Draft.Counted

structure Setting.Calm (A : Char → Prop) (x : Extent) (s : Setting) : Prop where
  names : ∀ n, IsName A (s.placeholderName n)
  closed : ∀ n, ')' ∉ (s.placeholderName n).toList
  separator : '%' ∉ s.separator.toList
  quotes : s.dialect.quote.isSome
  paren : ¬ A '('
  expressions : ∀ sql params, ¬ x.value (.expression sql params)

theorem Setting.Calm.not_mem {name : String} (hs : s.Calm A x) (h : IsName A name) : '(' ∉ name.toList :=
  fun hc => hs.paren (h _ hc)

/-- Placeholders end in a digit. -/
theorem Setting.isDigit_last (s : Setting) (n : Nat) : ∀ c ∈ (s.placeholderName n).toList.getLast?, c.isDigit := by
  have hne : (Number.writeInt n).toList ≠ [] := by
    rw [Number.writeInt_natCast,String.toList_ofList]
    exact Nat.toDigits_ne_nil
  intro c hc
  rw [placeholderName,String.toList_append,List.getLast?_append_of_ne_nil _ hne] at hc
  exact Number.isDigit_of_mem_writeInt (List.mem_of_getLast? hc)

/-! ### What is tame at the start stays so -/

namespace Value

theorem Nameable.counted (h : v.Nameable A (start.view s)) (hd : d.Counted x s start) (hs : s.Calm A x) :
    v.Nameable A (d.view s) := by
  unfold Nameable at h ⊢
  split
  · next name hn => simpa only [hn] using h
  · next hn =>
    simp only [hn] at h
    intro w hw
    rcases hd.mem_elements hw with hw | ⟨n,rfl⟩
    · exact h w hw
    · intro ht
      rw [text?,Option.some.injEq] at ht
      exact hs.not_mem (hs.names n) (by simp [ht])

end Value

theorem Condition.Wordless.counted (h : Condition.Wordless A (start.view s) v) (hd : d.Counted x s start)
    (hs : s.Calm A x) : Condition.Wordless A (d.view s) v where
  text := h.text
  raw := h.raw
  columns := h.columns
  keys hv key hk name hr := by
    rcases hd.mem_elements hk with hk | ⟨n,rfl⟩
    · exact h.keys hv key hk name hr
    · cases hr
      exact hs.names n

namespace Record
variable {m' : Memory} {es : Entries}

/-- A join has no other keys than its own, however values are shown. -/
theorem join_eq_ok (h : join m es = .ok v) : join m' es = .ok v := by
  have hknown : ∀ known : List String, es.unknown m known = [] → es.unknown m' known = [] := by
    intro known hnil
    unfold Entries.unknown at hnil ⊢
    rw [List.filterMap_eq_nil_iff,List.forall_mem_map] at hnil ⊢
    intro key hkey
    have hk := hnil key hkey
    cases ht : key.text? with
    | none => simp [ht] at hk
    | some name => simpa [ht,Value.reportedName] using hk
  unfold join Checked.ofFields at h ⊢
  dsimp only at h ⊢
  split at h
  · next a unknown hresult hnil =>
    rw [hresult,hknown _ hnil]
    exact h
  · cases h

end Record

/-- What is a join on the way was it at the start: a collection of placeholders alone is none. -/
theorem Join.ofValue?_counted {j : Join} (hd : d.Counted x s start) (h : ofValue? (d.view s) v = some j) :
    ofValue? (start.view s) v = some j := by
  have hentries : ∀ es es' : Entries, (es = es' ∨ ∀ k ∈ es.keys, k ∈ d.bindings.keys) →
      ofValue? (d.view s) (.mapping es) = some j → ofValue? (start.view s) (.mapping es') = some j := by
    intro es es' hes h
    unfold ofValue? at h ⊢
    simp only [Value.entries?,Option.map_some] at h ⊢
    split at h
    · next keyword table on hjoin =>
      have hok : Record.join (start.view s) es = .ok (.join keyword table on) := Record.join_eq_ok (Option.some.inj hjoin)
      rcases hes with rfl | hkeys
      · rw [hok]
        exact h
      · have htype : es.field? "type" = none := by
          rw [Option.eq_none_iff_forall_ne_some]
          intro w hw
          obtain ⟨e,he,ht,-⟩ := Entries.mem_of_field? hw
          obtain ⟨n,hn⟩ := hd.mem_keys (hkeys e.1 (List.mem_map_of_mem he))
          rw [hn,Value.text?,Option.some.injEq] at ht
          have hdigit := s.isDigit_last n
          rw [ht] at hdigit
          exact absurd (hdigit 'e' rfl) (by decide)
        have hr := Checked.eq_of_ofFields (Option.some.inj hjoin)
        simp [htype] at hr
    · cases h
  cases v with
  | mapping es => exact hentries es es (.inl rfl) h
  | shared home => exact hentries _ _ (hd.mapping_view home) h
  | join keyword table on => exact h
  | list items => exact h
  | tuple items => exact h
  | _ => cases h

end SqlCompose
