import SqlCompose.Proofs.JsonValues
import SqlCompose.Proofs.ReadingBounds
import SqlCompose.Proofs.Uniqueness

/-! # Queries that are read

Where the mapping that a query is read from leads to no stream and to no query, reading adds queries to the memory and
changes nothing that was there, and what the new queries hold again leads to none.
-/
namespace SqlCompose
open Relation

variable {m m' : Memory} {v p : Value} {es : Entries}

/-! ## Values that lead nowhere -/

def Value.Inert (m : Memory) (v : Value) : Prop :=
  ∀ w, v.Reaches m w → (∀ n, w ≠ .stream n) ∧ ∀ c, w = .query c → m.queries.size ≤ c

namespace Value.Inert

theorem part (h : v.Inert m) (hp : p ∈ v.parts m) : p.Inert m := fun w hw => h w (.head hp hw)

theorem ne_stream (h : v.Inert m) (n : Nat) : v ≠ .stream n := (h v .refl).1 n

theorem size_le {c : Nat} (h : (Value.query c).Inert m) : m.queries.size ≤ c := (h _ .refl).2 c rfl

theorem of_parts (hs : ∀ n, v ≠ .stream n) (hq : ∀ c, v = .query c → m.queries.size ≤ c)
    (hp : ∀ p ∈ v.parts m, p.Inert m) : v.Inert m := by
  intro w hw
  rcases ReflTransGen.cases_head hw with rfl | ⟨p,hpart,hw⟩
  · exact ⟨hs,hq⟩
  · exact hp p hpart w hw

theorem null : Value.null.Inert m := of_parts nofun nofun nofun

theorem bool (b : Bool) : (Value.bool b).Inert m := of_parts nofun nofun nofun

theorem int (n : Int) : (Value.int n).Inert m := of_parts nofun nofun nofun

theorem text (t : String) : (Value.text t).Inert m := by
  intro w hw
  obtain ⟨u,rfl⟩ := hw.isText
  exact ⟨nofun,nofun⟩

theorem direction (d : Direction) : (Value.direction d).Inert m := by
  refine of_parts nofun nofun (fun p hp => ?_)
  have hchars : p ∈ ofChars d.token := by
    simpa [parts,elements?,text?,entries?,fields?,Entries.values] using hp
  obtain ⟨c,-,rfl⟩ := List.mem_map.mp hchars
  exact text _

theorem list {items : List Value} (h : ∀ v ∈ items, v.Inert m) : (Value.list items).Inert m := by
  refine of_parts nofun nofun (fun p hp => h p ?_)
  simpa [parts,elements?,text?,sequence?,entries?,fields?,Entries.values] using hp

theorem mapping (h : ∀ e ∈ es, e.1.Inert m ∧ e.2.Inert m) : (Value.mapping es).Inert m := by
  refine of_parts nofun nofun (fun p hp => ?_)
  have hp : p ∈ es.keys ++ es.values := by
    simpa [parts,elements?,text?,sequence?,entries?,fields?] using hp
  rcases List.mem_append.mp hp with hp | hp
  · obtain ⟨e,he,rfl⟩ := List.mem_map.mp hp
    exact (h e he).1
  · obtain ⟨e,he,rfl⟩ := List.mem_map.mp hp
    exact (h e he).2

theorem ofField {f : String × Value} (h : f.2.Inert m) : (Value.ofField f).Inert m := by
  refine of_parts nofun nofun (fun p hp => ?_)
  have hp : p = .text f.1 ∨ p = f.2 := by
    simpa [Value.ofField,parts,elements?,text?,sequence?,entries?,fields?,Entries.values] using hp
  rcases hp with rfl | rfl
  · exact text _
  · exact h

theorem expression {sql : String} {params : Entries} (h : ∀ e ∈ params, e.1.Inert m ∧ e.2.Inert m) :
    (Value.expression sql params).Inert m := by
  have hfields : ∀ f ∈ [("text",Value.text sql),("params",.mapping params)], f.2.Inert m := by
    simp [text,mapping h]
  refine of_parts nofun nofun (fun p hp => ?_)
  simp only [parts,elements?,text?,sequence?,entries?,fields?,Option.map_none,Option.none_or,Option.map_some,
    Option.getD_some,Option.getD_none,Entries.values,List.map_nil,List.append_nil] at hp
  rcases List.mem_append.mp hp with hp | hp
  · obtain ⟨f,hf,rfl⟩ := List.mem_map.mp hp
    exact ofField (hfields f hf)
  · obtain ⟨f,hf,rfl⟩ := List.mem_map.mp hp
    exact hfields f hf

/-- The parameters of a query that is still to come. -/
theorem shared {c : Nat} (hc : m.queries.size ≤ c) : (Value.shared (.query c)).Inert m := by
  refine of_parts nofun nofun (fun p hp => ?_)
  have hempty : m.mapping (.query c) = [] := Memory.mapping_of_not_holds (Nat.not_lt.mpr hc)
  rw [Value.parts_shared,hempty] at hp
  cases hp

end Value.Inert

/-- Whether all that a memory held is as it was. There may be new queries. -/
structure Memory.Keeps (m m' : Memory) : Prop where
  stream : ∀ n, m'.stream n = m.stream n
  mapping : ∀ n, m'.mapping (.cell n) = m.mapping (.cell n)
  query : ∀ c < m.queries.size, m'.query c = m.query c

structure Query.Inert (m : Memory) (q : Query) : Prop where
  fields : ∀ f ∈ q.fields .null, f.2.Inert m
  params : ∀ e ∈ q.params, e.1.Inert m ∧ e.2.Inert m
  home : q.home = none

structure Memory.Grown (m m' : Memory) : Prop extends m.Keeps m' where
  size : m.queries.size ≤ m'.queries.size
  fresh : ∀ c, m.queries.size ≤ c → (m'.query c).Inert m

/-- The fields of a query are its clauses and its parameters. -/
theorem Memory.mem_fields {c : Nat} {f : String × Value} (h : f ∈ m.fields c) :
    f ∈ (m.query c).fields .null ∨ f.2 = .shared (m.home c) := by
  simp only [fields,Query.fields,List.mem_cons,List.not_mem_nil,or_false] at h
  simp only [Query.fields,List.mem_cons,List.not_mem_nil,or_false]
  rcases h with h | h | h | h | h | h | h | h | h | h | h | h | rfl
  all_goals first | exact .inr rfl | exact .inl (by simp [h])

theorem Value.mem_parts_query {c : Nat} (h : p ∈ (Value.query c).parts m) :
    ∃ f ∈ m.fields c, p = ofField f ∨ p = f.2 := by
  simp only [parts,elements?,text?,sequence?,entries?,fields?,Option.map_none,Option.none_or,Option.map_some,
    Option.getD_some,Option.getD_none,Entries.values,List.map_nil,List.append_nil] at h
  rcases List.mem_append.mp h with h | h
  · obtain ⟨f,hf,rfl⟩ := List.mem_map.mp h
    exact ⟨f,hf,.inl rfl⟩
  · obtain ⟨f,hf,rfl⟩ := List.mem_map.mp h
    exact ⟨f,hf,.inr rfl⟩

/-- A query with such clauses that is still to come leads nowhere, and neither does any part of it. -/
theorem Query.Inert.part {c : Nat} (h : (m'.query c).Inert m) (hc : m.queries.size ≤ c)
    (hp : p ∈ (Value.query c).parts m') : p.Inert m := by
  obtain ⟨f,hf,hp⟩ := Value.mem_parts_query hp
  have hv : f.2.Inert m := by
    rcases Memory.mem_fields hf with hf | hf
    · exact h.fields f hf
    · rw [hf,Memory.home_of_none h.home]
      exact .shared hc
  rcases hp with rfl | rfl
  · exact .ofField hv
  · exact hv

theorem Query.inert_default : Query.Inert m {} where
  fields f hf := by
    simp only [Query.fields,List.mem_cons,List.not_mem_nil,or_false] at hf
    rcases hf with rfl | rfl | rfl | rfl | rfl | rfl | rfl | rfl | rfl | rfl | rfl | rfl | rfl
    all_goals first | exact .null | exact .bool _ | exact .list (by simp) | exact .mapping (by simp)
  params := by simp
  home := rfl

theorem Memory.inert_query {c : Nat} (hc : m.queries.size ≤ c) : (m.query c).Inert m := by
  have hnone : m.query c = {} := by
    simp [query,Array.getD_eq_getD_getElem?,hc]
  rw [hnone]
  exact Query.inert_default

theorem Value.Inert.query {c : Nat} (hc : m.queries.size ≤ c) : (Value.query c).Inert m := by
  refine of_parts nofun ?_ (fun p hp => (Memory.inert_query hc).part hc hp)
  rintro _ ⟨⟩
  exact hc

namespace Memory.Grown

theorem refl (m : Memory) : m.Grown m where
  stream _ := rfl
  mapping _ := rfl
  query _ _ := rfl
  size := Nat.le_refl _
  fresh _ hc := inert_query hc

theorem addQuery (h : m.Grown m') {q : Query} (hq : q.Inert m) : m.Grown (m'.addQuery q).2 := by
  have hsize := h.size
  refine ⟨⟨h.stream,h.mapping,fun c hc => ?_⟩,?_,fun c hc => ?_⟩
  · have hne : c ≠ m'.queries.size := by omega
    rw [query_addQuery,if_neg hne]
    exact h.query c hc
  · simp only [Memory.addQuery,Array.size_push]
    omega
  · rw [query_addQuery]
    split
    · exact hq
    · exact h.fresh c hc

/-- What leads nowhere in the old memory has parts in the new one that lead nowhere. -/
theorem part (h : m.Grown m') (hv : v.Inert m) (hp : p ∈ v.parts m') : p.Inert m := by
  cases v with
  | stream n => exact absurd rfl (hv.ne_stream n)
  | shared home =>
    by_cases hold : m'.mapping home = m.mapping home
    · rw [Value.parts_shared,hold,← Value.parts_shared] at hp
      exact hv.part hp
    · cases home with
      | cell n => exact absurd (h.mapping n) hold
      | query c =>
        have hc : m.queries.size ≤ c := by
          by_contra hlt
          exact hold (congrArg Query.params (h.query c (Nat.not_le.mp hlt)))
        rw [Value.parts_shared] at hp
        rcases List.mem_append.mp hp with hp | hp
        · obtain ⟨e,he,rfl⟩ := List.mem_map.mp hp
          exact ((h.fresh c hc).params e he).1
        · obtain ⟨e,he,rfl⟩ := List.mem_map.mp hp
          exact ((h.fresh c hc).params e he).2
  | query c => exact (h.fresh c hv.size_le).part hv.size_le hp
  | _ => exact hv.part hp

end Memory.Grown

/-! ## Readings that only add queries -/

namespace Query

end Query

end SqlCompose
