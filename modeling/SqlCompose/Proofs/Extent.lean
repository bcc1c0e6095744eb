import SqlCompose.Proofs.Cells
import SqlCompose.Proofs.Entries
import SqlCompose.Proofs.Run

/-! # What a statement comes upon

A statement reads values that others hold: what a list lists, what stands under a key, what a stream has left, the
clauses of a query. An extent bounds all of this from outside. While a statement is composed its draft changes by
five kinds of step only, and none of them leads out of an extent that covers the draft.
-/
namespace SqlCompose
open Relation

/-- The values, the queries to be written and the members to be merged that a statement may come upon. -/
structure Extent where
  value : Value → Prop
  query : Nat → Prop
  member : Nat → Prop
  null : value .null
  text : ∀ t, value (.text t)
  int : ∀ n, value (.int n)

def Extent.Has (x : Extent) (es : Entries) : Prop := ∀ e ∈ es, x.value e.1 ∧ x.value e.2

namespace Extent
variable {x : Extent} {s : Setting} {d e : Draft} {v p : Value} {es : Entries}

theorem has_put (h : x.Has es) {k v : Value} (hk : x.value k) (hv : x.value v) : x.Has (Entries.put k v es) :=
  Entries.forall_put (fun _ _ he hf _ => ⟨he.1,hf.2⟩) h ⟨hk,hv⟩

theorem has_merge {more : Entries} (h : x.Has es) (hm : x.Has more) : x.Has (Entries.merge es more) :=
  Entries.forall_merge (fun _ _ he hf _ => ⟨he.1,hf.2⟩) h hm

/-- Whether what a draft gives from inside an extent is inside. -/
structure Covers (x : Extent) (s : Setting) (d : Draft) : Prop where
  parts : ∀ v, x.value v → ∀ p ∈ v.parts (d.view s), x.value p
  own : ∀ home, s.collection = .shared home → x.value (.shared home) → x.Has d.bindings
  clauses : ∀ c, x.query c → ∀ f ∈ (d.memory.query c).fields .null, x.value f.2
  members : ∀ c, x.query c → ∀ c', .query c' ∈ (d.memory.query c).members → x.query c' ∧ x.member c'
  merged : ∀ c, x.member c → x.Has ((d.view s).params c) ∧ x.Has d.bindings

/-- The changes that a draft undergoes while a statement is composed. -/
inductive Step (x : Extent) (s : Setting) : Draft → Draft → Prop where
  /-- A value is bound. -/
  | bind (d : Draft) {v : Value} (h : x.value v) : Step x s d (d.bound s v)
  /-- An expression brings its bindings. -/
  | adopt (d : Draft) {sql : String} {params : Entries} (h : x.value (.expression sql params)) :
    Step x s d (d.adopted params)
  /-- A member brings its bindings. -/
  | take (d : Draft) {c : Nat} (h : x.member c) : Step x s d (d.adopted ((d.view s).params c))
  /-- A member is given all bindings so far. -/
  | hand (d : Draft) {c : Nat} (h : x.member c) : Step x s d (Query.handed s c d)
  /-- A stream gives out some of its items. -/
  | drain (d : Draft) {cell : Nat} {items : List Value} (h : ∀ v ∈ items, v ∈ d.memory.stream cell) :
    Step x s d (d.drained cell items)

end Extent

namespace Draft
variable {s : Setting} {d : Draft} {home : Home}

theorem view_fields (s : Setting) (d : Draft) (n : Nat) : (d.view s).fields n = d.memory.fields n := by
  unfold view
  split
  · exact Memory.fields_setMapping _ _ _ _
  · rfl

/-- A draft shows queries as they are in memory, but for their parameters. -/
theorem query_view (s : Setting) (d : Draft) (n : Nat) : ∃ es, (d.view s).query n = { d.memory.query n with params := es } := by
  unfold view
  split
  · exact d.memory.query_setMapping _ _ _
  · exact ⟨_,rfl⟩

theorem view_stream (s : Setting) (d : Draft) (n : Nat) : (d.view s).stream n = d.memory.stream n := by
  unfold view
  split
  · exact Memory.stream_setMapping _ _ _ _
  · rfl

/-- The bindings show as the mapping that receives them. -/
theorem view_mapping_own (hc : s.collection = .shared home) (hh : d.memory.Holds home) :
    (d.view s).mapping home = d.bindings := by
  simp only [view,hc]
  exact Memory.mapping_setMapping_self hh

/-- All other mappings are as in memory. -/
theorem view_mapping_other (h : ¬ (s.collection = .shared home ∧ d.memory.Holds home)) :
    (d.view s).mapping home = d.memory.mapping home := by
  unfold view
  split
  · next other hc =>
    by_cases hh : d.memory.Holds other
    · have hn : home ≠ other := by
        rintro rfl
        exact h ⟨hc,hh⟩
      exact Memory.mapping_setMapping_of_ne hn
    · exact Memory.mapping_setMapping_of_not_holds hh
  · rfl

@[simp]
theorem view_home (s : Setting) (d : Draft) (n : Nat) : (d.view s).home n = d.memory.home n := by
  unfold view
  split
  · exact Memory.home_setMapping _ _ _ _
  · rfl

theorem view_params (s : Setting) (d : Draft) (n : Nat) :
    (d.view s).params n = (d.view s).mapping (d.memory.home n) := by
  rw [Memory.params,view_home]

/-- A shared mapping shows the bindings, or it shows what memory holds and did so before. -/
theorem view_mapping_cases {e : Draft} (hh : ∀ home, e.memory.Holds home ↔ d.memory.Holds home) (home : Home) :
    s.collection = .shared home ∧ (e.view s).mapping home = e.bindings ∨
      (d.view s).mapping home = d.memory.mapping home ∧ (e.view s).mapping home = e.memory.mapping home := by
  by_cases h : s.collection = .shared home ∧ d.memory.Holds home
  · exact .inl ⟨h.1,view_mapping_own h.1 ((hh home).mpr h.2)⟩
  · refine .inr ⟨view_mapping_other h,view_mapping_other ?_⟩
    rwa [hh home]

/-- A query's parameters show the bindings, or what memory holds of them. -/
theorem params_cases (s : Setting) (d : Draft) (n : Nat) :
    (d.view s).params n = d.bindings ∨ (d.view s).params n = d.memory.params n := by
  rw [view_params]
  exact (view_mapping_cases (fun _ => Iff.rfl) _).imp And.right And.right

/-- While memory stays, a query's parameters show the bindings or what they showed before. -/
theorem view_params_cases {e : Draft} (h : e.memory = d.memory) (n : Nat) :
    (e.view s).params n = e.bindings ∨ (e.view s).params n = (d.view s).params n := by
  rw [view_params,view_params,h]
  rcases view_mapping_cases (s := s) (d := d) (e := e) (fun _ => by rw [h]) (d.memory.home n) with ⟨-,he⟩ | ⟨hd,he⟩
  · exact .inl he
  · exact .inr (by rw [he,hd,h])

theorem mapping_drained (d : Draft) (cell : Nat) (items : List Value) (home : Home) :
    (d.drained cell items).memory.mapping home = d.memory.mapping home := by
  cases home <;> rfl

theorem holds_drained (d : Draft) (cell : Nat) (items : List Value) (home : Home) :
    (d.drained cell items).memory.Holds home ↔ d.memory.Holds home := by
  cases home <;> exact Iff.rfl

theorem mem_stream_drained {cell n : Nat} {items : List Value} {v : Value} (hi : ∀ v ∈ items, v ∈ d.memory.stream cell)
    (h : v ∈ (d.drained cell items).memory.stream n) : v ∈ d.memory.stream n := by
  simp only [drained,Memory.stream_setStream] at h
  split at h
  · next hn => exact hn.1 ▸ hi v h
  · exact h

end Draft

namespace Query

theorem query_handed (s : Setting) (c n : Nat) (d : Draft) :
    ∃ es, (handed s c d).memory.query n = { d.memory.query n with params := es } :=
  d.memory.query_setMapping _ _ _

theorem stream_handed (s : Setting) (c n : Nat) (d : Draft) :
    (handed s c d).memory.stream n = d.memory.stream n := d.memory.stream_setMapping _ _ _

theorem holds_handed (s : Setting) (c : Nat) (d : Draft) (home : Home) :
    (handed s c d).memory.Holds home ↔ d.memory.Holds home := d.memory.holds_setMapping _ _ _

/-- All mappings stay but the parameters of the query. -/
theorem mapping_handed_cases (s : Setting) (c : Nat) (d : Draft) (home : Home) :
    (handed s c d).memory.mapping home = d.memory.mapping home ∨
      home = d.memory.home c ∧
        (handed s c d).memory.mapping home = Entries.merge ((d.view s).params c) d.bindings := by
  by_cases hh : d.memory.Holds (d.memory.home c)
  · by_cases h : home = d.memory.home c
    · subst h
      exact .inr ⟨rfl,Memory.mapping_setMapping_self hh⟩
    · exact .inl (Memory.mapping_setMapping_of_ne h)
  · exact .inl (Memory.mapping_setMapping_of_not_holds hh)

end Query

namespace Extent
variable {x : Extent} {s : Setting} {d e : Draft}

theorem Covers.elements (h : x.Covers s d) {v : Value} {items : List Value} (hx : x.value v)
    (hi : v.elements? (d.view s) = some items) : ∀ p ∈ items, x.value p :=
  fun p hp => h.parts v hx p (Value.mem_parts_of_elements hi hp)

theorem Covers.entries (h : x.Covers s d) {v : Value} {es : Entries} (hx : x.value v)
    (he : v.entries? (d.view s) = some es) : x.Has es := by
  intro e hm
  have hp := Value.mem_parts_of_entries he hm
  exact ⟨h.parts v hx _ hp.1,h.parts v hx _ hp.2⟩

theorem Covers.fields (h : x.Covers s d) {v : Value} {fs : List (String × Value)} (hx : x.value v)
    (hf : v.fields? (d.view s) = some fs) : ∀ f ∈ fs, x.value f.2 :=
  fun _ hm => h.parts v hx _ (Value.mem_parts_of_fields hf hm)

theorem Covers.mapping (h : x.Covers s d) {home : Home} (hx : x.value (.shared home)) :
    x.Has ((d.view s).mapping home) := h.entries hx rfl

/-- A draft stays covered if the clauses of all queries stay, streams get no new items, and mappings only entries
from inside. -/
theorem Covers.change (h : x.Covers s d) (hq : ∀ n, ∃ es, e.memory.query n = { d.memory.query n with params := es })
    (hs : ∀ n, ∀ v ∈ e.memory.stream n, v ∈ d.memory.stream n)
    (hh : ∀ home, e.memory.Holds home ↔ d.memory.Holds home)
    (hm : ∀ home, e.memory.mapping home = d.memory.mapping home ∨ x.Has (e.memory.mapping home))
    (hb : x.Has d.bindings → x.Has e.bindings) : x.Covers s e := by
  have hown : ∀ home, s.collection = .shared home → x.value (.shared home) → x.Has e.bindings :=
    fun home hc hx => hb (h.own home hc hx)
  -- what a mapping shows after the change is inside, if the bindings are and what it showed before is
  have hshown : ∀ home, (s.collection = .shared home → x.Has e.bindings) →
      x.Has ((d.view s).mapping home) → x.Has ((e.view s).mapping home) := by
    intro home hbound hx
    rcases Draft.view_mapping_cases hh home with ⟨hc,he⟩ | ⟨hd,he⟩
    · rw [he]
      exact hbound hc
    · rw [he]
      rcases hm home with hm | hm
      · rwa [hm,← hd]
      · exact hm
  refine ⟨?_,hown,?_,?_,?_⟩
  · intro v hx p hp
    have hsplit : p ∈ v.parts (d.view s) ∨ x.value p := by
      refine Memory.parts_of_agree ?_ ?_ ?_ hp
      · intro n
        rw [Draft.view_fields,Draft.view_fields]
        exact Memory.fields_of_query (hq n)
      · intro n q hq
        rw [Draft.view_stream] at hq ⊢
        exact hs n q hq
      · intro home hv
        right
        subst hv
        exact hshown home (fun hc => hown home hc hx) (h.mapping hx)
    rcases hsplit with hp | hp
    · exact h.parts v hx p hp
    · exact hp
  · intro c hc f hf
    obtain ⟨es,hn⟩ := hq c
    rw [hn] at hf
    exact h.clauses c hc f hf
  · intro c hc c' hc'
    obtain ⟨es,hn⟩ := hq c
    rw [hn] at hc'
    exact h.members c hc c' hc'
  · intro c hc
    obtain ⟨hp,hd⟩ := h.merged c hc
    rw [Draft.view_params] at hp ⊢
    rw [Memory.home_of_query (hq c)]
    exact ⟨hshown _ (fun _ => hb hd) hp,hb hd⟩

/-- New bindings keep a draft covered. -/
theorem Covers.of_bindings (h : x.Covers s d) (he : e.memory = d.memory) (hb : x.Has d.bindings → x.Has e.bindings) :
    x.Covers s e := by
  refine h.change ?_ ?_ ?_ ?_ hb
  · intro n
    exact ⟨(d.memory.query n).params,by rw [he]⟩
  · intro n v hv
    rwa [he] at hv
  · intro home
    rw [he]
  · intro home
    exact .inl (by rw [he])

/-- What has been bound may be handed to the parameters of a member. -/
theorem Covers.handed {c : Nat} (h : x.Covers s d) (hc : x.member c) : x.Covers s (Query.handed s c d) := by
  refine h.change (fun n => Query.query_handed s c n d) ?_ (Query.holds_handed s c d) ?_ id
  · intro n v hv
    rwa [Query.stream_handed] at hv
  intro home
  refine (Query.mapping_handed_cases s c d home).imp_right ?_
  rintro ⟨-,hm⟩
  rw [hm]
  exact has_merge (h.merged c hc).1 (h.merged c hc).2

/-- A stream may be left with fewer items. -/
theorem Covers.drained {cell : Nat} {items : List Value} (h : x.Covers s d)
    (hi : ∀ v ∈ items, v ∈ d.memory.stream cell) : x.Covers s (d.drained cell items) :=
  h.change (fun _ => ⟨_,rfl⟩) (fun _ _ hv => Draft.mem_stream_drained hi hv) (d.holds_drained cell items)
    (fun home => .inl (d.mapping_drained cell items home)) id

/-- No step leads out of an extent that covers the draft. -/
theorem Step.covers (st : x.Step s d e) (h : x.Covers s d) : x.Covers s e := by
  cases st with
  | bind hv => exact h.of_bindings rfl (fun hb => has_put hb (x.text _) hv)
  | @adopt sql params hv =>
    refine h.of_bindings rfl (fun hb => has_merge hb ?_)
    have hp : x.value (.mapping params) := h.fields hv rfl ("params",.mapping params) (by simp)
    exact h.entries hp rfl
  | take hc => exact h.of_bindings rfl (fun hb => has_merge hb (h.merged _ hc).1)
  | hand hc => exact h.handed hc
  | drain hi => exact h.drained hi

/-- Queries change in their parameters alone. -/
theorem Step.query (st : x.Step s d e) (n : Nat) :
    ∃ es, e.memory.query n = { d.memory.query n with params := es } := by
  cases st with
  | hand _ => exact Query.query_handed _ _ _ _
  | _ => exact ⟨_,rfl⟩

theorem Step.holds (st : x.Step s d e) (home : Home) : e.memory.Holds home ↔ d.memory.Holds home := by
  cases st with
  | hand _ => exact Query.holds_handed _ _ _ home
  | drain _ => exact d.holds_drained _ _ home
  | _ => exact Iff.rfl

/-- The only mappings that a step writes to are the parameters of members. -/
theorem Step.mapping (st : x.Step s d e) (home : Home) :
    e.memory.mapping home = d.memory.mapping home ∨ ∃ c, x.member c ∧ home = d.memory.home c ∧
      e.memory.mapping home = Entries.merge ((d.view s).params c) d.bindings := by
  cases st with
  | @hand c hc => exact (Query.mapping_handed_cases s c d home).imp_right (fun h => ⟨c,hc,h⟩)
  | drain _ => exact .inl (d.mapping_drained _ _ home)
  | _ => exact .inl rfl

/-- After a step a mapping shows the bindings, or what it showed before, or what a member was given. -/
theorem Step.shown (st : x.Step s d e) (home : Home) :
    s.collection = .shared home ∧ (e.view s).mapping home = e.bindings ∨
      (e.view s).mapping home = (d.view s).mapping home ∨
      ∃ c, x.member c ∧ home = d.memory.home c ∧
        (e.view s).mapping home = Entries.merge ((d.view s).params c) d.bindings := by
  refine (Draft.view_mapping_cases st.holds home).imp_right ?_
  rintro ⟨hd,he⟩
  rw [he,hd]
  exact st.mapping home

/-- What holds of the bindings and of some mappings, the members' parameters among them, holds after a step too, if
binding and merging keep it. -/
theorem Step.mappings {P : Entries → Prop} {H : Home → Prop} (hbound : ∀ v, P d.bindings → P (d.bound s v).bindings)
    (hmerge : ∀ {es more : Entries}, P es → P more → P (es.merge more))
    (hx : ∀ sql (params : Entries), x.value (.expression sql params) → P params) (st : x.Step s d e)
    (hH : ∀ c, x.member c → H (d.memory.home c)) (hb : P d.bindings) (hm : ∀ home, H home → P ((d.view s).mapping home)) :
    P e.bindings ∧ ∀ home, H home → P ((e.view s).mapping home) := by
  have hmember : ∀ c, x.member c → P ((d.view s).params c) := by
    intro c hc
    rw [Draft.view_params]
    exact hm _ (hH c hc)
  have he : P e.bindings := by
    cases st with
    | bind _ => exact hbound _ hb
    | adopt hv => exact hmerge hb (hx _ _ hv)
    | take hc => exact hmerge hb (hmember _ hc)
    | hand _ => exact hb
    | drain _ => exact hb
  refine ⟨he,fun home hh => ?_⟩
  rcases st.shown home with ⟨-,h⟩ | h | ⟨c,hc,-,h⟩ <;> rw [h]
  · exact he
  · exact hm home hh
  · exact hmerge (hmember c hc) hb

/-- What holds of all collections that a statement merges holds after a step too, if binding and merging keep it. -/
theorem Step.collections {P : Entries → Prop} (hbound : ∀ v, P d.bindings → P (d.bound s v).bindings)
    (hmerge : ∀ {es more : Entries}, P es → P more → P (es.merge more))
    (hx : ∀ sql (params : Entries), x.value (.expression sql params) → P params) (st : x.Step s d e)
    (hb : P d.bindings) (hm : ∀ c, x.member c → P ((d.view s).params c)) :
    P e.bindings ∧ ∀ c, x.member c → P ((e.view s).params c) := by
  have hhomes : ∀ home, (∃ c, x.member c ∧ d.memory.home c = home) → P ((d.view s).mapping home) := by
    rintro _ ⟨c,hc,rfl⟩
    rw [← Draft.view_params]
    exact hm c hc
  obtain ⟨he,hmappings⟩ := st.mappings hbound hmerge hx (fun c hc => ⟨c,hc,rfl⟩) hb hhomes
  refine ⟨he,fun c hc => ?_⟩
  rw [Draft.view_params,Memory.home_of_query (st.query c)]
  exact hmappings _ ⟨c,hc,rfl⟩

/-- What every step keeps is kept by a run. -/
theorem keep_steps {P : Draft → Prop} (hstep : ∀ d e, x.Step s d e → P d → P e) (st : ReflTransGen (x.Step s) d e)
    (h : P d) : P e := by
  induction st with
  | refl => exact h
  | tail _ st ih => exact hstep _ _ st ih

theorem covers_of_steps (st : ReflTransGen (x.Step s) d e) (h : x.Covers s d) : x.Covers s e :=
  keep_steps (fun _ _ st h => st.covers h) st h

theorem query_of_steps (st : ReflTransGen (x.Step s) d e) (n : Nat) :
    ∃ es, e.memory.query n = { d.memory.query n with params := es } := by
  refine keep_steps (P := fun e => ∃ es, e.memory.query n = { d.memory.query n with params := es }) ?_ st ⟨_,rfl⟩
  rintro b c st ⟨es,hb⟩
  obtain ⟨more,hc⟩ := st.query n
  exact ⟨more,by rw [hc,hb]⟩

theorem holds_of_steps (st : ReflTransGen (x.Step s) d e) (home : Home) :
    e.memory.Holds home ↔ d.memory.Holds home :=
  keep_steps (P := fun e => e.memory.Holds home ↔ d.memory.Holds home) (fun _ _ st h => (st.holds home).trans h) st
    Iff.rfl

/-- All queries keep their parameters where they are. -/
theorem home_of_steps (st : ReflTransGen (x.Step s) d e) (n : Nat) : e.memory.home n = d.memory.home n :=
  Memory.home_of_query (query_of_steps st n)

/-- A mapping in which no member keeps its parameters stays. -/
theorem mapping_of_steps {home : Home} (h : ∀ c, x.member c → d.memory.home c ≠ home)
    (st : ReflTransGen (x.Step s) d e) : e.memory.mapping home = d.memory.mapping home := by
  induction st with
  | refl => rfl
  | tail st st' ih =>
    rcases st'.mapping home with hm | ⟨c,hc,hhome,-⟩
    · exact hm.trans ih
    · rw [home_of_steps st] at hhome
      exact absurd hhome.symm (h c hc)

end Extent

end SqlCompose
