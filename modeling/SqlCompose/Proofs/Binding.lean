import SqlCompose.Proofs.Expressions
import SqlCompose.Proofs.LiteralPlaces
import SqlCompose.Proofs.Uniqueness

/-! # Binding

If no name that comes in from outside is a number behind the stem, every placeholder is new when it is given out,
whatever expressions and members bring along, and a member may have been handed the bindings before it brings them
back. All that stands in the collection in the end can be traced to where it came from.
-/
namespace SqlCompose
open Relation

def Entries.Stands (es : Entries) (t : String) (w : Value) : Prop := ∃ e ∈ es, e.1.text? = some t ∧ e.2 = w

namespace Entries
variable {es : Entries} {t : String} {w : Value}

theorem Stands.mem_names (h : es.Stands t w) : t ∈ es.names := by
  obtain ⟨e,he,ht,-⟩ := h
  exact Entries.mem_names.mpr ⟨e,he,ht⟩

end Entries

variable {x : Extent} {s : Setting} {m : Memory} {r : Request} {start d e : Draft} {t : String} {v w : Value}

inductive Carried (x : Extent) (start : Draft) (t : String) (w : Value) : Prop where
  | expression {sql : String} {params : Entries} (hx : x.value (.expression sql params)) (h : params.Stands t w)
  | member {c : Nat} (hx : x.member c) (h : (start.memory.params c).Stands t w)

/-- Where what stands under a name has come from: it was there at the start, it was bound, or it was carried in. -/
inductive Origin (x : Extent) (start : Draft) (given : List (String × Value)) (t : String) (w : Value) : Prop where
  | start (h : start.bindings.Stands t w)
  | bound (h : (t,w) ∈ given)
  | carried (h : Carried x start t w)

def Traced (x : Extent) (start : Draft) (given : List (String × Value)) (e : Value × Value) : Prop :=
  ∀ t, e.1.text? = some t → Origin x start given t e.2

variable {given more : List (String × Value)}

theorem traced_same {e f : Value × Value} (_ : Traced x start given e) (hf : Traced x start given f)
    (h : e.1.same f.1) : Traced x start given (e.1,f.2) := by
  intro t ht
  exact hf t ((Value.text?_of_same h).symm.trans ht)

/-- No name that comes in is a number behind the stem. -/
structure Unnumbered (x : Extent) (s : Setting) (start : Draft) : Prop where
  collection : ∀ n, s.placeholderName n ∉ start.bindings.names
  expression : ∀ sql (params : Entries), x.value (.expression sql params) → ∀ n, s.placeholderName n ∉ params.names
  member : ∀ c, x.member c → ∀ n, s.placeholderName n ∉ (start.memory.params c).names

structure Uncounted (x : Extent) (s : Setting) (start : Draft) : Prop where
  collection : ∀ n, start.bindings.length ≤ n → s.placeholderName n ∉ start.bindings.names
  expression : ∀ sql (params : Entries), x.value (.expression sql params) →
    ∀ n, start.bindings.length ≤ n → s.placeholderName n ∉ params.names
  member : ∀ c, x.member c → ∀ n, start.bindings.length ≤ n →
    s.placeholderName n ∉ (start.memory.params c).names

theorem Unnumbered.uncounted (hu : Unnumbered x s start) : Uncounted x s start where
  collection n _ := hu.collection n
  expression sql params hx n _ := hu.expression sql params hx n
  member c hx n _ := hu.member c hx n

theorem Uncounted.not_carried (hu : Uncounted x s start) {n : Nat} (hn : start.bindings.length ≤ n) :
    ¬ Carried x start (s.placeholderName n) w := by
  rintro (⟨hx,h⟩ | ⟨hx,h⟩)
  · exact hu.expression _ _ hx n hn h.mem_names
  · exact hu.member _ hx n hn h.mem_names

/-- What holds of every draft on the way: names are traced, and placeholders are counted strictly upward. -/
structure Sound (x : Extent) (s : Setting) (start d : Draft) : Prop where
  bindings : ∀ e ∈ d.bindings, Traced x start d.given e
  members : ∀ c, x.member c → ∀ e ∈ (d.view s).params c, Traced x start d.given e
  held : ∀ g ∈ d.given, g.1 ∈ d.bindings.names
  grown : start.bindings.length ≤ d.bindings.length
  numbers : ∃ ns : List Nat, d.placeholders = ns.map s.placeholderName ∧ ns.Pairwise (· < ·) ∧
    ∀ n ∈ ns, start.bindings.length ≤ n ∧ n < d.bindings.length

theorem Origin.mono (h : Origin x start given t w) (hg : ∀ g ∈ given, g ∈ more) : Origin x start more t w := by
  cases h with
  | start h => exact .start h
  | bound h => exact .bound (hg _ h)
  | carried h => exact .carried h

theorem Traced.mono {b : Value × Value} (h : Traced x start given b) (hg : ∀ g ∈ given, g ∈ more) :
    Traced x start more b :=
  fun t ht => (h t ht).mono hg

namespace Sound

theorem initial (hg : start.given = []) : Sound x s start start where
  bindings e he _ ht := .start ⟨e,he,ht,rfl⟩
  members c hc e he t ht := by
    rcases start.params_cases s c with h | h <;> rw [h] at he
    · exact .start ⟨e,he,ht,rfl⟩
    · exact .carried (.member hc ⟨e,he,ht,rfl⟩)
  held := by simp [hg]
  grown := Nat.le_refl _
  numbers := ⟨[],by simp [Draft.placeholders,hg],.nil,by simp⟩

/-- A number behind the stem that was still to be counted stands only for what was bound to it. -/
theorem given_of_origin {n : Nat} (hu : Uncounted x s start) (hn : start.bindings.length ≤ n)
    (h : Origin x start given (s.placeholderName n) w) : (s.placeholderName n,w) ∈ given := by
  cases h with
  | start h => exact absurd h.mem_names (hu.collection n hn)
  | bound h => exact h
  | carried h => exact absurd h (hu.not_carried hn)

/-- The next placeholder is new. -/
theorem fresh (hu : Uncounted x s start) (h : Sound x s start d) : d.nextName s ∉ d.bindings.names := by
  intro hm
  obtain ⟨e,he,ht⟩ := Entries.mem_names.mp hm
  have hp : d.nextName s ∈ d.placeholders := List.mem_map_of_mem (given_of_origin hu h.grown (h.bindings e he _ ht))
  obtain ⟨ns,hns,-,hlt⟩ := h.numbers
  rw [hns] at hp
  obtain ⟨n,hn,heq⟩ := List.mem_map.mp hp
  have := (hlt n hn).2
  have := s.placeholderName_inj.mp heq
  omega

theorem bound (hu : Uncounted x s start) (h : Sound x s start d) : Sound x s start (d.bound s v) := by
  have hnew : (d.bound s v).bindings = d.bindings ++ [(.text (d.nextName s),v)] := Entries.put_of_not_mem (h.fresh hu)
  have hgiven : ∀ g ∈ d.given, g ∈ (d.bound s v).given := fun g hg => List.mem_append_left _ hg
  have hbindings : ∀ e ∈ (d.bound s v).bindings, Traced x start (d.bound s v).given e := by
    intro e he
    rw [hnew] at he
    rcases List.mem_append.mp he with he | he
    · exact (h.bindings e he).mono hgiven
    · rw [List.mem_singleton.mp he]
      rintro t ⟨⟩
      exact .bound (by simp [Draft.bound])
  refine ⟨hbindings,?_,?_,?_,?_⟩
  · intro c hc e he
    rcases Draft.view_params_cases (s := s) (d := d) (e := d.bound s v) rfl c with hp | hp <;> rw [hp] at he
    · exact hbindings e he
    · exact (h.members c hc e he).mono hgiven
  · intro g hg
    apply Entries.mem_names_put.mpr
    rcases List.mem_append.mp hg with hg | hg
    · exact .inr (h.held g hg)
    · rw [List.mem_singleton.mp hg]
      exact .inl rfl
  · exact Nat.le_trans h.grown Entries.length_le_put
  · obtain ⟨ns,hns,hlt,hb⟩ := h.numbers
    refine ⟨ns ++ [d.bindings.length],?_,?_,?_⟩
    · simp only [Draft.placeholders] at hns
      simp [Draft.placeholders,Draft.bound,hns,Draft.nextName]
    · refine List.pairwise_append.mpr ⟨hlt,List.pairwise_singleton _ _,?_⟩
      intro n hn k hk
      rw [List.mem_singleton.mp hk]
      exact (hb n hn).2
    · intro n hn
      have hlen : (d.bound s v).bindings.length = d.bindings.length + 1 := by simp [hnew]
      rw [hlen]
      rcases List.mem_append.mp hn with hn | hn
      · have := hb n hn
        omega
      · have := h.grown
        have := List.mem_singleton.mp hn
        omega

/-- Entries of known origin may be taken over. -/
theorem adopted {more : Entries} (h : Sound x s start d) (hm : ∀ e ∈ more, Traced x start d.given e) :
    Sound x s start (d.adopted more) := by
  have hbindings := Entries.forall_merge (fun e f => traced_same) h.bindings hm
  refine ⟨hbindings,?_,?_,?_,?_⟩
  · intro c hc e he
    rcases Draft.view_params_cases (s := s) (d := d) (e := d.adopted more) rfl c with hp | hp <;> rw [hp] at he
    · exact hbindings e he
    · exact h.members c hc e he
  · intro g hg
    exact Entries.mem_names_merge.mpr (.inl (h.held g hg))
  · exact Nat.le_trans h.grown Entries.length_le_merge
  · obtain ⟨ns,hns,hlt,hb⟩ := h.numbers
    exact ⟨ns,hns,hlt,fun n hn => ⟨(hb n hn).1,Nat.lt_of_lt_of_le (hb n hn).2 Entries.length_le_merge⟩⟩

theorem step (hu : Uncounted x s start) (st : x.Step s d e) (h : Sound x s start d) : Sound x s start e := by
  -- where no name is bound, members show what they showed, the bindings, or what one of them was given
  have hmembers : e.bindings = d.bindings → ∀ c, x.member c → ∀ b ∈ (e.view s).params c, Traced x start d.given b := by
    intro he c hc b hb
    have hd := h.members c hc b
    rw [Draft.view_params] at hb hd
    rw [Memory.home_of_query (st.query c)] at hb
    rcases st.shown (d.memory.home c) with ⟨-,hp⟩ | hp | ⟨c',hc',-,hp⟩ <;> rw [hp] at hb
    · exact h.bindings b (he ▸ hb)
    · exact hd hb
    · exact Entries.forall_merge (fun _ _ => traced_same) (h.members c' hc') h.bindings b hb
  cases st with
  | bind hv => exact h.bound hu
  | adopt hx => exact h.adopted (fun e he t ht => .carried (.expression hx ⟨e,he,ht,rfl⟩))
  | take hc => exact h.adopted (h.members _ hc)
  | hand hc => exact ⟨h.bindings,hmembers rfl,h.held,h.grown,h.numbers⟩
  | drain hi => exact ⟨h.bindings,hmembers rfl,h.held,h.grown,h.numbers⟩

theorem steps (hu : Uncounted x s start) (hg : start.given = []) (st : ReflTransGen (x.Step s) start d) :
    Sound x s start d :=
  Extent.keep_steps (fun _ _ st h => h.step hu st) st (initial hg)

/-- A placeholder stands for the value it was given out for. -/
theorem field?_of_given (hu : Uncounted x s start) (h : Sound x s start d) (hg : (t,w) ∈ d.given) :
    d.bindings.field? t = some w := by
  obtain ⟨ns,hns,hlt,hb⟩ := h.numbers
  have hnodup : d.placeholders.Nodup := by
    rw [hns]
    exact List.Nodup.map (fun _ _ => s.placeholderName_inj.mp) (hlt.imp Nat.ne_of_lt)
  have ht : t ∈ d.placeholders := List.mem_map_of_mem (f := (·.1)) hg
  rw [hns] at ht
  obtain ⟨n,hn,rfl⟩ := List.mem_map.mp ht
  obtain ⟨w',hw⟩ := Option.isSome_iff_exists.mp (Entries.isSome_field?.mpr (h.held _ hg))
  obtain ⟨e,he,ht,rfl⟩ := Entries.mem_of_field? hw
  have hg' := given_of_origin hu (hb n hn).1 (h.bindings e he _ ht)
  have := List.inj_on_of_nodup_map hnodup hg hg' rfl
  rw [hw,(Prod.mk.inj this).2]

end Sound

/-- No name gets lost. -/
theorem Extent.Step.names (st : x.Step s d e) (h : t ∈ d.bindings.names) : t ∈ e.bindings.names := by
  cases st with
  | bind _ => exact Entries.mem_names_put.mpr (.inr h)
  | adopt _ => exact Entries.mem_names_merge.mpr (.inl h)
  | take _ => exact Entries.mem_names_merge.mpr (.inl h)
  | hand _ => exact h
  | drain _ => exact h

theorem names_of_steps (st : ReflTransGen (x.Step s) start d) (h : t ∈ start.bindings.names) :
    t ∈ d.bindings.names :=
  Extent.keep_steps (P := fun e => t ∈ e.bindings.names) (fun _ _ st h => st.names h) st h

/-- `es` continues the collection at the start: a name stays, with its value unless that is carried in, and a new
name is numbered on from the size of the collection, or is carried in. -/
structure Continued (x : Extent) (s : Setting) (start : Draft) (es : Entries) : Prop where
  kept : ∀ t ∈ start.bindings.names, ∃ w, es.field? t = some w ∧ (start.bindings.Stands t w ∨ Carried x start t w)
  new : ∀ t ∈ es.names, t ∈ start.bindings.names ∨ (∃ n, start.bindings.length ≤ n ∧ t = s.placeholderName n) ∨
    ∃ w, Carried x start t w

theorem Sound.numbered_of_given (h : Sound x s start d) (hg : (t,w) ∈ d.given) :
    ∃ n, start.bindings.length ≤ n ∧ t = s.placeholderName n := by
  obtain ⟨ns,hns,-,hb⟩ := h.numbers
  have ht : t ∈ d.placeholders := List.mem_map_of_mem (f := (·.1)) hg
  rw [hns] at ht
  obtain ⟨n,hn,rfl⟩ := List.mem_map.mp ht
  exact ⟨n,(hb n hn).1,rfl⟩

/-- Wherever a statement has come to, its bindings continue the collection at the start. -/
theorem Sound.continued (hu : Uncounted x s start) (h : Sound x s start d)
    (hk : ∀ t ∈ start.bindings.names, t ∈ d.bindings.names) : Continued x s start d.bindings where
  kept t ht := by
    obtain ⟨w,hw⟩ := Option.isSome_iff_exists.mp (Entries.isSome_field?.mpr (hk t ht))
    refine ⟨w,hw,?_⟩
    obtain ⟨e,he,het,rfl⟩ := Entries.mem_of_field? hw
    cases h.bindings e he t het with
    | start hs => exact .inl hs
    | carried hc => exact .inr hc
    | bound hg =>
      obtain ⟨n,hn,rfl⟩ := h.numbered_of_given hg
      exact absurd ht (hu.collection n hn)
  new t ht := by
    obtain ⟨e,he,het⟩ := Entries.mem_names.mp ht
    cases h.bindings e he t het with
    | start hs => exact .inl hs.mem_names
    | bound hg => exact .inr (.inl (h.numbered_of_given hg))
    | carried hc => exact .inr (.inr ⟨_,hc⟩)

/-! ## Whole requests -/

namespace Request

def roots (m : Memory) : Request → List Value
  | .query cell => [.query cell]
  | r => r.params m :: r.operands m

def Joins (m : Memory) (c c' : Nat) : Prop := .query c' ∈ (m.query c).members

end Request

open Request (Joins start_view start_memory)

/-- Whether an extent has, with a value, its parts, and with a query its clauses and members. -/
structure Extent.Closed (x : Extent) (m : Memory) : Prop where
  parts : ∀ v, x.value v → ∀ p ∈ v.parts m, x.value p
  query : ∀ c, x.query c → x.value (.query c)
  member : ∀ c, x.member c → x.query c
  joined : ∀ c, x.query c → ∀ c', Joins m c c' → x.query c' ∧ x.member c'

namespace Extent.Closed

theorem entries {es : Entries} (h : x.Closed m) (hv : x.value v) (he : v.entries? m = some es) : x.Has es := by
  intro e hm
  have hp := Value.mem_parts_of_entries he hm
  exact ⟨h.parts v hv _ hp.1,h.parts v hv _ hp.2⟩

theorem fields {c : Nat} (h : x.Closed m) (hv : x.value (.query c)) : ∀ f ∈ m.fields c, x.value f.2 :=
  fun _ hf => h.parts _ hv _ (Value.mem_parts_of_fields rfl hf)

theorem clauses {c : Nat} (h : x.Closed m) (hq : x.query c) : ∀ f ∈ (m.query c).fields .null, x.value f.2 := by
  intro f hf
  by_cases hp : f.2 = .null
  · rw [hp]
    exact x.null
  · apply h.fields (h.query c hq) f
    simp only [Query.fields,List.mem_cons,List.not_mem_nil,or_false] at hf
    simp only [Memory.fields,Query.fields,List.mem_cons,List.not_mem_nil,or_false]
    rcases hf with hf | hf | hf | hf | hf | hf | hf | hf | hf | hf | hf | hf | hf
    all_goals first | exact absurd (congrArg Prod.snd hf) hp | simp [hf]

theorem params {c : Nat} (h : x.Closed m) (hq : x.query c) : x.Has (m.params c) := by
  have hshared := h.fields (h.query c hq) ("params",.shared (m.home c)) (by simp [Memory.fields,Query.fields])
  exact h.entries hshared rfl

/-- It covers the start of a request whose collection it has. -/
theorem covers (h : x.Closed m) (hs : s.collection = .own) (hb : x.Has (r.start s m).bindings) :
    x.Covers (r.setting s m) (r.start s m) := by
  refine ⟨?_,fun _ _ _ => hb,?_,?_,?_⟩
  · intro v hv
    rw [start_view hs]
    exact h.parts v hv
  · intro c hq
    rw [start_memory]
    exact h.clauses hq
  · intro c hq c' hm
    rw [start_memory] at hm
    exact h.joined c hq c' hm
  · intro c hm
    rw [start_view hs]
    exact ⟨h.params (h.member c hm),hb⟩

end Extent.Closed

namespace Request

/-- What a request comes upon: what its values reach, its query, and the members of that to any depth. -/
def extent (m : Memory) (r : Request) : Extent where
  value v := (∃ root ∈ r.roots m, root.Reaches m v) ∨ v = .null ∨ (∃ t, v = .text t) ∨ ∃ n, v = .int n
  query c := ∃ cell, r = .query cell ∧ ReflTransGen (Joins m) cell c
  member c := ∃ cell, r = .query cell ∧ TransGen (Joins m) cell c
  null := .inr (.inl rfl)
  text t := .inr (.inr (.inl ⟨t,rfl⟩))
  int n := .inr (.inr (.inr ⟨n,rfl⟩))

theorem extent_parts (h : (r.extent m).value v) : ∀ p ∈ v.parts m, (r.extent m).value p := by
  intro p hp
  rcases h with ⟨root,hr,hv⟩ | rfl | ⟨t,rfl⟩ | ⟨n,rfl⟩
  · exact .inl ⟨root,hr,hv.tail hp⟩
  · cases hp
  · exact .inr (.inr (.inl (Value.Reaches.isText (.single hp))))
  · cases hp

end Request

/-- With a query, what it reaches has its members. -/
theorem Value.Reaches.member {c c' : Nat} (h : Value.Reaches m v (.query c)) (hj : Joins m c c') :
    Value.Reaches m v (.query c') := by
  have hunion : Value.Reaches m v (.list ((m.query c).members.map Member.toValue)) :=
    h.tail (Value.mem_parts_of_fields rfl (f := ("UNION",_)) (by simp [Memory.fields,Query.fields]))
  exact hunion.tail (Value.mem_parts_of_elements rfl (List.mem_map_of_mem (f := Member.toValue) hj))

namespace Request

theorem closed_extent : (r.extent m).Closed m where
  parts _ := extent_parts
  query c := by
    rintro ⟨cell,rfl,hc⟩
    refine .inl ⟨.query cell,by simp [roots],?_⟩
    induction hc with
    | refl => exact .refl
    | tail _ hj ih => exact ih.member hj
  member := by
    rintro c ⟨cell,hr,hc⟩
    exact ⟨cell,hr,hc.to_reflTransGen⟩
  joined := by
    rintro c ⟨cell,hr,hc⟩ c' hj
    exact ⟨⟨cell,hr,hc.tail hj⟩,cell,hr,.tail' hc hj⟩

/-- The collection at the start is one of the roots, or the parameters of the query. -/
theorem extent_collection (hc : r.Collects m) :
    (r.extent m).Has (r.start s m).bindings := by
  by_cases hq : ∃ cell, r = .query cell
  · obtain ⟨cell,rfl⟩ := hq
    exact closed_extent.params ⟨cell,rfl,.refl⟩
  · have hroot : (r.extent m).value (r.params m) := by
      refine .inl ⟨r.params m,?_,.refl⟩
      cases r with
      | query cell => exact absurd ⟨cell,rfl⟩ hq
      | _ => exact .head _
    rcases hc with ⟨entries,hp⟩ | ⟨home,hp,-⟩
    · have hb : (r.start s m).bindings = entries := by
        unfold start Build.opening
        rw [hp]
      rw [hb]
      exact closed_extent.entries hroot (by rw [hp]; rfl)
    · rw [start_bindings hp]
      exact closed_extent.entries hroot (by rw [hp]; rfl)

theorem covers_extent (hs : s.collection = .own) (hc : r.Collects m) :
    (r.extent m).Covers (r.setting s m) (r.start s m) := closed_extent.covers hs (extent_collection hc)

theorem within_extent : r.Within (r.extent m) := by
  have hroot : ∀ v ∈ r.roots m, (r.extent m).value v := fun v hv => .inl ⟨v,hv,.refl⟩
  cases r with
  | query cell => exact ⟨cell,rfl,.refl⟩
  | insert table columns params => exact ⟨hroot _ (by simp [roots,operands]),hroot _ (by simp [roots,operands])⟩
  | batchInsert table columns rows params =>
    exact ⟨hroot _ (by simp [roots,operands]),hroot _ (by simp [roots,operands]),hroot _ (by simp [roots,operands])⟩
  | update table columns condition params =>
    exact ⟨hroot _ (by simp [roots,operands]),hroot _ (by simp [roots,operands]),hroot _ (by simp [roots,operands])⟩
  | delete table condition params =>
    exact ⟨hroot _ (by simp [roots,operands]),hroot _ (by simp [roots,operands])⟩
  | filter spec params => exact hroot _ (by simp [roots,operands])

end Request

/-- The placeholders in the SQL of a request that succeeds are numbered strictly upward, and each stands for the literal
at its place of the input. -/
theorem Request.bound_in_order (h : Sound x (r.setting s m) (r.start s m) (r.final s m))
    (hu : Uncounted x (r.setting s m) (r.start s m)) {sql : Sql} (ho : (r.outcome s m).1 = .ok sql) :
    ∃ ns : List Nat, ns.Pairwise (· < ·) ∧ sql.placeholders = ns.map s.placeholderName ∧ sql.placeholders.Nodup ∧
      List.Forall₂ (fun n v => (r.final s m).bindings.field? (s.placeholderName n) = some v) ns (r.literals s m) := by
  have hname : ∀ n, (r.setting s m).placeholderName n = s.placeholderName n := placeholderName_setting
  obtain ⟨names,hg,hl,hsql⟩ := Request.logs m r sql (r.final s m) (Prod.ext ho rfl)
  rw [start_given,List.nil_append] at hg
  obtain ⟨ns,hns,hlt,-⟩ := h.numbers
  have hnames : (r.final s m).placeholders = names := by
    unfold Draft.placeholders
    rw [hg]
    exact List.map_fst_zip (Nat.le_of_eq hl)
  rw [hnames] at hns
  have hplaces : sql.placeholders = ns.map s.placeholderName := by
    have : sql.placeholders = names := hsql
    rw [this,hns]
    exact List.map_congr_left (fun n _ => hname n)
  refine ⟨ns,hlt,hplaces,?_,?_⟩
  · rw [hplaces]
    exact List.Nodup.map (fun _ _ => s.placeholderName_inj.mp) (hlt.imp Nat.ne_of_lt)
  · refine List.forall₂_iff_zip.mpr ⟨?_,?_⟩
    · rw [← hl,hns,List.length_map]
    · intro n v hm
      refine h.field?_of_given hu ?_
      rw [hg,hns,List.zip_map_left,hname n |>.symm]
      exact List.mem_map_of_mem (f := Prod.map (r.setting s m).placeholderName id) hm

/-- The setting of a request's step has the stem. -/
theorem Unnumbered.setting (hu : Unnumbered x s start) : Unnumbered x (r.setting s m) start := by
  have hname : ∀ n, (r.setting s m).placeholderName n = s.placeholderName n := Request.placeholderName_setting
  refine ⟨?_,?_,?_⟩
  · intro n
    rw [hname]
    exact hu.collection n
  · intro sql params hx n
    rw [hname]
    exact hu.expression sql params hx n
  · intro c hx n
    rw [hname]
    exact hu.member c hx n

/-- The bindings of a whole request. Let no name in the collection at the start, in an expression's parameters or in
a member's be a number behind the stem. Then the placeholders of the SQL are numbered strictly upward from left to
right, and in the collection that is returned each stands for the literal at its place of the input; and whether the
request succeeds or fails, its collection continues the one at the start. -/
theorem bindings_correct (o : Options) (dialect : Dialect) (m : Memory) (r : Request) (hc : r.Collects m)
    (hu : Unnumbered (r.extent m) (o.setting dialect) (r.start (o.setting dialect) m)) :
    let s := o.setting dialect
    (∀ sql params m', r.perform s m = (.ok (sql,params),m') →
      ∃ es, params.entries? m' = some es ∧ Continued (r.extent m) s (r.start s m) es ∧
        ∃ ns : List Nat, ns.Pairwise (· < ·) ∧ sql.placeholders = ns.map s.placeholderName ∧ sql.placeholders.Nodup ∧
          List.Forall₂ (fun n v => es.field? (s.placeholderName n) = some v) ns (r.literals s m)) ∧
    (∀ x m' home, r.perform s m = (.error x,m') → r.params m = .shared home →
      Continued (r.extent m) s (r.start s m) (m'.mapping home)) := by
  intro s
  have hs : s.collection = .own := rfl
  have hname : ∀ n, (r.setting s m).placeholderName n = s.placeholderName n := Request.placeholderName_setting
  have hu' : Unnumbered (r.extent m) (r.setting s m) (r.start s m) := hu.setting
  have st := Request.steps (Request.covers_extent hs hc) Request.within_extent
  have hsound := Sound.steps hu'.uncounted (Request.start_given s m r) st
  have hcont : Continued (r.extent m) s (r.start s m) (r.final s m).bindings := by
    have h := hsound.continued hu'.uncounted (fun t ht => names_of_steps st ht)
    refine ⟨h.kept,?_⟩
    intro t ht
    simpa only [hname] using h.new t ht
  refine ⟨?_,?_⟩
  · intro sql params m' hp
    obtain ⟨ho,hes⟩ := Request.perform_ok hc hp
    exact ⟨_,hes,hcont,Request.bound_in_order hsound hu'.uncounted ho⟩
  · intro x m' home hp hh
    rw [(Request.perform_error hc hp).2 home hh]
    exact hcont

/-! ## Names that keep off the stem -/

def Entries.avoids (stem : String) (es : Entries) : Bool := es.names.all (fun t => !stem.toList.isPrefixOf t.toList)

theorem Setting.ne_placeholderName {n : Nat} (h : ¬ s.stem.toList <+: t.toList) : t ≠ s.placeholderName n := by
  rintro rfl
  apply h
  simp [placeholderName]

theorem Entries.not_mem_of_avoids {es : Entries} (h : es.avoids s.stem) (n : Nat) : s.placeholderName n ∉ es.names := by
  intro hm
  have hname := List.all_eq_true.mp h _ hm
  rw [Bool.not_eq_true',Bool.eq_false_iff,ne_eq,List.isPrefixOf_iff_prefix] at hname
  exact Setting.ne_placeholderName hname rfl

def Memory.avoids (stem : String) (m : Memory) : Bool :=
  m.everyExpression (fun _ params => params.avoids stem) && m.mappings.all (Entries.avoids stem) &&
    m.queries.all (fun q => q.params.avoids stem)

theorem Memory.avoids_mapping {stem : String} (h : m.avoids stem) (home : Home) : (m.mapping home).avoids stem := by
  simp only [avoids,Bool.and_eq_true] at h
  cases home with
  | cell n => exact all_getD h.1.2 rfl
  | query n =>
    have hq := all_getD (n := n) h.2 (y := {}) rfl
    exact hq

namespace Request
variable {p : String → Entries → Bool} {sql : String} {params : Entries}

/-- What is true of every expression in a memory and in the values of a request is true of those that it comes upon. -/
theorem extent_expression (hm : m.everyExpression p) (hr : ∀ v ∈ r.roots m, v.everyExpression p)
    (hx : (r.extent m).value (.expression sql params)) : p sql params := by
  rcases hx with ⟨root,hroot,hx⟩ | hx | ⟨t,hx⟩ | ⟨n,hx⟩
  · exact hx.of_everyExpression hm (hr root hroot)
  · cases hx
  · cases hx
  · cases hx

/-- A statement that comes upon no expression, over a collection without numbered names. -/
theorem unnumbered_of_bare (hq : ∀ cell, r ≠ .query cell) (hm : m.bare) (hr : ∀ v ∈ r.roots m, v.bare)
    (hc : ∀ n, s.placeholderName n ∉ (r.start s m).bindings.names) : Unnumbered (r.extent m) s (r.start s m) where
  collection := hc
  expression _ _ hx := absurd (extent_expression hm hr hx) Bool.false_ne_true
  member c hx := by
    obtain ⟨cell,hcell,-⟩ := hx
    exact absurd hcell (hq cell)

/-- Names that begin otherwise than the stem are no numbers behind it. -/
theorem unnumbered_of_avoids (hm : m.avoids s.stem)
    (hr : ∀ v ∈ r.roots m, v.everyExpression (fun _ params => params.avoids s.stem))
    (hc : (r.start s m).bindings.avoids s.stem) : Unnumbered (r.extent m) s (r.start s m) where
  collection := Entries.not_mem_of_avoids hc
  expression sql params hx := by
    have hall : m.everyExpression (fun _ params => params.avoids s.stem) := by
      simp only [Memory.avoids,Bool.and_eq_true] at hm
      exact hm.1.1
    exact Entries.not_mem_of_avoids (extent_expression (p := fun _ params => params.avoids s.stem) hall hr hx)
  member c _ := by
    rw [start_memory]
    exact Entries.not_mem_of_avoids (Memory.avoids_mapping hm _)

end Request

def Memory.repeated : Memory where
  queries := #[{ tables := [.name "m"],filter := .mapping [(.text "x",.int 2)],params := [(.text "m",.int 7)] },
    { tables := [.name "t"],members := [.query 0,.query 0],params := [(.text "p",.int 5)],
      filter := .list [.operator .and,.mapping [(.text "a",.int 1)],.expression "b > :e" [(.text "e",.int 9)]] }]

def Memory.repeatedMember (name : String) : Sql :=
  [.text "SELECT *",.text " ",.text "FROM ",.path ⟨["m"],false⟩,.text " ",.text "WHERE ",.path ⟨["x"],false⟩,
    .text "=",.placeholder name]

def Memory.repeatedSql : Sql :=
  [.text "SELECT *",.text " ",.text "FROM ",.path ⟨["t"],false⟩,.text " ",.text "WHERE ",.text "(",.path ⟨["a"],false⟩,
    .text "=",.placeholder "qp1",.text ") AND (",.text "b > :e",.text ")",.text " ",.text "UNION (\n"] ++
    repeatedMember "qp4" ++ .text "\n) UNION (\n" :: repeatedMember "qp5" ++ [.text "\n)"]

theorem bindings_correct_repeated :
    (Request.query 1).Collects .repeated ∧
      Unnumbered ((Request.query 1).extent .repeated) (({} : Options).setting .sqlite)
        ((Request.query 1).start (({} : Options).setting .sqlite) .repeated) ∧
      ∃ ns : List Nat, Memory.repeatedSql.placeholders = ns.map (({} : Options).setting .sqlite).placeholderName ∧
        List.Forall₂ (fun n v => Entries.field? [(.text "p",.int 5),(.text "qp1",.int 1),(.text "e",.int 9),
          (.text "m",.int 7),(.text "qp4",.int 2),(.text "qp5",.int 2)]
            ((({} : Options).setting .sqlite).placeholderName n) = some v) ns [.int 1,.int 2,.int 2] := by
  have hc : (Request.query 1).Collects .repeated := .inr ⟨.query 1,rfl,by simp [Memory.Holds,Memory.repeated]⟩
  have hr : ∀ v ∈ (Request.query 1).roots .repeated, v.everyExpression (fun _ params => params.avoids "qp") :=
    fun v hv => List.mem_singleton.mp hv ▸ rfl
  have hu : Unnumbered ((Request.query 1).extent .repeated) (({} : Options).setting .sqlite)
      ((Request.query 1).start (({} : Options).setting .sqlite) .repeated) :=
    Request.unnumbered_of_avoids (by decide +kernel) hr (by decide)
  have hp : ((Request.query 1).perform (({} : Options).setting .sqlite) .repeated).1 = .ok (Memory.repeatedSql,.mapping
      [(.text "p",.int 5),(.text "qp1",.int 1),(.text "e",.int 9),(.text "m",.int 7),(.text "qp4",.int 2),
        (.text "qp5",.int 2)]) := by with_unfolding_all rfl
  have hl : (Request.query 1).literals (({} : Options).setting .sqlite) .repeated = [.int 1,.int 2,.int 2] := by with_unfolding_all rfl
  obtain ⟨es,hes,-,ns,-,hns,-,hv⟩ := (bindings_correct {} .sqlite .repeated (.query 1) hc hu).1 _ _ _ (Prod.ext hp rfl)
  cases hes
  rw [hl] at hv
  exact ⟨hc,hu,ns,hns,hv⟩

/-- A call that fails has taken over what an expression before the fault brings: the caller's collection is left with
a name that no value was bound to. -/
theorem expression_stays_after_fault :
    Unnumbered ((Request.delete (.text "t") (.list [.text "and",.expression "x=:a" [(.text "a",.int 1)],
        .list [.text "foo"]]) (.shared (.cell 0))).extent { mappings := #[[]] }) (({} : Options).setting .sqlite)
      ((Request.delete (.text "t") (.list [.text "and",.expression "x=:a" [(.text "a",.int 1)],
        .list [.text "foo"]]) (.shared (.cell 0))).start (({} : Options).setting .sqlite) { mappings := #[[]] }) ∧
    (∃ x, (Request.delete (.text "t") (.list [.text "and",.expression "x=:a" [(.text "a",.int 1)],
        .list [.text "foo"]]) (.shared (.cell 0))).perform (({} : Options).setting .sqlite) { mappings := #[[]] } =
      (.error x,{ mappings := #[[(.text "a",.int 1)]] })) ∧
    ∀ n, "a" ≠ (({} : Options).setting .sqlite).placeholderName n := by
  have hr : ∀ v ∈ (Request.delete (.text "t") (.list [.text "and",.expression "x=:a" [(.text "a",.int 1)],
      .list [.text "foo"]]) (.shared (.cell 0))).roots { mappings := #[[]] },
      v.everyExpression (fun _ params => params.avoids "qp") := by decide
  refine ⟨Request.unnumbered_of_avoids (by decide +kernel) hr rfl,⟨_,rfl⟩,fun n h => ?_⟩
  have ha : Entries.avoids "qp" [(.text "a",.int 1)] := by decide
  exact Entries.not_mem_of_avoids (s := ({} : Options).setting .sqlite) ha n (List.mem_singleton.mpr h.symm)

end SqlCompose
