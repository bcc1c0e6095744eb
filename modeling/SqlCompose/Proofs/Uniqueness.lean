import SqlCompose.Proofs.Expressions
import SqlCompose.Proofs.RequestAnswers
import SqlCompose.Proofs.Stems
import Mathlib.Data.List.Nodup

/-! # Uniqueness of placeholders

A placeholder is named by the number of bindings before it. As long as nothing but literals is bound, the names are
new exactly if the collection at the start has none of the names that would be counted through.
-/
namespace SqlCompose
open Relation

variable {s : Setting} {m : Memory} {r : Request} {d e : Draft}

theorem Setting.placeholderName_inj {i j : Nat} : s.placeholderName i = s.placeholderName j ↔ i = j := by
  constructor
  · intro h
    have hd : Number.writeInt i = Number.writeInt j := (String.append_right_inj s.stem).mp h
    rw [Number.writeInt_natCast,Number.writeInt_natCast] at hd
    have hv := congrArg (fun digits => Nat.ofDigitChars 10 digits 0) (String.ofList_inj.mp hd)
    simpa using hv
  · rintro rfl
    rfl

namespace Request

/-- The statement has no expression anywhere, whatever its parameter collection holds, and no union. -/
def Plain (m : Memory) (r : Request) : Prop :=
  (∀ v ∈ r.operands m, ∀ sql params, ¬ v.Reaches m (.expression sql params)) ∧
    ∀ cell, r = .query cell → (m.query cell).members = []

end Request

namespace Value
variable {v w : Value}

theorem Reaches.of_part {p : Value} (hp : p ∈ v.parts m) (h : p.Reaches m w) : v.Reaches m w := .head hp h

theorem Reaches.eq_of_null (h : Reaches m .null w) : w = .null := by
  refine h.induct (P := fun w => w = .null) rfl ?_
  rintro _ rfl p ⟨⟩

theorem Reaches.eq_of_int {n : Int} (h : Reaches m (.int n) w) : w = .int n := by
  refine h.induct (P := fun w => w = .int n) rfl ?_
  rintro _ rfl p ⟨⟩

theorem parts_text {t : String} : ∀ p ∈ parts m (.text t), ∃ u, p = .text u := by
  intro p hp
  simp only [parts,elements?,text?,entries?,fields?,ofChars,Entries.values,Option.getD_some,Option.getD_none,
    List.map_nil,List.append_nil,List.mem_map] at hp
  obtain ⟨c,_,rfl⟩ := hp
  exact ⟨_,rfl⟩

theorem Reaches.isText {t : String} (h : Reaches m (.text t) w) : ∃ u, w = .text u := by
  refine h.induct (P := fun w => ∃ u, w = .text u) ⟨t,rfl⟩ ?_
  rintro _ ⟨u,rfl⟩
  exact parts_text

end Value

theorem Request.plain_of_bare (hm : m.bare) (hr : ∀ v ∈ r.operands m, v.bare)
    (hq : ∀ cell, r = .query cell → (m.query cell).members = []) : r.Plain m :=
  ⟨fun v hv _ _ => Value.not_reaches_expression hm (hr v hv),hq⟩

def Extent.plain (m : Memory) (cells : Nat → Prop) : Extent where
  value v := ∀ sql params, ¬ v.Reaches m (.expression sql params)
  query := cells
  member _ := False
  null _ _ h := nomatch h.eq_of_null
  text _ _ _ h := nomatch h.isText
  int _ _ _ h := nomatch h.eq_of_int

theorem Request.covers_plain (hs : s.collection = .own) (h : r.Plain m) :
    (Extent.plain m (fun cell => r = .query cell)).Covers (r.setting s m) (r.start s m) := by
  refine ⟨?_,?_,?_,?_,nofun⟩
  · intro v hv p hp sql params hr
    rw [start_view hs] at hp
    exact hv sql params (.of_part hp hr)
  · intro home hc hv e he
    rw [(start_of_shared hs hc).2] at he
    have hp := Value.mem_parts_of_entries (v := .shared home) (m := m) rfl he
    exact ⟨fun sql params hr => hv sql params (.of_part hp.1 hr),fun sql params hr => hv sql params (.of_part hp.2 hr)⟩
  · rintro cell rfl f hf
    rw [start_memory] at hf
    exact h.1 f.2 (List.mem_map_of_mem hf)
  · rintro cell rfl c hc
    rw [start_memory,h.2 cell rfl] at hc
    cases hc

theorem Request.within_plain (h : r.Plain m) : r.Within (Extent.plain m (fun cell => r = .query cell)) := by
  cases r with
  | query cell => rfl
  | insert table columns params => exact ⟨h.1 table (by simp [operands]),h.1 columns (by simp [operands])⟩
  | batchInsert table columns rows params =>
    exact ⟨h.1 table (by simp [operands]),h.1 columns (by simp [operands]),h.1 rows (by simp [operands])⟩
  | update table columns condition params =>
    exact ⟨h.1 table (by simp [operands]),h.1 columns (by simp [operands]),h.1 condition (by simp [operands])⟩
  | delete table condition params => exact ⟨h.1 table (by simp [operands]),h.1 condition (by simp [operands])⟩
  | filter spec params => exact h.1 spec (by simp [operands])

/-! ## Counting through -/

def Draft.placeholders (d : Draft) : List String := d.given.map (·.1)

/-- What has been given out from `start` on counts on from the bindings there were, and stands behind them. -/
structure Draft.Numbered (s : Setting) (start d : Draft) : Prop where
  names : d.placeholders = (List.range d.given.length).map (fun i => s.placeholderName (start.bindings.length + i))
  bindings : d.bindings = start.bindings ++ Entries.ofNames d.given
  fresh : ∀ i < d.given.length, s.placeholderName (start.bindings.length + i) ∉ start.bindings.names

namespace Draft
variable {start : Draft} {v : Value}

theorem Numbered.nodup (h : Numbered s start d) : d.placeholders.Nodup := by
  rw [h.names]
  refine List.Nodup.map ?_ List.nodup_range
  intro i j hij
  have := s.placeholderName_inj.mp hij
  omega

theorem Numbered.not_mem (h : Numbered s start d) : ∀ n ∈ d.placeholders, n ∉ start.bindings.names := by
  intro n hn
  rw [h.names] at hn
  obtain ⟨i,hi,rfl⟩ := List.mem_map.mp hn
  exact h.fresh i (List.mem_range.mp hi)

theorem Numbered.nextName (h : Numbered s start d) :
    d.nextName s = s.placeholderName (start.bindings.length + d.given.length) := by
  unfold Draft.nextName
  rw [h.bindings]
  simp [Entries.ofNames]

/-- A placeholder that is new keeps the count. -/
theorem Numbered.bound (h : Numbered s start d)
    (hn : s.placeholderName (start.bindings.length + d.given.length) ∉ start.bindings.names) :
    Numbered s start (d.bound s v) := by
  have hnext : d.nextName s ∉ d.bindings.names := by
    rw [h.bindings]
    intro hm
    obtain ⟨e,he,ht⟩ := Entries.mem_names.mp hm
    rcases List.mem_append.mp he with he | he
    · exact hn (h.nextName ▸ Entries.mem_names.mpr ⟨e,he,ht⟩)
    · obtain ⟨g,hg,rfl⟩ := List.mem_map.mp he
      have hp : d.nextName s ∈ d.placeholders := by
        rw [← Option.some.inj ht]
        exact List.mem_map_of_mem hg
      rw [h.names,h.nextName] at hp
      obtain ⟨i,hi,heq⟩ := List.mem_map.mp hp
      have := s.placeholderName_inj.mp heq
      have := List.mem_range.mp hi
      omega
  refine ⟨?_,?_,?_⟩
  · have := h.names
    simp only [placeholders] at this
    simp [placeholders,Draft.bound,List.range_succ,this,h.nextName]
  · simp only [Draft.bound]
    rw [Entries.put_of_not_mem hnext,h.bindings]
    simp [Entries.ofNames]
  · intro i hi
    have hl : (d.bound s v).given.length = d.given.length + 1 := by simp [Draft.bound]
    rw [hl] at hi
    rcases Nat.lt_succ_iff_lt_or_eq.mp hi with hi | rfl
    · exact h.fresh i hi
    · exact hn

def Clash (s : Setting) (start d : Draft) : Prop :=
  ∃ i < d.given.length, s.placeholderName (start.bindings.length + i) ∈ d.placeholders ∧
    s.placeholderName (start.bindings.length + i) ∈ start.bindings.names

/-- Where only literals are bound, the count goes on until it meets a name that was there at the start. -/
theorem numbered_or_clash {cells : Nat → Prop} (hg : start.given = [])
    (st : ReflTransGen ((Extent.plain m cells).Step s) start d) : Numbered s start d ∨ Clash s start d := by
  induction st with
  | refl => exact .inl ⟨by simp [placeholders,hg],by simp [Entries.ofNames,hg],by simp [hg]⟩
  | @tail d e _ st ih =>
    cases st with
    | @bind v hv =>
      rcases ih with h | ⟨i,hi,hm,ht⟩
      · by_cases hn : s.placeholderName (start.bindings.length + d.given.length) ∈ start.bindings.names
        · refine .inr ⟨d.given.length,by simp [bound],?_,hn⟩
          simp [placeholders,bound,h.nextName]
        · exact .inl (h.bound hn)
      · refine .inr ⟨i,by simp [bound]; omega,?_,ht⟩
        simp only [placeholders,bound,List.map_append,List.mem_append]
        exact .inl hm
    | adopt hv => exact absurd .refl (hv _ _)
    | take hc => exact hc.elim
    | hand hc => exact hc.elim
    | drain hi =>
      rcases ih with h | h
      · exact .inl ⟨h.names,h.bindings,h.fresh⟩
      · exact .inr h

end Draft

/-- The names that a statement without expressions and unions gives out, also one that fails, are pairwise distinct
and none of them is taken at the start exactly if the collection has no name that is the stem with a number from its
size on, up to the number of values bound. Then the bindings follow what the collection held, which stays. -/
theorem placeholders_fresh_iff (o : Options) (dialect : Dialect) (m : Memory) (r : Request) (h : r.Plain m) :
    let s := o.setting dialect
    let taken := (r.start s m).bindings
    let final := r.final s m
    ((final.placeholders.Nodup ∧ ∀ n ∈ final.placeholders, n ∉ taken.names) ↔
      ∀ i < final.given.length, s.placeholderName (taken.length + i) ∉ taken.names) ∧
    ((∀ i < final.given.length, s.placeholderName (taken.length + i) ∉ taken.names) →
      final.bindings = taken ++ Entries.ofNames final.given) := by
  intro s taken final
  have hs : s.collection = .own := rfl
  have hname : ∀ n, (r.setting s m).placeholderName n = s.placeholderName n := Request.placeholderName_setting
  have st := Request.steps (Request.covers_plain hs h) (Request.within_plain h)
  rcases Draft.numbered_or_clash (Request.start_given s m r) st with hn | ⟨i,hi,hm,ht⟩
  · have hf := hn.fresh
    simp only [hname] at hf
    exact ⟨⟨fun _ => hf,fun _ => ⟨hn.nodup,hn.not_mem⟩⟩,fun _ => hn.bindings⟩
  · rw [hname] at hm ht
    exact ⟨⟨fun hd => absurd ht (hd.2 _ hm),fun hd => absurd ht (hd i hi)⟩,fun hd => absurd ht (hd i hi)⟩

theorem placeholders_fresh_iff_update :
    (Request.update (.text "t") (.mapping [(.text "a",.int 1),(.text "b",.null)])
        (.mapping [(.text "a",.int 1),(.text "c",.list [.int 2,.null,.int 3])]) (.mapping [(.text "qp0",.int 5)])).Plain {} ∧
      let final := (Request.update (.text "t") (.mapping [(.text "a",.int 1),(.text "b",.null)])
        (.mapping [(.text "a",.int 1),(.text "c",.list [.int 2,.null,.int 3])]) (.mapping [(.text "qp0",.int 5)])).final
          (({} : Options).setting .sqlite) {}
      (final.placeholders.Nodup ∧ ∀ n ∈ final.placeholders, n ∉ ["qp0"]) ∧
        final.bindings = [(.text "qp0",.int 5),(.text "qp1",.int 1),(.text "qp2",.null),(.text "qp3",.int 1),
          (.text "qp4",.int 2),(.text "qp5",.int 3)] := by
  have hp : (Request.update (.text "t") (.mapping [(.text "a",.int 1),(.text "b",.null)])
      (.mapping [(.text "a",.int 1),(.text "c",.list [.int 2,.null,.int 3])]) (.mapping [(.text "qp0",.int 5)])).Plain {} :=
    Request.plain_of_bare (by decide +kernel) (by decide) nofun
  obtain ⟨hiff,hbindings⟩ := placeholders_fresh_iff {} .sqlite {} _ hp
  exact ⟨hp,hiff.mpr (by decide +kernel),hbindings (by decide +kernel)⟩

/-- A collection with a numbered name of its own: the count meets the name, and what it stood for is lost. -/
theorem placeholder_taken :
    (Request.delete (.text "t") (.mapping [(.text "a",.int 1)]) (.mapping [(.text "qp1",.int 5)])).Plain {} ∧
      ((Request.delete (.text "t") (.mapping [(.text "a",.int 1)]) (.mapping [(.text "qp1",.int 5)])).final
        (({} : Options).setting .sqlite) {}).placeholders = ["qp1"] ∧
      ((Request.delete (.text "t") (.mapping [(.text "a",.int 1)]) (.mapping [(.text "qp1",.int 5)])).final
        (({} : Options).setting .sqlite) {}).bindings = [(.text "qp1",.int 1)] :=
  ⟨Request.plain_of_bare (by decide +kernel) (by decide) nofun,rfl,rfl⟩

end SqlCompose
