import SqlCompose.Proofs.Binding
import Mathlib.Data.List.Perm.Subperm

/-! # Queries that share a member

A build writes the parameters of its query and of the members that it reaches, and nothing else that lasts. What it
leaves with a member are names that were counted for its own query, so they may be taken in the count of another one.
A build is right as long as whoever has come upon its members before has built the same query.
-/
namespace SqlCompose
open Relation

variable {x : Extent} {s : Setting} {m : Memory} {d e : Draft} {es more : Entries} {k v : Value} {t : String} {c : Nat}

/-! ## Collections of names -/

namespace Entries

def Named (es : Entries) : Prop := es.names.length = es.length ∧ es.names.Nodup

theorem length_put (hk : k.text? = some t) :
    (put k v es).length = if t ∈ es.names then es.length else es.length + 1 := by
  have hlength : (put k v es).keys.length = (put k v es).length := List.length_map _
  rw [← hlength,keys_put]
  simp only [any_same_name hk]
  split <;> simp [keys]

theorem Named.nil : Named [] := ⟨rfl,.nil⟩

theorem Named.put (h : es.Named) (hk : k.text? = some t) : (put k v es).Named := by
  refine ⟨?_,nodup_put h.2⟩
  rw [names_put hk,length_put hk]
  split <;> simp [h.1]

/-- All keys of such a collection are names. -/
theorem Named.isName (h : es.Named) : ∀ e ∈ es, ∃ t, e.1.text? = some t := by
  intro e he
  by_contra hnone
  have hlt : es.names.length < es.length := by
    refine List.length_filterMap_lt_length_iff_exists.mpr ⟨e,he,?_⟩
    simpa [Option.eq_none_iff_forall_ne_some] using hnone
  rw [h.1] at hlt
  exact Nat.lt_irrefl _ hlt

theorem Named.merge (h : es.Named) (hm : ∀ e ∈ more, ∃ t, e.1.text? = some t) : (merge es more).Named := by
  induction more generalizing es with
  | nil => exact h
  | cons e more ih =>
    obtain ⟨t,ht⟩ := hm e (.head _)
    exact ih (h.put ht) (fun e he => hm e (.tail _ he))

/-- Nothing that is merged in gets lost. -/
theorem Named.length_le_merge (h : more.Named) : more.length ≤ (Entries.merge es more).length := by
  have hsub : more.names ⊆ (Entries.merge es more).names := fun t ht => mem_names_merge.mpr (.inr ht)
  calc more.length = more.names.length := h.1.symm
    _ ≤ (Entries.merge es more).names.length := (List.Nodup.subperm h.2 hsub).length_le
    _ ≤ (Entries.merge es more).length := List.length_filterMap_le _ _

structure Counted (s : Setting) (es : Entries) : Prop where
  named : es.Named
  below : ∀ n, s.placeholderName n ∈ es.names → n < es.length

theorem Counted.merge (h : es.Counted s) (hm : more.Counted s) : (merge es more).Counted s := by
  refine ⟨h.named.merge hm.named.isName,fun n hn => ?_⟩
  rcases mem_names_merge.mp hn with hn | hn
  · exact Nat.lt_of_lt_of_le (h.below n hn) Entries.length_le_merge
  · exact Nat.lt_of_lt_of_le (hm.below n hn) hm.named.length_le_merge

end Entries

theorem Setting.placeholderName_of_stem {s' : Setting} (h : s.stem = s'.stem) (n : Nat) :
    s.placeholderName n = s'.placeholderName n := by
  rw [placeholderName,placeholderName,h]

theorem Entries.Counted.of_stem {s' : Setting} (h : es.Counted s) (hs : s.stem = s'.stem) : es.Counted s' := by
  refine ⟨h.named,fun n hn => ?_⟩
  rw [← Setting.placeholderName_of_stem hs] at hn
  exact h.below n hn

theorem Draft.counted_bound (h : d.bindings.Counted s) (v : Value) : (d.bound s v).bindings.Counted s := by
  have hnew : d.nextName s ∉ d.bindings.names := fun hm => Nat.lt_irrefl _ (h.below _ hm)
  have hlength : (d.bound s v).bindings.length = d.bindings.length + 1 := by
    simp [Draft.bound,Entries.put_of_not_mem hnew]
  refine ⟨h.named.put rfl,fun n hn => ?_⟩
  rw [hlength]
  rcases Entries.mem_names_put.mp hn with heq | hn
  · have := s.placeholderName_inj.mp (Option.some.inj heq)
    omega
  · have := h.below n hn
    omega

/-! ## One build -/

structure Draft.Tidy (homes : Home → Prop) (s : Setting) (d : Draft) : Prop where
  bindings : d.bindings.Counted s
  mappings : ∀ home, homes home → ((d.view s).mapping home).Counted s

namespace Extent.Step
variable {homes : Home → Prop} {home : Home}

theorem tidy (hx : ∀ sql (params : Entries), x.value (.expression sql params) → params.Counted s)
    (hmember : ∀ c, x.member c → homes (d.memory.home c)) (st : x.Step s d e) (h : d.Tidy homes s) :
    e.Tidy homes s := by
  have hbound : ∀ v, d.bindings.Counted s → (d.bound s v).bindings.Counted s := fun v hb => Draft.counted_bound hb v
  obtain ⟨hb,hm⟩ := st.mappings hbound Entries.Counted.merge hx hmember h.bindings h.mappings
  exact ⟨hb,hm⟩

theorem length_le (st : x.Step s d e) : d.bindings.length ≤ e.bindings.length := by
  cases st with
  | bind _ => exact Entries.length_le_put
  | adopt _ => exact Entries.length_le_merge
  | take _ => exact Entries.length_le_merge
  | hand _ => exact Nat.le_refl _
  | drain _ => exact Nat.le_refl _

/-- No mapping comes to show fewer entries. -/
theorem length_mapping_le (st : x.Step s d e) :
    ((d.view s).mapping home).length ≤ ((e.view s).mapping home).length := by
  by_cases hown : s.collection = .shared home ∧ d.memory.Holds home
  · rw [Draft.view_mapping_own hown.1 hown.2,Draft.view_mapping_own hown.1 ((st.holds home).mpr hown.2)]
    exact st.length_le
  · have hd := Draft.view_mapping_other hown
    rw [hd,Draft.view_mapping_other (fun he => hown ⟨he.1,(st.holds home).mp he.2⟩)]
    rcases st.mapping home with he | ⟨c,-,hc,he⟩ <;> rw [he]
    rw [Draft.view_params,← hc,hd]
    exact Entries.length_le_merge

end Extent.Step

structure Memory.SameUnions (m m' : Memory) : Prop where
  members : ∀ c, (m'.query c).members = (m.query c).members
  home : ∀ c, m'.home c = m.home c
  holds : ∀ home, m'.Holds home ↔ m.Holds home

theorem Memory.SameUnions.joins {m' : Memory} (h : m.SameUnions m') : Request.Joins m' = Request.Joins m := by
  funext c c'
  rw [Request.Joins,Request.Joins,h.members]

theorem Memory.SameUnions.refl (m : Memory) : m.SameUnions m := ⟨fun _ => rfl,fun _ => rfl,fun _ => Iff.rfl⟩

theorem Memory.SameUnions.trans {m' m'' : Memory} (h : m.SameUnions m') (h' : m'.SameUnions m'') : m.SameUnions m'' where
  members c := (h'.members c).trans (h.members c)
  home c := (h'.home c).trans (h.home c)
  holds home := (h'.holds home).trans (h.holds home)

theorem Memory.sameUnions_setMapping (m : Memory) (home : Home) (es : Entries) : m.SameUnions (m.setMapping home es) where
  members c := by
    obtain ⟨es',he⟩ := m.query_setMapping home c es
    rw [he]
  home c := m.home_setMapping home c es
  holds := m.holds_setMapping home es

/-- No step changes of which members a query is made. -/
theorem Extent.sameUnions (st : ReflTransGen (x.Step s) d e) : d.memory.SameUnions e.memory where
  members c := by
    obtain ⟨es,he⟩ := query_of_steps st c
    rw [he]
  home := home_of_steps st
  holds := holds_of_steps st

/-- Whether a build of `root` may write to a mapping: the query, or a member at any depth, keeps its parameters there. -/
def Memory.Writes (m : Memory) (root : Nat) (home : Home) : Prop :=
  ∃ c, ReflTransGen (Request.Joins m) root c ∧ m.home c = home

structure Turn where
  options : Options := {}
  dialect : Dialect
  root : Nat

namespace Turn

def setting (t : Turn) : Setting := t.options.setting t.dialect

def request (t : Turn) : Request := .query t.root

def perform (t : Turn) (m : Memory) : Except Fault (Sql × Value) × Memory := t.request.perform t.setting m

def after (m : Memory) (turns : List Turn) : Memory := turns.foldl (fun m t => (t.perform m).2) m

def start (t : Turn) (m : Memory) : Draft := t.request.start t.setting m

def final (t : Turn) (m : Memory) : Draft := t.request.final t.setting m

variable {t : Turn}

theorem perform_memory : (t.perform m).2 = (t.final m).memory.setMapping (m.home t.root) (t.final m).bindings := by
  unfold perform request
  rw [Request.perform_query]
  rfl

def inner (t : Turn) (m : Memory) : Setting := t.request.setting t.setting m

theorem view_start : (t.start m).view (t.inner m) = m := Request.start_view rfl

/-- The memory after a call is what its step sees in the end. -/
theorem view_final : (t.final m).view (t.inner m) = (t.perform m).2 := perform_memory.symm

theorem steps (hx : x.Closed m) (hq : x.query t.root) : x.Covers (t.inner m) (t.start m) ∧
    ReflTransGen (x.Step (t.inner m)) (t.start m) (t.final m) := by
  have hcovers : x.Covers (t.inner m) (t.start m) := hx.covers rfl (hx.params hq)
  exact ⟨hcovers,Request.steps hcovers hq⟩

theorem steps_extent (t : Turn) (m : Memory) :
    ReflTransGen ((t.request.extent m).Step (t.inner m)) (t.start m) (t.final m) :=
  (t.steps Request.closed_extent ⟨t.root,rfl,.refl⟩).2

theorem sameUnions_final (t : Turn) (m : Memory) : m.SameUnions (t.final m).memory := Extent.sameUnions (t.steps_extent m)

theorem sameUnions (t : Turn) (m : Memory) : m.SameUnions (t.perform m).2 := by
  rw [perform_memory]
  exact (t.sameUnions_final m).trans (Memory.sameUnions_setMapping _ _ _)

/-- A mapping that a call does not write to stays. -/
theorem mapping_perform {home : Home} (h : ¬ m.Writes t.root home) : (t.perform m).2.mapping home = m.mapping home := by
  have hroot : home ≠ m.home t.root := fun he => h ⟨t.root,.refl,he.symm⟩
  rw [perform_memory,Memory.mapping_setMapping_of_ne hroot]
  refine Extent.mapping_of_steps ?_ (t.steps_extent m)
  rintro c ⟨_,⟨⟩,hc⟩ hhome
  exact h ⟨c,hc.to_reflTransGen,hhome⟩

/-- No mapping has fewer entries after a call. -/
theorem length_mapping_perform (t : Turn) (m : Memory) (home : Home) :
    (m.mapping home).length ≤ ((t.perform m).2.mapping home).length := by
  rw [← view_final]
  refine Extent.keep_steps (P := fun e => (m.mapping home).length ≤ ((e.view (t.inner m)).mapping home).length)
    (fun d e st h => h.trans st.length_mapping_le) (t.steps_extent m) ?_
  rw [view_start]

/-- A query that has been built keeps the bindings as its parameters. -/
theorem params_perform (h : m.Holds (m.home t.root)) : (t.perform m).2.params t.root = (t.final m).bindings := by
  have hheld : (t.final m).memory.Holds (m.home t.root) := ((t.sameUnions_final m).holds _).mpr h
  rw [Memory.params,(t.sameUnions m).home,perform_memory,Memory.mapping_setMapping_self hheld]

end Turn

/-! ## Between two builds -/

def Extent.joint (m : Memory) (roots : Nat → Prop) : Extent where
  value v := v = .null ∨ (∃ t, v = .text t) ∨ (∃ n, v = .int n) ∨ ∃ r, roots r ∧ ((Request.query r).extent m).value v
  query c := ∃ r, roots r ∧ ReflTransGen (Request.Joins m) r c
  member c := ∃ r, roots r ∧ TransGen (Request.Joins m) r c
  null := .inl rfl
  text t := .inr (.inl ⟨t,rfl⟩)
  int n := .inr (.inr (.inl ⟨n,rfl⟩))

/-- All names that were written for these builds: no number behind the stem is among them. -/
structure Extent.Written (x : Extent) (s : Setting) (m : Memory) : Prop where
  params : ∀ c, x.query c → (m.params c).Named ∧ ∀ n, s.placeholderName n ∉ (m.params c).names
  expression : ∀ sql (params : Entries), x.value (.expression sql params) →
    params.Named ∧ ∀ n, s.placeholderName n ∉ params.names

/-- What holds before, between and after builds that started from `m`. -/
structure Between (x : Extent) (s : Setting) (m m' : Memory) : Prop where
  closed : x.Closed m'
  unions : m.SameUnions m'
  counted : ∀ c, x.query c → (m'.params c).Counted s

theorem Extent.closed_joint (m : Memory) (roots : Nat → Prop) : (Extent.joint m roots).Closed m where
  parts := by
    rintro v (rfl | ⟨t,rfl⟩ | ⟨n,rfl⟩ | ⟨r,hr,hv⟩) p hp
    · cases hp
    · exact .inr (.inl (Value.parts_text p hp))
    · cases hp
    · exact .inr (.inr (.inr ⟨r,hr,Request.extent_parts hv p hp⟩))
  query := by
    rintro c ⟨r,hr,hc⟩
    exact .inr (.inr (.inr ⟨r,hr,Request.closed_extent.query c ⟨r,rfl,hc⟩⟩))
  member := by
    rintro c ⟨r,hr,hc⟩
    exact ⟨r,hr,hc.to_reflTransGen⟩
  joined := by
    rintro c ⟨r,hr,hc⟩ c' hj
    exact ⟨⟨r,hr,hc.tail hj⟩,r,hr,.tail' hc hj⟩

namespace Between
variable {m' : Memory} {t : Turn}

theorem start (hw : x.Written s m) (hx : x.Closed m) : Between x s m m where
  closed := hx
  unions := .refl m
  counted c hc := ⟨(hw.params c hc).1,fun n hn => absurd hn ((hw.params c hc).2 n)⟩

theorem perform (h : Between x s m m') (hw : x.Written s m) (hq : x.query t.root) (hstem : t.setting.stem = s.stem) :
    Between x s m (t.perform m').2 := by
  obtain ⟨hcovers,st⟩ := t.steps h.closed hq
  have hinner : s.stem = (t.inner m').stem := hstem.symm
  -- all parameters of queries that these builds come upon stay counted together, in whichever mappings they are kept
  let homes : Home → Prop := fun home => ∃ c, x.query c ∧ m'.home c = home
  have hstart : (t.start m').Tidy homes (t.inner m') := by
    refine ⟨(h.counted _ hq).of_stem hinner,?_⟩
    rintro _ ⟨c,hc,rfl⟩
    rw [Turn.view_start]
    exact (h.counted c hc).of_stem hinner
  have hexpression : ∀ sql (params : Entries), x.value (.expression sql params) → params.Counted (t.inner m') := by
    intro sql params hx
    obtain ⟨hnamed,hnew⟩ := hw.expression sql params hx
    exact Entries.Counted.of_stem ⟨hnamed,fun n hn => absurd hn (hnew n)⟩ hinner
  have htidy : (t.final m').Tidy homes (t.inner m') := by
    refine (Extent.keep_steps (P := fun e => m'.SameUnions e.memory ∧ e.Tidy homes (t.inner m')) ?_ st
      ⟨.refl m',hstart⟩).2
    rintro d e st ⟨hunions,hd⟩
    refine ⟨hunions.trans (Extent.sameUnions (.single st)),st.tidy hexpression (fun c hc => ?_) hd⟩
    exact ⟨c,h.closed.member c hc,(hunions.home c).symm⟩
  have hunions := t.sameUnions m'
  refine ⟨⟨?_,h.closed.query,h.closed.member,?_⟩,h.unions.trans hunions,fun c hc => ?_⟩
  · rw [← Turn.view_final]
    exact (Extent.covers_of_steps st hcovers).parts
  · rw [hunions.joins]
    exact h.closed.joined
  · have hcounted := htidy.mappings _ ⟨c,hc,rfl⟩
    rw [Turn.view_final] at hcounted
    rw [Memory.params,hunions.home]
    exact hcounted.of_stem hinner.symm

end Between

/-! ## The members of one query -/

def Extent.ofRoot (x : Extent) (m : Memory) (root : Nat) : Extent where
  value := x.value
  query := ReflTransGen (Request.Joins m) root
  member := TransGen (Request.Joins m) root
  null := x.null
  text := x.text
  int := x.int

/-- No member of a query has a name that is still to be counted for the query. -/
def Clear (s : Setting) (m m' : Memory) (root : Nat) : Prop :=
  ∀ c, TransGen (Request.Joins m) root c → ∀ n, s.placeholderName n ∈ (m'.params c).names →
    n < (m'.params root).length

namespace Between
variable {m' : Memory} {t : Turn}

theorem closed_ofRoot (h : Between x s m m') (hq : x.query t.root) : (x.ofRoot m t.root).Closed m' where
  parts := h.closed.parts
  query := by
    intro c hc
    refine h.closed.query c ?_
    induction hc with
    | refl => exact hq
    | tail _ hj ih => exact (h.closed.joined _ ih _ (h.unions.joins ▸ hj)).1
  member _ := TransGen.to_reflTransGen
  joined := by
    intro c hc c' hj
    rw [h.unions.joins] at hj
    exact ⟨hc.tail hj,.tail' hc hj⟩

theorem uncounted (h : Between x s m m') (hw : x.Written s m) (hq : x.query t.root) (hstem : t.setting.stem = s.stem)
    (hc : Clear s m m' t.root) : Uncounted (x.ofRoot m t.root) (t.inner m') (t.start m') := by
  have hname : ∀ n, (t.inner m').placeholderName n = s.placeholderName n :=
    Setting.placeholderName_of_stem (s := t.inner m') hstem
  refine ⟨fun n hn hm => ?_,fun sql params hx n _ hm => ?_,fun c hj n hn hm => ?_⟩
  · rw [hname] at hm
    exact Nat.not_lt.mpr hn ((h.counted _ hq).below n hm)
  · rw [hname] at hm
    exact (hw.expression sql params hx).2 n hm
  · rw [hname] at hm
    exact Nat.not_lt.mpr hn (hc c hj n hm)

/-- Where a run of the query ends, every numbered name of known origin is below the number of bindings. -/
theorem below_of_traced (h : Between x s m m') (hw : x.Written s m) (hq : x.query t.root)
    (hstem : t.setting.stem = s.stem) (hc : Clear s m m' t.root)
    (hd : Sound (x.ofRoot m t.root) (t.inner m') (t.start m') d) {es : Entries}
    (htraced : ∀ e ∈ es, Traced (x.ofRoot m t.root) (t.start m') d.given e) {n : Nat}
    (hn : s.placeholderName n ∈ es.names) : n < d.bindings.length := by
  have hname : ∀ n, (t.inner m').placeholderName n = s.placeholderName n :=
    Setting.placeholderName_of_stem (s := t.inner m') hstem
  by_cases hlt : n < (t.start m').bindings.length
  · exact Nat.lt_of_lt_of_le hlt hd.grown
  · obtain ⟨e,he,ht⟩ := Entries.mem_names.mp hn
    rw [← hname] at ht
    have hg := Sound.given_of_origin (h.uncounted hw hq hstem hc) (Nat.not_lt.mp hlt) (htraced e he _ ht)
    obtain ⟨ns,hns,-,hb⟩ := hd.numbers
    have hp : (t.inner m').placeholderName n ∈ d.placeholders := List.mem_map_of_mem (f := (·.1)) hg
    rw [hns] at hp
    obtain ⟨k,hk,heq⟩ := List.mem_map.mp hp
    rw [← (t.inner m').placeholderName_inj.mp heq]
    exact (hb k hk).2

theorem sound (h : Between x s m m') (hw : x.Written s m) (hq : x.query t.root) (hstem : t.setting.stem = s.stem)
    (hc : Clear s m m' t.root) : Sound (x.ofRoot m t.root) (t.inner m') (t.start m') (t.final m') :=
  Sound.steps (h.uncounted hw hq hstem hc) rfl (t.steps (h.closed_ofRoot hq) .refl).2

/-- A build leaves its members with names that are counted. -/
theorem clear_self (h : Between x s m m') (hw : x.Written s m) (hq : x.query t.root) (hstem : t.setting.stem = s.stem)
    (hroot : m.Holds (m.home t.root)) (hc : Clear s m m' t.root) : Clear s m (t.perform m').2 t.root := by
  have hsound := h.sound hw hq hstem hc
  have hheld : m'.Holds (m'.home t.root) := by
    rw [h.unions.home]
    exact (h.unions.holds _).mpr hroot
  intro c hj n hn
  rw [← Turn.view_final] at hn
  rw [Turn.params_perform hheld]
  exact h.below_of_traced hw hq hstem hc hsound (hsound.members c hj) hn

/-- A build of another query that writes to the parameters of no member leaves a query clear. -/
theorem clear_other {root : Nat} (h : Between x s m m') (hc : Clear s m m' root)
    (hapart : ∀ c, TransGen (Request.Joins m) root c → ¬ m.Writes t.root (m.home c)) : Clear s m (t.perform m').2 root := by
  have hunions := h.unions.trans (t.sameUnions m')
  have hwrites : ∀ home, m'.Writes t.root home → m.Writes t.root home := by
    rintro _ ⟨c,ht,rfl⟩
    rw [h.unions.joins] at ht
    exact ⟨c,ht,(h.unions.home c).symm⟩
  intro c hj n hn
  rw [Memory.params,hunions.home,Turn.mapping_perform (fun hw => hapart c hj (hwrites _ hw)),← h.unions.home] at hn
  have hgrown := t.length_mapping_perform m' (m'.home root)
  rw [Memory.params,(t.sameUnions m').home]
  exact Nat.lt_of_lt_of_le (hc c hj n hn) hgrown

/-- What holds at the start of some builds holds after them. -/
theorem builds {l : List Turn} (hw : x.Written s m) (hq : ∀ u ∈ l, x.query u.root)
    (hstem : ∀ u ∈ l, u.setting.stem = s.stem) (h : Between x s m m') : Between x s m (Turn.after m' l) := by
  induction l generalizing m' with
  | nil => exact h
  | cons u l ih =>
    exact ih (fun v hv => hq v (.tail _ hv)) (fun v hv => hstem v (.tail _ hv))
      (h.perform hw (hq u (.head _)) (hstem u (.head _)))

/-- A query stays clear through builds of it and builds that do not write to the parameters of its members. -/
theorem clear_after {l : List Turn} {root : Nat} (hw : x.Written s m) (hq : ∀ u ∈ l, x.query u.root)
    (hstem : ∀ u ∈ l, u.setting.stem = s.stem) (hroot : m.Holds (m.home root))
    (hapart : ∀ u ∈ l, ∀ c, TransGen (Request.Joins m) root c → m.Writes u.root (m.home c) → u.root = root)
    (h : Between x s m m') (hc : Clear s m m' root) : Clear s m (Turn.after m' l) root := by
  induction l generalizing m' with
  | nil => exact hc
  | cons u l ih =>
    have hu := hq u (.head _)
    refine ih (fun v hv => hq v (.tail _ hv)) (fun v hv => hstem v (.tail _ hv)) (fun v hv => hapart v (.tail _ hv))
      (h.perform hw hu (hstem u (.head _))) ?_
    by_cases hsame : u.root = root
    · subst hsame
      exact h.clear_self hw hu (hstem u (.head _)) hroot hc
    · exact h.clear_other hc (fun c hj ht => hsame (hapart u (.head _) c hj ht))

end Between

/-! ## Builds one after the other -/

/-- Queries with parameters of their own and none in them, in a memory without expressions, have no written names. -/
theorem Extent.written_bare {roots : Nat → Prop} (hm : m.bare)
    (hp : m.queries.all (fun q => q.params.isEmpty && q.home.isNone)) : (Extent.joint m roots).Written s m where
  params c _ := by
    have hc := Memory.all_getD (y := {}) (n := c) hp rfl
    rw [Bool.and_eq_true] at hc
    have hhome : m.home c = .query c := Memory.home_of_none (Option.isNone_iff_eq_none.mp hc.2)
    have hparams : m.params c = [] := by
      rw [Memory.params,hhome]
      exact List.isEmpty_iff.mp hc.1
    rw [hparams]
    exact ⟨.nil,fun n => by simp [Entries.names]⟩
  expression sql params hx := by
    have hroots : ∀ r : Nat, ∀ v ∈ (Request.query r).roots m, v.bare := fun r v hv => List.mem_singleton.mp hv ▸ rfl
    rcases hx with hx | ⟨t,hx⟩ | ⟨n,hx⟩ | ⟨r,-,hx⟩
    · cases hx
    · cases hx
    · cases hx
    · exact absurd (Request.extent_expression hm (hroots r) hx) Bool.false_ne_true

def Turn.Roots (turns : List Turn) (root : Nat) : Prop := ∃ u ∈ turns, u.root = root

/-- A build is right if the placeholders of its SQL are numbered strictly upward, and each stands in the collection that
is returned for the literal at its own place. -/
def Turn.Right (m : Memory) (t : Turn) : Prop :=
  ∀ sql params m', t.perform m = (.ok (sql,params),m') →
    ∃ es, params.entries? m' = some es ∧
      ∃ ns : List Nat, ns.Pairwise (· < ·) ∧ sql.placeholders = ns.map t.setting.placeholderName ∧
        List.Forall₂ (fun n v => es.field? (t.setting.placeholderName n) = some v) ns (t.request.literals t.setting m)

/-- Whatever has been built before, a build is right if no member has a name that is still to be counted, whoever has
left it there. That is so if whoever has written to the parameters of one of its members has built the same query. No
name that was written is a number behind the stem, which is the same for all builds. -/
theorem builds_correct (m : Memory) (earlier : List Turn) (t : Turn)
    (hstem : ∀ u ∈ earlier, u.options.stem = t.options.stem) (hroot : m.Holds (m.home t.root))
    (hw : (Extent.joint m (Turn.Roots (t :: earlier))).Written t.setting m) :
    (Clear t.setting m (Turn.after m earlier) t.root → t.Right (Turn.after m earlier)) ∧
      ((∀ u ∈ earlier, ∀ c, TransGen (Request.Joins m) t.root c → m.Writes u.root (m.home c) → u.root = t.root) →
        Clear t.setting m (Turn.after m earlier) t.root) := by
  have hq : ∀ u ∈ t :: earlier, (Extent.joint m (Turn.Roots (t :: earlier))).query u.root :=
    fun u hu => ⟨u.root,⟨u,hu,rfl⟩,.refl⟩
  have hstart := Between.start hw (Extent.closed_joint m _)
  constructor
  · intro hc sql params m' hp
    have hb := Between.builds hw (fun u hu => hq u (.tail _ hu)) hstem hstart
    have hheld : (Turn.after m earlier).Holds ((Turn.after m earlier).home t.root) := by
      rw [hb.unions.home]
      exact (hb.unions.holds _).mpr hroot
    obtain ⟨ho,hes⟩ := Request.perform_ok (.inr ⟨_,rfl,hheld⟩) hp
    obtain ⟨ns,hlt,hsql,-,hv⟩ := Request.bound_in_order (hb.sound hw (hq t (.head _)) rfl hc)
      (hb.uncounted hw (hq t (.head _)) rfl hc) ho
    exact ⟨_,hes,ns,hlt,hsql,hv⟩
  · intro hapart
    have hfirst : Clear t.setting m m t.root := by
      intro c hj n hn
      exact absurd hn ((hw.params c ⟨t.root,⟨t,.head _,rfl⟩,hj.to_reflTransGen⟩).2 n)
    exact Between.clear_after hw (fun u hu => hq u (.tail _ hu)) hstem hroot hapart hstart hfirst

def Memory.unions : Memory where
  queries := #[{ columns := [.name "id"],tables := [.name "m"] },{ columns := [.name "id"],tables := [.name "n"] },
    { tables := [.name "t"],filter := .mapping [(.text "a",.int 1)],members := [.query 0] },
    { tables := [.name "u"],filter := .mapping [(.text "b",.int 2)],members := [.query 1] },
    { tables := [.name "v"],filter := .mapping [(.text "c",.int 3)],members := [.query 0] }]

theorem Memory.written_unions (turns : List Turn) :
    (Extent.joint unions (Turn.Roots turns)).Written s unions := Extent.written_bare (by decide +kernel) (by decide +kernel)

/-- The first of the three queries has the same member as the last, and the member has none. -/
theorem Memory.member_unions {root : Nat} (hr : root = 2 ∨ root = 4) (h : TransGen (Request.Joins unions) root c) :
    c = 0 := by
  induction h with
  | single h => rcases hr with rfl | rfl <;> simpa [Request.Joins,query,unions] using h
  | tail _ h ih =>
    subst ih
    simp [Request.Joins,query,unions] at h

/-- The second of them writes to its own parameters and to those of a member of its own. -/
theorem Memory.written_to_unions {home : Home} (h : unions.Writes 3 home) :
    home = .query 3 ∨ home = .query 1 := by
  obtain ⟨c,hc,rfl⟩ := h
  have htouched : c = 3 ∨ c = 1 := by
    induction hc with
    | refl => exact .inl rfl
    | tail _ h ih =>
      rcases ih with rfl | rfl
      · exact .inr (by simpa [Request.Joins,query,unions] using h)
      · simp [Request.Joins,query,unions] at h
  rcases htouched with rfl | rfl
  · exact .inl rfl
  · exact .inr rfl

def Turn.unionSql (table column name : String) : Sql :=
  [.text "SELECT *",.text " ",.text "FROM ",.path ⟨[table],false⟩,.text " ",.text "WHERE ",.path ⟨[column],false⟩,
    .text "=",.placeholder name,.text " ",.text "UNION (\n",.text "SELECT ",.path ⟨["id"],false⟩,.text " ",
    .text "FROM ",.path ⟨["m"],false⟩,.text "\n)"]

/-- Two queries that are built again. Another query was built between that has a member of its own, or that has left its
own binding with the same member, under a name that has been counted. -/
theorem builds_correct_again :
    (∃ ns : List Nat, (Turn.unionSql "t" "a" "qp1").placeholders = ns.map (({} : Options).setting .sqlite).placeholderName ∧
      List.Forall₂ (fun n v => Entries.field? [(.text "qp0",.int 1),(.text "qp1",.int 1)]
        ((({} : Options).setting .sqlite).placeholderName n) = some v) ns [.int 1]) ∧
    ∃ ns : List Nat, (Turn.unionSql "v" "c" "qp1").placeholders = ns.map (({} : Options).setting .sqlite).placeholderName ∧
      List.Forall₂ (fun n v => Entries.field? [(.text "qp0",.int 3),(.text "qp1",.int 3)]
        ((({} : Options).setting .sqlite).placeholderName n) = some v) ns [.int 3] := by
  constructor
  · have hp : ((Turn.mk {} .sqlite 2).perform (Turn.after .unions [⟨{},.sqlite,2⟩,⟨{},.sqlite,3⟩])).1 = .ok
        (Turn.unionSql "t" "a" "qp1",.mapping [(.text "qp0",.int 1),(.text "qp1",.int 1)]) := by with_unfolding_all rfl
    have hl : (Turn.mk {} .sqlite 2).request.literals (Turn.mk {} .sqlite 2).setting
        (Turn.after .unions [⟨{},.sqlite,2⟩,⟨{},.sqlite,3⟩]) = [.int 1] := by with_unfolding_all rfl
    obtain ⟨hright,hclear⟩ := builds_correct .unions [⟨{},.sqlite,2⟩,⟨{},.sqlite,3⟩] ⟨{},.sqlite,2⟩ (by simp)
      (show 2 < 5 by decide) (Memory.written_unions _)
    have hapart : ∀ u ∈ [(⟨{},.sqlite,2⟩ : Turn),⟨{},.sqlite,3⟩], ∀ c, TransGen (Request.Joins .unions) 2 c →
        Memory.unions.Writes u.root (Memory.unions.home c) → u.root = 2 := by
      intro u hu c hj ht
      rcases List.mem_cons.mp hu with rfl | hu
      · rfl
      · rw [List.mem_singleton.mp hu,Memory.member_unions (.inl rfl) hj] at ht
        rcases Memory.written_to_unions ht with h | h <;> cases h
    obtain ⟨es,hes,ns,-,hns,hv⟩ := hright (hclear hapart) _ _ _ (Prod.ext hp rfl)
    cases hes
    rw [hl] at hv
    exact ⟨ns,hns,hv⟩
  · have hp : ((Turn.mk {} .sqlite 4).perform (Turn.after .unions [⟨{},.sqlite,4⟩,⟨{},.sqlite,2⟩])).1 = .ok
        (Turn.unionSql "v" "c" "qp1",.mapping [(.text "qp0",.int 3),(.text "qp1",.int 3)]) := by with_unfolding_all rfl
    have hl : (Turn.mk {} .sqlite 4).request.literals (Turn.mk {} .sqlite 4).setting
        (Turn.after .unions [⟨{},.sqlite,4⟩,⟨{},.sqlite,2⟩]) = [.int 3] := by with_unfolding_all rfl
    obtain ⟨hright,-⟩ := builds_correct .unions [⟨{},.sqlite,4⟩,⟨{},.sqlite,2⟩] ⟨{},.sqlite,4⟩ (by simp)
      (show 4 < 5 by decide) (Memory.written_unions _)
    have hclear : Clear (({} : Options).setting .sqlite) .unions (Turn.after .unions [⟨{},.sqlite,4⟩,⟨{},.sqlite,2⟩]) 4 := by
      intro c hj n hn
      have hmember : (Turn.after .unions [⟨{},.sqlite,4⟩,⟨{},.sqlite,2⟩]).params 0 = [(.text "qp0",.int 3)] := by with_unfolding_all rfl
      have hroot : (Turn.after .unions [⟨{},.sqlite,4⟩,⟨{},.sqlite,2⟩]).params 4 = [(.text "qp0",.int 3)] := by with_unfolding_all rfl
      rw [Memory.member_unions (.inr rfl) hj,hmember] at hn
      rw [hroot]
      have hzero : (({} : Options).setting .sqlite).placeholderName n = (({} : Options).setting .sqlite).placeholderName 0 :=
        List.mem_singleton.mp hn
      rw [Setting.placeholderName_inj] at hzero
      simp [hzero]
    obtain ⟨es,hes,ns,-,hns,hv⟩ := hright hclear _ _ _ (Prod.ext hp rfl)
    cases hes
    rw [hl] at hv
    exact ⟨ns,hns,hv⟩

/-- Another query with the same member is built first: the member brings a name that is counted again. -/
theorem shared_member_disturbs :
    (Extent.joint .unions (Turn.Roots [⟨{},.sqlite,4⟩,⟨{},.sqlite,2⟩])).Written (({} : Options).setting .sqlite) .unions ∧
      (Turn.mk {} .sqlite 4).request.literals (Turn.mk {} .sqlite 4).setting (Turn.after .unions [⟨{},.sqlite,2⟩]) =
        [.int 3] ∧
      ((Turn.mk {} .sqlite 4).perform (Turn.after .unions [⟨{},.sqlite,2⟩])).1 = .ok
        (Turn.unionSql "v" "c" "qp0",.mapping [(.text "qp0",.int 1)]) := by
  refine ⟨Memory.written_unions _,?_,?_⟩
  · with_unfolding_all rfl
  · with_unfolding_all rfl

end SqlCompose
