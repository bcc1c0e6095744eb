import SqlCompose.Proofs.OrdinaryRequests
import SqlCompose.Proofs.ShownValues

/-! # Cells that nothing refers to

A query in a cell that no other cell refers to stays unseen: whatever a statement comes upon, and whatever that shows,
does not refer to the cell either.
-/
namespace SqlCompose
open Relation
open Request (Joins)

variable {m : Memory} {k c : Nat} {v w : Value} {es : Entries} {s : Setting} {d e : Draft} {x y : Extent}

/-- Whether a value refers neither to the query in a cell nor to its parameters. -/
inductive Value.Omits (k : Nat) : Value → Prop where
  | null : Omits k .null
  | bool (b : Bool) : Omits k (.bool b)
  | int (n : Int) : Omits k (.int n)
  | float (x : Number.Binary64) : Omits k (.float x)
  | text (t : String) : Omits k (.text t)
  | bytes (b : List UInt8) : Omits k (.bytes b)
  | operator (op : Operator) : Omits k (.operator op)
  | direction (d : Direction) : Omits k (.direction d)
  | range (start stop step : Int) : Omits k (.range start stop step)
  | raw (sql : String) : Omits k (.raw sql)
  | stream (cell : Nat) : Omits k (.stream cell)
  | list {items : List Value} (h : ∀ v ∈ items, Omits k v) : Omits k (.list items)
  | tuple {items : List Value} (h : ∀ v ∈ items, Omits k v) : Omits k (.tuple items)
  | set {items : List Value} (h : ∀ v ∈ items, Omits k v) : Omits k (.set items)
  | mapping {entries : Entries} (hk : ∀ e ∈ entries, Omits k e.1) (hv : ∀ e ∈ entries, Omits k e.2) :
    Omits k (.mapping entries)
  | expression {sql : String} {params : Entries} (hk : ∀ e ∈ params, Omits k e.1) (hv : ∀ e ∈ params, Omits k e.2) :
    Omits k (.expression sql params)
  | pairs {columns : List (String × Value)} (h : ∀ c ∈ columns, Omits k c.2) : Omits k (.pairs columns)
  | operation {op : Operator} {operands : List Value} (h : ∀ v ∈ operands, Omits k v) : Omits k (.operation op operands)
  | join {keyword table : String} {on : Value} (h : Omits k on) : Omits k (.join keyword table on)
  | scope {params namePrefix : Value} (hp : Omits k params) (hn : Omits k namePrefix) : Omits k (.scope params namePrefix)
  | shared {home : Home} (h : home ≠ .query k) : Omits k (.shared home)
  | query {cell : Nat} (h : cell ≠ k) : Omits k (.query cell)

attribute [simp] Value.Omits.null Value.Omits.bool Value.Omits.int Value.Omits.text Value.Omits.mapping
  Value.Omits.shared Value.Omits.query

@[simp] theorem Value.omits_list {items : List Value} : Value.Omits k (.list items) ↔ ∀ v ∈ items, v.Omits k :=
  ⟨fun h => by cases h with | list h => exact h,.list⟩

@[simp] theorem Value.omits_tuple {items : List Value} : Value.Omits k (.tuple items) ↔ ∀ v ∈ items, v.Omits k :=
  ⟨fun h => by cases h with | tuple h => exact h,.tuple⟩

structure Memory.Fresh (m : Memory) (k : Nat) : Prop where
  streams : ∀ n, ∀ v ∈ m.stream n, v.Omits k
  mappings : ∀ home, home ≠ .query k → ∀ e ∈ m.mapping home, e.1.Omits k ∧ e.2.Omits k
  clauses : ∀ c, c ≠ k → ∀ f ∈ (m.query c).fields .null, f.2.Omits k
  homes : ∀ c, c ≠ k → m.home c ≠ .query k

namespace Value.Omits

theorem ofField {f : String × Value} (h : f.2.Omits k) : (Value.ofField f).Omits k := by
  refine .tuple (fun v hv => ?_)
  simp only [List.mem_cons,List.not_mem_nil,or_false] at hv
  rcases hv with rfl | rfl
  · exact .text _
  · exact h

theorem ofFields {fs : List (String × Value)} (h : ∀ f ∈ fs, f.2.Omits k) : ∀ v ∈ fs.map Value.ofField, v.Omits k := by
  intro v hv
  obtain ⟨f,hf,rfl⟩ := List.mem_map.mp hv
  exact ofField (h f hf)

end Value.Omits

namespace Memory.Fresh

/-- The fields of a query, its parameters among them. -/
theorem fields (h : m.Fresh k) (hc : c ≠ k) : ∀ f ∈ m.fields c, f.2.Omits k := by
  intro f hf
  by_cases hp : f.2 = .shared (m.home c)
  · rw [hp]
    exact .shared (h.homes c hc)
  · refine h.clauses c hc f ?_
    simp only [Memory.fields,Query.fields,List.mem_cons,List.not_mem_nil,or_false] at hf
    simp only [Query.fields,List.mem_cons,List.not_mem_nil,or_false]
    rcases hf with hf | hf | hf | hf | hf | hf | hf | hf | hf | hf | hf | hf | hf
    all_goals first | exact absurd (congrArg Prod.snd hf) hp | simp [hf]

theorem ofEntries (h : m.Fresh k) (hv : v.Omits k) (he : v.entries? m = some es) :
    ∀ e ∈ es, e.1.Omits k ∧ e.2.Omits k := by
  cases hv with
  | mapping hk hv =>
    cases he
    exact fun e he => ⟨hk e he,hv e he⟩
  | shared hh =>
    cases he
    exact h.mappings _ hh
  | _ => cases he

theorem ofFields {fs : List (String × Value)} (h : m.Fresh k) (hv : v.Omits k) (hf : v.fields? m = some fs) :
    ∀ f ∈ fs, f.2.Omits k := by
  cases hv with
  | expression hk hv =>
    cases hf
    simpa using .mapping hk hv
  | raw sql =>
    cases hf
    simp
  | pairs hc =>
    cases hf
    have hnames : Value.Omits k (.mapping (Entries.ofNames _)) :=
      .mapping (List.forall_mem_map.mpr (fun c _ => .text c.1)) (List.forall_mem_map.mpr hc)
    simpa using hnames
  | operation ho =>
    cases hf
    simpa using ⟨.operator _,ho⟩
  | join hon =>
    cases hf
    simpa using hon
  | query hc =>
    cases hf
    exact h.fields hc
  | _ => cases hf

theorem ofElements {items : List Value} (h : m.Fresh k) (hv : v.Omits k) (hi : v.elements? m = some items) :
    ∀ w ∈ items, w.Omits k := by
  have hchars : ∀ t : String, ∀ w ∈ Value.ofChars t, w.Omits k := by
    intro t w hw
    obtain ⟨c,-,rfl⟩ := List.mem_map.mp hw
    exact .text _
  have hkeys : ∀ {es : Entries}, (∀ e ∈ es, e.1.Omits k ∧ e.2.Omits k) → ∀ w ∈ es.keys, w.Omits k := by
    intro es hes w hw
    obtain ⟨e,he,rfl⟩ := List.mem_map.mp hw
    exact (hes e he).1
  have hfields := fun fs (hf : v.fields? m = some fs) => Value.Omits.ofFields (h.ofFields hv hf)
  have hentries := fun es (he : v.entries? m = some es) => hkeys (h.ofEntries hv he)
  cases hv with
  | text t | operator t | direction t => cases hi; exact hchars _
  | list hl | tuple hl | set hl => cases hi; exact hl
  | bytes b => cases hi; exact List.forall_mem_map.mpr (fun _ _ => .int _)
  | range start stop step => cases hi; exact List.forall_mem_map.mpr (fun _ _ => .int _)
  | stream n => cases hi; exact h.streams n
  | mapping hk hv => cases hi; exact hentries _ rfl
  | shared hh => cases hi; exact hentries _ rfl
  | expression hk hv => cases hi; exact hfields _ rfl
  | raw sql => cases hi; exact hfields _ rfl
  | pairs hc => cases hi; exact hfields _ rfl
  | operation ho => cases hi; exact hfields _ rfl
  | join hon => cases hi; exact hfields _ rfl
  | query hc => cases hi; exact hfields _ rfl
  | _ => cases hi

/-- What a value lists, what stands under its keys, and its fields. -/
theorem part (h : m.Fresh k) (hv : v.Omits k) (hw : w ∈ v.parts m) : w.Omits k := by
  unfold Value.parts at hw
  rw [List.mem_append,List.mem_append] at hw
  rcases hw with (hw | hw) | hw
  · cases hi : v.elements? m with
    | none =>
      rw [hi] at hw
      cases hw
    | some items =>
      rw [hi] at hw
      exact h.ofElements hv hi w hw
  · cases he : v.entries? m with
    | none =>
      rw [he] at hw
      cases hw
    | some es =>
      rw [he] at hw
      obtain ⟨e,hm,rfl⟩ := List.mem_map.mp hw
      exact (h.ofEntries hv he e hm).2
  · cases hf : v.fields? m with
    | none =>
      rw [hf] at hw
      cases hw
    | some fs =>
      rw [hf] at hw
      obtain ⟨f,hm,rfl⟩ := List.mem_map.mp hw
      exact h.ofFields hv hf f hm

end Memory.Fresh

/-! ## While a query is composed -/

def Extent.omitting (k : Nat) : Extent where
  value := Value.Omits k
  query c := c ≠ k
  member c := c ≠ k
  null := .null
  text := .text
  int := .int

theorem Extent.closed_omitting (h : m.Fresh k) : (Extent.omitting k).Closed m where
  parts _ hv _ hw := h.part hv hw
  query _ hc := .query hc
  member _ hc := hc
  joined c hc c' hj := by
    have hunion : (Value.list ((m.query c).members.map Member.toValue)).Omits k :=
      h.clauses c hc ("UNION",_) (by simp [Query.fields])
    have hmember : (Value.query c').Omits k :=
      h.part hunion (Value.mem_parts_of_elements rfl (List.mem_map_of_mem (f := Member.toValue) hj))
    cases hmember with
    | query hne => exact ⟨hne,hne⟩

/-- A step in an extent is one in any extent that has all its values and members. -/
theorem Extent.Step.mono (st : x.Step s d e) (hv : ∀ v, x.value v → y.value v) (hm : ∀ c, x.member c → y.member c) :
    y.Step s d e := by
  cases st with
  | bind h => exact .bind d (hv _ h)
  | adopt h => exact .adopt d (hv _ h)
  | take h => exact .take d (hm _ h)
  | hand h => exact .hand d (hm _ h)
  | drain h => exact .drain d h

/-- What is shown by a value that does not refer to the cell does not refer to it either. -/
theorem Extent.Covers.omits_shown (hd : (Extent.omitting k).Covers s d) (hv : v.Omits k)
    (hw : w ∈ v.shown (d.view s)) : w.Omits k := by
  have hentries : ∀ {es : Entries}, (Extent.omitting k).Has es → w ∈ es.keys ++ es.values → w.Omits k := by
    intro es hes hw
    rcases List.mem_append.mp hw with hw | hw
    · obtain ⟨e,he,rfl⟩ := List.mem_map.mp hw
      exact (hes e he).1
    · obtain ⟨e,he,rfl⟩ := List.mem_map.mp hw
      exact (hes e he).2
  cases hv with
  | list h | tuple h | set h | operation h => exact h w hw
  | mapping hk hv => exact hentries (fun e he => ⟨hk e he,hv e he⟩) hw
  | expression hk hv => exact hentries (fun e he => ⟨hk e he,hv e he⟩) hw
  | pairs h =>
    obtain ⟨c,hc,rfl⟩ := List.mem_map.mp hw
    exact h c hc
  | join h => exact List.mem_singleton.mp hw ▸ h
  | scope hp hn =>
    simp only [Value.shown,List.mem_cons,List.not_mem_nil,or_false] at hw
    rcases hw with rfl | rfl
    · exact hp
    · exact hn
  | shared h => exact hentries (hd.mapping (Value.Omits.shared h)) hw
  | query h =>
    obtain ⟨f,hf,rfl⟩ := List.mem_map.mp hw
    exact hd.fields (Value.Omits.query h) rfl f hf
  | _ => cases hw

theorem Extent.Covers.clear (hd : (Extent.omitting k).Covers s d) (hv : v.Omits k) :
    v.Clear (fun home => home = .query k) (d.view s) := by
  have hall : ∀ w, v.Shows (d.view s) w → w.Omits k := by
    intro w hw
    induction hw with
    | refl => exact hv
    | tail _ hw ih => exact hd.omits_shown ih hw
  rintro home rfl hs
  cases hall _ hs with
  | shared h => exact h rfl

namespace Request
variable {root : Nat}

/-- What a query comes upon does not refer to a cell to which nothing refers. -/
theorem omits_extent (h : m.Fresh k) (hr : root ≠ k) (hv : ((query root).extent m).value v) : v.Omits k := by
  rcases hv with ⟨start,hroot,hv⟩ | rfl | ⟨t,rfl⟩ | ⟨n,rfl⟩
  · rw [List.mem_singleton.mp hroot] at hv
    exact hv.induct (.query hr) (fun _ hv _ hw => h.part hv hw)
  · exact .null
  · exact .text t
  · exact .int n

theorem ne_of_joins (h : m.Fresh k) (hr : root ≠ k) (hc : ReflTransGen (Joins m) root c) : c ≠ k := by
  induction hc with
  | refl => exact hr
  | tail _ hj ih => exact ((Extent.closed_omitting h).joined _ ih _ hj).1

/-- Nor does anything that it comes upon on the way. -/
theorem ComesTo.omitting (hs : s.collection = .own) (h : m.Fresh k) (hr : root ≠ k) (hd : (query root).ComesTo s m d) :
    (Extent.omitting k).Covers ((query root).setting s m) d := by
  have hclosed := Extent.closed_omitting h
  have hstart : (Extent.omitting k).Covers ((query root).setting s m) ((query root).start s m) :=
    hclosed.covers hs (hclosed.params (c := root) hr)
  have hmember : ∀ c, ((query root).extent m).member c → c ≠ k := by
    rintro c ⟨cell,⟨⟩,hc⟩
    exact ne_of_joins h hr hc.to_reflTransGen
  have hsteps : ReflTransGen ((Extent.omitting k).Step ((query root).setting s m)) ((query root).start s m) d :=
    ReflTransGen.mono (fun _ _ st => Extent.Step.mono st (fun _ => omits_extent h hr) hmember) _ _ hd
  exact Extent.covers_of_steps hsteps hstart

end Request

end SqlCompose
