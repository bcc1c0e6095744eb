import SqlCompose.Proofs.StandaloneMembers

/-! # Queries that are the same

Two queries with the same clauses and parameters give the same statement, as long as the one is not come upon while the
other is composed. Where the parameters that take the bindings are looked into, they are not the same any more. This is
ruled out for a query in a new cell: nothing refers to it but itself.
-/
namespace SqlCompose
open Relation Build
open Request (Joins)

variable {s : Setting} {m : Memory} {root k n c : Nat} {d e : Draft} {v w : Value}

/-! ## Values that refer to earlier queries -/

def Value.Below (n : Nat) (v : Value) : Prop := ∀ k, n ≤ k → v.Omits k

/-- Whether everything in memory refers only to queries before a cell. -/
structure Memory.Below (n : Nat) (m : Memory) : Prop where
  streams : ∀ c, ∀ v ∈ m.stream c, v.Below n
  mappings : ∀ c, ∀ e ∈ m.mapping (.cell c), e.1.Below n ∧ e.2.Below n
  queries : ∀ c, (m.query c).Made (Value.Below n)
  /-- Later cells keep no parameters but their own. -/
  homes : ∀ c k, n ≤ k → c ≠ k → m.home c ≠ .query k

theorem Value.Below.more {n' : Nat} (h : v.Below n) (hn : n ≤ n') : v.Below n' := fun k hk => h k (Nat.le_trans hn hk)

theorem Value.below_query : (Value.query c).Below n ↔ c < n := by
  constructor
  · intro h
    by_contra hle
    cases h c (Nat.not_lt.mp hle) with
    | query hne => exact hne rfl
  · exact fun h k hk => .query (Nat.ne_of_lt (Nat.lt_of_lt_of_le h hk))

theorem Value.below_list {items : List Value} : (Value.list items).Below n ↔ ∀ v ∈ items, v.Below n :=
  ⟨fun h v hv k hk => Value.omits_list.mp (h k hk) v hv,fun h k hk => .list (fun v hv => h v hv k hk)⟩

/-- Members of a query that refers to earlier queries only are earlier. -/
theorem Query.Made.member_lt {q : Query} (h : q.Made (Value.Below n)) (hc : .query c ∈ q.members) : c < n := by
  have hunion : (Value.list (q.members.map Member.toValue)).Below n := h.fields ("UNION",_) (by simp [Query.fields])
  exact Value.below_query.mp (Value.below_list.mp hunion _ (List.mem_map_of_mem (f := Member.toValue) hc))

namespace Memory.Below

theorem mapping (h : m.Below n) (home : Home) : ∀ e ∈ m.mapping home, e.1.Below n ∧ e.2.Below n := by
  cases home with
  | cell c => exact h.mappings c
  | query c => exact (h.queries c).params

theorem fresh (h : m.Below n) (hk : n ≤ k) : m.Fresh k where
  streams c v hv := h.streams c v hv k hk
  mappings home _ e he := ⟨(h.mapping home e he).1 k hk,(h.mapping home e he).2 k hk⟩
  clauses c _ f hf := (h.queries c).fields f hf k hk
  homes c := h.homes c k hk

theorem part (h : m.Below n) (hv : v.Below n) (hw : w ∈ v.parts m) : w.Below n :=
  fun k hk => (h.fresh hk).part (hv k hk) hw

end Memory.Below

def Extent.below (n : Nat) : Extent where
  value := Value.Below n
  query c := c < n
  member c := c < n
  null _ _ := .null
  text t _ _ := .text t
  int i _ _ := .int i

namespace Extent

theorem covers_below (h : ∀ k, n ≤ k → (omitting k).Covers s d) : (below n).Covers s d where
  parts v hv p hp k hk := (h k hk).parts v (hv k hk) p hp
  own home hc hv e he :=
    ⟨fun k hk => ((h k hk).own home hc (hv k hk) e he).1,fun k hk => ((h k hk).own home hc (hv k hk) e he).2⟩
  clauses c hc f hf k hk := (h k hk).clauses c (Nat.ne_of_lt (Nat.lt_of_lt_of_le hc hk)) f hf
  members c hc c' hc' := by
    have hne : ∀ k, n ≤ k → c' ≠ k :=
      fun k hk => ((h k hk).members c (Nat.ne_of_lt (Nat.lt_of_lt_of_le hc hk)) c' hc').1
    have hlt : c' < n := Nat.not_le.mp (fun hle => hne c' hle rfl)
    exact ⟨hlt,hlt⟩
  merged c hc := by
    have hmerged := fun k hk => (h k hk).merged c (Nat.ne_of_lt (Nat.lt_of_lt_of_le hc hk))
    exact ⟨fun e he => ⟨fun k hk => ((hmerged k hk).1 e he).1,fun k hk => ((hmerged k hk).1 e he).2⟩,
      fun e he => ⟨fun k hk => ((hmerged k hk).2 e he).1,fun k hk => ((hmerged k hk).2 e he).2⟩⟩

/-- A step among earlier queries is one that leaves any later query out. -/
theorem Step.omitting (st : (below n).Step s d e) (hk : n ≤ k) : (omitting k).Step s d e :=
  st.mono (fun _ hv => hv k hk) (fun _ hc => Nat.ne_of_lt (Nat.lt_of_lt_of_le hc hk))

end Extent

namespace Memory

theorem setQuery_self (m : Memory) (c : Nat) : m.setQuery c (m.query c) = m := by
  have hqueries : m.queries.setIfInBounds c (m.query c) = m.queries := by
    refine Array.ext_getElem? (fun i => ?_)
    rw [Array.getElem?_setIfInBounds]
    split
    · next hi =>
      subst hi
      split
      · next hc => simp [query,hc]
      · next hc => simp [Nat.not_lt.mp hc]
    · rfl
  unfold setQuery
  rw [hqueries]

end Memory

namespace Query

/-- Two queries with the same clauses and parameters, where nothing refers to the later one, which keeps its own. -/
structure Twin (m : Memory) (root k : Nat) : Prop where
  spare : Spare m root k
  same : m.query k = m.detached root

theorem Twin.params_eq (h : Twin m root k) : m.params k = m.params root := by
  rw [Memory.params,h.spare.home,Memory.mapping,h.same]
  rfl

theorem Twin.image_begun (h : Twin m root k) :
    (begun m root).beside (m.home root) k (m.params root) (m.detached root) 0 = begun m k := by
  simp only [begun,Draft.beside,Draft.mk.injEq]
  refine ⟨h.params_eq.symm,?_,rfl⟩
  rw [← h.same,Memory.params,Memory.setMapping_self,Memory.setQuery_self]

theorem Twin.query_image (h : Twin m root k) :
    ((begun m root).beside (m.home root) k (m.params root) (m.detached root) 0).memory.query k = m.detached root := by
  rw [h.image_begun]
  exact h.same

theorem Twin.build_of_image (h : Twin m root k)
    (hrun : (compile (within s (.query k)) k).runOn (begun m k) =
      ((compile (within s (m.home root)) root).runOn (begun m root)).map id
        (Draft.beside (m.home root) k (m.params root) (m.detached root) 0)) :
    (build s (.query k) m).1 = (build s (.query root) m).1 := by
  rw [build_query,build_query,h.spare.home,hrun]
  rcases (compile (within s (m.home root)) root).runOn (begun m root) with ⟨f | sql,e⟩ <;> rfl

/-- A query and its twin give the same statement if the parameters of the query are not looked into, and if no member
keeps its own with them. -/
theorem Twin.build_eq (h : Twin m root k) (hs : s.collection = .own) (hl : m.Layered) (hheld : m.Holds (m.home root))
    (hown : Unread s m root (m.home root)) (hapart : Apart m root (m.home root)) :
    (build s (.query k) m).1 = (build s (.query root) m).1 := by
  let M := besideCopy hs hl hheld h.spare .refl hapart (m.params root) (m.detached root) 0
  have hfits : M.Fits (begun m root) := ⟨.refl,Nat.le_refl _⟩
  have hcovers := M.covers hfits
  have hclauses : ∀ {e}, M.Fits e → ∀ c', M.extent.query c' → M.Clauses (e.memory.query c') :=
    fun he _ hc' => clauses_of_fits hown he hc'
  refine h.build_of_image ?_
  rw [← h.image_begun]
  exact runOn_image M rfl hfits hclauses (hcovers.clauses root .refl) (hclauses hfits root .refl)
    (hcovers.members root .refl) (hl root) (Nat.le_of_lt h.spare.later) ⟨_,h.query_image⟩

/-! ## New queries -/

/-- While a query is composed that refers to earlier ones only, no later one is come upon, nor are its own bindings. -/
theorem covers_begun (hm : m.Below root) (hk : root ≤ k) :
    (Extent.omitting k).Covers (within s (m.home root)) (begun m root) := by
  have hview : (begun m root).view (within s (m.home root)) = m := Memory.setMapping_self m (m.home root)
  have hparams : ∀ c, (Extent.omitting k).Has (m.params c) :=
    fun c e he => ⟨(hm.mapping _ e he).1 k hk,(hm.mapping _ e he).2 k hk⟩
  have hclosed := Extent.closed_omitting (hm.fresh hk)
  refine ⟨fun v hv p hp => ?_,fun _ _ _ => hparams root,fun c _ f hf => (hm.queries c).fields f hf k hk,fun c hc c' hj => ?_,
    fun c _ => ⟨?_,hparams root⟩⟩
  · rw [hview] at hp
    exact hclosed.parts v hv p hp
  · exact hclosed.joined c hc c' hj
  · rw [hview]
    exact hparams c

/-- What refers to earlier queries only shows neither the bindings nor the twin. -/
theorem clear_of_below (hm : m.Below root) (hroot : m.home root = .query root) (hk : root < k)
    (hd : ReflTransGen ((Extent.below root).Step (within s (m.home root))) (begun m root) d) (hv : v.Below root) :
    v.Clear (Hidden (m.home root) k) (d.view (within s (m.home root))) := by
  have hcovers : ∀ j, root ≤ j → (Extent.omitting j).Covers (within s (m.home root)) d := fun j hj =>
    Extent.covers_of_steps (ReflTransGen.mono (fun _ _ st => st.omitting hj) _ _ hd) (covers_begun hm hj)
  rintro home (rfl | rfl)
  · exact (hcovers root (Nat.le_refl _)).clear (hv root (Nat.le_refl _)) _ hroot
  · exact (hcovers k (Nat.le_of_lt hk)).clear (hv k (Nat.le_of_lt hk)) _ rfl

theorem not_hidden_of_below (hroot : m.home root = .query root) (hk : root < k) {home : Home}
    (hv : (Value.shared home).Below root) : ¬ Hidden (m.home root) k home := by
  rintro (rfl | rfl)
  · cases hv root (Nat.le_refl _) with
    | shared h => exact h hroot
  · cases hv k (Nat.le_of_lt hk) with
    | shared h => exact h rfl

/-- Earlier queries keep their parameters neither with the new one nor with its twin. -/
theorem home_not_hidden (hm : m.Below root) (hroot : m.home root = .query root) (hk : root < k) (hc : c < root)
    (hhome : d.memory.home c = m.home c) : ¬ Hidden (m.home root) k (d.memory.home c) := by
  rw [hhome,hroot]
  rintro (h | h)
  · exact hm.homes c root (Nat.le_refl _) (Nat.ne_of_lt hc) h
  · exact hm.homes c k (Nat.le_of_lt hk) (Nat.ne_of_lt (hc.trans hk)) h

def besideTwin (s : Setting) (hm : m.Below root) (hroot : m.home root = .query root) (h : Twin m root k) : Mirror where
  extent := .below root
  left := within s (m.home root)
  right := within s (.query k)
  name := id
  image := Draft.beside (m.home root) k (m.params root) (m.detached root) 0
  Fits := ReflTransGen ((Extent.below root).Step (within s (m.home root))) (begun m root)
  home home := ¬ Hidden (m.home root) k home
  cell _ := True
  names := Value.Below root
  collection := .inr ⟨m.home root,.query k,rfl,rfl,fun h => h (.inl rfl),fun h => h (.inr rfl)⟩
  separator := rfl
  covers hd := Extent.covers_of_steps hd (Extent.covers_below (fun _ => covers_begun hm))
  keeps hd st := hd.tail st
  nextName _ := rfl
  bound v _ := Draft.bound_beside v (Nat.zero_le _)
  adopted _ _ := rfl
  taken := by
    intro d c hd hc
    rw [Draft.params_beside (Nat.ne_of_lt (hc.trans h.spare.later))
      (home_not_hidden hm hroot h.spare.later hc (Extent.home_of_steps hd c))]
    rfl
  handed {d c} hd hc := Draft.handed_beside (Nat.ne_of_lt (hc.trans h.spare.later))
    (home_not_hidden hm hroot h.spare.later hc (Extent.home_of_steps hd c))
  drained items _ _ := Draft.drained_beside items
  stream _ _ := Memory.stream_setMapping _ _ _ _
  own := by
    rintro d home - ⟨⟩ hh
    exact absurd (.inl rfl) hh
  mapping _ hh := Draft.mapping_beside hh
  query := by
    rintro d c - hc
    refine Draft.query_beside (Nat.ne_of_lt (Nat.lt_of_le_of_lt ?_ h.spare.later))
    rcases hc with hc | hv
    · exact Nat.le_of_lt hc
    · exact Nat.le_of_lt (Value.below_query.mp hv)
  quote _ := rfl
  looked := by
    rintro d v hd hv
    refine ⟨hv,?_,fun _ _ => trivial⟩
    rintro home rfl
    exact not_hidden_of_below hroot h.spare.later hv
  display {d v} hd hv := by
    have hhome : d.memory.home k = .query k := (Extent.home_of_steps hd k).trans h.spare.home
    exact (Draft.agrees_beside hhome).display (clear_of_below hm hroot h.spare.later hd hv)

/-- All conditions are mirrored. -/
theorem clauses_besideTwin {hm : m.Below root} {hroot : m.home root = .query root} {h : Twin m root k} (q : Query) :
    (besideTwin s hm hroot h).Clauses q := by
  have hrow : ∀ {v : Value}, v.Below root → (besideTwin s hm hroot h).Row v := by
    rintro v hv home rfl
    exact not_hidden_of_below hroot h.spare.later hv
  have hallows : ∀ t : Condition.Test, (besideTwin s hm hroot h).Allows t :=
    fun t => ⟨fun _ _ hv => .inr hv,fun _ _ hv => hrow hv,fun _ _ _ _ _ => trivial,fun _ _ _ hv => hrow hv⟩
  exact ⟨fun t _ => hallows t,fun t _ => hallows t,fun v _ => ⟨fun hv => hrow hv,fun _ _ _ t _ => hallows t⟩⟩

/-- A new query and its twin give the same statement, whatever they look into. -/
theorem Twin.build_eq_of_below (h : Twin m root k) (hm : m.Below root) (hroot : m.home root = .query root) :
    (build s (.query k) m).1 = (build s (.query root) m).1 := by
  have hmembers : ∀ c, .query c ∈ (m.query root).members → c < root := fun c hc => (hm.queries root).member_lt hc
  refine h.build_of_image ?_
  rw [← h.image_begun]
  exact runOn_image (besideTwin s hm hroot h) rfl .refl (fun _ _ _ => clauses_besideTwin _) (hm.queries root).fields
    (clauses_besideTwin _) (fun c hc => ⟨hmembers c hc,hmembers c hc⟩) hmembers (Nat.le_of_lt h.spare.later)
    ⟨_,h.query_image⟩

end Query

end SqlCompose
