import SqlCompose.Proofs.BuildFrame
import SqlCompose.Proofs.FreshCells

/-! # Members composed alone

A member of a union is written in the middle of a statement, with all bindings so far in hand. A copy of the member that
has these bindings among its parameters is a query of its own. Composing the copy gives the same text, the same bindings
and the same fault, as long as the mapping that takes the bindings is not itself looked into: in the one case it is the
statement's, in the other the copy's.
-/
namespace SqlCompose
open Relation Build
open Request (Joins)

variable {s : Setting} {m : Memory} {root k c : Nat} {d e : Draft} {home : Home} {u : Member} {sql : Sql}

/-! ## Mappings that are not looked into -/

structure Condition.Test.Overlooks (seen : Memory → Prop) (home : Home) (t : Condition.Test) : Prop where
  columns : ∀ m, seen m → ∀ c ∈ t.columns, ¬ c.Shows m (.shared home)
  mapping : t ≠ .simple (.shared home)
  rows : ∀ m, seen m → .shared home ∉ t.rows m

structure Join.Overlooks (seen : Memory → Prop) (home : Home) (v : Value) : Prop where
  entry : v ≠ .shared home
  condition : ∀ m, seen m → ∀ j, Join.ofValue? m v = some j → ∀ t ∈ Condition.tests j.on, t.Overlooks seen home

structure Query.Overlooks (seen : Memory → Prop) (home : Home) (q : Query) : Prop where
  filter : ∀ t ∈ Condition.tests q.filter, t.Overlooks seen home
  groupFilter : ∀ t ∈ Condition.tests q.groupFilter, t.Overlooks seen home
  joins : ∀ v ∈ q.joins, Join.Overlooks seen home v

/-- Whether a mapping is not looked into at any moment while a query is composed, by the query or by its members. -/
def Query.Unread (s : Setting) (m : Memory) (root : Nat) (home : Home) : Prop :=
  ∀ c, ReflTransGen (Joins m) root c → (m.query c).Overlooks ((Request.query root).Sees s m) home

/-- Whether no member of a query, at any depth, keeps its parameters in a mapping. -/
def Query.Apart (m : Memory) (cell : Nat) (home : Home) : Prop := ∀ c, TransGen (Joins m) cell c → m.home c ≠ home

/-- A place for copies of members: a later cell that nothing refers to, with parameters of its own. -/
structure Query.Spare (m : Memory) (root k : Nat) : Prop where
  held : m.Holds (.query k)
  later : root < k
  fresh : m.Fresh k
  home : m.home k = .query k

/-! ## Copies -/

def Memory.setQuery (m : Memory) (cell : Nat) (q : Query) : Memory :=
  { m with queries := m.queries.setIfInBounds cell q }

namespace Memory
variable {q : Query} {es params : Entries} {n : Nat}

theorem query_setQuery (m : Memory) (cell n : Nat) (q : Query) :
    (m.setQuery cell q).query n = if n = cell ∧ cell < m.queries.size then q else m.query n :=
  getD_setIfInBounds m.queries cell n q {}

theorem query_setQuery_of_ne (hn : n ≠ k) : (m.setQuery k q).query n = m.query n := by
  rw [query_setQuery,if_neg (fun h => hn h.1)]

theorem mapping_setQuery_of_ne (hh : home ≠ .query k) : (m.setQuery k q).mapping home = m.mapping home := by
  cases home with
  | cell n => rfl
  | query n =>
    simp only [mapping]
    rw [query_setQuery_of_ne (fun h => hh (congrArg Home.query h))]

theorem setMapping_setQuery (hh : home ≠ .query k) :
    (m.setQuery k q).setMapping home es = (m.setMapping home es).setQuery k q := by
  cases home with
  | cell n => rfl
  | query n =>
    have hn : n ≠ k := fun h => hh (congrArg Home.query h)
    unfold setQuery setMapping setParams
    simp only [mk.injEq,true_and]
    refine Array.ext_getElem? (fun i => ?_)
    simp only [Array.getElem?_modify,Array.getElem?_setIfInBounds,Array.size_modify]
    by_cases hi : n = i
    · subst hi
      simp [hn.symm]
    · simp [hi]

/-- Writing to two mappings can be done in any order. -/
theorem setMapping_comm {other : Home} (h : home ≠ other) :
    (m.setMapping other params).setMapping home es = (m.setMapping home es).setMapping other params := by
  cases home with
  | cell n =>
    cases other with
    | cell k =>
      have hn : k ≠ n := fun hk => h (congrArg Home.cell hk.symm)
      simp only [setMapping,Array.setIfInBounds_comm _ _ hn]
    | query k => rfl
  | query n =>
    cases other with
    | cell k => rfl
    | query k =>
      have hn : n ≠ k := fun hk => h (congrArg Home.query hk)
      simp only [setMapping,setParams,mk.injEq,true_and]
      refine Array.ext_getElem? (fun i => ?_)
      simp only [Array.getElem?_modify]
      by_cases hi : n = i
      · subst hi
        simp [hn.symm]
      · simp [hi]

theorem setStream_setMapping (m : Memory) (n : Nat) (items : List Value) (home : Home) (es : Entries) :
    (m.setMapping home es).setStream n items = (m.setStream n items).setMapping home es := by
  cases home <;> rfl

end Memory

def Draft.beside (home : Home) (k : Nat) (params : Entries) (q : Query) (before : Nat) (d : Draft) : Draft where
  bindings := d.bindings
  memory := (d.memory.setMapping home params).setQuery k q
  given := d.given.drop before

theorem Extent.Step.given_length {x : Extent} (st : x.Step s d e) : d.given.length ≤ e.given.length := by
  cases st with
  | bind _ => simp [Draft.bound]
  | _ => exact Nat.le_refl _

def Query.Hidden (home : Home) (k : Nat) (other : Home) : Prop := other = home ∨ other = .query k

namespace Draft
variable {params : Entries} {q : Query} {before n : Nat}

theorem query_beside (hk : n ≠ k) :
    ∃ es, (d.beside home k params q before).memory.query n = { d.memory.query n with params := es } := by
  simp only [beside]
  rw [Memory.query_setQuery_of_ne hk]
  exact d.memory.query_setMapping home n params

theorem mapping_beside {other : Home} (hh : ¬ Query.Hidden home k other) :
    ((d.beside home k params q before).view (Query.within s (.query k))).mapping other =
      (d.view (Query.within s home)).mapping other := by
  have hhome : other ≠ home := fun h => hh (.inl h)
  have hk : other ≠ .query k := fun h => hh (.inr h)
  rw [view_mapping_other (fun h => hk (Collection.shared.inj h.1).symm),
    view_mapping_other (fun h => hhome (Collection.shared.inj h.1).symm)]
  exact (Memory.mapping_setQuery_of_ne hk).trans (Memory.mapping_setMapping_of_ne hhome)

theorem agrees_beside (hk : d.memory.home k = .query k) : (d.view (Query.within s home)).Agrees (Query.Hidden home k)
    ((d.beside home k params q before).view (Query.within s (.query k))) where
  mappings := by
    simp only [view,Query.within,beside]
    cases home <;> simp [Memory.setMapping,Memory.setParams,Memory.setQuery]
  queries := by
    simp only [view,Query.within,beside]
    cases home <;> simp [Memory.setMapping,Memory.setParams,Memory.setQuery]
  mapping _ hh := mapping_beside hh
  fields cell hh := by
    have hne : cell ≠ k := by
      rintro rfl
      rw [view_home,hk] at hh
      exact hh (.inr rfl)
    rw [view_fields,view_fields]
    exact Memory.fields_of_query (query_beside hne)

theorem bound_beside (v : Value) (h : before ≤ d.given.length) :
    (d.beside home k params q before).bound (Query.within s (.query k)) v =
      (d.bound (Query.within s home) v).beside home k params q before := by
  simp only [bound,beside,mk.injEq,true_and]
  exact ⟨rfl,(List.drop_append_of_le_length h).symm⟩

/-- A query beside the copy that keeps its parameters in an open mapping shows the same parameters. -/
theorem params_beside (hc : c ≠ k) (hh : ¬ Query.Hidden home k (d.memory.home c)) :
    ((d.beside home k params q before).view (Query.within s (.query k))).params c =
      (d.view (Query.within s home)).params c := by
  rw [view_params,view_params,Memory.home_of_query (query_beside hc)]
  exact mapping_beside hh

theorem handed_beside (hc : c ≠ k) (hh : ¬ Query.Hidden home k (d.memory.home c)) :
    Query.handed (Query.within s (.query k)) c (d.beside home k params q before) =
      (Query.handed (Query.within s home) c d).beside home k params q before := by
  have hhome : d.memory.home c ≠ home := fun h => hh (.inl h)
  have hk : d.memory.home c ≠ .query k := fun h => hh (.inr h)
  unfold Query.handed
  rw [params_beside hc hh,Memory.home_of_query (query_beside hc)]
  simp only [beside]
  rw [Memory.setMapping_setQuery hk,Memory.setMapping_comm hhome]

theorem drained_beside (items : List Value) : (d.beside home k params q before).drained n items =
    (d.drained n items).beside home k params q before := by
  simp only [drained,beside,mk.injEq,true_and,and_true]
  exact congrArg (fun m => m.setQuery k q) (Memory.setStream_setMapping _ _ _ _ _)

end Draft

namespace Query

/-- What does not show the statement's bindings does not show those of the copy either. -/
theorem clear_hidden {v : Value} (hs : s.collection = .own) (hk : Spare m root k)
    (hd : (Request.query root).ComesTo s m d) (hv : ((Request.query root).extent m).value v)
    (hown : ¬ v.Shows (d.view (within s (m.home root))) (.shared (m.home root))) :
    v.Clear (Hidden (m.home root) k) (d.view (within s (m.home root))) := by
  have hne : root ≠ k := Nat.ne_of_lt hk.later
  have hcopy := (hd.omitting hs hk.fresh hne).clear (Request.omits_extent hk.fresh hne hv)
  rintro home (rfl | rfl)
  · exact hown
  · exact hcopy _ rfl

/-- What is come upon below one of the queries that a statement comes upon. -/
theorem covers_ofRoot (hs : s.collection = .own) (hheld : m.Holds (m.home root)) (hc : ReflTransGen (Joins m) root c)
    (hd : (Request.query root).ComesTo s m d) :
    (((Request.query root).extent m).ofRoot m c).Covers (within s (m.home root)) d := by
  have hcovers := Extent.covers_of_steps hd (Request.covers_extent hs (.inr ⟨m.home root,rfl,hheld⟩))
  have hunions : m.SameUnions d.memory := Extent.sameUnions hd
  refine ⟨hcovers.parts,hcovers.own,fun c' hc' => hcovers.clauses c' ⟨root,rfl,hc.trans hc'⟩,fun c' hc' c'' hj => ?_,
    fun c' hc' => hcovers.merged c' ⟨root,rfl,.trans_right hc hc'⟩⟩
  rw [hunions.members] at hj
  exact ⟨hc'.tail hj,.tail' hc' hj⟩

theorem Apart.not_hidden {home : Home} {n : Nat} (h : Apart m c home) (hk : Spare m root k) (hn : TransGen (Joins m) c n)
    (hne : n ≠ k) (hhome : d.memory.home n = m.home n) : ¬ Hidden home k (d.memory.home n) := by
  rw [hhome]
  rintro (he | he)
  · exact h n hn he
  · exact hk.fresh.homes n hne he

def besideCopy (hs : s.collection = .own) (hl : m.Layered) (hheld : m.Holds (m.home root)) (hk : Spare m root k)
    (hc : ReflTransGen (Joins m) root c) (hapart : Apart m c (m.home root)) (params : Entries) (q : Query)
    (before : Nat) : Mirror where
  extent := ((Request.query root).extent m).ofRoot m c
  left := within s (m.home root)
  right := within s (.query k)
  name := id
  image := Draft.beside (m.home root) k params q before
  Fits d := (Request.query root).ComesTo s m d ∧ before ≤ d.given.length
  home h := ¬ Hidden (m.home root) k h
  cell _ := True
  names v := ((Request.query root).extent m).value v ∧
    ∀ seen, (Request.query root).Sees s m seen → ¬ v.Shows seen (.shared (m.home root))
  collection := .inr ⟨m.home root,.query k,rfl,rfl,fun h => h (.inl rfl),fun h => h (.inr rfl)⟩
  separator := rfl
  covers hd := covers_ofRoot hs hheld hc hd.1
  keeps hd st := by
    have hmember : ∀ c', TransGen (Joins m) c c' → ((Request.query root).extent m).member c' :=
      fun c' hc' => ⟨root,rfl,.trans_right hc hc'⟩
    exact ⟨hd.1.tail (st.mono (fun _ hv => hv) hmember),hd.2.trans st.given_length⟩
  nextName _ := rfl
  bound v hd := Draft.bound_beside v hd.2
  adopted _ _ := rfl
  taken := by
    rintro d c' ⟨hd,-⟩ hc'
    have hne : c' ≠ k := Nat.ne_of_lt ((hl.lt (.trans_right hc hc')).trans hk.later)
    rw [Draft.params_beside hne (hapart.not_hidden hk hc' hne (Extent.home_of_steps hd c'))]
    rfl
  handed := by
    rintro d c' ⟨hd,-⟩ hc'
    have hne : c' ≠ k := Nat.ne_of_lt ((hl.lt (.trans_right hc hc')).trans hk.later)
    exact Draft.handed_beside hne (hapart.not_hidden hk hc' hne (Extent.home_of_steps hd c'))
  drained items _ _ := Draft.drained_beside items
  stream _ _ := Memory.stream_setMapping _ _ _ _
  own := by
    rintro d h - ⟨⟩ hh
    exact absurd (.inl rfl) hh
  mapping _ hh := Draft.mapping_beside hh
  query := by
    rintro d n - hn
    have hroot := Nat.ne_of_lt hk.later
    have hne : n ≠ k := by
      rcases hn with hn | hv
      · exact Request.ne_of_joins hk.fresh hroot (hc.trans hn)
      · cases Request.omits_extent hk.fresh hroot hv with
        | query h => exact h
    exact Draft.query_beside hne
  quote _ := rfl
  looked := by
    rintro d v hd ⟨hv,hown⟩
    refine ⟨hv,?_,fun _ _ => trivial⟩
    rintro home rfl
    exact (clear_hidden hs hk hd.1 hv (hown _ ⟨d,hd.1,rfl⟩)).not_hidden
  display := by
    rintro d v hd ⟨hv,hown⟩
    have hhome : d.memory.home k = .query k := (Extent.home_of_steps hd.1 k).trans hk.home
    exact (Draft.agrees_beside hhome).display (clear_hidden hs hk hd.1 hv (hown _ ⟨d,hd.1,rfl⟩))

section Mirrored
variable {hs : s.collection = .own} {hl : m.Layered} {hheld : m.Holds (m.home root)} {hk : Spare m root k}
  {hc : ReflTransGen (Joins m) root c} {hapart : Apart m c (m.home root)} {params : Entries} {q : Query} {before : Nat}

/-- What is come upon is open if it is not the mapping that takes the bindings. -/
theorem row_besideCopy {v : Value} (hv : ((Request.query root).extent m).value v) (hown : v ≠ .shared (m.home root)) :
    (besideCopy hs hl hheld hk hc hapart params q before).Row v := by
  rintro home rfl (rfl | rfl)
  · exact hown rfl
  · cases Request.omits_extent hk.fresh (Nat.ne_of_lt hk.later) hv with
    | shared h => exact h rfl

theorem allows_besideCopy {t : Condition.Test} (ht : t.Overlooks ((Request.query root).Sees s m) (m.home root)) :
    (besideCopy hs hl hheld hk hc hapart params q before).Allows t where
  columns c hc hv := .inr ⟨hv,fun seen hseen => ht.columns seen hseen c hc⟩
  mapping _ htv hv := row_besideCopy hv (fun h => ht.mapping (h ▸ htv))
  streams _ _ _ _ _ := trivial
  rows {d} hd _ hm hv := row_besideCopy hv (fun h => ht.rows _ ⟨d,hd.1,rfl⟩ (h ▸ hm))

theorem clauses_besideCopy (hown : Unread s m root (m.home root)) {n : Nat} (hn : ReflTransGen (Joins m) root n) :
    (besideCopy hs hl hheld hk hc hapart params q before).Clauses (m.query n) where
  filter t ht := allows_besideCopy ((hown n hn).filter t ht)
  groupFilter t ht := allows_besideCopy ((hown n hn).groupFilter t ht)
  joins v hv :=
    ⟨fun hx => row_besideCopy hx ((hown n hn).joins v hv).entry,
      fun {d} hd {j} hj t ht => allows_besideCopy (((hown n hn).joins v hv).condition _ ⟨d,hd.1,rfl⟩ j hj t ht)⟩

theorem clauses_of_fits (hown : Unread s m root (m.home root))
    (he : (besideCopy hs hl hheld hk hc hapart params q before).Fits e) {n : Nat} (hn : ReflTransGen (Joins m) c n) :
    (besideCopy hs hl hheld hk hc hapart params q before).Clauses (e.memory.query n) := by
  obtain ⟨es,hes⟩ := Extent.query_of_steps he.1 n
  have hm : (besideCopy hs hl hheld hk hc hapart params q before).Clauses (m.query n) :=
    clauses_besideCopy hown (hc.trans hn)
  rw [hes]
  exact ⟨hm.filter,hm.groupFilter,hm.joins⟩

end Mirrored

def copyOf (m : Memory) (bindings : Entries) (cell : Nat) : Query :=
  { m.query cell with params := bindings.merge (m.params cell),home := none }

def copied (s : Setting) (home : Home) (k : Nat) (d : Draft) (c : Nat) : Memory :=
  (d.view (within s home)).setQuery k (copyOf (d.view (within s home)) d.bindings c)

/-- From the image of a draft, a query with the clauses of another one runs as the other does from the draft. -/
theorem runOn_image (M : Mirror) (hname : M.name = id) (hfits : M.Fits d)
    (hclauses : ∀ {e}, M.Fits e → ∀ c', M.extent.query c' → M.Clauses (e.memory.query c'))
    (hq : ∀ f ∈ (d.memory.query c).fields .null, M.extent.value f.2) (ha : M.Clauses (d.memory.query c))
    (hm : ∀ c', .query c' ∈ (d.memory.query c).members → M.extent.query c' ∧ M.extent.member c')
    (hearlier : ∀ c', Joins d.memory c c' → c' < c) (hle : c ≤ k)
    (htwin : ∃ es, (M.image d).memory.query k = { d.memory.query c with params := es,home := none }) :
    (compile M.right k).runOn (M.image d) = ((compile M.left c).runOn d).map id M.image := by
  obtain ⟨es,htwin⟩ := htwin
  have hinner : ∀ c', .query c' ∈ (d.memory.query c).members → ∀ e,
      Mirrors M e (compile M.left c') (compile M.right c') (Sql.rename M.name) (fun _ => True) :=
    fun c' hc' e => mirror_compile hclauses c' e (hm c' hc').1
  have hrun := (mirror_compileWith ha hq (fun c' hc' => (hm c' hc').2) hinner hfits).1
  have hright : compileWith M.right (compile M.right) ((M.image d).memory.query k) =
      compileWith M.right (compile M.right) (d.memory.query c) := by
    rw [htwin]
    rfl
  have hlater : ∀ c', Joins (M.image d).memory k c' → c' < k := by
    intro c' hj
    unfold Request.Joins at hj
    rw [htwin] at hj
    exact Nat.lt_of_lt_of_le (hearlier c' hj) hle
  have hsame : ∀ r : Except Fault Sql, r.map (Sql.rename M.name) = r := by
    rw [hname]
    rintro (f | sql)
    · rfl
    · exact congrArg Except.ok (Sql.rename_id sql)
  rw [runOn_compile hlater,hright,hrun,runOn_compile hearlier]
  exact Prod.ext (hsame _) rfl

theorem query_copied (hk : Spare m root k) (hd : (Request.query root).ComesTo s m d) {home : Home} :
    (copied s home k d c).query k = copyOf (d.view (within s home)) d.bindings c := by
  have hunions : m.SameUnions d.memory := Extent.sameUnions hd
  have hheld : (d.view (within s home)).Holds (.query k) :=
    (Memory.holds_setMapping _ _ _ _).mpr ((hunions.holds _).mpr hk.held)
  unfold copied
  rw [Memory.query_setQuery,if_pos ⟨rfl,hheld⟩]

theorem home_copied (hk : Spare m root k) (hd : (Request.query root).ComesTo s m d) {home : Home} :
    (copied s home k d c).home k = .query k :=
  Memory.home_of_none (by rw [query_copied hk hd]; rfl)

/-- The copy of a member runs as the member does in the statement. -/
theorem runOn_copy (hs : s.collection = .own) (hl : m.Layered) (hheld : m.Holds (m.home root)) (hk : Spare m root k)
    (hown : Unread s m root (m.home root)) (hd : (Request.query root).ComesTo s m d) (hc : TransGen (Joins m) root c)
    (hapart : Apart m c (m.home root)) :
    (compile (within s (.query k)) k).runOn (begun (copied s (m.home root) k d c) k) =
      (((compile (within s (m.home root)) c).runOn (d.adopted ((d.view (within s (m.home root))).params c))).map id
        (Draft.beside (m.home root) k d.bindings (copyOf (d.view (within s (m.home root))) d.bindings c)
          d.given.length)) := by
  let seen := d.view (within s (m.home root))
  let start := d.adopted (seen.params c)
  let M := besideCopy hs hl hheld hk hc.to_reflTransGen hapart d.bindings (copyOf seen d.bindings c) d.given.length
  have hmember : ((Request.query root).extent m).member c := ⟨root,rfl,hc⟩
  have hfits : M.Fits start := ⟨hd.tail (.take d hmember),Nat.le_refl _⟩
  have hunions : m.SameUnions start.memory := Extent.sameUnions hfits.1
  have hquery : (copied s (m.home root) k d c).query k = copyOf seen d.bindings c := query_copied hk hd
  -- the copy starts beside the draft from which the member is written
  have hstart : begun (copied s (m.home root) k d c) k = M.image start := by
    have hparams : (copied s (m.home root) k d c).params k = start.bindings := by
      rw [Memory.params,home_copied hk hd,Memory.mapping,hquery]
      rfl
    have hgiven : d.given.drop d.given.length = [] := List.drop_length
    unfold begun
    rw [hparams]
    exact congrArg (Draft.mk _ _) hgiven.symm
  have htwin : ∃ es, (M.image start).memory.query k = { start.memory.query c with params := es,home := none } := by
    obtain ⟨es,hview⟩ := Draft.query_view (within s (m.home root)) d c
    refine ⟨(copyOf seen d.bindings c).params,hquery.trans ?_⟩
    unfold copyOf
    rw [hview]
    rfl
  have hcovers := M.covers hfits
  have hclauses : ∀ {e}, M.Fits e → ∀ c', M.extent.query c' → M.Clauses (e.memory.query c') :=
    fun he _ hc' => clauses_of_fits hown he hc'
  rw [hstart]
  exact runOn_image M rfl hfits hclauses (hcovers.clauses c .refl) (hclauses hfits c .refl) (hcovers.members c .refl)
    ((hunions.layered hl) c) (Nat.le_of_lt ((hl.lt hc).trans hk.later)) htwin

/-! ## Members in place and alone -/

def alone (s : Setting) (home : Home) (k : Nat) (d : Draft) : Member → Except Fault (Sql × Value)
  | .sql text => .ok ([.text text],.mapping d.bindings)
  | .query c => (build s (.query k) (copied s home k d c)).1.map Statement.parts

def inPlace (s : Setting) (home : Home) (d : Draft) (u : Member) : Except Fault (Sql × Value) :=
  ((member (within s home) (compile (within s home)) u).runOn d).1.map
    (fun sql => (sql,.mapping ((member (within s home) (compile (within s home)) u).runOn d).2.bindings))

/-- A member gives in its place what it gives alone. -/
theorem alone_of_comes (hs : s.collection = .own) (hl : m.Layered) (hheld : m.Holds (m.home root))
    (hk : Spare m root k) (hown : Unread s m root (m.home root))
    (hapart : ∀ c, TransGen (Joins m) root c → Apart m c (m.home root)) (h : Comes (within s (m.home root)) root (begun m root) u d) :
    alone s (m.home root) k d u = inPlace s (m.home root) d u := by
  cases u with
  | sql text => rfl
  | query c =>
    have hcovers := Request.covers_extent (s := s) (r := .query root) hs (.inr ⟨m.home root,rfl,hheld⟩)
    obtain ⟨hd,hc⟩ := h.steps (x := (Request.query root).extent m) hcovers ⟨root,rfl,.refl⟩
    obtain ⟨-,_,⟨⟩,hc⟩ := hc c rfl
    rw [alone,inPlace,build_query,home_copied hk hd,runOn_copy hs hl hheld hk hown hd hc (hapart c hc),
      runOn_member binds_within]
    rcases (compile (within s (m.home root)) c).runOn (d.adopted ((d.view (within s (m.home root))).params c)) with
      ⟨f | sql,e⟩ <;> rfl

/-- Members are written one after the other, from `d` to `e`. When the statement has come to it, each gives alone the
text that it has in its place, and as parameters the bindings after it. -/
inductive InTurn (s : Setting) (home : Home) (k : Nat) : Draft → List Member → List Sql → Draft → Prop where
  | nil (d : Draft) : InTurn s home k d [] [] d
  | cons {d d' e : Draft} {u : Member} {us : List Member} {t : Sql} {ts : List Sql}
    (hu : (member (within s home) (compile (within s home)) u).runOn d = (.ok t,d'))
    (ha : alone s home k d u = .ok (t,.mapping d'.bindings)) (hrest : InTurn s home k d' us ts e) :
    InTurn s home k d (u :: us) (t :: ts) e

/-- What the members of a query are in its statement. -/
structure FromCopies (s : Setting) (m : Memory) (root k : Nat) : Prop where
  /-- Wherever the statement comes to a member, at any depth, the member gives in its place what it gives alone. -/
  member : ∀ u d, Comes (within s (m.home root)) root (begun m root) u d → alone s (m.home root) k d u = inPlace s (m.home root) d u
  /-- If a member cannot be composed alone, the statement fails with the same fault. -/
  fault : ∀ u d f, Comes (within s (m.home root)) root (begun m root) u d → alone s (m.home root) k d u = .error f →
    (build s (.query root) m).1 = .error f
  /-- The clause behind the conditions has the texts that the members give alone. -/
  clause : ∀ t m', build s (.query root) m = (.ok t,m') → (m.query root).members ≠ [] → ∃ lead d ts e order,
    (leading (within s (m.home root)) (m.query root)).runOn (begun m root) = (.ok lead,d) ∧
      InTurn s (m.home root) k d (m.query root).members ts e ∧
      t.sql = clauses s (lead ++ [unionText ts,order,limitClause (m.query root)]) ∧
      s.dialect.render (unionText ts) =
        "UNION (\n" ++ "\n) UNION (\n".intercalate (ts.map s.dialect.render) ++ "\n)"

theorem inTurn_of_run {d₀ d e : Draft} {lead parts ts : List Sql} {before us : List Member}
    (halone : ∀ u d, Comes (within s (m.home root)) root (begun m root) u d → alone s (m.home root) k d u = inPlace s (m.home root) d u)
    (hlead : (leading (within s (m.home root)) (m.query root)).runOn (begun m root) = (.ok lead,d₀))
    (hm : (m.query root).members = before ++ us)
    (hbefore : (before.mapM (member (within s (m.home root)) (compile (within s (m.home root))))).runOn d₀ = (.ok parts,d))
    (hrun : (us.mapM (member (within s (m.home root)) (compile (within s (m.home root))))).runOn d = (.ok ts,e)) :
    InTurn s (m.home root) k d us ts e := by
  induction us generalizing before parts d ts with
  | nil =>
    cases hrun
    exact .nil _
  | cons u us ih =>
    rw [List.mapM_cons,runOn_bind_ok] at hrun
    obtain ⟨t,d',hu,hrun⟩ := hrun
    rw [runOn_bind_ok] at hrun
    obtain ⟨ts',e',hrest,hrun⟩ := hrun
    cases hrun
    have ha := halone u d (.direct hlead hm hbefore)
    rw [inPlace,hu] at ha
    have hnext : ((before ++ [u]).mapM (member (within s (m.home root)) (compile (within s (m.home root))))).runOn d₀ =
        (.ok (parts ++ [t]),d') := by
      rw [List.mapM_append,runOn_bind,hbefore]
      dsimp only
      rw [List.mapM_cons,List.mapM_nil,runOn_bind,runOn_bind,hu]
      rfl
    exact .cons hu ha (ih (by rw [hm,List.append_assoc]; rfl) hnext hrest)

end Query

namespace Query

theorem render_unionText (dialect : Dialect) (parts : List Sql) : dialect.render (unionText parts) =
    "UNION (\n" ++ "\n) UNION (\n".intercalate (parts.map dialect.render) ++ "\n)" := by
  have htext : ∀ t, dialect.render [.text t] = t := fun t => by simp [Dialect.render,Dialect.renderToken]
  unfold unionText
  rw [dialect.render_append,dialect.render_append,dialect.render_join,htext,htext]

theorem fromCopies (hs : s.collection = .own) (hl : m.Layered) (hheld : m.Holds (m.home root)) (hk : Spare m root k)
    (hown : Unread s m root (m.home root))
    (hapart : ∀ c, TransGen (Joins m) root c → Apart m c (m.home root)) : FromCopies s m root k := by
  have halone : ∀ u d, Comes (within s (m.home root)) root (begun m root) u d → alone s (m.home root) k d u = inPlace s (m.home root) d u :=
    fun u d h => alone_of_comes hs hl hheld hk hown hapart h
  refine ⟨halone,fun u d f h hf => ?_,fun t m' h hne => ?_⟩
  · rw [halone u d h,inPlace] at hf
    have hfail : ((compile (within s (m.home root)) root).runOn (begun m root)).1 = .error f := by
      revert hf
      rcases hu : (member (within s (m.home root)) (compile (within s (m.home root))) u).runOn d with ⟨f' | sql,e⟩
      · rintro ⟨⟩
        exact h.fails binds_within hl hu
      · nofun
    rw [build_query]
    revert hfail
    rcases (compile (within s (m.home root)) root).runOn (begun m root) with ⟨f' | sql,e⟩
    · rintro ⟨⟩
      rfl
    · nofun
  · obtain ⟨sql,e,hr,rfl,-⟩ := build_ok h
    rw [runOn_compile (d := begun m root) (hl root),compileWith_eq,runOn_bind_ok] at hr
    obtain ⟨lead,d,hlead,hr⟩ := hr
    rw [runOn_bind_ok] at hr
    obtain ⟨union,d₁,hunion,hr⟩ := hr
    rw [runOn_bind_ok] at hr
    obtain ⟨order,d₂,-,hr⟩ := hr
    cases hr
    rw [runOn_unionClause (q := (begun m root).memory.query root) hne,runOn_bind_ok] at hunion
    obtain ⟨ts,d₃,hts,hunion⟩ := hunion
    cases hunion
    have hall : (m.query root).members = [] ++ (m.query root).members := rfl
    exact ⟨lead,d,ts,d₁,order,hlead,inTurn_of_run halone hlead hall rfl hts,rfl,render_unionText _ _⟩

end Query

/-- A member of a union is in its statement what a copy of it is alone. Let the copy's parameters be the bindings with
which the statement comes to the member, and then its own: it has the same text, its parameters are the bindings after
the member, and it fails as the member and the statement do. The condition is that the mapping which takes the bindings
is not looked into on the way, and that no member of a member keeps its parameters there. -/
theorem members_compose_alone (o : Options) (dialect : Dialect) (m : Memory) (root k : Nat) (hl : m.Layered)
    (hheld : m.Holds (m.home root)) (hk : Query.Spare m root k)
    (hown : Query.Unread (o.setting dialect) m root (m.home root))
    (hapart : ∀ c, TransGen (Joins m) root c → Query.Apart m c (m.home root)) :
    Query.FromCopies (o.setting dialect) m root k :=
  Query.fromCopies rfl hl hheld hk hown hapart

theorem Query.overlooks_of_simple {seen : Memory → Prop} {q : Query} {v : Value}
    (hf : Condition.tests q.filter = [.simple v]) (hv : v ≠ .shared home) (hr : ∀ m, (Condition.Test.simple v).rows m = [])
    (hg : q.groupFilter = .null) (hj : q.joins = []) : q.Overlooks seen home := by
  have htest : ∀ {w : Value}, w ≠ .shared home → (∀ m, (Condition.Test.simple w).rows m = []) →
      (Condition.Test.simple w).Overlooks seen home := fun hw hr =>
    ⟨by simp [Condition.Test.columns],fun h => hw (Condition.Test.simple.inj h),by simp [hr]⟩
  exact ⟨by simpa [hf] using htest hv hr,
    by simpa [hg,Condition.tests] using htest (w := .null) (by simp) (fun _ => rfl),by simp [hj]⟩

def Memory.copies : Memory where
  queries := #[{ tables := [.name "t"],filter := .mapping [(.text "a",.int 1)] },
    { tables := [.name "v"],members := [.query 0,.sql "SELECT 1"] },{}]

theorem members_compose_alone_copies : Query.FromCopies (({} : Options).setting .sqlite) .copies 1 2 ∧
    (Query.build (({} : Options).setting .sqlite) (.query 1) .copies).1.map Statement.text =
      .ok "SELECT * FROM \x22v\x22 UNION (\nSELECT * FROM \x22t\x22 WHERE \x22a\x22=:qp0\n) UNION (\nSELECT 1\n)" := by
  have hlayered : Memory.copies.Layered := by
    intro c c' h
    rcases c with _ | _ | _ | c <;> simp [Joins,Memory.query,Memory.copies] at h
    omega
  have hhome : ∀ c, Memory.copies.home c = .query c := by
    intro c
    rcases c with _ | _ | _ | c <;> rfl
  have hspare : Query.Spare .copies 1 2 := by
    refine ⟨show 2 < 3 by decide,by decide,⟨fun n v hv => ?_,fun home hh e he => ?_,fun c hc f hf => ?_,fun c hc => ?_⟩,rfl⟩
    · simp [Memory.stream,Memory.copies] at hv
    · rcases home with n | (_ | _ | _ | n) <;> simp [Memory.mapping,Memory.query,Memory.copies] at he
    · rcases c with _ | _ | _ | c <;> simp [Memory.query,Memory.copies,Query.fields] at hf
      all_goals rcases hf with rfl | rfl | rfl | rfl | rfl | rfl | rfl | rfl | rfl | rfl | rfl | rfl | rfl
      all_goals simp [Item.toValue,Member.toValue]
    · simpa [hhome] using hc
  refine ⟨members_compose_alone {} .sqlite .copies 1 2 hlayered (show 1 < 3 by decide) hspare ?_ ?_,by with_unfolding_all rfl⟩
  · intro c _
    rcases c with _ | _ | _ | c
    · exact Query.overlooks_of_simple (v := .mapping [(.text "a",.int 1)]) rfl (by simp) (fun _ => rfl) rfl rfl
    all_goals exact Query.overlooks_of_simple (v := .null) rfl (by simp) (fun _ => rfl) rfl rfl
  · intro c hc c' hc'
    have := hlayered.lt hc
    have := hlayered.lt hc'
    simp only [hhome,ne_eq,Home.query.injEq]
    omega

def Memory.selfShown : Memory where
  mappings := #[[(.text "(",.int 0),(.text "qp2",.tuple [.text "params",.shared (.query 1)])]]
  queries := #[{ tables := [.name "t"],filter := .list [.text "and",
      .list [.text "=",.text "b",.int 7],.list [.text "=",.shared (.cell 0),.int 1]] },
    { tables := [.name "v"],members := [.query 0] },{}]

def Memory.lentBelow : Memory where
  queries := #[{ tables := [.name "u"],home := some (.query 2) },
    { tables := [.name "t"],params := [(.text "x",.int 2)],members := [.query 0] },
    { tables := [.name "v"],params := [(.text "x",.int 1)],members := [.query 1] },{}]

namespace Memory

theorem layered_selfShown : selfShown.Layered := by
  intro c c' h
  rcases c with _ | _ | _ | c <;> simp [Joins,query,selfShown] at h
  omega

theorem layered_lentBelow : lentBelow.Layered := by
  intro c c' h
  rcases c with _ | _ | _ | _ | c <;> simp [Joins,query,lentBelow] at h <;> omega

theorem spare_selfShown : Query.Spare selfShown 1 2 := by
  refine ⟨show 2 < 3 by decide,by decide,⟨fun n v hv => ?_,fun home hh e he => ?_,fun c hc f hf => ?_,fun c hc h => ?_⟩,rfl⟩
  · simp [stream,selfShown] at hv
  · rcases home with (_ | n) | (_ | _ | _ | n) <;> simp [mapping,query,selfShown] at he
    rcases he with rfl | rfl <;> simp
  · rcases c with _ | _ | _ | c <;> simp [query,selfShown,Query.fields] at hf
    all_goals rcases hf with rfl | rfl | rfl | rfl | rfl | rfl | rfl | rfl | rfl | rfl | rfl | rfl | rfl
    all_goals simp [Item.toValue,Member.toValue]
  · rcases c with _ | _ | _ | c <;> simp [Memory.home,query,selfShown] at h hc

theorem spare_lentBelow : Query.Spare lentBelow 2 3 := by
  refine ⟨show 3 < 4 by decide,by decide,⟨fun n v hv => ?_,fun home hh e he => ?_,fun c hc f hf => ?_,fun c hc h => ?_⟩,rfl⟩
  · simp [stream,lentBelow] at hv
  · rcases home with n | (_ | _ | _ | _ | n) <;> simp [mapping,query,lentBelow] at he
    all_goals subst he; simp
  · rcases c with _ | _ | _ | _ | c <;> simp [query,lentBelow,Query.fields] at hf
    all_goals rcases hf with rfl | rfl | rfl | rfl | rfl | rfl | rfl | rfl | rfl | rfl | rfl | rfl | rfl
    all_goals simp [Item.toValue,Member.toValue]
  · rcases c with _ | _ | _ | _ | c <;> simp [Memory.home,query,lentBelow] at h hc

end Memory

/-- In its place the first member shows the binding that it has just made, alone it shows that the statement has none. The
second one ends with its own value in its place, and alone with the one that the statement had before. -/
theorem copy_shows_other_bindings : (Memory.selfShown.Layered ∧ Query.Spare .selfShown 1 2 ∧
      ¬ Query.FromCopies (({} : Options).setting .sqlite) .selfShown 1 2) ∧
    Memory.lentBelow.Layered ∧ Query.Spare .lentBelow 2 3 ∧
      ¬ Query.FromCopies (({} : Options).setting .sqlite) .lentBelow 2 3 := by
  refine ⟨⟨Memory.layered_selfShown,Memory.spare_selfShown,fun h => ?_⟩,Memory.layered_lentBelow,Memory.spare_lentBelow,
    fun h => ?_⟩
  · have hmembers : ((Query.begun .selfShown 1).memory.query 1).members = [] ++ [.query 0] := rfl
    have hcomes : Query.Comes (Query.within (({} : Options).setting .sqlite) (.query 1)) 1 (Query.begun .selfShown 1)
        (.query 0) (Query.begun .selfShown 1) := .direct rfl hmembers rfl
    have hplace := h.member _ _ hcomes
    have hdiffer : ((Query.alone (({} : Options).setting .sqlite) (.query 1) 2 (Query.begun .selfShown 1) (.query 0)).map
          (fun a => Dialect.sqlite.render a.1)).toOption ≠
        ((Query.inPlace (({} : Options).setting .sqlite) (.query 1) (Query.begun .selfShown 1) (.query 0)).map
          (fun a => Dialect.sqlite.render a.1)).toOption := by decide +kernel
    exact hdiffer (congrArg (fun r => (r.map (fun a => Dialect.sqlite.render a.1)).toOption) hplace)
  · have hmembers : ((Query.begun .lentBelow 2).memory.query 2).members = [] ++ [.query 1] := rfl
    have hcomes : Query.Comes (Query.within (({} : Options).setting .sqlite) (.query 2)) 2 (Query.begun .lentBelow 2)
        (.query 1) (Query.begun .lentBelow 2) := .direct rfl hmembers rfl
    have hplace := congrArg (Except.map Prod.snd) (h.member _ _ hcomes)
    have hin : (Query.inPlace (({} : Options).setting .sqlite) (.query 2) (Query.begun .lentBelow 2) (.query 1)).map
        Prod.snd = .ok (.mapping [(.text "x",.int 2)]) := by with_unfolding_all rfl
    have halone : (Query.alone (({} : Options).setting .sqlite) (.query 2) 3 (Query.begun .lentBelow 2) (.query 1)).map
        Prod.snd = .ok (.mapping [(.text "x",.int 1)]) := by with_unfolding_all rfl
    exact absurd (halone.symm.trans (hplace.trans hin)) (by simp)

end SqlCompose
