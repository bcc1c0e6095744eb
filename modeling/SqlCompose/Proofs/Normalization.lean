import SqlCompose.Proofs.EqualQueries
import SqlCompose.Proofs.Rereading

/-! # Normal forms of queries

A query may be written in many ways, but what is read is in normal form: if a query is read from its fields, the new query
is the same, and it gives the same statements. The one thing that tells a query from its copy are the parameters of its
own. They are filled while it is composed, so a query that has been there before must not look into them.
-/
namespace SqlCompose

variable {m : Memory} {n : Nat} {v w : Value} {q : Query}

/-! ## Sound memories -/

/-- A memory in which values refer only to queries that there are, and all parameters are kept somewhere. Members are older
than what they are members of, and all queries are in normal form. -/
structure Memory.Sound (m : Memory) : Prop where
  below : m.Below m.queries.size
  layered : m.Layered
  normal : ∀ c, (m.detached c).Normal
  held : ∀ c < m.queries.size, m.Holds (m.home c)

theorem Query.made_filtered {l : List String} (h : v.Below n) :
    Query.Made (Value.Below n) { tables := l.map .name,filter := v } := by
  refine ⟨fun f hf => ?_,by simp⟩
  simp only [Query.fields,List.mem_cons,List.not_mem_nil,or_false] at hf
  rcases hf with rfl | rfl | rfl | rfl | rfl | rfl | rfl | rfl | rfl | rfl | rfl | rfl | rfl
  all_goals first | exact h | exact fun k _ => by simp [Item.toValue]

namespace Memory

theorem size_addQuery (m : Memory) (q : Query) : (m.addQuery q).2.queries.size = m.queries.size + 1 := Array.size_push _

theorem home_addQuery (hq : q.home = none) (c : Nat) :
    (m.addQuery q).2.home c = if c = m.queries.size then .query c else m.home c := by
  rw [home,home,query_addQuery]
  split
  · rw [hq,Option.getD_none]
  · rfl

theorem mapping_addQuery {home : Home} (h : home ≠ .query m.queries.size) :
    (m.addQuery q).2.mapping home = m.mapping home := by
  cases home with
  | cell n => rfl
  | query c =>
    simp only [mapping]
    rw [query_addQuery,if_neg (fun hc => h (congrArg Home.query hc))]

theorem params_addQuery {c : Nat} (hq : q.home = none) (hc : c ≠ m.queries.size) (h : m.home c ≠ .query m.queries.size) :
    (m.addQuery q).2.params c = m.params c := by
  rw [params,params,home_addQuery hq,if_neg hc,mapping_addQuery h]

theorem holds_addQuery {home : Home} (h : m.Holds home) : (m.addQuery q).2.Holds home := by
  cases home with
  | cell n => exact h
  | query c =>
    unfold Holds
    rw [size_addQuery]
    exact Nat.lt_succ_of_lt h

theorem mapping_setStream (m : Memory) (n : Nat) (items : List Value) (home : Home) :
    (m.setStream n items).mapping home = m.mapping home := by
  cases home <;> rfl

theorem holds_setStream (m : Memory) (n : Nat) (items : List Value) (home : Home) :
    (m.setStream n items).Holds home ↔ m.Holds home := by
  cases home <;> exact Iff.rfl

theorem Below.made_detached (h : m.Below n) (c : Nat) : (m.detached c).Made (Value.Below n) :=
  ⟨(h.queries c).fields,h.mapping (m.home c)⟩

theorem Below.addQuery (h : m.Below n) (hq : q.Made (Value.Below n)) (hnone : q.home = none) :
    (m.addQuery q).2.Below n where
  streams := h.streams
  mappings := h.mappings
  queries c := by
    rw [query_addQuery]
    split
    · exact hq
    · exact h.queries c
  homes c k hk hc := by
    rw [home_addQuery hnone]
    split
    · exact fun he => hc (Home.query.inj he)
    · exact h.homes c k hk hc

theorem Below.more {n' : Nat} (h : m.Below n) (hn : n ≤ n') : m.Below n' where
  streams c v hv := (h.streams c v hv).more hn
  mappings c e he := ⟨(h.mappings c e he).1.more hn,(h.mappings c e he).2.more hn⟩
  queries c := ⟨fun f hf => ((h.queries c).fields f hf).more hn,
    fun e he => ⟨((h.queries c).params e he).1.more hn,((h.queries c).params e he).2.more hn⟩⟩
  homes c k hk := h.homes c k (Nat.le_trans hn hk)

theorem Sound.addQuery (h : m.Sound) (hq : q.Made (Value.Below m.queries.size)) (hn : q.IsNew) :
    (m.addQuery q).2.Sound where
  below := by
    rw [size_addQuery]
    exact (h.below.addQuery hq hn.home).more (Nat.le_succ _)
  layered c c' hj := by
    unfold Request.Joins at hj
    rw [query_addQuery] at hj
    split at hj
    · next hc => exact hc ▸ hq.member_lt hj
    · exact h.layered c c' hj
  normal c := by
    by_cases hc : c = m.queries.size
    · have hnew : (m.addQuery q).2.query c = q := by rw [query_addQuery,if_pos hc]
      rw [detached_of_none (by rw [hnew,hn.home]),hnew]
      exact hn.toNormal
    · have hold := h.normal c
      unfold detached at hold ⊢
      rwa [params_addQuery hn.home hc (h.below.homes c _ (Nat.le_refl _) hc),query_addQuery,if_neg hc]
  held c hc := by
    rw [size_addQuery] at hc
    rw [home_addQuery hn.home]
    split
    · unfold Holds
      rwa [size_addQuery]
    · exact holds_addQuery (h.held c (by omega))

theorem Sound.setStream {c : Nat} {items : List Value} (h : m.Sound) (hi : ∀ v ∈ items, v ∈ m.stream c) :
    (m.setStream c items).Sound where
  below := by
    refine ⟨fun n v hv => ?_,h.below.mappings,h.below.queries,h.below.homes⟩
    rw [stream_setStream] at hv
    split at hv
    · exact h.below.streams c v (hi v hv)
    · exact h.below.streams n v hv
  layered := h.layered
  normal n := by
    have hold := h.normal n
    unfold detached params at hold ⊢
    rwa [mapping_setStream]
  held n hn := (holds_setStream m c items _).mpr (h.held n hn)

/-- A memory with one query that has tables and a condition. -/
theorem sound_of_filtered {l : List String} (hs : m.streams = #[])
    (hq : m.queries = #[{ tables := l.map .name,filter := v }]) (hv : v.Below 1)
    (hmappings : ∀ c, ∀ e ∈ m.mapping (.cell c), e.1.Below 1 ∧ e.2.Below 1) : m.Sound := by
  have hsize : m.queries.size = 1 := by simp [hq]
  have hcell : ∀ c, ∃ l w, m.query c = { tables := List.map .name l,filter := w } ∧ w.Below 1 := by
    intro c
    rcases c with _ | c
    · exact ⟨l,v,by simp [Memory.query,hq],hv⟩
    · exact ⟨[],.null,by simp [Memory.query,hq],fun _ _ => .null⟩
  have hnone : ∀ c, (m.query c).home = none := by
    intro c
    obtain ⟨_,_,hc,-⟩ := hcell c
    rw [hc]
  refine ⟨?_,fun c c' hj => ?_,fun c => ?_,fun c hc => ?_⟩
  · rw [hsize]
    refine ⟨fun c v hv => by simp [Memory.stream,hs] at hv,hmappings,fun c => ?_,fun c k _ hc h => ?_⟩
    · obtain ⟨_,w,hc,hw⟩ := hcell c
      exact hc ▸ Query.made_filtered hw
    · rw [home_of_none (hnone c)] at h
      exact hc (Home.query.inj h)
  · obtain ⟨_,w,hc,-⟩ := hcell c
    unfold Request.Joins at hj
    rw [hc] at hj
    cases hj
  · obtain ⟨_,w,hc,-⟩ := hcell c
    rw [detached_of_none (hnone c),hc]
    exact ⟨by simp,[],by simp,rfl⟩
  · rw [home_of_none (hnone c)]
    exact hc

end Memory

def Realm.sound : Realm where
  value := Value.Below
  memory := Memory.Sound
  more hn hv := hv.more hn
  null _ _ _ := .null
  bool _ b _ _ := .bool b
  int _ i _ _ := .int i
  text _ t _ _ := .text t
  direction _ d _ _ := .direction d
  list h := Value.below_list.mpr h
  mapping h k hk := .mapping (fun e he => (h e he).1 k hk) (fun e he => (h e he).2 k hk)
  expression h k hk := .expression (fun e he => (h e he).1 k hk) (fun e he => (h e he).2 k hk)
  part hm hv hp := hm.below.part hv hp
  drain hm _ hi := hm.setStream hi
  add hm hq hn := ⟨hm.addQuery hq hn,Value.below_query.mpr (Nat.lt_succ_self _)⟩

namespace Query
variable {cell : Nat}

theorem twin_addQuery (h : m.Sound) (hc : cell < m.queries.size) :
    Twin (m.addQuery (m.detached cell)).2 cell m.queries.size where
  spare := by
    refine ⟨?_,hc,(h.below.addQuery (h.below.made_detached cell) rfl).fresh (Nat.le_refl _),?_⟩
    · unfold Memory.Holds
      rw [Memory.size_addQuery]
      exact Nat.lt_succ_self _
    · rw [Memory.home_addQuery rfl,if_pos rfl]
  same := by
    have hne := Nat.ne_of_lt hc
    rw [Memory.query_addQuery,if_pos rfl]
    unfold Memory.detached
    rw [Memory.params_addQuery rfl hne (h.below.homes cell _ (Nat.le_refl _) hne),Memory.query_addQuery,if_neg hne]

/-- A query has been read from the fields of another one: it is a new one, it has the same clauses and parameters, which it
keeps itself, and the other stays as it is. -/
structure Reread (m : Memory) (cell again : Nat) (m' : Memory) : Prop where
  read : (ofValue (.mapping (Entries.ofNames (m.fields cell)))).runOn m = (.ok (.ok (.query again)),m')
  new : again = m.queries.size
  same : m'.query again = m'.detached cell
  kept : m'.query cell = m.query cell
  params : m'.params cell = m.params cell

theorem reread (h : m.Sound) (hc : cell < m.queries.size) :
    Reread m cell m.queries.size (m.addQuery (m.detached cell)).2 where
  read := ofValue_fields (h.normal cell)
  new := rfl
  same := (twin_addQuery h hc).same
  kept := by rw [Memory.query_addQuery,if_neg (Nat.ne_of_lt hc)]
  params := Memory.params_addQuery rfl (Nat.ne_of_lt hc) (h.below.homes cell _ (Nat.le_refl _) (Nat.ne_of_lt hc))

theorem isNew_detached (h : m.Sound) (cell : Nat) : (m.detached cell).IsNew where
  toNormal := h.normal cell
  home := rfl

/-- Reading keeps a memory sound, and the query that is read is in normal form and refers to earlier queries only. -/
theorem sound_of_read {es : Entries} {m' : Memory} (hm : m.Sound) (hes : Realm.sound.Has m.queries.size es)
    (h : (ofEntries (readNested greatestNesting) es).runOn m = (.ok (.ok q),m')) :
    m'.Sound ∧ q.Made (Value.Below m'.queries.size) ∧ q.IsNew := by
  obtain ⟨hsound,-,hq⟩ := brings_ofEntries (brings_readNested greatestNesting) hes m hm rfl
  rw [h] at hsound hq
  exact ⟨hsound,hq _ rfl q rfl⟩

end Query

/-- Whatever a query is read from, it can be read again from its fields, and the new query is the same. Both give the same
statement, or the same fault, in every dialect and with all options. For a query that has been there before, this is so as
long as the parameters of its own are not looked into, and none of its members keeps its own with them. -/
theorem reread_is_same (m : Memory) (v w : Value) (m₁ : Memory) (hm : m.Sound) (hv : v.Below m.queries.size)
    (h : (Query.ofValue v).runOn m = (.ok (.ok w),m₁)) :
    ∃ cell again m₂, w = .query cell ∧ Query.Reread m₁ cell again m₂ ∧ ∀ (o : Options) (d : Dialect),
      (∀ c, v = .query c → Query.Unread (o.setting d) m₂ c (m₂.home c) ∧ Query.Apart m₂ c (m₂.home c)) →
        (Query.build (o.setting d) (.query again) m₂).1 = (Query.build (o.setting d) (.query cell) m₂).1 := by
  rcases Query.ofValue_ok h with ⟨cell,rfl,rfl,rfl⟩ | ⟨es,q,m',he,hread,rfl,rfl⟩
  · have hc : cell < m₁.queries.size := Value.below_query.mp hv
    have htwin := Query.twin_addQuery hm hc
    have hsound := hm.addQuery (hm.below.made_detached cell) (Query.isNew_detached hm cell)
    have hheld := hsound.held cell (htwin.spare.later.trans htwin.spare.held)
    exact ⟨cell,_,_,rfl,Query.reread hm hc,
      fun o d hown => htwin.build_eq rfl hsound.layered hheld (hown cell rfl).1 (hown cell rfl).2⟩
  · obtain ⟨hsound,hmade,hnew⟩ := Query.sound_of_read hm (Realm.entries (R := .sound) hm hv he) hread
    have hread := hsound.addQuery hmade hnew
    have hc : m'.queries.size < (m'.addQuery q).2.queries.size := by
      rw [Memory.size_addQuery]
      exact Nat.lt_succ_self _
    have hbelow : (m'.addQuery q).2.Below m'.queries.size := hsound.below.addQuery hmade hnew.home
    refine ⟨_,_,_,rfl,Query.reread hread hc,fun o d _ => ?_⟩
    refine (Query.twin_addQuery hread hc).build_eq_of_below (hbelow.addQuery (hbelow.made_detached _) rfl) ?_
    rw [Memory.home_addQuery rfl,if_neg (Nat.ne_of_lt hc),Memory.home_addQuery hnew.home,if_pos rfl]

def Memory.filtered : Memory where
  queries := #[{ tables := [.name "t"],filter := .mapping [(.text "a",.int 1)] }]

theorem Memory.sound_filtered : Memory.filtered.Sound :=
  sound_of_filtered (l := ["t"]) rfl rfl (fun k _ => by simp) (fun c e he => by simp [mapping,filtered] at he)

/-- A mapping in which all that can be is written as one text or without a list, and a query that has been there. -/
theorem reread_is_same_written :
    let v : Value := .mapping [(.text "SELECT",.text "a, b"),(.text "FROM",.text "t"),(.text "ORDER_BY",.text "a dEsc"),
      (.text "UNION",.mapping [(.text "FROM",.text "u"),(.text "ORDER_BY",.null)])]
    (∃ again m₂, Query.Reread ((Query.ofValue v).runOn .filtered).2 2 again m₂ ∧ ∀ (o : Options) (d : Dialect),
      (Query.build (o.setting d) (.query again) m₂).1 = (Query.build (o.setting d) (.query 2) m₂).1) ∧
    ∃ again m₂, Query.Reread .filtered 0 again m₂ ∧ ∀ (o : Options) (d : Dialect),
      (Query.build (o.setting d) (.query again) m₂).1 = (Query.build (o.setting d) (.query 0) m₂).1 := by
  intro v
  constructor
  · have hp : ((Query.ofValue v).runOn .filtered).1 = .ok (.ok (.query 2)) := by with_unfolding_all rfl
    have hv : v.Below 1 := fun k _ => by simp [v]
    obtain ⟨cell,again,m₂,hcell,hreread,hbuild⟩ :=
      reread_is_same .filtered v (.query 2) _ Memory.sound_filtered hv (Prod.ext hp rfl)
    cases hcell
    exact ⟨again,m₂,hreread,fun o d => hbuild o d (fun _ hv => by simp [v] at hv)⟩
  · obtain ⟨cell,again,m₂,hcell,hreread,hbuild⟩ :=
      reread_is_same .filtered (.query 0) (.query 0) _ Memory.sound_filtered (Value.below_query.mpr Nat.one_pos) rfl
    cases hcell
    have hjoins : ∀ c, ¬ Request.Joins m₂ 0 c := by
      intro c hj
      unfold Request.Joins at hj
      rw [hreread.kept] at hj
      cases hj
    refine ⟨again,m₂,hreread,fun o d => hbuild o d ?_⟩
    rintro _ ⟨⟩
    refine ⟨fun c hc => ?_,fun c hc => ?_⟩
    · rcases hc.cases_head with rfl | ⟨c',hj,-⟩
      · rw [hreread.kept]
        exact Query.overlooks_of_simple (v := .mapping [(.text "a",.int 1)]) rfl (by simp) (fun _ => rfl) rfl rfl
      · exact absurd hj (hjoins c')
    · obtain ⟨c',hj,-⟩ := Relation.TransGen.head'_iff.mp hc
      exact absurd hj (hjoins c')

def Memory.ownShown : Memory where
  mappings := #[[(.text "(",.int 0),(.text "qp2",.tuple [.text "params",.shared (.query 0)])]]
  queries := #[{ tables := [.name "t"],filter := .list [.text "and",
    .list [.text "=",.text "b",.int 7],.list [.text "=",.shared (.cell 0),.int 1]] }]

theorem Memory.sound_ownShown : Memory.ownShown.Sound := by
  refine sound_of_filtered (l := ["t"]) rfl rfl (fun k _ => by simp) (fun c e he => ?_)
  have hown : (Value.shared (.query 0)).Below 1 := fun k hk => .shared (fun h => by cases h; omega)
  rcases c with _ | c <;> simp [mapping,ownShown] at he
  rcases he with rfl | rfl
  · exact ⟨fun k _ => by simp,fun k _ => by simp⟩
  · exact ⟨fun k _ => by simp,fun k hk => by simpa using hown k hk⟩

theorem Memory.sound_lentBelow : Memory.lentBelow.Sound := by
  have hsize : lentBelow.queries.size = 4 := rfl
  refine ⟨⟨fun c v hv => ?_,fun c e he => ?_,fun c => ?_,fun c k hk hc h => ?_⟩,layered_lentBelow,fun c => ?_,fun c hc => ?_⟩
  · simp [stream,lentBelow] at hv
  · simp [mapping,lentBelow] at he
  · refine ⟨fun f hf k hk => ?_,fun e he => ?_⟩
    · rcases c with _ | _ | _ | _ | c <;> simp [query,lentBelow,Query.fields] at hf
      all_goals rcases hf with rfl | rfl | rfl | rfl | rfl | rfl | rfl | rfl | rfl | rfl | rfl | rfl | rfl
      all_goals simp [Item.toValue,Member.toValue]
      all_goals exact .query (by rw [hsize] at hk; omega)
    · rcases c with _ | _ | _ | _ | c <;> simp [query,lentBelow] at he
      all_goals subst he
      all_goals exact ⟨fun k _ => .text _,fun k _ => .int _⟩
  · rw [hsize] at hk
    rcases c with _ | _ | _ | _ | c <;> simp [Memory.home,query,lentBelow] at h hc <;> omega
  · have hone : Entries.Normal [(.text "x",.int 1)] := ⟨[("x",.int 1)],by simp,rfl⟩
    have htwo : Entries.Normal [(.text "x",.int 2)] := ⟨[("x",.int 2)],by simp,rfl⟩
    have hnil : Entries.Normal [] := ⟨[],by simp,rfl⟩
    rcases c with _ | _ | _ | _ | c
    · exact ⟨by simp [detached,query,lentBelow],hone⟩
    · exact ⟨by simp [detached,query,lentBelow],htwo⟩
    · exact ⟨by simp [detached,query,lentBelow],hone⟩
    · exact ⟨by simp [detached,query,lentBelow],hnil⟩
    · exact ⟨by simp [detached,query,lentBelow],hnil⟩
  · rw [hsize] at hc
    rcases c with _ | _ | _ | _ | c
    · exact show 2 < 4 by decide
    · exact show 1 < 4 by decide
    · exact show 2 < 4 by decide
    · exact show 3 < 4 by decide
    · omega

/-- The first query shows the binding that it has just made, and its copy shows that the query has none. The second one has
a member below that keeps its parameters with it: it ends with the value that another member brings, and its copy with the
one that the query had before. -/
theorem reread_shows_other_bindings : (Memory.ownShown.Sound ∧
      (Query.ofValue (.query 0)).runOn .ownShown = (.ok (.ok (.query 0)),.ownShown) ∧
      ¬ ∃ again m₂, Query.Reread .ownShown 0 again m₂ ∧ ∀ (o : Options) (d : Dialect),
        (Query.build (o.setting d) (.query again) m₂).1 = (Query.build (o.setting d) (.query 0) m₂).1) ∧
    Memory.lentBelow.Sound ∧
      (Query.ofValue (.query 2)).runOn .lentBelow = (.ok (.ok (.query 2)),.lentBelow) ∧
      ¬ ∃ again m₂, Query.Reread .lentBelow 2 again m₂ ∧ ∀ (o : Options) (d : Dialect),
        (Query.build (o.setting d) (.query again) m₂).1 = (Query.build (o.setting d) (.query 2) m₂).1 := by
  refine ⟨⟨Memory.sound_ownShown,rfl,?_⟩,Memory.sound_lentBelow,rfl,?_⟩
  · rintro ⟨again,m₂,hreread,hbuild⟩
    have hheld : 0 < Memory.ownShown.queries.size := Nat.one_pos
    have hread := hreread.read.symm.trans (Query.reread Memory.sound_ownShown hheld).read
    cases hread
    have hdiffer : ((Query.build (({} : Options).setting .sqlite) (.query 1) (Memory.ownShown.addQuery
          (Memory.ownShown.detached 0)).2).1.map Statement.text).toOption ≠
        ((Query.build (({} : Options).setting .sqlite) (.query 0) (Memory.ownShown.addQuery
          (Memory.ownShown.detached 0)).2).1.map Statement.text).toOption := by decide +kernel
    exact hdiffer (congrArg (fun r => (r.map Statement.text).toOption) (hbuild {} .sqlite))
  · rintro ⟨again,m₂,hreread,hbuild⟩
    have hheld : 2 < Memory.lentBelow.queries.size := show 2 < 4 by decide
    have hread := hreread.read.symm.trans (Query.reread Memory.sound_lentBelow hheld).read
    cases hread
    have hsame := congrArg (Except.map Statement.params) (hbuild {} .sqlite)
    have hagain : (Query.build (({} : Options).setting .sqlite) (.query 4) (Memory.lentBelow.addQuery
        (Memory.lentBelow.detached 2)).2).1.map Statement.params = .ok (.mapping [(.text "x",.int 1)]) := by with_unfolding_all rfl
    have hfirst : (Query.build (({} : Options).setting .sqlite) (.query 2) (Memory.lentBelow.addQuery
        (Memory.lentBelow.detached 2)).2).1.map Statement.params = .ok (.mapping [(.text "x",.int 2)]) := by with_unfolding_all rfl
    exact absurd (hagain.symm.trans (hsame.trans hfirst)) (by simp)

end SqlCompose
