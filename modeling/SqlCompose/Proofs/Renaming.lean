import SqlCompose.Proofs.OrdinaryRequests

/-! # Other dialects and other stems

Two mirrors of a request. In another dialect it does the same. A placeholder is named by a stem and a number; with
another stem a request gives its placeholders other names, in the SQL and in the mappings that it extends, and does
nothing else in another way, provided that no name that comes in from outside is numbered behind either stem and that
no mapping that it extends is looked into.
-/
namespace SqlCompose
open Relation Build

/-- The number that a name has behind the stem `p`, behind the stem `q`. All other names stay. -/
def renumber (p q t : String) : String :=
  let n := Nat.ofDigitChars 10 (t.toList.drop p.length) 0
  if t = p ++ Number.writeInt n then q ++ Number.writeInt n else t

variable {p q t : String}

theorem renumber_append (n : Nat) : renumber p q (p ++ Number.writeInt n) = q ++ Number.writeInt n := by
  have hn : Nat.ofDigitChars 10 ((p ++ Number.writeInt n).toList.drop p.length) 0 = n := by
    rw [String.toList_append,← String.length_toList,List.drop_left,Number.writeInt_natCast]
    simp
  unfold renumber
  rw [hn]
  exact if_pos rfl

theorem renumber_of_ne (h : ∀ n : Nat, t ≠ p ++ Number.writeInt n) : renumber p q t = t := if_neg (h _)

/-! ## Renamed keys -/

variable {f : String → String} {ext : Home → Prop}

def Value.rename (f : String → String) : Value → Value
  | .text t => .text (f t)
  | v => v

def Entries.rename (f : String → String) (es : Entries) : Entries := es.map (fun e => (e.1.rename f,e.2))

/-- A collection of parameters with its keys renamed; one that is shared is renamed in memory. -/
def Value.renameKeys (f : String → String) : Value → Value
  | .mapping es => .mapping (Entries.rename f es)
  | v => v

open Classical in
noncomputable def Memory.rename (f : String → String) (ext : Home → Prop) (m : Memory) : Memory where
  streams := m.streams
  mappings := m.mappings.mapIdx (fun n es => if ext (.cell n) then es.rename f else es)
  queries := m.queries.mapIdx (fun n q => if ext (.query n) then { q with params := q.params.rename f } else q)

noncomputable def Draft.rename (f : String → String) (ext : Home → Prop) (d : Draft) : Draft where
  bindings := d.bindings.rename f
  memory := d.memory.rename f ext
  given := d.given.map (fun g => (f g.1,g.2))

def Value.Distinct (p q : String) (k : Value) : Prop :=
  (∃ n : Nat, k = .text (p ++ Number.writeInt n)) ∨
    ∀ n : Nat, k.text? ≠ some (p ++ Number.writeInt n) ∧ k.text? ≠ some (q ++ Number.writeInt n)

namespace Value
variable {k l : Value}

theorem rename_of_ne (h : ∀ n : Nat, k.text? ≠ some (p ++ Number.writeInt n)) : k.rename (renumber p q) = k := by
  cases k with
  | text t => exact congrArg Value.text (renumber_of_ne (fun n ht => h n (congrArg some ht)))
  | _ => rfl

/-- Renamed keys are the same if the keys were. -/
theorem Distinct.same (hk : k.Distinct p q) (hl : l.Distinct p q) :
    (k.rename (renumber p q)).same (l.rename (renumber p q)) = k.same l := by
  rcases hk with ⟨n,rfl⟩ | hk
  · have hn : (text (p ++ Number.writeInt n)).rename (renumber p q) = .text (q ++ Number.writeInt n) :=
      congrArg Value.text (renumber_append n)
    rw [hn,same_of_text_left (k := .text _) rfl,same_of_text_left (k := .text _) rfl]
    rcases hl with ⟨k,rfl⟩ | hl
    · have hk : (text (p ++ Number.writeInt k)).rename (renumber p q) = .text (q ++ Number.writeInt k) :=
        congrArg Value.text (renumber_append k)
      rw [hk]
      simp [text?,String.append_right_inj]
    · rw [rename_of_ne (fun n => (hl n).1),beq_eq_false_iff_ne.mpr (hl n).1,beq_eq_false_iff_ne.mpr (hl n).2]
  · rw [rename_of_ne (fun n => (hk n).1)]
    rcases hl with ⟨n,rfl⟩ | hl
    · have hn : (text (p ++ Number.writeInt n)).rename (renumber p q) = .text (q ++ Number.writeInt n) :=
        congrArg Value.text (renumber_append n)
      rw [hn,same_of_text_right (l := .text _) rfl,same_of_text_right (l := .text _) rfl,
        beq_eq_false_iff_ne.mpr (hk n).1,beq_eq_false_iff_ne.mpr (hk n).2]
    · rw [rename_of_ne (fun n => (hl n).1)]

end Value

namespace Entries
variable {es more : Entries} {k v : Value}

/-- Names that are not numbered stay. -/
theorem rename_of_unnumbered (h : ∀ n : Nat, p ++ Number.writeInt n ∉ es.names) : es.rename (renumber p q) = es := by
  refine (List.map_congr_left (fun e he => ?_)).trans (List.map_id es)
  rw [Value.rename_of_ne (fun n hn => h n (mem_names.mpr ⟨e,he,hn⟩))]
  rfl

theorem put_rename (hk : k.Distinct p q) (hes : ∀ e ∈ es, e.1.Distinct p q) :
    put (k.rename (renumber p q)) v (es.rename (renumber p q)) = rename (renumber p q) (put k v es) := by
  induction es with
  | nil => rfl
  | cons e es ih =>
    have hrest := ih (fun e he => hes e (.tail _ he))
    unfold rename at hrest ⊢
    rw [List.map_cons,put_cons,put_cons,(hes e (.head _)).same hk,hrest]
    split <;> rfl

theorem merge_rename (hes : ∀ e ∈ es, e.1.Distinct p q) (hm : ∀ e ∈ more, e.1.Distinct p q) :
    merge (es.rename (renumber p q)) (more.rename (renumber p q)) = rename (renumber p q) (merge es more) := by
  induction more generalizing es with
  | nil => rfl
  | cons e more ih =>
    have he := hm e (.head _)
    rw [merge_cons,← ih (forall_put (fun _ _ h _ _ => h) hes he) (fun e he => hm e (.tail _ he)),← put_rename he hes]
    rfl

end Entries

/-! ## Renamed memory -/

namespace Memory
variable {m : Memory} {home : Home} {es : Entries}

open Classical in
theorem query_rename (m : Memory) (n : Nat) :
    (m.rename f ext).query n =
      if ext (.query n) then { m.query n with params := (m.query n).params.rename f } else m.query n := by
  unfold query rename
  rw [Array.getD_eq_getD_getElem?,Array.getD_eq_getD_getElem?,Array.getElem?_mapIdx]
  cases m.queries[n]? with
  | some q => rfl
  | none => exact (ite_self _).symm

open Classical in
theorem mapping_rename (m : Memory) (home : Home) :
    (m.rename f ext).mapping home = if ext home then (m.mapping home).rename f else m.mapping home := by
  cases home with
  | cell n =>
    unfold mapping rename
    simp only [Array.getD_eq_getD_getElem?,Array.getElem?_mapIdx]
    cases m.mappings[n]? with
    | some es => rfl
    | none => exact (ite_self _).symm
  | query n =>
    simp only [mapping,query_rename]
    split <;> rfl

theorem query_rename_params (m : Memory) (n : Nat) :
    ∃ es, (m.rename f ext).query n = { m.query n with params := es } := by
  rw [query_rename]
  split
  · exact ⟨_,rfl⟩
  · exact ⟨_,rfl⟩

theorem mapping_rename_of_not (h : ¬ ext home) : (m.rename f ext).mapping home = m.mapping home := by
  rw [mapping_rename,if_neg h]

theorem setMapping_rename (h : ext home) :
    (m.rename f ext).setMapping home (es.rename f) = (m.setMapping home es).rename f ext := by
  cases home with
  | cell n =>
    unfold setMapping rename
    simp only [mk.injEq,true_and,and_true]
    refine Array.ext_getElem? (fun i => ?_)
    simp only [Array.getElem?_setIfInBounds,Array.getElem?_mapIdx,Array.size_mapIdx]
    by_cases hi : n = i
    · subst hi
      by_cases hn : n < m.mappings.size <;> simp [h,hn]
    · simp [hi]
  | query n =>
    unfold setMapping setParams rename
    simp only [mk.injEq,true_and]
    refine Array.ext_getElem? (fun i => ?_)
    simp only [Array.getElem?_modify,Array.getElem?_mapIdx]
    by_cases hi : n = i
    · subst hi
      cases m.queries[n]? <;> simp [h]
    · simp [hi]

/-- Nothing changes if no key does. -/
theorem rename_eq_self (h : ∀ home, ext home → (m.mapping home).rename f = m.mapping home) : m.rename f ext = m := by
  obtain ⟨streams,mappings,queries⟩ := m
  unfold rename
  simp only [mk.injEq,true_and]
  constructor
  · refine Array.ext_getElem? (fun i => ?_)
    rw [Array.getElem?_mapIdx]
    cases hi : mappings[i]? with
    | none => rfl
    | some es =>
      rw [Option.map_some]
      split
      · next hx => simpa [mapping,hi] using h _ hx
      · rfl
  · refine Array.ext_getElem? (fun i => ?_)
    rw [Array.getElem?_mapIdx]
    cases hi : queries[i]? with
    | none => rfl
    | some q =>
      rw [Option.map_some]
      split
      · next hx =>
        have hp : q.params.rename f = q.params := by simpa [mapping,query,hi] using h _ hx
        rw [hp]
      · rfl

end Memory

/-! ## Renamed drafts -/

structure Draft.Distinct (x : Extent) (s s' : Setting) (d : Draft) : Prop where
  bindings : ∀ e ∈ d.bindings, e.1.Distinct s.stem s'.stem
  members : ∀ c, x.member c → ∀ e ∈ (d.view s).params c, e.1.Distinct s.stem s'.stem

variable {x : Extent} {s s' : Setting} {m : Memory} {r : Request} {start d e : Draft} {v : Value} {es : Entries}

/-- Names that are numbered behind neither stem. -/
theorem Entries.distinct_of_unnumbered (h : ∀ n, s.placeholderName n ∉ es.names)
    (h' : ∀ n, s'.placeholderName n ∉ es.names) : ∀ e ∈ es, e.1.Distinct s.stem s'.stem :=
  fun e he => .inr (fun n =>
    ⟨fun ht => h n (mem_names.mpr ⟨e,he,ht⟩),fun ht => h' n (mem_names.mpr ⟨e,he,ht⟩)⟩)

namespace Draft.Distinct

theorem initial (hu : Unnumbered x s start) (hu' : Unnumbered x s' start) : start.Distinct x s s' where
  bindings := Entries.distinct_of_unnumbered hu.collection hu'.collection
  members c hc := by
    rcases start.params_cases s c with h | h <;> rw [h]
    · exact Entries.distinct_of_unnumbered hu.collection hu'.collection
    · exact Entries.distinct_of_unnumbered (hu.member c hc) (hu'.member c hc)

theorem step (hu : Unnumbered x s start) (hu' : Unnumbered x s' start) (st : x.Step s d e)
    (h : d.Distinct x s s') : e.Distinct x s s' := by
  have hbound : ∀ v, (∀ e ∈ d.bindings, e.1.Distinct s.stem s'.stem) →
      ∀ e ∈ (d.bound s v).bindings, e.1.Distinct s.stem s'.stem :=
    fun v hb => Entries.forall_put (fun _ _ h _ _ => h) hb (.inl ⟨_,rfl⟩)
  have hmerge : ∀ {es more : Entries}, (∀ e ∈ es, e.1.Distinct s.stem s'.stem) →
      (∀ e ∈ more, e.1.Distinct s.stem s'.stem) → ∀ e ∈ es.merge more, e.1.Distinct s.stem s'.stem :=
    fun he hm => Entries.forall_merge (fun _ _ h _ _ => h) he hm
  have hexpression : ∀ sql (params : Entries), x.value (.expression sql params) →
      ∀ e ∈ params, e.1.Distinct s.stem s'.stem := fun sql params hv =>
    Entries.distinct_of_unnumbered (hu.expression sql params hv) (hu'.expression sql params hv)
  obtain ⟨hb,hm⟩ := st.collections hbound hmerge hexpression h.bindings h.members
  exact ⟨hb,hm⟩

theorem steps (hu : Unnumbered x s start) (hu' : Unnumbered x s' start) (st : ReflTransGen (x.Step s) start d) :
    d.Distinct x s s' :=
  Extent.keep_steps (fun _ _ st h => h.step hu hu' st) st (initial hu hu')

end Draft.Distinct

namespace Draft

theorem nextName_rename :
    (d.rename (renumber s.stem s'.stem) ext).nextName s' = renumber s.stem s'.stem (d.nextName s) := by
  have hlength : (d.bindings.rename (renumber s.stem s'.stem)).length = d.bindings.length := List.length_map _
  refine Eq.trans ?_ (renumber_append _).symm
  exact congrArg s'.placeholderName hlength

theorem bound_rename (hd : d.Distinct x s s') :
    (d.rename (renumber s.stem s'.stem) ext).bound s' v = (d.bound s v).rename (renumber s.stem s'.stem) ext := by
  have hput := Entries.put_rename (k := .text (d.nextName s)) (v := v) (.inl ⟨_,rfl⟩) hd.bindings
  unfold bound
  rw [nextName_rename]
  simp only [rename,mk.injEq,List.map_append,List.map_cons,List.map_nil,and_true]
  exact hput

theorem adopted_rename {more more' : Entries} (hm : more' = more.rename (renumber p q))
    (hd : ∀ e ∈ d.bindings, e.1.Distinct p q) (h : ∀ e ∈ more, e.1.Distinct p q) :
    (d.rename (renumber p q) ext).adopted more' = (d.adopted more).rename (renumber p q) ext := by
  subst hm
  simp only [adopted,rename,mk.injEq,and_true]
  exact Entries.merge_rename hd h

/-- The mapping that takes the bindings is renamed as they are. -/
theorem view_rename (hcol : s'.collection = s.collection) (hown : ∀ home, s.collection = .shared home → ext home)
    (d : Draft) : (d.rename f ext).view s' = (d.view s).rename f ext := by
  unfold view
  rw [hcol]
  split
  · next home hc => exact Memory.setMapping_rename (hown home hc)
  · rfl

theorem params_rename {c : Nat} (hcol : s'.collection = s.collection) (hown : ∀ home, s.collection = .shared home → ext home)
    (hext : ext (d.memory.home c)) : ((d.rename f ext).view s').params c = ((d.view s).params c).rename f := by
  have hhome : ((d.view s).rename f ext).home c = d.memory.home c :=
    (Memory.home_of_query (Memory.query_rename_params _ c)).trans (view_home s d c)
  rw [view_rename hcol hown,Memory.params,hhome,Memory.mapping_rename,if_pos hext,view_params]

/-- A member whose parameters are renamed brings the renamed names. -/
theorem taken_rename {c : Nat} (hcol : s'.collection = s.collection) (hown : ∀ home, s.collection = .shared home → ext home)
    (hd : d.Distinct x s s') (hx : x.member c) (hext : ext (d.memory.home c)) :
    (d.rename (renumber s.stem s'.stem) ext).adopted
        (((d.rename (renumber s.stem s'.stem) ext).view s').params c) =
      (d.adopted ((d.view s).params c)).rename (renumber s.stem s'.stem) ext :=
  adopted_rename (params_rename hcol hown hext) hd.bindings (hd.members c hx)

theorem handed_rename {c : Nat} (hcol : s'.collection = s.collection) (hown : ∀ home, s.collection = .shared home → ext home)
    (hd : d.Distinct x s s') (hx : x.member c) (hext : ext (d.memory.home c)) :
    Query.handed s' c (d.rename (renumber s.stem s'.stem) ext) =
      (Query.handed s c d).rename (renumber s.stem s'.stem) ext := by
  have hhome : (d.rename (renumber s.stem s'.stem) ext).memory.home c = d.memory.home c :=
    Memory.home_of_query (Memory.query_rename_params _ c)
  have hmerge := Entries.merge_rename (hd.members c hx) hd.bindings
  rw [Query.handed,Query.handed,hhome,params_rename hcol hown hext]
  simp only [rename,mk.injEq,true_and,and_true]
  rw [hmerge]
  exact Memory.setMapping_rename hext

end Draft

/-! ## Renamed requests -/

namespace Request

theorem stem_setting : (r.setting s m).stem = s.stem := by rw [setting_eq]

theorem separator_setting : (r.setting s m).separator = s.separator := by rw [setting_eq]

theorem collection_setting (hs : s.collection = .own) (hs' : s'.collection = .own) :
    (r.setting s' m).collection = (r.setting s m).collection := by
  unfold setting Build.opening
  split
  · rfl
  · rw [hs,hs']
  · rfl

theorem view_setting (hs : s.collection = .own) (hs' : s'.collection = .own) (d : Draft) :
    d.view (r.setting s' m) = d.view (r.setting s m) := by
  unfold Draft.view
  rw [collection_setting hs hs']

theorem start_eq : r.start s' m = r.start s m := by
  unfold start Build.opening
  split <;> rfl

def respelled (hs : s.collection = .own) (hs' : s'.collection = .own) (hstem : s'.stem = s.stem)
    (hsep : s'.separator = s.separator) (hc : r.Collects m) : Mirror where
  extent := r.extent m
  left := r.setting s m
  right := r.setting s' m
  name := id
  image := id
  Fits := r.ComesTo s m
  home _ := True
  cell _ := True
  names _ := False
  collection := .inl (collection_setting hs hs')
  separator := by rw [separator_setting,separator_setting,hsep]
  covers hd := Extent.covers_of_steps hd (covers_extent hs hc)
  keeps hd st := hd.tail st
  nextName _ := by
    unfold Draft.nextName
    rw [placeholderName_setting,placeholderName_setting]
    exact congrArg (· ++ _) hstem
  bound v _ := by
    unfold Draft.bound Draft.nextName
    rw [placeholderName_setting,placeholderName_setting]
    unfold Setting.placeholderName
    rw [hstem]
    rfl
  adopted _ _ := rfl
  taken {d c} _ _ := by rw [id_eq,id_eq,view_setting hs hs']
  handed {d c} _ _ := by rw [id_eq,id_eq,Query.handed,Query.handed,view_setting hs hs']
  drained _ _ _ := rfl
  stream _ _ := rfl
  own _ _ _ := rfl
  mapping {d h} _ _ := by rw [id_eq,view_setting hs hs']
  query _ _ _ := ⟨_,rfl⟩
  quote h := h.elim
  looked _ h := h.elim
  display _ h := h.elim

/-- The keys of all mappings that a request extends, at the start. -/
theorem start_rename (hc : r.Collects m) (hu : Unnumbered (r.extent m) s (r.start s m)) :
    (r.start s m).rename (renumber s.stem s'.stem) (r.Extends m) = r.start s m := by
  have hmapping : ∀ home, r.Extends m home → (m.mapping home).rename (renumber s.stem s'.stem) = m.mapping home := by
    rintro home (hp | ⟨c,rfl,hx⟩)
    · rw [← start_bindings (s := s) hp]
      exact Entries.rename_of_unnumbered hu.collection
    · have hmember := hu.member c hx
      rw [start_memory] at hmember
      exact Entries.rename_of_unnumbered hmember
  have hmemory := Memory.rename_eq_self hmapping
  have hbindings := Entries.rename_of_unnumbered (q := s'.stem) hu.collection
  have hgiven := start_given s m r
  have hm := start_memory s m r
  generalize r.start s m = start at hbindings hgiven hm ⊢
  obtain ⟨bindings,memory,given⟩ := start
  cases hgiven
  cases hm
  unfold Draft.rename
  rw [hbindings,hmemory]
  rfl

theorem ComesTo.distinct (hu : Unnumbered (r.extent m) s (r.start s m)) (hu' : Unnumbered (r.extent m) s' (r.start s m))
    (hd : r.ComesTo s m d) : d.Distinct (r.extent m) (r.setting s m) (r.setting s' m) := by
  have hleft : Unnumbered (r.extent m) (r.setting s m) (r.start s m) := hu.setting
  have hright : Unnumbered (r.extent m) (r.setting s' m) (r.start s m) := hu'.setting
  exact .steps hleft hright hd

/-- A mapping that the request does not extend shows what it holds. -/
theorem view_mapping_unextended {home : Home} (hs : s.collection = .own) (hh : ¬ r.Extends m home) (d : Draft) :
    (d.view (r.setting s m)).mapping home = d.memory.mapping home :=
  Draft.view_mapping_other (fun hcol => hh (.inl (start_of_shared hs hcol.1).1))

theorem extends_of_collection (hs : s.collection = .own) :
    ∀ home, (r.setting s m).collection = .shared home → r.Extends m home :=
  fun _ hc => .inl (start_of_shared hs hc).1

theorem extends_of_member {c : Nat} (hd : r.ComesTo s m d) (hx : (r.extent m).member c) :
    r.Extends m (d.memory.home c) := by
  refine .inr ⟨c,?_,hx⟩
  rw [Memory.home_of_query (Extent.query_of_steps hd c),start_memory]

noncomputable def restemmed (hs : s.collection = .own) (hs' : s'.collection = .own)
    (hsep : s'.separator = s.separator) (hc : r.Collects m) (hu : Unnumbered (r.extent m) s (r.start s m))
    (hu' : Unnumbered (r.extent m) s' (r.start s m)) : Mirror where
  extent := r.extent m
  left := r.setting s m
  right := r.setting s' m
  name := renumber (r.setting s m).stem (r.setting s' m).stem
  image := Draft.rename (renumber (r.setting s m).stem (r.setting s' m).stem) (r.Extends m)
  Fits := r.ComesTo s m
  home h := ¬ r.Extends m h
  cell _ := True
  names _ := False
  collection := .inl (collection_setting hs hs')
  separator := by rw [separator_setting,separator_setting,hsep]
  covers hd := Extent.covers_of_steps hd (covers_extent hs hc)
  keeps hd st := hd.tail st
  nextName _ := Draft.nextName_rename
  bound _ hd := Draft.bound_rename (ComesTo.distinct hu hu' hd)
  adopted := by
    intro d sql params hd hx
    have hleft : Unnumbered (r.extent m) (r.setting s m) (r.start s m) := hu.setting
    have hright : Unnumbered (r.extent m) (r.setting s' m) (r.start s m) := hu'.setting
    have hparams := hleft.expression sql params hx
    have hkeys := Entries.distinct_of_unnumbered hparams (hright.expression sql params hx)
    exact Draft.adopted_rename (Entries.rename_of_unnumbered hparams).symm (ComesTo.distinct hu hu' hd).bindings hkeys
  taken hd hx := Draft.taken_rename (collection_setting hs hs') (extends_of_collection hs)
    (ComesTo.distinct hu hu' hd) hx (extends_of_member hd hx)
  handed hd hx := Draft.handed_rename (collection_setting hs hs') (extends_of_collection hs)
    (ComesTo.distinct hu hu' hd) hx (extends_of_member hd hx)
  drained _ _ _ := rfl
  stream _ _ := rfl
  own _ hcol hh := absurd (.inl (start_of_shared hs hcol).1) hh
  mapping := by
    intro d h hd hh
    rw [view_mapping_unextended hs hh,view_mapping_unextended hs' hh]
    exact Memory.mapping_rename_of_not hh
  query n _ _ := Memory.query_rename_params _ n
  quote h := h.elim
  looked _ h := h.elim
  display _ h := h.elim

end Request

end SqlCompose
