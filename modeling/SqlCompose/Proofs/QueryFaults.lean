import SqlCompose.Proofs.ConditionFaults

/-! # Faults of queries over plain data

The conditions of a query stand behind `WHERE`, behind `HAVING` and in its joins. What a query rests on is the order of
all of these, and what its members rest on.
-/
namespace SqlCompose
open Build Condition

variable {m : Memory} {s : Setting} {v : Value} {es : Entries}

def Join.Orderly (dialect : Dialect) (v : Value) : Prop :=
  ∀ j, Join.ofValue? {} v = some j → Condition.Orderly dialect j.on

namespace Entries

theorem unknown_eq (hk : ∀ e ∈ es, ∃ t, e.1 = .text t) (known : List String) :
    es.unknown m known = es.unknown {} known := by
  unfold unknown keys
  congr 1
  rw [List.map_map,List.map_map]
  refine List.map_congr_left (fun e he => ?_)
  obtain ⟨t,ht⟩ := hk e he
  simp [ht,Value.reportedName,Value.text?]

theorem isJson_field {name : String} (hv : (Value.mapping es).IsJson) (h : es.field? name = some v) : v.IsJson := by
  cases hv with
  | mapping _ hv =>
    obtain ⟨e,he,-,rfl⟩ := mem_of_field? h
    exact hv e he

end Entries

namespace Join
variable {j : Join}

/-- A join is told from plain data without looking at the memory. -/
theorem ofValue?_eq (hv : v.IsJson) : ofValue? m v = ofValue? {} v := by
  cases hv with
  | mapping hk _ =>
    simp only [ofValue?,Value.entries?,Option.map_some,Record.join,Entries.unknown_eq hk]
  | _ => rfl

theorem on_isJson (hv : v.IsJson) (h : ofValue? m v = some j) : j.on.IsJson := by
  cases hv with
  | null | bool | int | float | text => cases h
  | @list items hi =>
    match items with
    | [] | [_] => cases h
    | keyword :: table :: rest =>
      have h : ofList? (keyword :: table :: rest) = some j := h
      simp only [ofList?,bind,Option.bind_eq_some_iff,pure,Option.some.injEq] at h
      obtain ⟨k,-,t,-,rfl⟩ := h
      cases rest with
      | nil => exact .null
      | cons on _ => exact hi on (.tail _ (.tail _ (.head _)))
  | @mapping es hk hv =>
    unfold ofValue? at h
    dsimp only [Value.entries?,Option.map_some] at h
    split at h
    · next keyword table on hr =>
      cases h
      have hfields := Checked.eq_of_ofFields (Option.some.inj hr)
      simp only [bind,Option.bind_eq_some_iff,pure,Option.some.injEq,Value.join.injEq] at hfields
      obtain ⟨k,-,t,-,-,-,rfl⟩ := hfields
      cases hf : es.field? "on" with
      | none => exact .null
      | some v => exact Entries.isJson_field (.mapping hk hv) hf
    · cases h

theorem restsOn_compile (hb : s.Binds) (h : j.on.IsJson) :
    RestsOn m (compile s j) (Condition.Orderly s.dialect j.on) (fun _ => True) := by
  unfold compile
  refine (Condition.restsOn_compile hb h).andThen (fun _ _ _ => ?_)
  split <;> exact .pure trivial

theorem restsOn_compileEntry (hb : s.Binds) (hv : v.IsJson) :
    RestsOn m (compileEntry s v) (Orderly s.dialect v) (fun _ => True) := by
  unfold compileEntry
  split
  · cases hv
  refine .view (fun seen => ?_)
  unfold Orderly
  split
  · next j hj =>
    rw [ofValue?_eq hv] at hj
    rw [hj]
    exact (restsOn_compile hb (on_isJson hv hj)).of_iff (by simp)
  · exact .fail rfl

end Join

namespace Query
variable {q : Query} {inner : Nat → Build Sql}

structure Plain (q : Query) : Prop where
  joins : ∀ v ∈ q.joins, v.IsJson
  filter : q.filter.IsJson
  groupFilter : q.groupFilter.IsJson

structure Orderly (dialect : Dialect) (q : Query) : Prop where
  joins : ∀ v ∈ q.joins, Join.Orderly dialect v
  filter : Condition.Orderly dialect q.filter
  groupFilter : Condition.Orderly dialect q.groupFilter

theorem restsOn_item {name : String → Sql} (hb : s.Binds) (i : Item) :
    RestsOn m (item s name i) True (fun _ => True) := by
  cases i with
  | name text => exact .pure trivial
  | expression sql params =>
    have hadopt : RestsOn m (adopt s params) True (fun _ => True) :=
      .done (fun d => ⟨_,runOn_adopt hb params,rfl⟩) trivial
    exact hadopt.map (fun _ _ => trivial)

theorem restsOn_items {name : String → Sql} {l : List Item} (hb : s.Binds) :
    RestsOn m (items s name l) True (fun _ => True) :=
  (RestsOn.each (fun i _ => restsOn_item hb i)).map (fun _ _ => trivial)

theorem restsOn_filterClause {keyword : String} (hb : s.Binds) (hv : v.IsJson) :
    RestsOn m (filterClause s keyword v) (Condition.Orderly s.dialect v) (fun _ => True) :=
  (Condition.restsOn_compile hb hv).map (fun _ _ => trivial)

theorem restsOn_joinClause (hb : s.Binds) (hq : q.Plain) :
    RestsOn m (joinClause s q) (∀ v ∈ q.joins, Join.Orderly s.dialect v) (fun _ => True) := by
  have hall : RestsOn m (q.joins.mapM (Join.compileEntry s)) (∀ v ∈ q.joins, Join.Orderly s.dialect v)
      (List.Forall₂ (fun _ _ => True) q.joins) := .mapM (fun v hv => Join.restsOn_compileEntry hb (hq.joins v hv))
  exact hall.map (fun _ _ => trivial)

theorem restsOn_leading (hb : s.Binds) (hq : q.Plain) :
    RestsOn m (leading s q) (q.Orderly s.dialect) (fun _ => True) := by
  have hselect : RestsOn m (selectClause s q) True (fun _ => True) := by
    unfold selectClause
    dsimp only
    split
    · exact .pure trivial
    · exact (restsOn_items hb).map (fun _ _ => trivial)
  have hfrom : RestsOn m (fromClause s q) True (fun _ => True) := by
    unfold fromClause
    split
    · exact .pure trivial
    · exact (restsOn_items hb).map (fun _ _ => trivial)
  have hgroup : RestsOn m (groupClause s q) True (fun _ => True) := by
    unfold groupClause
    split
    · exact .pure trivial
    · exact (restsOn_items hb).map (fun _ _ => trivial)
  have horder : q.Orderly s.dialect ↔ (∀ v ∈ q.joins, Join.Orderly s.dialect v) ∧
      Condition.Orderly s.dialect q.filter ∧ Condition.Orderly s.dialect q.groupFilter :=
    ⟨fun h => ⟨h.joins,h.filter,h.groupFilter⟩,fun h => ⟨h.1,h.2.1,h.2.2⟩⟩
  unfold leading
  refine RestsOn.of_iff (hselect.after (fun _ _ => hfrom.after (fun _ _ => ?_))) horder
  refine (restsOn_joinClause hb hq).bind (fun _ _ _ => (restsOn_filterClause hb hq.filter).bind (fun _ _ _ => ?_))
  exact hgroup.after (fun _ _ => (restsOn_filterClause hb hq.groupFilter).map (fun _ _ => trivial))

/-- A member that is a query is written as the query is. -/
theorem restsOn_member {W : Prop} {c : Nat} (hb : s.Binds) (h : RestsOn m (inner c) W (fun _ => True)) :
    RestsOn m (member s inner (.query c)) W (fun _ => True) := by
  intro d hd
  obtain ⟨hl,hr,he⟩ := h (d.adopted ((d.view s).params c)) hd
  rw [runOn_member hb]
  revert hl hr he
  rcases (inner c).runOn (d.adopted ((d.view s).params c)) with ⟨x | sql,e⟩
  · exact fun hl _ he => ⟨hl,nofun,he⟩
  · intro hl hr _
    exact ⟨hl.trans (.setMapping _ _ _),fun _ _ => ⟨(hr sql rfl).1,trivial⟩,nofun⟩

/-- What each of the members rests on may be told by something else. -/
theorem restsOn_members {W : Value → Prop} {vs : List Value} {us : List Member} {f : Member → Build Sql}
    (h : List.Forall₂ (fun v u => RestsOn m (f u) (W v) (fun _ => True)) vs us) :
    RestsOn m (us.mapM f) (∀ v ∈ vs, W v) (fun _ => True) := by
  induction h with
  | nil =>
    rw [List.mapM_nil]
    exact (RestsOn.pure trivial).of_iff (by simp)
  | cons hu _ ih =>
    rw [List.mapM_cons]
    exact (hu.bind (fun _ _ _ => ih.map (fun _ _ => trivial))).of_iff List.forall_mem_cons

theorem restsOn_compileWith {W : Value → Prop} {vs : List Value} (hb : s.Binds) (hq : q.Plain)
    (hm : List.Forall₂ (fun v u => RestsOn m (member s inner u) (W v) (fun _ => True)) vs q.members) :
    RestsOn m (compileWith s inner q) (q.Orderly s.dialect ∧ ∀ v ∈ vs, W v) (fun _ => True) := by
  have hunion : RestsOn m (unionClause s inner q) (∀ v ∈ vs, W v) (fun _ => True) := by
    unfold unionClause
    split
    · next hempty =>
      have hnil : q.members = [] := by simpa using hempty
      rw [hnil] at hm
      cases hm
      exact (RestsOn.pure trivial).of_iff (by simp)
    · exact (restsOn_members hm).map (fun _ _ => trivial)
  have hkey : ∀ e, RestsOn m (sortKey s e) True (fun _ => True) := by
    intro e
    unfold sortKey
    split
    · exact restsOn_item hb _
    · exact .pure trivial
    · exact .pure trivial
  have horder : RestsOn m (orderClause s q) True (fun _ => True) := by
    unfold orderClause
    split
    · exact .pure trivial
    · exact (RestsOn.each (fun e _ => hkey e)).map (fun _ _ => trivial)
  rw [compileWith_eq]
  refine (restsOn_leading hb hq).bind (fun _ _ _ => hunion.andThen (fun _ _ _ => ?_))
  exact horder.map (fun _ _ => trivial)

end Query

end SqlCompose
