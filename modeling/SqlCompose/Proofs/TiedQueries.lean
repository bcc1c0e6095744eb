import SqlCompose.Proofs.TiedConditions
import SqlCompose.Query.Clause

/-! # Queries that differ in literals

Clause by clause such queries are written by the same SQL, and so are the queries that are their members.
-/
namespace SqlCompose
open List Build

variable {t : Ties} {s : Setting} {m m' : Memory} {v w : Value}

namespace Condition

theorem operands_of_fixed {op : Operator} {items : List Value} (h : ∀ v ∈ items, v.Fixed t)
    (hall : ∀ v ∈ items, Tied t v v) : Operands t op items items := by
  by_cases hop : op ≠ .and ∧ op ≠ .or
  · cases items with
    | nil => exact .none
    | cons column values =>
      refine .test hop (h column (.head _)) (forall₂_same.mpr (fun v hv => ?_))
      have hf := h v (.tail _ hv)
      cases op <;> first | exact .fixed hf | exact .alike (.fixed hf)
  · cases op with
    | and => exact .and (forall₂_same.mpr hall)
    | or => exact .or (forall₂_same.mpr hall)
    | _ => exact absurd ⟨nofun,nofun⟩ hop

theorem form_of_fixed {items : List Value} (h : ∀ v ∈ items, v.Fixed t) (hall : ∀ v ∈ items, Tied t v v) :
    Form t items items := by
  cases items with
  | nil => exact .nil
  | cons head operands =>
    exact .cons (fun op _ => operands_of_fixed (fun v hv => h v (.tail _ hv)) (fun v hv => hall v (.tail _ hv)))

/-- A condition that is fixed may stand on both sides. -/
theorem tied_of_fixed {v : Value} (h : v.Fixed t) : Tied t v v := by
  cases v with
  | expression sql params => exact .expression (.fixed h)
  | operation op operands =>
    cases h with
    | atom h => cases h
    | operation h => exact .operation (operands_of_fixed h (fun v hv => tied_of_fixed (h v hv)))
  | list items =>
    cases h with
    | atom h => cases h
    | list h => exact .list (form_of_fixed h (fun v hv => tied_of_fixed (h v hv)))
  | tuple items =>
    cases h with
    | atom h => cases h
    | tuple h => exact .tuple (form_of_fixed h (fun v hv => tied_of_fixed (h v hv)))
  | pairs columns =>
    cases h with
    | atom h => cases h
    | pairs h =>
      refine .pairs rfl (forall₂_same.mpr (fun v hv => ?_))
      obtain ⟨c,hc,rfl⟩ := mem_map.mp hv
      exact .fixed (h c hc)
  | mapping es =>
    cases h with
    | atom h => cases h
    | mapping hk hv =>
      refine .mapping rfl (forall₂_same.mpr (fun v hv' => ?_))
      obtain ⟨e,he,rfl⟩ := mem_map.mp hv'
      exact .fixed (hv e he)
  | shared home =>
    cases h with
    | atom h => cases h
    | shared h => exact .shared (.inr (t.apart _ h))
  | _ => exact .same rfl
termination_by sizeOf v

end Condition

/-! ## Joins -/

namespace Join

structure Alike (t : Ties) (j j' : Join) : Prop where
  keyword : j.keyword = j'.keyword
  table : j.table = j'.table
  on : Condition.Tied t j.on j'.on

/-- Whether keys are unknown does not depend on how they are reported. -/
theorem isEmpty_unknown (known : List String) (es : Entries) :
    (es.unknown m known).isEmpty = es.keys.all (fun key => key.text?.any known.contains) := by
  unfold Entries.unknown
  induction es.keys with
  | nil => rfl
  | cons key keys ih =>
    rw [map_cons,filterMap_cons,all_cons,← ih]
    cases hk : key.text? with
    | none => simp [hk]
    | some name =>
      have hn : key.reportedName m = name := by
        unfold Value.reportedName
        simp only [hk]
      cases hc : known.contains name <;> simp only [hk,hn,hc,Option.isSome_some,Option.any_some] <;> rfl

def ofFields? (keyword table : Option String) (on : Value) (plain : Bool) : Option Join :=
  match keyword,table,plain with
  | some keyword,some table,true => some ⟨keyword,table,on⟩
  | _,_,_ => none

theorem ofValue?_of_entries (es : Entries) (hv : v.entries? m = some es) :
    ofValue? m v = ofFields? ((es.field? "type").bind Value.readText?) ((es.field? "table").bind Value.readText?)
      ((es.field? "on").getD .null)
      (es.keys.all (fun key => key.text?.any ["type","table","on"].contains)) := by
  have hmapping : ofValue? m v = ofValue? m (.mapping es) := by
    cases v with
    | mapping entries =>
      cases hv
      rfl
    | shared home =>
      cases hv
      rfl
    | _ => cases hv
  rw [hmapping,← isEmpty_unknown (m := m)]
  simp only [ofValue?,Value.entries?,Option.map_some,Record.join,Checked.ofFields,ofFields?]
  cases (es.field? "type").bind Value.readText? with
  | none => rfl
  | some keyword =>
    cases (es.field? "table").bind Value.readText? with
    | none => rfl
    | some table => cases es.unknown m ["type","table","on"] <;> rfl

theorem ofList?_listed {xs ys : List Value} (h : Listed t xs ys) :
    Option.Rel (Alike t) (ofList? xs) (ofList? ys) := by
  cases h with
  | short hx hy =>
    have hshort : ∀ {l : List Value}, l.length < 2 → ofList? l = none := by
      intro l hl
      match l with
      | [] => rfl
      | [_] => rfl
      | _ :: _ :: l =>
        rw [length_cons,length_cons] at hl
        omega
    rw [hshort hx,hshort hy]
    exact .none
  | @long keyword table xs ys h =>
    have hlong : ∀ l : List Value, ofList? (keyword :: table :: l) =
        keyword.text?.bind (fun k => table.text?.bind (fun n => some ⟨k,n,l.headD .null⟩)) := fun _ => rfl
    rw [hlong,hlong]
    cases keyword.text? with
    | none => exact .none
    | some k =>
      cases table.text? with
      | none => exact .none
      | some n => exact .some ⟨rfl,rfl,h⟩

theorem fixed_field {es : Entries} {name : String} (h : ∀ e ∈ es, e.2.Fixed t) :
    ((es.field? name).getD .null).Fixed t := by
  unfold Entries.field? Entries.get?
  cases hf : es.find? (fun e => e.1.same (.text name)) with
  | none => exact .atom rfl
  | some e => exact h e (mem_of_find?_eq_some hf)

theorem ofValue?_tied (h : Tied t v w) (hm : m.Tied t m') : Option.Rel (Alike t) (ofValue? m v) (ofValue? m' w) := by
  cases h with
  | expression h => exact .none
  | join h => exact .some ⟨rfl,rfl,h⟩
  | list h => exact ofList?_listed h
  | tuple h => exact ofList?_listed h
  | @mapping es es' hk hw ht h =>
    rw [ofValue?_of_entries es rfl,ofValue?_of_entries es' rfl,hk,hw,ht]
    unfold ofFields?
    split
    · exact .some ⟨rfl,rfl,h⟩
    · exact .none
  | @shared home h =>
    obtain ⟨he,hes⟩ := hm.frozen home h
    rw [ofValue?_of_entries (m.mapping home) rfl,ofValue?_of_entries (m'.mapping home) rfl,← he]
    unfold ofFields?
    split
    · exact .some ⟨rfl,rfl,Condition.tied_of_fixed (fixed_field (fun e he => (hes e he).2))⟩
    · exact .none
  | malformed hx h =>
    rw [h,h]
    exact .none

theorem match_compile {j j' : Join} (h : j.Alike t j') : Matches t s (j.compile s) (j'.compile s) Eq := by
  unfold compile
  rw [h.keyword,h.table]
  exact .map (Condition.match_compile h.on) (fun _ _ h => by rw [h])

theorem compileEntry_of_not_expression (h : v.isExpression = false) : compileEntry s v = (do
    match ofValue? (← view s) v with
    | some j => compile s j
    | none => Build.fail (.malformedJoin v)) := by
  cases v <;> first | rfl | cases h

theorem match_compileEntry (h : Tied t v w) : Matches t s (compileEntry s v) (compileEntry s w) Eq := by
  have hread : v.isExpression = false → w.isExpression = false →
      Matches t s (compileEntry s v) (compileEntry s w) Eq := by
    intro hv hw
    rw [compileEntry_of_not_expression hv,compileEntry_of_not_expression hw]
    refine .view (fun m m' hm => ?_)
    have hj := ofValue?_tied h hm
    generalize ofValue? m v = o,ofValue? m' w = o' at hj ⊢
    cases hj with
    | none => exact .fail rfl
    | some hj => exact match_compile hj
  cases h with
  | expression h => exact match_rendered (.alike h)
  | malformed hx h => exact hread hx hx
  | _ => exact hread rfl rfl

end Join

/-! ## Clauses -/

namespace Build

theorem match_item (name : String → Sql) {i : Item} (h : i.toValue.Alike t i.toValue) :
    Matches t s (item s name i) (item s name i) Eq := by
  cases i with
  | name text => exact .pure rfl
  | expression sql params => exact .bind (match_adopt h.params) (fun _ _ _ => .pure rfl)

theorem match_items {name : String → Sql} {l : List Item} (h : ∀ i ∈ l, i.toValue.Alike t i.toValue) :
    Matches t s (items s name l) (items s name l) Eq :=
  .map (Condition.match_shared (fun i hi => match_item name (h i hi))) (fun _ _ h => by rw [h])

end Build

namespace Query
variable {q q' : Query}

theorem match_selectClause (h : q.Tied t q') : Matches t s (selectClause s q) (selectClause s q') Eq := by
  unfold selectClause
  rw [h.distinct,h.selectOption,h.columns]
  dsimp only
  split
  · exact .pure rfl
  · refine .map (match_items (fun i hi => h.items i ?_)) (fun _ _ h => by rw [h])
    rw [h.columns]
    simp [hi]

theorem match_fromClause (h : q.Tied t q') : Matches t s (fromClause s q) (fromClause s q') Eq := by
  unfold fromClause
  rw [h.tables]
  split
  · exact .pure rfl
  · refine .map (match_items (fun i hi => h.items i ?_)) (fun _ _ h => by rw [h])
    rw [h.tables]
    simp [hi]

theorem match_joinClause (h : q.Tied t q') : Matches t s (joinClause s q) (joinClause s q') Eq :=
  .map (Condition.match_parts h.joins (fun _ _ h => Join.match_compileEntry h)) (fun _ _ h => by rw [h])

theorem match_filterClause (keyword : String) (h : Condition.Tied t v w) :
    Matches t s (filterClause s keyword v) (filterClause s keyword w) Eq :=
  .map (Condition.match_compile h) (fun _ _ h => by rw [h])

theorem match_groupClause (h : q.Tied t q') : Matches t s (groupClause s q) (groupClause s q') Eq := by
  unfold groupClause
  rw [h.groups]
  split
  · exact .pure rfl
  · refine .map (match_items (fun i hi => h.items i ?_)) (fun _ _ h => by rw [h])
    rw [h.groups]
    simp [hi]

theorem match_sortKey {e : String × SortKey} (h : e.2.toValue.Alike t e.2.toValue) :
    Matches t s (sortKey s e) (sortKey s e) Eq := by
  obtain ⟨name,key⟩ := e
  cases key with
  | expression sql params => exact match_item Sql.column (i := .expression sql params) h
  | direction d => cases d <;> exact .pure rfl

theorem match_orderClause (h : q.Tied t q') : Matches t s (orderClause s q) (orderClause s q') Eq := by
  unfold orderClause
  rw [h.order]
  split
  · exact .pure rfl
  · refine .map (Condition.match_shared (fun e he => match_sortKey (h.sortKeys e ?_))) (fun _ _ h => by rw [h])
    rwa [h.order]

/-! ## Members of a union -/

/-- A query that is handed the bindings so far takes them as its parameters. -/
theorem tied_handed {d d' : Draft} {cell : Nat} (hs : s.Shares) (hc : t.written cell) (h : d.Tied t s d') :
    (handed s cell d).Tied t s (handed s cell d') where
  memory := by
    rw [handed,handed,← h.memory.home hc]
    refine h.memory.setMapping (h.memory.growing cell hc) (Entries.Tied.merge ?_ (h.bindings.mono (fun hr => ⟨hr,hs⟩)))
    exact (h.view.params hc).mono .inl
  bindings := h.bindings
  growing := h.growing

theorem match_member {compile compile' : Nat → Build Sql} {member : Member} (hs : s.Shares)
    (hg : ∀ cell, member = .query cell → t.written cell ∧ Matches t s (compile cell) (compile' cell) Eq) :
    Matches t s (Query.member s compile member) (Query.member s compile' member) Eq := by
  cases member with
  | sql text => exact .pure rfl
  | query cell =>
    obtain ⟨hc,hm⟩ := hg cell rfl
    refine .view (fun m m' ht => ?_)
    refine Matches.bind (match_adopt ((ht.params hc).mono (fun hr => .inl hr.1))) (fun _ _ _ => ?_)
    refine .bind hm (fun sql _ hsql => ?_)
    refine .bind (R := fun _ _ => True) (fun e e' he => .ok trivial (tied_handed hs hc he)) (fun _ _ _ => .pure hsql)

theorem match_unionClause {compile compile' : Nat → Build Sql} (hs : s.Shares) (h : q.Tied t q')
    (hc : ∀ cell, t.written cell → Matches t s (compile cell) (compile' cell) Eq) :
    Matches t s (unionClause s compile q) (unionClause s compile' q') Eq := by
  unfold unionClause
  rw [h.members]
  split
  · exact .pure rfl
  · refine .map (Condition.match_shared (fun member hm => match_member hs (fun cell he => ?_))) (fun _ _ h => by rw [h])
    have hg : t.written cell := by
      apply h.written cell
      rw [h.members,← he]
      exact hm
    exact ⟨hg,hc cell hg⟩

theorem match_compileWith {compile compile' : Nat → Build Sql} (hs : s.Shares) (h : q.Tied t q')
    (hc : ∀ cell, t.written cell → Matches t s (compile cell) (compile' cell) Eq) :
    Matches t s (compileWith s compile q) (compileWith s compile' q') Eq := by
  unfold compileWith
  refine .bind (match_selectClause h) (fun select _ hselect => ?_)
  refine .bind (match_fromClause h) (fun tables _ htables => ?_)
  refine .bind (match_joinClause h) (fun joins _ hjoins => ?_)
  refine .bind (match_filterClause "WHERE" h.filter) (fun filter _ hfilter => ?_)
  refine .bind (match_groupClause h) (fun groups _ hgroups => ?_)
  refine .bind (match_filterClause "HAVING" h.groupFilter) (fun groupFilter _ hgroupFilter => ?_)
  refine .bind (match_unionClause hs h hc) (fun union _ hunion => ?_)
  refine .map (match_orderClause h) (fun order _ horder => ?_)
  have hlimit : limitClause q = limitClause q' := by
    unfold limitClause
    rw [h.limit,h.offset]
  rw [hselect,htables,hjoins,hfilter,hgroups,hgroupFilter,hunion,horder,hlimit]

/-- A query and all its members are written by the same SQL. -/
theorem match_compile {cell : Nat} (hs : s.Shares) (hc : t.written cell) :
    Matches t s (compile s cell) (compile s cell) Eq := by
  induction cell using Nat.strongRecOn with
  | ind cell ih =>
    rw [compile]
    refine .get (fun d d' hd => match_compileWith hs (hd.memory.queries cell hc) (fun earlier he => ?_) d d' hd)
    split
    · next hlt => exact ih earlier hlt he
    · exact .misuse _

end Query

end SqlCompose
