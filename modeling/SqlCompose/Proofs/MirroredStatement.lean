import SqlCompose.Proofs.MirroredCondition
import SqlCompose.Proofs.TiedQueries

/-! # Mirrored statements

The clauses of a query are mirrored one by one, and its members with them. The other statements are mirrored if they
name their table and columns by texts.
-/
namespace SqlCompose
open Relation Build

variable {M : Mirror} {d : Draft} {v : Value}

/-! ## Joins -/

structure Mirror.Joins (M : Mirror) (v : Value) : Prop where
  row : M.extent.value v → M.Row v
  condition : ∀ {d}, M.Fits d → ∀ {j}, Join.ofValue? (d.view M.left) v = some j → ∀ t ∈ Condition.tests j.on, M.Allows t

namespace Join
variable {j : Join}

theorem ofValue?_image (hd : M.Fits d) (h : M.Row v) :
    ofValue? ((M.image d).view M.right) v = ofValue? (d.view M.left) v := by
  have hentries := M.entries hd h
  cases he : v.entries? (d.view M.left) with
  | some es => rw [ofValue?_of_entries es he,ofValue?_of_entries es (hentries.trans he)]
  | none => cases v <;> first | rfl | cases he

theorem mirror_compile (ha : ∀ t ∈ Condition.tests j.on, M.Allows t) (hv : M.extent.value j.on) :
    Mirrors M d (compile M.left j) (compile M.right j) (Sql.rename M.name) (fun _ => True) := by
  unfold compile
  refine .bind (Condition.mirror_compile j.on d ha hv) (fun condition e _ => ?_)
  rw [Sql.isEmpty_rename]
  split
  · exact .pure (by simp) trivial
  · exact .pure (by simp) trivial

theorem mirror_compileEntry (hj : M.Joins v) (hv : M.extent.value v) :
    Mirrors M d (compileEntry M.left v) (compileEntry M.right v) (Sql.rename M.name) (fun _ => True) := by
  by_cases hx : v.isExpression
  · cases v <;> first | exact mirror_rendered hv | cases hx
  · rw [Bool.not_eq_true] at hx
    rw [compileEntry_of_not_expression hx,compileEntry_of_not_expression hx]
    refine .view (fun hd => ?_)
    rw [ofValue?_image hd (hj.row hv)]
    split
    · next j hr => exact mirror_compile (hj.condition hd hr) (value_of_ofValue? (M.covers hd) hv hr)
    · exact .fail _

end Join

/-! ## Queries -/

structure Mirror.Clauses (M : Mirror) (q : Query) : Prop where
  filter : ∀ t ∈ Condition.tests q.filter, M.Allows t
  groupFilter : ∀ t ∈ Condition.tests q.groupFilter, M.Allows t
  joins : ∀ j ∈ q.joins, M.Joins j

namespace Query
variable {q : Query} {compile compile' : Nat → Build Sql} {f : String → String}

@[simp] theorem rename_clauses (s : Setting) (parts : List Sql) :
    (clauses s parts).rename f = clauses s (parts.map (Sql.rename f)) := by
  unfold clauses
  rw [Sql.rename_join,Sql.filter_rename]

@[simp] theorem rename_unionText (parts : List Sql) :
    (unionText parts).rename f = unionText (parts.map (Sql.rename f)) := by
  simp [unionText]

@[simp] theorem rename_limitClause (q : Query) : (limitClause q).rename f = limitClause q := by
  unfold limitClause
  dsimp only
  split <;> rfl

theorem mirror_item {name : String → Sql} {i : Item} (hn : ∀ t, (name t).rename M.name = name t)
    (h : M.extent.value i.toValue) :
    Mirrors M d (item M.left name i) (item M.right name i) (Sql.rename M.name) (fun _ => True) := by
  cases i with
  | name text => exact .pure (hn text).symm trivial
  | expression sql params => exact (mirror_brought h).map (fun _ _ => ⟨rfl,trivial⟩)

theorem mirror_items {name : String → Sql} {l : List Item} (hn : ∀ t, (name t).rename M.name = name t)
    (h : M.extent.value (.list (l.map Item.toValue))) :
    Mirrors M d (items M.left name l) (items M.right name l) (Sql.rename M.name) (fun _ => True) := by
  refine .fitting (fun hd => ?_)
  have hi : ∀ i ∈ l, M.extent.value i.toValue :=
    fun i hi => (M.covers hd).elements h rfl _ (List.mem_map_of_mem hi)
  refine (Mirrors.mapM (fun i hm e _ => mirror_item hn (hi i hm))).map (fun parts _ => ⟨?_,trivial⟩)
  exact (Sql.rename_commas parts).symm

theorem mirror_selectClause (h : M.extent.value (.list (q.columns.map Item.toValue))) :
    Mirrors M d (selectClause M.left q) (selectClause M.right q) (Sql.rename M.name) (fun _ => True) := by
  unfold selectClause
  dsimp only
  split
  · exact .pure rfl trivial
  · exact (mirror_items Sql.rename_aliasedColumn h).map (fun _ _ => ⟨by simp,trivial⟩)

theorem mirror_fromClause (h : M.extent.value (.list (q.tables.map Item.toValue))) :
    Mirrors M d (fromClause M.left q) (fromClause M.right q) (Sql.rename M.name) (fun _ => True) := by
  unfold fromClause
  split
  · exact .pure rfl trivial
  · exact (mirror_items Sql.rename_aliasedTable h).map (fun _ _ => ⟨by simp,trivial⟩)

theorem mirror_joinClause (hj : ∀ j ∈ q.joins, M.Joins j) (h : M.extent.value (.list q.joins)) :
    Mirrors M d (joinClause M.left q) (joinClause M.right q) (Sql.rename M.name) (fun _ => True) := by
  refine .fitting (fun hd => ?_)
  have hv : ∀ j ∈ q.joins, M.extent.value j := (M.covers hd).elements h rfl
  refine (Mirrors.mapM (fun j hm e _ => Join.mirror_compileEntry (hj j hm) (hv j hm))).map
    (fun parts _ => ⟨?_,trivial⟩)
  rw [M.separator]
  exact (Sql.rename_join _ parts).symm

theorem mirror_filterClause {keyword : String} (ha : ∀ t ∈ Condition.tests v, M.Allows t) (hv : M.extent.value v) :
    Mirrors M d (filterClause M.left keyword v) (filterClause M.right keyword v) (Sql.rename M.name)
      (fun _ => True) := by
  refine (Condition.mirror_compile v d ha hv).map (fun sql _ => ⟨?_,trivial⟩)
  rw [Sql.isEmpty_rename]
  split <;> simp

theorem mirror_groupClause (h : M.extent.value (.list (q.groups.map Item.toValue))) :
    Mirrors M d (groupClause M.left q) (groupClause M.right q) (Sql.rename M.name) (fun _ => True) := by
  unfold groupClause
  split
  · exact .pure rfl trivial
  · exact (mirror_items Sql.rename_column h).map (fun _ _ => ⟨by simp,trivial⟩)

theorem mirror_sortKey {e : String × SortKey} (h : M.extent.value e.2.toValue) :
    Mirrors M d (sortKey M.left e) (sortKey M.right e) (Sql.rename M.name) (fun _ => True) := by
  unfold sortKey
  split
  · next he =>
    rw [he] at h
    exact mirror_item Sql.rename_column h
  · exact .pure (by simp) trivial
  · exact .pure (by simp) trivial

theorem mirror_orderClause (h : M.extent.value (.mapping (q.order.map (fun e => (.text e.1,e.2.toValue))))) :
    Mirrors M d (orderClause M.left q) (orderClause M.right q) (Sql.rename M.name) (fun _ => True) := by
  unfold orderClause
  split
  · exact .pure rfl trivial
  · refine .fitting (fun hd => ?_)
    have ho : ∀ e ∈ q.order, M.extent.value e.2.toValue :=
      fun e he => ((M.covers hd).entries h rfl (.text e.1,e.2.toValue) (List.mem_map_of_mem he)).2
    exact (Mirrors.mapM (fun e hm _ _ => mirror_sortKey (ho e hm))).map (fun parts _ => ⟨by simp,trivial⟩)

theorem mirror_member {c : Member} (hm : ∀ cell, c = .query cell → M.extent.member cell)
    (hc : ∀ cell, c = .query cell → ∀ e,
      Mirrors M e (compile cell) (compile' cell) (Sql.rename M.name) (fun _ => True)) :
    Mirrors M d (member M.left compile c) (member M.right compile' c) (Sql.rename M.name) (fun _ => True) := by
  cases c with
  | sql sql => exact .pure rfl trivial
  | query cell =>
    have hx := hm cell rfl
    unfold member
    refine .view (fun _ => ?_)
    refine .bind (mirror_adopt (fun hd => M.taken hd hx) (fun _ => .take d hx)) (fun _ e _ => ?_)
    refine .bind (hc cell rfl e) (fun sql e' _ => ?_)
    refine Mirrors.bind (f := id) (P := fun _ => True) ?_ (fun _ _ _ => .pure rfl trivial)
    refine .step rfl (fun hd => ?_) (fun _ => rfl) (fun _ => .hand e' hx) (fun _ => trivial)
    rw [← M.handed hd hx]
    rfl

theorem mirror_unionClause (hm : ∀ cell, .query cell ∈ q.members → M.extent.member cell)
    (hc : ∀ cell, .query cell ∈ q.members → ∀ e,
      Mirrors M e (compile cell) (compile' cell) (Sql.rename M.name) (fun _ => True)) :
    Mirrors M d (unionClause M.left compile q) (unionClause M.right compile' q) (Sql.rename M.name)
      (fun _ => True) := by
  unfold unionClause
  split
  · exact .pure rfl trivial
  · refine (Mirrors.mapM (Q := fun _ => True) (h := Sql.rename M.name) (fun c h e _ => ?_)).map
      (fun parts _ => ⟨(rename_unionText parts).symm,trivial⟩)
    refine mirror_member ?_ ?_
    · rintro cell rfl
      exact hm cell h
    · rintro cell rfl
      exact hc cell h

theorem mirror_compileWith (ha : M.Clauses q) (hq : ∀ f ∈ q.fields .null, M.extent.value f.2)
    (hm : ∀ cell, .query cell ∈ q.members → M.extent.member cell)
    (hc : ∀ cell, .query cell ∈ q.members → ∀ e,
      Mirrors M e (compile cell) (compile' cell) (Sql.rename M.name) (fun _ => True)) :
    Mirrors M d (compileWith M.left compile q) (compileWith M.right compile' q) (Sql.rename M.name)
      (fun _ => True) := by
  have hf : ∀ name v, (name,v) ∈ q.fields .null → M.extent.value v := fun name v h => hq (name,v) h
  unfold compileWith
  refine .bind (mirror_selectClause (hf "SELECT" _ (by simp [fields]))) (fun select _ _ => ?_)
  refine .bind (mirror_fromClause (hf "FROM" _ (by simp [fields]))) (fun tables _ _ => ?_)
  refine .bind (mirror_joinClause ha.joins (hf "JOIN" _ (by simp [fields]))) (fun joins _ _ => ?_)
  refine .bind (mirror_filterClause ha.filter (hf "WHERE" _ (by simp [fields]))) (fun filter _ _ => ?_)
  refine .bind (mirror_groupClause (hf "GROUP_BY" _ (by simp [fields]))) (fun groups _ _ => ?_)
  refine .bind (mirror_filterClause ha.groupFilter (hf "HAVING" _ (by simp [fields]))) (fun groupFilter _ _ => ?_)
  refine .bind (mirror_unionClause hm hc) (fun union _ _ => ?_)
  refine .bind (mirror_orderClause (hf "ORDER_BY" _ (by simp [fields]))) (fun order _ _ => ?_)
  refine .pure ?_ trivial
  rw [rename_clauses]
  simp [clauses,M.separator]

theorem mirror_compile (hq : ∀ {d}, M.Fits d → ∀ c, M.extent.query c → M.Clauses (d.memory.query c)) (cell : Nat)
    (d : Draft) (h : M.extent.query cell) :
    Mirrors M d (Query.compile M.left cell) (Query.compile M.right cell) (Sql.rename M.name) (fun _ => True) := by
  induction cell using Nat.strongRecOn generalizing d with
  | _ cell ih =>
    rw [Query.compile,Query.compile]
    refine .get (fun hd => ?_)
    obtain ⟨es,hes⟩ := M.query cell hd (.inl h)
    rw [hes]
    have hx := (M.covers hd).members cell h
    refine mirror_compileWith (hq hd cell h) ((M.covers hd).clauses cell h) (fun c hc => (hx c hc).2) (fun c hc e => ?_)
    split
    · next hlt => exact ih c hlt e (hx c hc).1
    · exact .misuse _

end Query

/-! ## Statements -/

namespace Statement
variable {table columns rows condition : Value}

theorem mirror_insert (ht : table.text?.isSome) (ho : M.Open columns) (hv : M.extent.value columns)
    (hn : ∀ w, columns.Yields (d.view M.left) w → w.IsText) :
    Mirrors M d (insert table columns M.left) (insert table columns M.right) (Sql.rename M.name) (fun _ => True) := by
  unfold insert
  refine .bind (mirror_each ho hv (fun w hw _ e => mirror_listedColumn (.inl (hn w hw)))) (fun names _ _ => ?_)
  refine .bind (mirror_eachEntry (Mirror.row_of_open ho) hv (fun b _ _ _ _ hb e => mirror_rendered hb))
    (fun values _ _ => ?_)
  refine .bind (mirror_tableName ht) (fun target _ _ => ?_)
  exact mirror_nameList.map (fun names _ => ⟨by simp,trivial⟩)

theorem mirror_batchRow {width : Nat} (ho : M.Open v) (hv : M.extent.value v) :
    Mirrors M d (batchRow M.left width v) (batchRow M.right width v) (Sql.rename M.name) (fun _ => True) := by
  unfold batchRow
  refine .view (fun hd => ?_)
  rw [M.length hd ho hv]
  split
  · exact .misuse _
  · split
    · exact (mirror_each ho hv (fun w _ hw e => mirror_rendered hw)).map (fun parts _ => ⟨by simp,trivial⟩)
    · exact .fail _

theorem mirror_batchInsert (hl : M.left.dialect.batchInsert) (hr : M.right.dialect.batchInsert)
    (ht : table.text?.isSome) (hc : M.Open columns) (hcv : M.extent.value columns)
    (hn : ∀ w, columns.Yields (d.view M.left) w → w.IsText) (ho : M.Open rows)
    (hrv : M.extent.value rows) (hw : ∀ {d}, M.Fits d → ∀ w, rows.Yields (d.view M.left) w → M.Open w) :
    Mirrors M d (batchInsert table columns rows M.left) (batchInsert table columns rows M.right) (Sql.rename M.name)
      (fun _ => True) := by
  obtain ⟨t,ht⟩ := Option.isSome_iff_exists.mp ht
  have htable : ∀ s, tableName s table = Pure.pure (Sql.table t) := by
    intro s
    unfold tableName
    rw [ht]
  unfold batchInsert
  refine .view (fun hd => ?_)
  rw [M.isTruthy hd ho,hl,hr,htable,htable,pure_bind,pure_bind]
  split
  · exact .fail _
  · refine .bind (mirror_each hc hcv (fun w hw _ e => mirror_listedColumn (.inl (hn w hw)))) (fun names e _ => ?_)
    refine .fitting (fun he => ?_)
    rw [List.length_map]
    refine .bind (mirror_each ho hrv (fun w hm hv e => mirror_batchRow (hw he w hm) hv)) (fun tuples _ _ => ?_)
    exact mirror_nameList.map (fun names _ => ⟨by simp,trivial⟩)

theorem mirror_filtered {sql sql' : Sql} (hs : sql' = sql.rename M.name)
    (ha : ∀ t ∈ Condition.tests condition, M.Allows t) (hv : M.extent.value condition) :
    Mirrors M d (filtered M.left sql condition) (filtered M.right sql' condition) (Sql.rename M.name)
      (fun _ => True) := by
  subst hs
  refine (Query.mirror_filterClause ha hv).map (fun filter _ => ⟨?_,trivial⟩)
  rw [Sql.isEmpty_rename]
  split <;> simp

theorem mirror_assignment {b : Value × Value} (hn : b.1.IsText) (hv : M.extent.value b.2) :
    Mirrors M d (assignment M.left b) (assignment M.right b) (Sql.rename M.name) (fun _ => True) := by
  unfold assignment
  refine .bind (mirror_columnName (.inl hn)) (fun name _ _ => ?_)
  exact (mirror_rendered hv).map (fun sql _ => ⟨by simp,trivial⟩)

theorem mirror_update (ht : table.text?.isSome) (ho : M.Row columns) (hcv : M.extent.value columns)
    (hn : ∀ es, columns.entries? (d.view M.left) = some es → ∀ k ∈ es.keys, k.IsText)
    (ha : ∀ t ∈ Condition.tests condition, M.Allows t) (hv : M.extent.value condition) :
    Mirrors M d (update table columns condition M.left) (update table columns condition M.right) (Sql.rename M.name)
      (fun _ => True) := by
  unfold update
  refine .bind (mirror_eachEntry ho hcv (fun b es he hk _ hb e => mirror_assignment (hn es he b.1 hk) hb))
    (fun lines _ _ => ?_)
  exact .bind (mirror_tableName ht) (fun target _ _ => mirror_filtered (by simp) ha hv)

theorem mirror_delete (ht : table.text?.isSome) (ha : ∀ t ∈ Condition.tests condition, M.Allows t)
    (hv : M.extent.value condition) :
    Mirrors M d (delete table condition M.left) (delete table condition M.right) (Sql.rename M.name)
      (fun _ => True) := by
  unfold delete
  exact .bind (mirror_tableName ht) (fun target _ _ => mirror_filtered (by simp) ha hv)

end Statement

end SqlCompose
