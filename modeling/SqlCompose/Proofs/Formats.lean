import SqlCompose.Proofs.TameConditions

/-! # Statements as formats

A driver that takes placeholders in percent style reads a statement as a format. Without raw SQL, expressions and bindings
from outside a statement is read as its placeholders, each once, and these are the keys of its collection, provided that the
percent signs of every identifier come in pairs. A single percent sign of a name is written as it is, and the statement cannot
be read.
-/
namespace SqlCompose
open Relation Build
open Request (Joins start_memory start_view start_given placeholderName_setting)

variable {A : Char → Prop} {x : Extent} {s : Setting} {start d e : Draft} {v w : Value} {m : Memory} {r : Request}

/-! ## Queries -/

namespace Join
variable {j : Join}

theorem calms_compile (hs : s.Calm A x) (hk : '%' ∉ j.keyword.toList) (ht : IsName A j.table) (hv : x.value j.on)
    (hc : Condition.Tame A (start.view s) j.on) : Calms x s start d (compile s j) (Sql.Calm A) := by
  have htarget : Sql.Calm A ([.text (j.keyword ++ " ")] ++ Sql.aliasedTable j.table) :=
    (Sql.calm_text (by simp [hk])).append (Sql.calm_aliased (k := .table) hs.paren ht)
  unfold compile
  refine .map (Condition.calms_compile hs j.on d hv hc) (fun condition hcondition => ?_)
  split
  · exact htarget
  · exact (htarget.append (Sql.calm_text (by decide))).append hcondition.alone

theorem calms_compileEntry (hs : s.Calm A x) (hv : x.value v)
    (hj : ∀ j, ofValue? (start.view s) v = some j →
      '%' ∉ j.keyword.toList ∧ IsName A j.table ∧ Condition.Tame A (start.view s) j.on) :
    Calms x s start d (compileEntry s v) (Sql.Calm A) := by
  unfold compileEntry
  split
  · exact absurd hv (hs.expressions _ _)
  · refine .counted (fun hd => .view ?_)
    split
    · next j hjoin =>
      obtain ⟨hk,ht,hc⟩ := hj j (ofValue?_counted hd hjoin)
      exact calms_compile hs hk ht (value_of_ofValue? hd.covers hv hjoin) hc
    · exact .fail _

end Join

namespace Number

theorem percent_not_mem_writeInt (n : Int) : '%' ∉ (writeInt n).toList := by
  have hdigits : '%' ∉ Nat.toDigits 10 n.natAbs := by
    intro hc
    exact absurd (Nat.isDigit_of_mem_toDigits (by decide) (by decide) hc) (by decide)
  unfold writeInt
  split <;> simp [hdigits]

end Number

namespace Query
variable {q : Query} {keyword : String} {cell : Nat}

theorem calms_items {name : String → Sql} {l : List Item} (hs : s.Calm A x) (hl : x.value (.list (l.map Item.toValue)))
    (hn : ∀ t, .name t ∈ l → (name t).Calm A) : Calms x s start d (items s name l) (Sql.Calm A) := by
  unfold items
  refine .counted (fun hd => .map (.mapM (Q := Sql.Calm A) (fun i hi e => ?_)) (fun parts hparts => .commas hparts))
  have hitem : x.value i.toValue := hd.covers.elements hl rfl _ (List.mem_map_of_mem hi)
  cases i with
  | name t => exact .pure (hn t hi)
  | expression sql params => exact absurd hitem (hs.expressions sql params)

theorem calms_selectClause (hs : s.Calm A x) (hl : x.value (.list (q.columns.map Item.toValue)))
    (ht : q.Tame A (start.view s)) : Calms x s start d (selectClause s q) (Sql.Calm A) := by
  have hkeyword : '%' ∉ (if q.distinct then "SELECT DISTINCT" else "SELECT").toList := by
    cases q.distinct <;> decide
  unfold selectClause
  rw [ht.option]
  dsimp only
  split
  · exact .pure (Sql.calm_text (by simp [hkeyword]))
  · refine .map (calms_items hs hl (fun t hm => Sql.calm_aliased (k := .column) hs.paren (ht.columns t hm)))
      (fun sql hsql => (Sql.calm_text ?_).append hsql)
    simp [hkeyword]

theorem calms_fromClause (hs : s.Calm A x) (hl : x.value (.list (q.tables.map Item.toValue)))
    (ht : q.Tame A (start.view s)) : Calms x s start d (fromClause s q) (Sql.Calm A) := by
  unfold fromClause
  split
  · exact .pure Sql.calm_nil
  · exact .map (calms_items hs hl (fun t hm => Sql.calm_aliased (k := .table) hs.paren (ht.tables t hm)))
      (fun sql hsql => (Sql.calm_text (by decide)).append hsql)

theorem calms_joinClause (hs : s.Calm A x) (hl : x.value (.list q.joins)) (ht : q.Tame A (start.view s)) :
    Calms x s start d (joinClause s q) (Sql.Calm A) := by
  unfold joinClause
  refine .counted (fun hd => .map (.mapM (fun v hv e => ?_)) (fun parts hparts => .join hs.separator hparts))
  exact Join.calms_compileEntry hs (hd.covers.elements hl rfl v hv) (ht.joins v hv)

theorem calms_filterClause (hs : s.Calm A x) (hk : '%' ∉ keyword.toList) (hv : x.value v)
    (hc : Condition.Tame A (start.view s) v) : Calms x s start d (filterClause s keyword v) (Sql.Calm A) := by
  unfold filterClause
  refine .map (Condition.calms_compile hs v d hv hc) (fun sql hsql => ?_)
  split
  · exact Sql.calm_nil
  · exact (Sql.calm_text (by simp [hk])).append hsql.alone

theorem calms_groupClause (hs : s.Calm A x) (hl : x.value (.list (q.groups.map Item.toValue)))
    (ht : q.Tame A (start.view s)) : Calms x s start d (groupClause s q) (Sql.Calm A) := by
  unfold groupClause
  split
  · exact .pure Sql.calm_nil
  · exact .map (calms_items hs hl (fun t hm => Sql.calm_column hs.paren (ht.groups t hm)))
      (fun sql hsql => (Sql.calm_text (by decide)).append hsql)

theorem calms_orderClause (hs : s.Calm A x)
    (hl : x.value (.mapping (q.order.map (fun e => (.text e.1,e.2.toValue))))) (ht : q.Tame A (start.view s)) :
    Calms x s start d (orderClause s q) (Sql.Calm A) := by
  unfold orderClause
  split
  · exact .pure Sql.calm_nil
  · refine .counted (fun hd => .map (.mapM (Q := Sql.Calm A) (fun e he e' => ?_))
      (fun parts hparts => (Sql.calm_text (by decide)).append (.commas hparts)))
    have hkey : x.value e.2.toValue := (hd.covers.entries hl rfl (.text e.1,e.2.toValue) (List.mem_map_of_mem he)).2
    have hcolumn : (Sql.column e.1).Calm A := Sql.calm_column hs.paren (ht.order e he)
    unfold sortKey
    split
    · next sql params hexpression =>
      rw [hexpression] at hkey
      exact absurd hkey (hs.expressions sql params)
    · exact .pure hcolumn
    · exact .pure (hcolumn.append (Sql.calm_text (by decide)))

theorem calm_limitClause (q : Query) : (limitClause q).Calm A := by
  have hparts : ∀ part ∈ ((q.limit.filter (fun n => 0 ≤ n)).map (fun n => "LIMIT " ++ Number.writeInt n)).toList ++
      ((q.offset.filter (fun n => 0 < n)).map (fun n => "OFFSET " ++ Number.writeInt n)).toList, '%' ∉ part.toList := by
    intro part hm
    simp only [List.mem_append,Option.mem_toList,Option.map_eq_some_iff] at hm
    rcases hm with ⟨n,-,rfl⟩ | ⟨n,-,rfl⟩ <;> simp [Number.percent_not_mem_writeInt]
  unfold limitClause
  dsimp only
  split
  · exact Sql.calm_nil
  · refine Sql.calm_text (fun hc => ?_)
    rcases mem_intercalate hc with hc | ⟨part,hm,hc⟩
    · exact absurd hc (by decide)
    · exact hparts part hm hc

theorem calms_member {c : Member} {compile : Nat → Build Sql} (hs : s.Calm A x) (hraw : ∀ sql, c ≠ .sql sql)
    (hm : ∀ cell, c = .query cell → x.member cell)
    (hc : ∀ cell, c = .query cell → ∀ e, Calms x s start e (compile cell) (Sql.Calm A)) :
    Calms x s start d (member s compile c) (Sql.Calm A) := by
  cases c with
  | sql sql => exact absurd rfl (hraw sql)
  | query cell =>
    unfold member
    refine .get (.bind (.goes hs (goes_adopt (fun _ => .take d (hm cell rfl)))) (fun _ e _ => ?_))
    refine .bind (hc cell rfl e) (fun sql e' hsql => ?_)
    have hand : Goes x s e' (modify (handed s cell)) (fun _ => True) :=
      .step rfl (fun _ => .hand e' (hm cell rfl)) (fun n _ => stream_handed s cell n e') (fun _ => trivial)
    exact .map (.goes hs hand) (fun _ _ => hsql)

theorem calms_unionClause {compile : Nat → Build Sql} (hs : s.Calm A x) (ht : q.Tame A (start.view s))
    (hm : ∀ cell, .query cell ∈ q.members → x.member cell)
    (hc : ∀ cell, .query cell ∈ q.members → ∀ e, Calms x s start e (compile cell) (Sql.Calm A)) :
    Calms x s start d (unionClause s compile q) (Sql.Calm A) := by
  unfold unionClause
  split
  · exact .pure Sql.calm_nil
  · refine .map (.mapM (fun c hmember e => calms_member hs ?_ ?_ ?_)) (fun parts hparts => ?_)
    · rintro sql rfl
      exact ht.members sql hmember
    · rintro cell rfl
      exact hm cell hmember
    · rintro cell rfl
      exact hc cell hmember
    · unfold unionText
      exact ((Sql.calm_text (by decide)).append (.join (by decide) hparts)).append (Sql.calm_text (by decide))

theorem calms_leading (hs : s.Calm A x) (hq : ∀ f ∈ q.fields .null, x.value f.2) (ht : q.Tame A (start.view s)) :
    Calms x s start d (leading s q) (fun parts => ∀ part ∈ parts, part.Calm A) := by
  have hf : ∀ name v, (name,v) ∈ q.fields .null → x.value v := fun name v h => hq (name,v) h
  unfold leading
  refine .bind (calms_selectClause hs (hf "SELECT" _ (by simp [fields])) ht) (fun select _ hselect => ?_)
  refine .bind (calms_fromClause hs (hf "FROM" _ (by simp [fields])) ht) (fun tables _ htables => ?_)
  refine .bind (calms_joinClause hs (hf "JOIN" _ (by simp [fields])) ht) (fun joins _ hjoins => ?_)
  refine .bind (calms_filterClause hs (by decide) (hf "WHERE" _ (by simp [fields])) ht.filter) (fun filter _ hfilter => ?_)
  refine .bind (calms_groupClause hs (hf "GROUP_BY" _ (by simp [fields])) ht) (fun groups _ hgroups => ?_)
  refine .bind (calms_filterClause hs (by decide) (hf "HAVING" _ (by simp [fields])) ht.groupFilter)
    (fun groupFilter _ hgroupFilter => .pure ?_)
  simp only [List.forall_mem_cons]
  exact ⟨hselect,htables,hjoins,hfilter,hgroups,hgroupFilter,by simp⟩

theorem calms_compileWith {compile : Nat → Build Sql} (hs : s.Calm A x) (hq : ∀ f ∈ q.fields .null, x.value f.2)
    (ht : q.Tame A (start.view s)) (hm : ∀ cell, .query cell ∈ q.members → x.member cell)
    (hc : ∀ cell, .query cell ∈ q.members → ∀ e, Calms x s start e (compile cell) (Sql.Calm A)) :
    Calms x s start d (compileWith s compile q) (Sql.Calm A) := by
  rw [compileWith_eq]
  refine .bind (calms_leading hs hq ht) (fun parts _ hparts => ?_)
  refine .bind (calms_unionClause hs ht hm hc) (fun union _ hunion => ?_)
  refine .map (calms_orderClause hs (hq ("ORDER_BY",_) (by simp [fields])) ht) (fun order horder => ?_)
  refine .join hs.separator (fun part hpart => ?_)
  have hall : ∀ part ∈ parts ++ [union,order,limitClause q], part.Calm A := by
    simp only [List.forall_mem_append,List.forall_mem_cons]
    exact ⟨hparts,hunion,horder,calm_limitClause q,by simp⟩
  exact hall part (List.mem_filter.mp hpart).1

/-- Parameters apart, a query is on the way what it was at the start. -/
theorem Tame.counted (ht : (start.memory.query cell).Tame A m) (hd : d.Counted x s start) :
    (d.memory.query cell).Tame A m := by
  obtain ⟨es,hes⟩ := hd.query cell
  rw [hes]
  exact ⟨ht.columns,ht.option,ht.tables,ht.joins,ht.filter,ht.groups,ht.groupFilter,ht.members,ht.order⟩

theorem calms_compile (hs : s.Calm A x) (ht : ∀ c, x.query c → (start.memory.query c).Tame A (start.view s)) (cell : Nat)
    (d : Draft) (h : x.query cell) : Calms x s start d (Query.compile s cell) (Sql.Calm A) := by
  induction cell using Nat.strongRecOn generalizing d with
  | _ cell ih =>
    rw [Query.compile]
    refine .get (.counted (fun hd => ?_))
    have hmembers := hd.covers.members cell h
    refine calms_compileWith hs (hd.covers.clauses cell h) ((ht cell h).counted hd) (fun c hc => (hmembers c hc).2)
      (fun c hc e => ?_)
    split
    · next hlt => exact ih c hlt e (hmembers c hc).1
    · exact .fail _

end Query

/-! ## Other statements -/

namespace Statement
variable {table columns rows condition : Value} {sql : Sql}

theorem known_nameable (hs : s.Calm A x)
    (h : ∀ c ∈ (columns.elements? (start.view s)).getD [], c.Nameable A (start.view s)) :
    Known s start columns (fun c => c.Nameable A (start.view s)) where
  elements := h
  placeholder := hs.names
  int n := by simp [Value.Nameable,Value.text?,Value.elements?,Value.sequence?,Value.entries?,Value.fields?]

theorem known_true : Known s start v (fun _ => True) := ⟨fun _ _ => trivial,fun _ => trivial,fun _ => trivial⟩

theorem calms_insert (hs : s.Calm A x) (ht : x.value table) (hc : x.value columns)
    (hn : table.Nameable A (start.view s))
    (hk : ∀ c ∈ (columns.elements? (start.view s)).getD [], c.Nameable A (start.view s)) :
    Calms x s start d (insert table columns s) (Sql.Calm A) := by
  unfold insert
  refine .bind (calms_each hs hc (known_nameable hs hk) (fun c hv hc e => calms_listedColumn hs hv hc))
    (fun names _ hnames => ?_)
  refine .bind (calms_eachEntry hc known_true (fun b _ hv _ e => calms_rendered hs hv)) (fun values _ hvalues => ?_)
  refine .bind (calms_tableName hs ht hn) (fun target _ htarget => ?_)
  refine .map (calms_nameList hnames) (fun list hlist => ?_)
  exact (((((Sql.calm_text (by decide)).append htarget).append (Sql.calm_text (by decide))).append
    hlist.parenthesized).append (Sql.calm_text (by decide))).append (.tupled hvalues)

theorem calms_batchRow {width : Nat} (hs : s.Calm A x) (hv : x.value v) :
    Calms x s start d (batchRow s width v) (Sql.Calm A) := by
  unfold batchRow
  refine .view ?_
  split
  · exact .misuse _
  · split
    · exact .map (calms_each hs hv known_true (fun w hw _ e => calms_rendered hs hw)) (fun parts hparts => .tupled hparts)
    · exact .fail _

theorem calms_batchInsert (hs : s.Calm A x) (ht : x.value table) (hc : x.value columns) (hr : x.value rows)
    (hn : table.Nameable A (start.view s))
    (hk : ∀ c ∈ (columns.elements? (start.view s)).getD [], c.Nameable A (start.view s)) :
    Calms x s start d (batchInsert table columns rows s) (Sql.Calm A) := by
  unfold batchInsert
  refine .view ?_
  split
  · exact .fail _
  · refine .bind (calms_tableName hs ht hn) (fun target _ htarget => ?_)
    refine .bind (calms_each hs hc (known_nameable hs hk) (fun c hv hc e => calms_listedColumn hs hv hc))
      (fun names _ hnames => ?_)
    split
    · exact .fail _
    · refine .bind (calms_each hs hr known_true (fun w hw _ e => calms_batchRow hs hw)) (fun tuples _ htuples => ?_)
      refine .map (calms_nameList hnames) (fun list hlist => ?_)
      exact (((((Sql.calm_text (by decide)).append htarget).append (Sql.calm_text (by decide))).append
        hlist.parenthesized).append (Sql.calm_text (by decide))).append (.commas htuples)

theorem calms_filtered (hs : s.Calm A x) (hsql : sql.Calm A) (hv : x.value condition)
    (hc : Condition.Tame A (start.view s) condition) : Calms x s start d (filtered s sql condition) (Sql.Calm A) := by
  unfold filtered
  refine .map (Query.calms_filterClause hs (by decide) hv hc) (fun filter hfilter => ?_)
  split
  · exact hsql
  · exact (hsql.append (Sql.calm_text (by decide))).append hfilter

theorem calms_update (hs : s.Calm A x) (ht : x.value table) (hc : x.value columns) (hv : x.value condition)
    (hn : table.Nameable A (start.view s))
    (hk : ∀ c ∈ (columns.elements? (start.view s)).getD [], c.Nameable A (start.view s))
    (hcondition : Condition.Tame A (start.view s) condition) :
    Calms x s start d (update table columns condition s) (Sql.Calm A) := by
  unfold update
  refine .bind (calms_eachEntry (Q := Sql.Calm A) hc (known_nameable hs hk) (fun b hb hw hname e => ?_))
    (fun lines _ hlines => ?_)
  · unfold assignment
    refine .bind (calms_columnName hs hb hname) (fun name _ hname => ?_)
    exact .map (calms_rendered hs hw) (fun sql hsql => (hname.append (Sql.calm_text (by decide))).append hsql)
  · refine .bind (calms_tableName hs ht hn) (fun target _ htarget => calms_filtered hs ?_ hv hcondition)
    exact (((Sql.calm_text (by decide)).append htarget).append (Sql.calm_text (by decide))).append (.commas hlines)

theorem calms_delete (hs : s.Calm A x) (ht : x.value table) (hv : x.value condition)
    (hn : table.Nameable A (start.view s)) (hcondition : Condition.Tame A (start.view s) condition) :
    Calms x s start d (delete table condition s) (Sql.Calm A) := by
  unfold delete
  refine .bind (calms_tableName hs ht hn) (fun target _ htarget => calms_filtered hs ?_ hv hcondition)
  exact (Sql.calm_text (by decide)).append htarget

end Statement

/-! ## Whole statements -/

namespace Request

/-- A statement that starts with no bindings starts counted. -/
theorem counted_start (hs : s.collection = .own) (hu : r.Unseeded m) :
    (r.start s m).Counted (r.extent m) (r.setting s m) (r.start s m) := by
  have hbindings : (r.start s m).bindings = [] := by
    rcases hu.collects with ⟨es,hp⟩ | ⟨home,hp,-⟩
    · have hnil : es = [] := by
        have hentries := hu.collection
        rw [hp] at hentries
        exact Option.some.inj hentries
      unfold start Build.opening
      rw [hp]
      exact hnil
    · have hentries := hu.collection
      rw [hp] at hentries
      rw [start_bindings hp]
      exact Option.some.inj hentries
  refine ⟨covers_extent hs hu.collects,?_,?_,?_,fun home => .inl rfl,fun n w hw => hw,
    fun n => ⟨_,rfl⟩,fun home => Iff.rfl⟩
  · simp [Draft.placeholders,start_given]
  · simp [Draft.placeholders,start_given,hbindings,Entries.keys]
  · rw [start_memory]
    exact hu.members

/-- What a tame statement is written as, and the bindings that it leaves. -/
theorem calm_outcome (hs : s.collection = .own) (hc : (r.setting s m).Calm A (r.extent m)) (hu : r.Unseeded m)
    (ht : r.Tame A m) {sql : Sql} (ho : (r.outcome s m).1 = .ok sql) :
    (r.final s m).Counted (r.extent m) (r.setting s m) (r.start s m) ∧ sql.Calm A := by
  have hview : (r.start s m).view (r.setting s m) = m := start_view hs
  have hwithin : r.Within (r.extent m) := within_extent
  have hcalms : Calms (r.extent m) (r.setting s m) (r.start s m) (r.start s m) (r.body (r.setting s m)) (Sql.Calm A) := by
    cases r with
    | query cell =>
      refine Query.calms_compile hc (fun c hq => ?_) cell _ hwithin
      obtain ⟨root,hroot,hreach⟩ := hq
      cases hroot
      rw [hview,start_memory]
      exact ht c hreach
    | insert table columns params =>
      exact Statement.calms_insert hc hwithin.1 hwithin.2 (hview.symm ▸ ht.1) (hview.symm ▸ ht.2)
    | batchInsert table columns rows params =>
      exact Statement.calms_batchInsert hc hwithin.1 hwithin.2.1 hwithin.2.2 (hview.symm ▸ ht.1) (hview.symm ▸ ht.2)
    | update table columns condition params =>
      exact Statement.calms_update hc hwithin.1 hwithin.2.1 hwithin.2.2 (hview.symm ▸ ht.1) (hview.symm ▸ ht.2.1)
        (hview.symm ▸ ht.2.2)
    | delete table condition params =>
      exact Statement.calms_delete hc hwithin.1 hwithin.2 (hview.symm ▸ ht.1) (hview.symm ▸ ht.2)
    | filter spec params => exact Condition.calms_compile hc spec _ hwithin (hview.symm ▸ ht)
  exact hcalms (counted_start hs hu) sql (r.final s m) (Prod.ext ho rfl)

end Request

/-- The characters of a placeholder under an accepted stem. -/
theorem Setting.mem_placeholderName {n : Nat} {c : Char} (h : Options.isStem s.stem)
    (hc : c ∈ (s.placeholderName n).toList) : Text.isWordChar c ∨ c = '\n' := by
  rw [placeholderName,String.toList_append] at hc
  rcases List.mem_append.mp hc with hc | hc
  · exact Options.mem_stem h hc
  · exact .inl (isWordChar_of_isDigit (Number.isDigit_of_mem_writeInt hc))

/-- In characters among which are those of placeholders, statements without expressions are written in names. -/
theorem Request.calm_setting (hd : s.dialect.quote.isSome) (hstem : Options.isStem s.stem) (hsep : '%' ∉ s.separator.toList)
    (hu : r.Unseeded m) (hA : ∀ c, Text.isWordChar c ∨ c = '\n' → A c) (hparen : ¬ A '(') :
    (r.setting s m).Calm A (r.extent m) := by
  have hset : r.setting s m = { s with collection := (r.setting s m).collection } := setting_eq
  refine ⟨fun n c hc => ?_,fun n hc => ?_,?_,?_,hparen,hu.expressions⟩
  · rw [placeholderName_setting] at hc
    exact hA c (s.mem_placeholderName hstem hc)
  · rw [placeholderName_setting] at hc
    exact absurd (s.mem_placeholderName hstem hc) (by decide)
  · rw [hset]
    exact hsep
  · rw [hset]
    exact hd

/-- Names without percent signs have none that stands alone. -/
theorem Sql.Calm.paired {sql : Sql} (h : sql.Calm A) (hA : ¬ A '%') : sql.paired := by
  have hsegment : ∀ segment : List Char, '%' ∉ segment → Format.paired false segment = true := by
    intro segment hm
    induction segment with
    | nil => rfl
    | cons c segment ih =>
      rw [List.mem_cons,not_or] at hm
      have hc : (c == '%') = false := by simpa using Ne.symm hm.1
      rw [Format.paired,if_neg Bool.false_ne_true,hc]
      exact ih hm.2
  refine List.all_eq_true.mpr (fun t ht => ?_)
  cases t with
  | path p =>
    refine List.all_eq_true.mpr (fun segment hm => hsegment _ (fun hc => ?_))
    exact hA ((h _ ht).2 segment hm _ hc)
  | _ => rfl

/-- Statements in the dialects that write placeholders in percent style, without raw SQL, expressions and bindings from
outside, with any names in which no parenthesis opens. The keys of the collection are the placeholders of the SQL, counted
through from left to right, so each occurs once. The text is read as a format with exactly these names if the percent signs
of all identifiers come in pairs, as they do if no name has any; else the text cannot be read. -/
theorem Request.formats_read (o : Options) (ho : Options.isStem o.stem) (hsep : '%' ∉ o.separator.toList)
    {dialect : Dialect} (hd : dialect ∈ [.postgres,.mysql]) (hu : r.Unseeded m) (ht : r.Tame (· ≠ '(') m) {sql : Sql}
    {params : Value} {m' : Memory} (h : r.perform (o.setting dialect) m = (.ok (sql,params),m')) :
    (∃ es, params.entries? m' = some es ∧ es.keys = sql.placeholders.map .text) ∧
    sql.placeholders = (List.range sql.placeholders.length).map (o.setting dialect).placeholderName ∧
    sql.placeholders.Nodup ∧
    Format.names? .text (dialect.render sql).toList = (if sql.paired then some sql.placeholders else none) ∧
    (r.Tame (fun c => c ≠ '(' ∧ c ≠ '%') m → sql.paired) := by
  have hown : (o.setting dialect).collection = .own := rfl
  have hquote : ∃ q, dialect.quote = some q ∧ IsQuote q ∧ dialect.placeholders = .percent := by
    rcases List.mem_cons.mp hd with rfl | hd
    · exact ⟨_,rfl,.inl rfl,rfl⟩
    · rw [List.mem_singleton.mp hd]
      exact ⟨_,rfl,.inr rfl,rfl⟩
  obtain ⟨q,hq,hmark,hstyle⟩ := hquote
  have hcalm : ∀ A : Char → Prop, (∀ c, Text.isWordChar c ∨ c = '\n' → A c) → ¬ A '(' →
      (r.setting (o.setting dialect) m).Calm A (r.extent m) :=
    fun A => calm_setting (by rw [show (o.setting dialect).dialect = dialect from rfl,hq]; rfl) ho hsep hu
  have hparen : ∀ c, Text.isWordChar c ∨ c = '\n' → c ≠ '(' := by
    rintro c hc rfl
    exact absurd hc (by decide)
  have hpercent : ∀ c, Text.isWordChar c ∨ c = '\n' → c ≠ '%' := by
    rintro c hc rfl
    exact absurd hc (by decide)
  obtain ⟨hout,hentries⟩ := perform_ok hu.collects h
  obtain ⟨hcounted,hsql⟩ := calm_outcome hown (hcalm _ hparen (fun hn => hn rfl)) hu ht hout
  have hplaces : (r.final (o.setting dialect) m).placeholders = sql.placeholders := by
    obtain ⟨names,hg,hl,hshows⟩ := Request.logs m r sql (r.final (o.setting dialect) m) (Prod.ext hout rfl)
    rw [start_given,List.nil_append] at hg
    rw [show sql.placeholders = names from hshows,Draft.placeholders,hg]
    exact List.map_fst_zip (Nat.le_of_eq hl)
  have hnumbers := hcounted.numbers
  have hlength : (r.final (o.setting dialect) m).given.length = sql.placeholders.length := by
    rw [← hplaces,Draft.placeholders,List.length_map]
  rw [hplaces,hlength] at hnumbers
  refine ⟨⟨_,hentries,?_⟩,?_,?_,?_,fun htame => ?_⟩
  · rw [hcounted.keys,hplaces]
  · exact hnumbers.trans (List.map_congr_left (fun n _ => placeholderName_setting n))
  · exact hplaces ▸ hcounted.nodup
  · exact hsql.names? (fun hn => hn rfl) hq hmark hstyle
  · have hboth := hcalm (fun c => c ≠ '(' ∧ c ≠ '%') (fun c hc => ⟨hparen c hc,hpercent c hc⟩) (fun hn => hn.1 rfl)
    exact (calm_outcome hown hboth hu htame hout).2.paired (fun hn => hn.2 rfl)

namespace Request

def inserted (columns : List (String × Int)) : Request :=
  .insert (.text "t") (.mapping (columns.map (fun c => (.text c.1,.int c.2)))) .null

variable {columns : List (String × Int)}

theorem bare_inserted : ∀ v ∈ (inserted columns).roots {}, v.bare := by
  refine List.forall_mem_cons.mpr ⟨rfl,List.forall_mem_cons.mpr ⟨rfl,List.forall_mem_singleton.mpr ?_⟩⟩
  rw [Value.bare,Value.everyExpression,Value.everyExpressionUnder_iff]
  exact List.forall_mem_map.mpr (fun _ _ => ⟨rfl,rfl⟩)

theorem unseeded_inserted : (inserted columns).Unseeded {} where
  collects := .inl ⟨[],rfl⟩
  collection := rfl
  members := by
    rintro c ⟨cell,hr,-⟩
    cases hr
  expressions _ _ hx := Bool.false_ne_true (extent_expression (by decide +kernel) bare_inserted hx)

theorem tame_inserted (h : ∀ c ∈ columns, '(' ∉ c.1.toList) : (inserted columns).Tame (· ≠ '(') {} := by
  refine ⟨List.forall_mem_singleton.mpr (by decide),fun v hv => ?_⟩
  obtain ⟨e,he,rfl⟩ := List.mem_map.mp (show v ∈ Entries.keys _ from hv)
  obtain ⟨c,hc,rfl⟩ := List.mem_map.mp he
  have hname : IsName (· ≠ '(') c.1 := fun x hx hp => h c hc (hp ▸ hx)
  exact hname

/-- Percent signs that come in pairs, in a statement that binds several values. -/
theorem formats_read_insert :
    Options.isStem ({} : Options).stem ∧ '%' ∉ ({} : Options).separator.toList ∧
    (inserted [("a%%b",1),("c",2),("%%",1)]).Unseeded {} ∧ (inserted [("a%%b",1),("c",2),("%%",1)]).Tame (· ≠ '(') {} ∧
    ∃ sql params, (inserted [("a%%b",1),("c",2),("%%",1)]).perform (({} : Options).setting .postgres) {} =
        (.ok (sql,params),{}) ∧
      Dialect.postgres.render sql =
        "INSERT INTO \x22t\x22 (\x22a%%b\x22, \x22c\x22, \x22%%\x22) VALUES (%(qp0)s, %(qp1)s, %(qp2)s)" ∧
      sql.placeholders.Nodup ∧
      Format.names? .text (Dialect.postgres.render sql).toList = some ["qp0","qp1","qp2"] := by
  have htame : (inserted [("a%%b",1),("c",2),("%%",1)]).Tame (· ≠ '(') {} := tame_inserted (by decide)
  have h := formats_read {} (by decide) (by decide) (List.mem_cons_self : Dialect.postgres ∈ [.postgres,.mysql])
    unseeded_inserted htame rfl
  exact ⟨by decide,by decide,unseeded_inserted,htame,_,_,rfl,by decide,h.2.2.1,h.2.2.2.1⟩

/-- A percent sign in the name of a column is written as it is: no driver can read the statement as a format. -/
theorem percent_unescaped : (inserted [("a%b",1)]).Unseeded {} ∧ (inserted [("a%b",1)]).Tame (· ≠ '(') {} ∧
    ∃ sql params, (inserted [("a%b",1)]).perform (({} : Options).setting .postgres) {} = (.ok (sql,params),{}) ∧
      Dialect.postgres.render sql = "INSERT INTO \x22t\x22 (\x22a%b\x22) VALUES (%(qp0)s)" ∧
      Format.names? .text (Dialect.postgres.render sql).toList = none :=
  ⟨unseeded_inserted,tame_inserted (by decide),_,_,rfl,by decide,by decide⟩

end Request

end SqlCompose
