import SqlCompose.Proofs.WrittenConditions

/-! # Deleting what says nothing

Vacuous operands may be deleted, and a connective over one operand may be replaced by it: the SQL reads the same, and
the bindings are the same. A keyword stands before a condition exactly if the condition is not vacuous.
-/
namespace SqlCompose
open Relation Build

variable {s : Setting} {start d d' e : Draft} {m : Memory} {v w : Value} {cells : List Nat} {sql : Sql}

namespace Condition
variable {op : Operator} {operands : List Value}

/-- A mirrored step does the same from drafts that differ in what is left out of account. -/
theorem alike_of_mirrors {p : Build Sql}
    (hp : ∀ d, Mirrors (Mirror.without s start.memory cells) d p p (Sql.rename id) (fun _ => True))
    (hu : start.memory.Used d.memory) (hu' : start.memory.Used d'.memory) (hd : d'.without cells = d.without cells)
    (h : p.runOn d = (.ok sql,e)) : ∃ e', p.runOn d' = (.ok sql,e') ∧ e'.without cells = e.without cells := by
  have hrun : p.runOn (d.without cells) = _ := (hp d hu).1
  have hrun' : p.runOn (d'.without cells) = _ := (hp d' hu').1
  rw [hd,hrun,h] at hrun'
  obtain ⟨hsql,he⟩ := Prod.mk.inj hrun'
  generalize hr : p.runOn d' = r at hsql he
  rcases r with ⟨x | sql',e'⟩
  · cases hsql
  · have hsame : Sql.rename id sql = Sql.rename id sql' := Except.ok.inj hsql
    rw [Sql.rename_id,Sql.rename_id] at hsame
    subst hsame
    exact ⟨e',rfl,he.symm⟩

def Echoes (s : Setting) (cells : List Nat) (d : Draft) (v : Value) (sql : Sql) (e : Draft) : Prop :=
  ∃ sql' e', (compile s v).runOn d = (.ok sql',e') ∧ sql'.written = sql.written ∧ e'.without cells = e.without cells

/-- A condition whose tests all say something. -/
theorem prune_test (hp : ∀ t ∈ tests v, Prunable s start cells t)
    (hv : ∀ t ∈ tests v, t.vacuous (start.view s) = false) (hu : start.memory.Used d.memory)
    (hu' : start.memory.Used d'.memory) (hd : d'.without cells = d.without cells)
    (h : (compile s v).runOn d = (.ok sql,e)) : Echoes s cells d' v sql e := by
  have hm : ∀ d, Mirrors (Mirror.without s start.memory cells) d (compile s v) (compile s v) (Sql.rename id)
      (fun _ => True) :=
    fun d => mirror_compile v d (fun t ht => (hp t ht).allows (hv t ht)) trivial
  obtain ⟨e',hrun,he⟩ := alike_of_mirrors hm hu hu' hd h
  exact ⟨sql,e',hrun,rfl,he⟩

/-- A symbol that stands alone is raw SQL. -/
theorem compile_symbol {symbol : Sql} (h : symbol? w = some symbol) (d : Draft) :
    ∃ sql, (compile s w).runOn d = (.ok sql,d) ∧ sql.written = symbol.written := by
  cases w <;> simp only [symbol?,reduceCtorEq] at h <;> cases h
  · next op =>
    refine ⟨[.text op.token],?_,?_⟩
    · rw [compile] <;> try simp
      rfl
    · simp [Sql.written,Token.written,token_ne_empty]
  · next direction =>
    refine ⟨[.text direction.token],?_,?_⟩
    · rw [compile] <;> try simp
      rfl
    · cases direction <;> decide

/-- What is composed as an operand can be composed alone. -/
theorem compile_of_asOperand {part : Sql} (h : (asOperand s w).runOn d = (.ok part,e)) :
    ∃ sql, (compile s w).runOn d = (.ok sql,e) ∧ sql.written = part.written := by
  unfold asOperand at h
  split at h
  · next hs =>
    cases h
    exact compile_symbol hs d
  · exact ⟨part,h,rfl⟩

/-- What is composed alone can be composed as an operand. -/
theorem asOperand_of_compile (h : (compile s w).runOn d = (.ok sql,e)) :
    ∃ part, (asOperand s w).runOn d = (.ok part,e) ∧ part.written = sql.written := by
  unfold asOperand
  cases hs : symbol? w with
  | some symbol =>
    obtain ⟨sql',hsql,hw⟩ := compile_symbol (s := s) hs d
    rw [h] at hsql
    cases hsql
    exact ⟨symbol,rfl,hw.symm⟩
  | none => exact ⟨sql,h,rfl⟩

theorem runOn_compileAll_cons {ws : List Value} {c : Draft} {part : Sql} {parts : List Sql}
    (h : (asOperand s w).runOn d = (.ok part,c)) (hrest : (compileAll s ws).runOn c = (.ok parts,e)) :
    (compileAll s (w :: ws)).runOn d = (.ok (part :: parts),e) := by
  rw [compileAll_asOperand]
  exact runOn_bind_ok.mpr ⟨part,c,h,runOn_bind_ok.mpr ⟨parts,e,hrest,rfl⟩⟩

theorem written_connected_single (word : String) (part : Sql) : (connected word [part]).written = part.written := by
  cases hp : part.isEmpty with
  | true =>
    rw [Sql.isEmpty_iff_written.mp hp]
    simp [connected,hp,Sql.written]
  | false => simp [connected,hp]

/-- A connective over the operands that are kept. -/
theorem prune_node {kept : List Value} (ho : operation? v = some (op,operands)) (hop : op.connects) (hne : kept ≠ [])
    (hall : ∀ parts c, (compileAll s operands).runOn d = (.ok parts,c) → ∃ parts' e',
      (compileAll s kept).runOn d' = (.ok parts',e') ∧ Sql.said parts' = Sql.said parts ∧
        e'.without cells = c.without cells)
    (h : (compile s v).runOn d = (.ok sql,e)) : Echoes s cells d' (lone (withOperands v) kept) sql e := by
  rw [compile_of_operation? ho,operate_of_connects hop] at h
  obtain ⟨parts,c,hparts,hlast⟩ := runOn_bind_ok.mp h
  cases hlast
  obtain ⟨parts',e',hrun,hsaid,he⟩ := hall parts e hparts
  rcases kept with _ | ⟨one,_ | ⟨two,more⟩⟩
  · exact absurd rfl hne
  · rw [compileAll_eq_mapM,List.mapM_cons,List.mapM_nil] at hrun
    obtain ⟨part,c,hpart,hlast⟩ := runOn_bind_ok.mp hrun
    cases hlast
    obtain ⟨sql',hone,hw⟩ := compile_of_asOperand hpart
    refine ⟨sql',_,hone,?_,he⟩
    rw [hw,← written_connected_single op.token part]
    exact written_connected op.token hsaid
  · refine ⟨connected op.token parts',e',?_,written_connected op.token hsaid,he⟩
    show (compile s (withOperands v (one :: two :: more))).runOn d' = _
    rw [compile_of_operation? (operation?_withOperands ho _),operate_of_connects hop,runOn_bind,hrun]
    rfl

theorem prunedAll_ne_nil (h : allVacuous m operands = false) : prunedAll m operands ≠ [] := by
  induction operands with
  | nil => cases h
  | cons v vs ih =>
    rw [allVacuous,Bool.and_eq_false_iff] at h
    rw [prunedAll]
    cases hv : vacuous m v with
    | true => exact ih (h.resolve_left (by simp [hv]))
    | false => simp

/-- An operator over its operands, of which a connective keeps some. -/
theorem prune_operation (ho : operation? v = some (op,operands)) (hp : ∀ t ∈ tests v, Prunable s start cells t)
    (hv : vacuous (start.view s) v = false) (hu : start.memory.Used d.memory) (hu' : start.memory.Used d'.memory)
    (hd : d'.without cells = d.without cells)
    (hall : (∀ t ∈ testsOfAll operands, Prunable s start cells t) → ∀ parts c,
      (compileAll s operands).runOn d = (.ok parts,c) → ∃ parts' e',
        (compileAll s (prunedAll (start.view s) operands)).runOn d' = (.ok parts',e') ∧
          Sql.said parts' = Sql.said parts ∧ e'.without cells = c.without cells)
    (h : (compile s v).runOn d = (.ok sql,e)) : Echoes s cells d' (pruned (start.view s) v) sql e := by
  have htests := tests_of_operation? ho
  rw [vacuous_of_operation? ho] at hv
  rw [pruned_of_operation? ho]
  unfold prunedOf
  cases hop : op.connects with
  | false =>
    rw [testsOf_test hop] at htests
    rw [vacuousOf_test hop] at hv
    rw [if_neg Bool.false_ne_true,withOperands_self ho]
    refine prune_test hp (fun t ht => ?_) hu hu' hd h
    rw [htests,List.mem_singleton] at ht
    rw [ht,hv]
  | true =>
    rw [testsOf_connective hop] at htests
    rw [vacuousOf_connective hop] at hv
    rw [if_pos rfl]
    exact prune_node ho hop (prunedAll_ne_nil hv) (hall (htests ▸ hp)) h

theorem said_congr {part part' : Sql} {parts parts' : List Sql} (h : part'.written = part.written)
    (hs : Sql.said parts' = Sql.said parts) : Sql.said (part' :: parts') = Sql.said (part :: parts) := by
  have hempty : part'.isEmpty = part.isEmpty := by
    rw [Bool.eq_iff_iff,Sql.isEmpty_iff_written,Sql.isEmpty_iff_written,h]
  rw [Sql.said_cons,Sql.said_cons,hempty,h,hs]

theorem prune_bare (hb : Bare v) (hp : ∀ t ∈ tests v, Prunable s start cells t)
    (hv : vacuous (start.view s) v = false) (hu : start.memory.Used d.memory) (hu' : start.memory.Used d'.memory)
    (hd : d'.without cells = d.without cells) (h : (compile s v).runOn d = (.ok sql,e)) :
    Echoes s cells d' (pruned (start.view s) v) sql e := by
  rw [vacuous_of_bare hb] at hv
  rw [pruned_of_bare hb]
  refine prune_test hp (fun t ht => ?_) hu hu' hd h
  rw [tests_of_bare hb,List.mem_singleton] at ht
  rw [ht,hv]

theorem prune_operands {parts : List Sql} (hp : ∀ t ∈ testsOfAll operands, Prunable s start cells t)
    (hu : start.memory.Used d.memory) (hu' : start.memory.Used d'.memory) (hd : d'.without cells = d.without cells)
    (ih : ∀ o ∈ operands, ∀ d d' e sql, (∀ t ∈ tests o, Prunable s start cells t) →
      vacuous (start.view s) o = false → start.memory.Used d.memory → start.memory.Used d'.memory →
        d'.without cells = d.without cells → (compile s o).runOn d = (.ok sql,e) →
          Echoes s cells d' (pruned (start.view s) o) sql e)
    (h : (compileAll s operands).runOn d = (.ok parts,e)) :
    ∃ parts' e', (compileAll s (prunedAll (start.view s) operands)).runOn d' = (.ok parts',e') ∧
      Sql.said parts' = Sql.said parts ∧ e'.without cells = e.without cells := by
  induction operands generalizing d d' parts with
  | nil =>
    rw [compileAll] at h
    cases h
    exact ⟨[],d',by rw [prunedAll,compileAll]; rfl,rfl,hd⟩
  | cons v vs ihs =>
    rw [compileAll_asOperand] at h
    rw [testsOfAll,List.forall_mem_append] at hp
    rw [prunedAll]
    obtain ⟨part,c,hpart,hrest⟩ := runOn_bind_ok.mp h
    obtain ⟨rest,c',hparts,hlast⟩ := runOn_bind_ok.mp hrest
    cases hlast
    obtain ⟨sql,hsql,hw⟩ := compile_of_asOperand hpart
    have huc := used_of_run hu hsql
    have hrest := fun o ho => ih o (List.mem_cons_of_mem v ho)
    cases hv : vacuous (start.view s) v with
    | true =>
      obtain ⟨hempty,hquiet⟩ := quiet_compile v d c sql hp.1 hu hv hsql
      rw [Sql.isEmpty_iff_written,hw,← Sql.isEmpty_iff_written] at hempty
      rw [if_pos rfl,Sql.said_cons,if_pos hempty]
      exact ihs hp.2 huc hu' (hd.trans hquiet.symm) hrest hparts
    | false =>
      obtain ⟨sql',c'',hsql',hw',hc⟩ := ih v (.head _) d d' c sql hp.1 hv hu hu' hd hsql
      obtain ⟨parts',e',hrun,hsaid,he⟩ := ihs hp.2 huc (used_of_run hu' hsql') hc hrest hparts
      obtain ⟨part',hpart',hwritten⟩ := asOperand_of_compile hsql'
      rw [if_neg Bool.false_ne_true]
      exact ⟨part' :: parts',e',runOn_compileAll_cons hpart' hrun,
        said_congr ((hwritten.trans hw').trans hw) hsaid,he⟩

theorem prune_compile (v : Value) (d d' e : Draft) (sql : Sql) (hp : ∀ t ∈ tests v, Prunable s start cells t)
    (hv : vacuous (start.view s) v = false) (hu : start.memory.Used d.memory) (hu' : start.memory.Used d'.memory)
    (hd : d'.without cells = d.without cells) (h : (compile s v).runOn d = (.ok sql,e)) :
    Echoes s cells d' (pruned (start.view s) v) sql e := by
  induction v using induct generalizing d d' e sql with
  | expression text params => exact prune_bare trivial hp hv hu hu' hd h
  | operation v op operands ho ih =>
    exact prune_operation ho hp hv hu hu' hd (fun hp parts c hparts => prune_operands hp hu hu' hd ih hparts) h
  | empty v hempty => rcases hempty with rfl | rfl <;> cases hv
  | unread v x hx =>
    rw [compile_of_unread hx] at h
    cases h
  | bare v hb hx => exact prune_bare hb hp hv hu hu' hd h

/-! ## From any draft -/

def spent (m : Memory) (v : Value) : List Nat :=
  ((tests v).filter (Test.vacuous m)).flatMap (fun t => (t.lists m).filterMap Value.stream?)

theorem prunedAll_eq_nil (h : allVacuous m operands) : prunedAll m operands = [] := by
  induction operands with
  | nil => rw [prunedAll]
  | cons v vs ih =>
    rw [allVacuous,Bool.and_eq_true] at h
    rw [prunedAll,if_pos h.1,ih h.2]

/-- A condition whose columns are texts and whose expressions are not empty. What a vacuous test uses up no other test
lists, and the collection that receives the bindings is not a condition itself. -/
structure Regular (s : Setting) (d : Draft) (v : Value) : Prop where
  columns : ∀ t ∈ tests v, ∀ c ∈ t.columns, c.IsText
  worded : ∀ params, .simple (.expression "" params) ∉ tests v
  apart : ∀ home, s.collection = .shared home → .simple (.shared home) ∉ tests v
  unspent : ∀ t ∈ tests v, t.vacuous (d.view s) = false → ∀ n ∈ spent (d.view s) v, .stream n ∉ t.lists (d.view s)

theorem Regular.prunable (h : Regular s d v) : ∀ t ∈ tests v, Prunable s d (spent (d.view s) v) t := by
  intro t ht
  refine ⟨h.columns t ht,?_,?_,?_,?_⟩
  · rintro params rfl
    exact h.worded params ht
  · rintro home hs rfl
    exact h.apart home hs ht
  · intro hv n hn
    exact List.mem_flatMap.mpr ⟨t,List.mem_filter.mpr ⟨ht,hv⟩,List.mem_filterMap.mpr ⟨_,hn,rfl⟩⟩
  · intro hv n hn hspent
    exact h.unspent t ht hv n hspent hn

theorem Memory.Used.refl (m : Memory) : m.Used m := ⟨rfl,rfl,fun _ _ h => h⟩

/-- Nothing is left of a vacuous connective. -/
theorem prune_vacuous (hp : ∀ t ∈ tests v, Prunable s d cells t) (hv : vacuous (d.view s) v)
    (h : (compile s v).runOn d = (.ok sql,e)) : Echoes s cells d (pruned (d.view s) v) sql e := by
  obtain ⟨hempty,he⟩ := quiet_compile v d e sql hp (Memory.Used.refl _) hv h
  cases v using induct with
  | operation v op operands ho _ =>
    rw [vacuous_of_operation? ho] at hv
    rw [pruned_of_operation? ho]
    unfold prunedOf
    cases hop : op.connects with
    | false =>
      rw [if_neg Bool.false_ne_true,withOperands_self ho]
      exact ⟨sql,e,h,rfl,rfl⟩
    | true =>
      rw [vacuousOf_connective hop] at hv
      refine ⟨[],d,?_,(Sql.isEmpty_iff_written.mp hempty).symm,he.symm⟩
      rw [if_pos rfl,prunedAll_eq_nil hv]
      show (compile s (withOperands v [])).runOn d = _
      rw [compile_of_operation? (operation?_withOperands ho _),operate_of_connects hop,compileAll]
      rfl
  | expression text params => exact ⟨sql,e,h,rfl,rfl⟩
  | empty v hnil =>
    rw [pruned_of_empty hnil]
    exact ⟨sql,e,h,rfl,rfl⟩
  | unread v x hx =>
    rw [pruned_of_unread hx]
    exact ⟨sql,e,h,rfl,rfl⟩
  | bare v hb hx =>
    rw [pruned_of_bare hb]
    exact ⟨sql,e,h,rfl,rfl⟩

theorem render_of_isEmpty (h : sql.isEmpty) (dialect : Dialect) : dialect.render sql = "" := by
  rw [← Sql.render_written,Sql.isEmpty_iff_written.mp h]
  rfl

/-- A condition that is composed without a fault reads as nothing exactly if it is vacuous, and then every place that
would put a keyword before it leaves the keyword out. Without its vacuous operands, and with one operand instead of a
connective over it, at any depth, it gives the same text and the same bindings. -/
theorem filters_omitted_iff_vacuous (hv : Regular s d v) (h : (compile s v).runOn d = (.ok sql,e)) :
    (∀ dialect : Dialect, dialect.render sql = "" ↔ vacuous (d.view s) v) ∧
    (∃ sql' e', (compile s (pruned (d.view s) v)).runOn d = (.ok sql',e') ∧
      (∀ dialect : Dialect, dialect.render sql' = dialect.render sql) ∧ e'.bindings = e.bindings ∧ e'.given = e.given) ∧
    (∀ keyword, (Query.filterClause s keyword v).runOn d =
      (.ok (if vacuous (d.view s) v then [] else [.text (keyword ++ " ")] ++ sql.alone),e)) ∧
    (∀ keyword table, (Join.compile s ⟨keyword,table,v⟩).runOn d =
      (.ok ([.text (keyword ++ " ")] ++ Sql.aliasedTable table ++
        if vacuous (d.view s) v then [] else [.text " ON "] ++ sql.alone),e)) ∧
    ∀ statement, (Statement.filtered s statement v).runOn d =
      (.ok (statement ++ if vacuous (d.view s) v then [] else [.text " ",.text "WHERE "] ++ sql.alone),e) := by
  have hp := hv.prunable
  have hu := Memory.Used.refl d.memory
  have hempty : sql.isEmpty = vacuous (d.view s) v := by
    cases hvacuous : vacuous (d.view s) v with
    | true => exact (quiet_compile v d e sql hp hu hvacuous h).1
    | false => exact (shown_compile v d hp hu (fun _ _ => rfl) hvacuous sql e h).isEmpty
  have hfilter : ∀ keyword, (Query.filterClause s keyword v).runOn d =
      (.ok (if vacuous (d.view s) v then [] else [.text (keyword ++ " ")] ++ sql.alone),e) := by
    intro keyword
    rw [Query.filterClause,runOn_bind,h,← hempty]
    rfl
  refine ⟨?_,?_,hfilter,?_,?_⟩
  · intro dialect
    rw [← hempty]
    refine ⟨fun hnil => ?_,fun hnil => render_of_isEmpty hnil dialect⟩
    by_contra hfull
    rw [hempty,Bool.not_eq_true] at hfull
    exact (shown_compile v d hp hu (fun _ _ => rfl) hfull sql e h).render_ne dialect hnil
  · have hshort : ∃ sql' e', (compile s (pruned (d.view s) v)).runOn d = (.ok sql',e') ∧ sql'.written = sql.written ∧
        e'.without (spent (d.view s) v) = e.without (spent (d.view s) v) := by
      cases hvacuous : vacuous (d.view s) v with
      | true => exact prune_vacuous hp hvacuous h
      | false => exact prune_compile v d d e sql hp hvacuous hu hu rfl h
    obtain ⟨sql',e',hrun,hw,he⟩ := hshort
    obtain ⟨hbindings,-,hgiven⟩ := Draft.mk.inj he
    exact ⟨sql',e',hrun,Sql.render_eq_of_written hw,hbindings,hgiven⟩
  · intro keyword table
    rw [Join.compile]
    dsimp only
    rw [runOn_bind,h,← hempty]
    cases hs : sql.isEmpty <;> simp [hs]
  · intro statement
    rw [Statement.filtered,runOn_bind,hfilter "WHERE"]
    have hword : "WHERE" ++ " " = "WHERE " := by decide
    cases vacuous (d.view s) v <;> simp [Sql.isEmpty,Token.isEmpty,hword]

def halfVacuous : Value :=
  .list [.text "and",.list [.text "not in",.text "a",.list []],.list [.text "=",.text "b",.int 1]]

theorem filters_omitted_iff_vacuous_half :
    ∃ sql e, (compile (Options.setting {} .sqlite) halfVacuous).runOn { bindings := [],memory := {} } = (.ok sql,e) ∧
      (∀ dialect : Dialect, dialect.render sql ≠ "") ∧
      pruned {} halfVacuous = .list [.text "=",.text "b",.int 1] ∧
      ∃ sql' e', (compile (Options.setting {} .sqlite) (.list [.text "=",.text "b",.int 1])).runOn
        { bindings := [],memory := {} } = (.ok sql',e') ∧
        (∀ dialect : Dialect, dialect.render sql' = dialect.render sql) ∧ e'.bindings = e.bindings := by
  have htests : tests halfVacuous = [.operation (.member true) [.text "a",.list []],
      .operation (.compare .eq) [.text "b",.int 1]] := rfl
  have hregular : Regular (Options.setting {} .sqlite) { bindings := [],memory := {} } halfVacuous := by
    refine ⟨?_,?_,?_,?_⟩
    · rw [htests]
      simp [Test.columns,columns?,Value.IsText]
    · simp [htests]
    · simp [htests]
    · rw [htests]
      simp [spent,htests,Test.lists,Value.stream?]
  obtain ⟨hempty,⟨sql',e',hrun,hrender,hbindings,-⟩,-⟩ := filters_omitted_iff_vacuous hregular rfl
  refine ⟨_,_,rfl,fun dialect hnil => ?_,rfl,sql',e',hrun,hrender,hbindings⟩
  cases (hempty dialect).mp hnil

def sharedStream : Value :=
  .list [.text "and",.list [.text "not in",.list [],.stream 0],.list [.text "in",.text "b",.stream 0]]

def growingOperand : Value := .list [.text "and",.list [.text "=",.text "a",.int 1],.shared (.cell 0)]

/-- Vacuous operands whose deletion changes the text: one that uses up a stream, and one that is empty at first only. -/
theorem deleted_operands_show :
    (let d : Draft := { bindings := [],memory := { streams := #[[.int 1,.int 2]] } }
      let s : Setting := Options.setting {} .sqlite
      vacuous (d.view s) (.list [.text "not in",.list [],.stream 0]) ∧
        pruned (d.view s) sharedStream = .list [.text "in",.text "b",.stream 0] ∧
        (∃ sql e, (compile s sharedStream).runOn d = (.ok sql,e) ∧ Dialect.sqlite.render sql = "0=1") ∧
        ∃ sql e, (compile s (pruned (d.view s) sharedStream)).runOn d = (.ok sql,e) ∧
          Dialect.sqlite.render sql = "\x22b\x22 IN (:qp0, :qp1)") ∧
    let d : Draft := { bindings := [],memory := { mappings := #[[]] } }
    let s : Setting := { Options.setting {} .sqlite with collection := .shared (.cell 0) }
    vacuous (d.view s) (.shared (.cell 0)) ∧
      pruned (d.view s) growingOperand = .list [.text "=",.text "a",.int 1] ∧
      (∃ sql e, (compile s growingOperand).runOn d = (.ok sql,e) ∧
        Dialect.sqlite.render sql = "(\x22a\x22=:qp0) AND (\x22qp0\x22=:qp1)") ∧
      ∃ sql e, (compile s (pruned (d.view s) growingOperand)).runOn d = (.ok sql,e) ∧
        Dialect.sqlite.render sql = "\x22a\x22=:qp0" := by
  refine ⟨⟨rfl,rfl,⟨_,_,rfl,?_⟩,⟨_,_,rfl,?_⟩⟩,rfl,rfl,⟨_,_,rfl,?_⟩,⟨_,_,rfl,?_⟩⟩
  · decide
  · decide
  · decide
  · decide

end Condition

end SqlCompose
