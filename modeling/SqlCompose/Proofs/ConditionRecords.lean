import SqlCompose.Proofs.Expressions
import SqlCompose.Proofs.Grouping

/-! # Conditions and their records

Raw SQL, an operator form and a mapping of columns can each be written as a record too. The record is compiled like the
notation that it restates, in a clause or below any number of connectives, and as long as the notation does not read the
bindings the two are one step. Only the record of no columns restates nothing.
-/
namespace SqlCompose
open Relation Build

variable {s : Setting} {m m' : Memory} {d e : Draft} {v w : Value}

namespace Condition

/-- `w` is the record of the condition that `v` writes in its notation: raw SQL, an operator and its operands, or the
columns of a mapping, which must have some. -/
inductive Restates (m : Memory) : Value → Value → Prop where
  | raw (sql : String) : Restates m (.text sql) (.raw sql)
  | operation {v head : Value} {op : Operator} {operands : List Value}
    (hv : v = .list (head :: operands) ∨ v = .tuple (head :: operands)) (hop : Operator.ofValue head = .ok op) :
    Restates m v (.operation op operands)
  | pairs {v : Value} {es : Entries} {columns : List (String × Value)} (hv : v.entries? m = some es) (hes : es ≠ [])
    (hc : es.named? = some columns) : Restates m v (.pairs columns)

namespace Restates

theorem runOn_compile (h : Restates (d.view s) v w) : (compile s v).runOn d = (compile s w).runOn d := by
  cases h with
  | raw sql => rfl
  | operation hv hop =>
    rcases hv with rfl | rfl
    · simp only [compile,compileForm,hop]
    · simp only [compile,compileForm,hop]
  | @pairs _ es columns hv hes hc =>
    have htyped : typedPairs es = .ok (.pairs columns) := by
      rw [typedPairs,List.isEmpty_eq_false_iff.mpr hes,hc]
      rfl
    have hsimple : ∀ v, typed (d.view s) v = .ok (.pairs columns) →
        (simple s v).runOn d = (Condition.pairs s columns).runOn d := by
      intro v hv
      rw [simple,runOn_bind,runOn_view]
      dsimp only
      rw [hv]
    have hcompile : compile s v = simple s v := by
      cases v with
      | mapping entries => rw [compile] <;> simp
      | shared home => rw [compile] <;> simp
      | _ => cases hv
    have hread : typed (d.view s) v = typedPairs es := by
      cases v with
      | mapping entries =>
        cases hv
        rfl
      | shared home =>
        cases hv
        rfl
      | _ => cases hv
    have hrecord : compile s (.pairs columns) = simple s (.pairs columns) := by rw [compile] <;> simp
    rw [hcompile,hrecord,hsimple v (hread.trans htyped),hsimple (.pairs columns) rfl]

/-- What is restated depends on memory only through the entries of a mapping. -/
theorem of_entries (h : Restates m v w) (he : v.entries? m' = v.entries? m) : Restates m' v w := by
  cases h with
  | raw sql => exact .raw sql
  | operation hv hop => exact .operation hv hop
  | pairs hv hes hc => exact .pairs (he.trans hv) hes hc

end Restates

/-- Mappings whose keys are texts can be restated. -/
theorem exists_named? {es : Entries} (hk : ∀ key ∈ es.keys, key.text?.isSome) :
    ∃ columns, es.named? = some columns := by
  refine Option.isSome_iff_exists.mp ?_
  rw [isSome_named?,List.all_eq_true]
  intro key hm
  have htext := hk key hm
  cases key <;> first | exact htext | cases htext

/-! ## Places below connectives -/

inductive Head where
  | record (op : Operator)
  | list (head : Value)
  | tuple (head : Value)

namespace Head

def operator : Head → Except Fault Operator
  | .record op => .ok op
  | .list head | .tuple head => Operator.ofValue head

def apply : Head → List Value → Value
  | .record op, operands => .operation op operands
  | .list head, operands => .list (head :: operands)
  | .tuple head, operands => .tuple (head :: operands)

theorem compile_apply {head : Head} {op : Operator} (h : head.operator = .ok op) (operands : List Value) :
    compile s (head.apply operands) = operate s op operands (compileAll s operands) := by
  cases head with
  | record own =>
    cases h
    rw [apply,compile]
  | list own =>
    rw [operator] at h
    simp only [apply,compile,compileForm,h]
  | tuple own =>
    rw [operator] at h
    simp only [apply,compile,compileForm,h]

end Head

structure Layer where
  head : Head
  op : Operator
  reads : head.operator = .ok op
  connects : op.connects
  before : List Value
  after : List Value

def Layer.around (layer : Layer) (v : Value) : Value := layer.head.apply (layer.before ++ v :: layer.after)

/-- The condition that has `v` in the place below these connectives, the outermost first. -/
def fill (layers : List Layer) (v : Value) : Value := layers.foldr Layer.around v

/-- Compiled from `d`, the place is come to at `e`: all operands in front of it have been written. -/
inductive Arrives (s : Setting) : Draft → List Layer → Draft → Prop where
  | here (d : Draft) : Arrives s d [] d
  | inside {d c e : Draft} {layer : Layer} {layers : List Layer} {parts : List Sql}
    (hbefore : (compileAll s layer.before).runOn d = (.ok parts,c)) (hrest : Arrives s c layers e) :
    Arrives s d (layer :: layers) e

variable {layers : List Layer} {before after : List Value}

structure Exchangeable (s : Setting) (d : Draft) (v w : Value) : Prop where
  left : symbol? v = none
  right : symbol? w = none
  same : (compile s v).runOn d = (compile s w).runOn d

theorem Restates.exchangeable (h : Restates (d.view s) v w) : Exchangeable s d v w := by
  have hsymbols : symbol? v = none ∧ symbol? w = none := by
    cases h with
    | raw sql => exact ⟨rfl,rfl⟩
    | operation hv hop => rcases hv with rfl | rfl <;> exact ⟨rfl,rfl⟩
    | pairs hv hes hc => cases v <;> first | exact ⟨rfl,rfl⟩ | cases hv
  exact ⟨hsymbols.1,hsymbols.2,h.runOn_compile⟩

/-- An operand may be exchanged at the draft that the operands in front of it lead to. -/
theorem runOn_compileAll_exchange
    (h : ∀ parts c, (compileAll s before).runOn d = (.ok parts,c) → Exchangeable s c v w) :
    (compileAll s (before ++ v :: after)).runOn d = (compileAll s (before ++ w :: after)).runOn d := by
  induction before generalizing d with
  | nil =>
    obtain ⟨hv,hw,hrun⟩ := h [] d (by rw [compileAll]; rfl)
    rw [List.nil_append,List.nil_append,compileAll_asOperand,compileAll_asOperand,asOperand_of_none hv,
      asOperand_of_none hw,runOn_bind,runOn_bind,hrun]
  | cons o before ih =>
    rw [List.cons_append,List.cons_append,compileAll_asOperand,compileAll_asOperand,runOn_bind,runOn_bind]
    cases ho : (asOperand s o).runOn d with
    | mk r c =>
      cases r with
      | error x => rfl
      | ok sql =>
        -- the first operand is written alike on both sides, and the others from where it has led to
        have hrest : (compileAll s (before ++ v :: after)).runOn c = (compileAll s (before ++ w :: after)).runOn c := by
          refine ih (fun parts e hparts => h (sql :: parts) e ?_)
          rw [compileAll_asOperand]
          exact runOn_bind_ok.mpr ⟨sql,c,ho,runOn_bind_ok.mpr ⟨parts,e,hparts,rfl⟩⟩
        dsimp only
        rw [runOn_bind,runOn_bind,hrest]

theorem fill_cons (layer : Layer) (layers : List Layer) (v : Value) :
    fill (layer :: layers) v = layer.head.apply (layer.before ++ fill layers v :: layer.after) := rfl

/-- What may be exchanged where the place is come to may be exchanged below the connectives. -/
theorem exchangeable_fill (h : ∀ e, Arrives s d layers e → Exchangeable s e v w) :
    Exchangeable s d (fill layers v) (fill layers w) := by
  induction layers generalizing d with
  | nil => exact h d (.here d)
  | cons layer layers ih =>
    have hsymbols : ∀ operands, symbol? (layer.head.apply operands) = none := fun _ => by cases layer.head <;> rfl
    refine ⟨hsymbols _,hsymbols _,?_⟩
    rw [fill_cons,fill_cons,Head.compile_apply layer.reads,Head.compile_apply layer.reads,
      operate_of_connects layer.connects,operate_of_connects layer.connects,runOn_bind,runOn_bind,
      runOn_compileAll_exchange (fun parts c hbefore => ih (fun e he => h e (.inside hbefore he)))]

/-- On the way to a place nothing but streams is used up. -/
theorem Arrives.used (h : Arrives s d layers e) {start : Draft} (hu : start.memory.Used d.memory) :
    start.memory.Used e.memory := by
  induction h with
  | here d => exact hu
  | @inside d c e layer layers parts hbefore _ ih =>
    have hgoes : Goes Extent.values s d (compileAll s layer.before) _ :=
      goes_operands (fun o _ e => goes_compile o e trivial)
    have st := (hgoes Extent.covers_values).1
    rw [hbefore] at st
    exact ih (Extent.keep_steps (P := fun e => start.memory.Used e.memory) (fun _ _ st h => st.used h) st hu)

/-- Only what receives the bindings can come to restate something else. -/
theorem Arrives.restates_iff (h : Arrives s d layers e) (hv : s.receives v = false) :
    Restates (e.view s) v w ↔ Restates (d.view s) v w := by
  have hentries : v.entries? (e.view s) = v.entries? (d.view s) := by
    cases v with
    | shared home =>
      have hc : s.collection ≠ .shared home := by
        intro hc
        rw [Bool.eq_false_iff] at hv
        exact hv (receives_iff.mpr ⟨home,rfl,hc⟩)
      exact congrArg some ((h.used (Memory.Used.refl d.memory)).view_mapping hc)
    | _ => rfl
  exact ⟨fun hr => hr.of_entries hentries.symm,fun hr => hr.of_entries hentries⟩

/-! ## Records in all places -/

/-- Compiled from `d`, two conditions are written alike, leave alike what they bind and use up, and fail alike: by
themselves, behind the keyword of a clause, in a join, and at the end of a statement. -/
structure SameFrom (s : Setting) (d : Draft) (v w : Value) : Prop where
  condition : (compile s v).runOn d = (compile s w).runOn d
  clause : ∀ keyword, (Query.filterClause s keyword v).runOn d = (Query.filterClause s keyword w).runOn d
  join : ∀ keyword table, (Join.compile s ⟨keyword,table,v⟩).runOn d = (Join.compile s ⟨keyword,table,w⟩).runOn d
  statement : ∀ sql, (Statement.filtered s sql v).runOn d = (Statement.filtered s sql w).runOn d

theorem sameFrom_of_runOn (h : (compile s v).runOn d = (compile s w).runOn d) : SameFrom s d v w := by
  have hclause : ∀ keyword, (Query.filterClause s keyword v).runOn d = (Query.filterClause s keyword w).runOn d := by
    intro keyword
    rw [Query.filterClause,Query.filterClause,runOn_bind,runOn_bind,h]
  refine ⟨h,hclause,fun keyword table => ?_,fun sql => ?_⟩
  · rw [Join.compile,Join.compile,runOn_bind,runOn_bind,h]
  · rw [Statement.filtered,Statement.filtered,runOn_bind,runOn_bind,hclause]

/-- A condition is restated by a record wherever it stands: in a clause, in a join, in a statement, and there below any
number of connectives. The notation has to be what the record restates when it is come to, as it is then if it is at the
start, unless it is the collection of the bindings itself. No condition without raw text, be it a record or not, has an
empty group in its text, unless a record of no columns is in it; for this the quotes and the stem of the setting must be
clean, as they are in every dialect with every stem that options accept. -/
theorem records_restate (s : Setting) :
    (∀ (m : Memory) (v : Value) (es : Entries), v.entries? m = some es → (∀ key ∈ es.keys, key.text?.isSome) →
      ∃ columns, es.named? = some columns ∧ (es ≠ [] → Restates m v (.pairs columns))) ∧
    (∀ layers v w d, (∀ e, Arrives s d layers e → Restates (e.view s) v w) →
      SameFrom s d (fill layers v) (fill layers w)) ∧
    (∀ layers v w d e, Arrives s d layers e → s.receives v = false →
      (Restates (e.view s) v w ↔ Restates (d.view s) v w)) ∧
    (s.dialect ∈ [.plain,.sqlite,.postgres,.mysql] → Options.isStem s.stem → s.Clean) ∧
    ∀ v d sql e, s.Clean → (∀ home, s.collection = .shared home → d.memory.Holds home) → Rawless s (d.view s) v →
      .simple (.pairs []) ∉ tests v → (compile s v).runOn d = (.ok sql,e) →
      ¬ "()".toList <:+: (s.dialect.render sql).toList := by
  refine ⟨?_,?_,fun _ _ _ _ _ h hv => h.restates_iff hv,Setting.clean_of_isStem,
    fun _ _ _ _ hs hh hv hp h => no_empty_group hs hh hv hp h⟩
  · intro m v es hv hk
    obtain ⟨columns,hc⟩ := exists_named? hk
    exact ⟨columns,hc,fun hes => .pairs hv hes hc⟩
  · intro layers v w d h
    exact sameFrom_of_runOn (exchangeable_fill (fun e he => (h e he).exchangeable)).same

/-- A mapping and its record as the second of three operands. -/
theorem records_restate_operand :
    let s := Options.setting {} .sqlite
    let d : Draft := { bindings := [],memory := {} }
    let v := .mapping [(.text "a",.int 1),(.text "c",.null)]
    let w := .pairs [("a",.int 1),("c",.null)]
    ∃ layers, fill layers v = .list [.text "or",.mapping [(.text "b",.int 2)],v,.null] ∧
      SameFrom s d (fill layers v) (fill layers w) ∧ Restates (d.view s) v w ∧
      ∃ sql e, (compile s (fill layers w)).runOn d = (.ok sql,e) ∧
        s.dialect.render sql = "(\"b\"=:qp0) OR ((\"a\"=:qp1) AND (\"c\" IS NULL))" ∧
        ¬ "()".toList <:+: (s.dialect.render sql).toList := by
  intro s d v w
  let layer : Layer :=
    { head := .list (.text "or"),op := .or,reads := rfl,connects := rfl,before := [.mapping [(.text "b",.int 2)]]
      after := [.null] }
  obtain ⟨hnamed,hsame,hstays,hsettings,hgroup⟩ := records_restate s
  obtain ⟨columns,hcolumns,hrestates⟩ := hnamed (d.view s) v _ rfl (by decide)
  cases hcolumns
  have hv : Restates (d.view s) v w := hrestates (by simp)
  have hw := hsame [layer] v w d (fun e he => (hstays [layer] v w d e he rfl).mpr hv)
  have hclean : s.Clean := hsettings (.tail _ (.head _)) (by decide)
  have hbare : (fill [layer] w).bare := by decide
  have hmemory : (d.view s).bare := by simp [Memory.bare,Memory.everyExpression,Draft.view,d,s,Options.setting]
  have htests : tests (fill [layer] w) = [.simple (.mapping [(.text "b",.int 2)]),.simple w,.simple .null] := rfl
  have hkeys : ∀ column ∈ ["a","b","c"], s.dialect.Harmless column := by
    unfold Dialect.Harmless
    decide
  have hmapping : Unworded s (d.view s) (.mapping [(.text "b",.int 2)]) := by
    refine ⟨rfl,by rintro _ ⟨⟩,by rintro _ ⟨⟩,fun _ key hkey name hname => ?_⟩
    obtain rfl := List.mem_singleton.mp hkey
    cases hname
    exact hkeys "b" (by decide)
  have hrecord : Unworded s (d.view s) (.pairs [("a",.int 1),("c",.null)]) := by
    refine ⟨rfl,by rintro _ ⟨⟩,?_,fun h => Bool.noConfusion h⟩
    rintro _ ⟨⟩ c hc
    simp only [List.mem_cons,List.not_mem_nil,or_false] at hc
    rcases hc with rfl | rfl
    · exact hkeys "a" (by decide)
    · exact hkeys "c" (by decide)
  have hnull : Unworded s (d.view s) .null :=
    ⟨rfl,by rintro _ ⟨⟩,by rintro _ ⟨⟩,fun h => Bool.noConfusion h⟩
  have hrawless : Rawless s (d.view s) (fill [layer] w) := by
    refine ⟨fun sql params => Value.not_reaches_expression hmemory hbare,?_⟩
    rw [htests]
    simp only [List.forall_mem_cons]
    exact ⟨hmapping,hrecord,hnull,List.forall_mem_nil _⟩
  have hcolumns : .simple (.pairs []) ∉ tests (fill [layer] w) := by
    rw [htests]
    simp [w]
  refine ⟨[layer],rfl,hw,hv,_,_,rfl,by decide,?_⟩
  exact hgroup _ d _ _ hclean (by rintro home ⟨⟩) hrawless hcolumns rfl

/-- The record of no columns is a group of nothing, where the mapping without entries is no condition. -/
theorem no_columns_grouped :
    let s := Options.setting {} .sqlite
    let d : Draft := { bindings := [],memory := {} }
    Entries.named? [] = some [] ∧ (compile s (.mapping [])).runOn d = (.ok [],d) ∧
      ∃ sql, (compile s (.pairs [])).runOn d = (.ok sql,d) ∧ s.dialect.render sql = "()" :=
  ⟨rfl,rfl,_,rfl,by decide⟩

end Condition

end SqlCompose
