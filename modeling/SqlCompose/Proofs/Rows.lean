import SqlCompose.Proofs.Batches
import SqlCompose.Proofs.Binding
import SqlCompose.Proofs.BuildFrame
import SqlCompose.Proofs.Membership
import Mathlib.Data.List.Forall2
import Mathlib.Tactic.IntervalCases

/-! # Rows of a membership test

A test of several columns goes through its rows and reads each by the plain names of the columns. It writes one tuple
per row, and each entry of a tuple stands for what its own row has under its own column, whatever else the row has. One
mapping may change on the way: the one that takes the bindings, if it is among the rows.
-/
namespace SqlCompose
open Build

variable {s : Setting} {d : Draft} {m : Memory} {v row : Value} {es es' more start : Entries} {t name : String}
  {names : List String} {rows : List Value} {negated : Bool} {α β : Type}

namespace Entries

theorem field?_merge_of_not_mem (h : t ∉ more.names) : (merge es more).field? t = es.field? t := by
  induction more generalizing es with
  | nil => rfl
  | cons e more ih =>
    rw [mem_names_cons,not_or] at h
    rw [merge_cons,ih h.2,field?_put,if_neg h.1]

/-- The order of the entries does not matter if no name is there twice. -/
theorem field?_perm (h : es.Perm es') (hn : es.names.Nodup) : es.field? t = es'.field? t := by
  induction h with
  | nil => rfl
  | cons e h ih => rw [field?_cons,field?_cons,ih (nodup_names_cons hn).1]
  | swap e f es =>
    rw [field?_cons,field?_cons,field?_cons,field?_cons]
    by_cases he : e.1.text? = some t
    · have hf : ¬ f.1.text? = some t := fun hf => (nodup_names_cons hn).2 t hf (mem_names_cons.mpr (.inl he))
      simp only [if_pos he,if_neg hf]
    · simp only [if_neg he]
  | trans h _ ih ih' => exact (ih hn).trans (ih' ((h.filterMap _).nodup hn))

end Entries

/-- What the items keep of the bindings is kept by the whole list. -/
theorem accumulate_keeps {J : Entries → Prop} {g : α → Entries → Sql × Entries} {l : List α}
    (h : ∀ a ∈ l, ∀ es, J es → J (g a es).2) (hj : J es) : J (accumulate g l es).2 := by
  induction l generalizing es with
  | nil => exact hj
  | cons a l ih => exact ih (fun a ha => h a (.tail _ ha)) (h a (.head _) es hj)

namespace Condition

/-! ## Cells -/

/-- What a row has under a column; nothing if it lacks the column. -/
def cell (m : Memory) (row : Value) (name : String) : Value := ((row.entries? m).bind (·.field? name)).getD .null

def cells (m : Memory) (names : List String) (rows : List Value) : List (List Value) :=
  rows.map (fun row => names.map (cell m row))

/-- What a cell writes among given bindings, and the bindings with those that it brings. -/
def filled (stem : String) : Value → Entries → Sql × Entries
  | .null,es => ([.text "NULL"],es)
  | v,es => v.placed stem es

def rowsTest (negated : Bool) (names : List String) (tuples : List Sql) : Sql :=
  parenthesized (Sql.commas (names.map Sql.column)) ++ [.text (if negated then " NOT IN " else " IN ")] ++ tupled tuples

def filledTuple (stem : String) (cells : List Value) (es : Entries) : Sql × Entries :=
  (accumulate (filled stem) cells es).map tupled id

theorem ends_entry (hb : s.Binds) :
    EndsIn d (entry s v) (.ok (filled s.stem v d.bindings).1) (filled s.stem v d.bindings).2 := by
  unfold entry
  split
  · exact .pure rfl
  · next hn =>
    have hfilled : filled s.stem v d.bindings = v.placed s.stem d.bindings := by
      cases v <;> first | rfl | exact absurd rfl hn
    rw [hfilled]
    exact ends_rendered hb

theorem ends_field (h : row.hasEntries) : EndsIn d (field s (.text name) row) (.ok (cell (d.view s) row name)) d.bindings := by
  obtain ⟨es,he⟩ := Option.isSome_iff_exists.mp ((Value.isSome_entries (d.view s) row).trans h)
  unfold field cell
  refine .view ?_
  rw [he]
  exact .pure rfl

def Steady (s : Setting) (m : Memory) (names : List String) (rows : List Value) (es : Entries) : Prop :=
  ∀ row ∈ rows, ∀ name ∈ names, cell (Draft.view s { bindings := es,memory := m }) row name = cell m row name

section Run
variable {J : Entries → Prop} (hb : s.Binds) (hrows : ∀ row ∈ rows, row.hasEntries)
  (hsteady : ∀ es, J es → Steady s m names rows es)
  (hkeep : ∀ row ∈ rows, ∀ name ∈ names, ∀ es, J es → J (filled s.stem (cell m row name) es).2)
include hb hrows hsteady hkeep

theorem ends_memberRow (hrow : row ∈ rows) (hm : d.memory = m) (hj : J d.bindings) :
    EndsIn d (memberRow s negated (names.map .text) row) (.ok (filledTuple s.stem (names.map (cell m row)) d.bindings).1)
      (filledTuple s.stem (names.map (cell m row)) d.bindings).2 := by
  obtain ⟨entries,he⟩ := Option.isSome_iff_exists.mp ((Value.isSome_entries (d.view s) row).trans (hrows row hrow))
  have hcell : ∀ name ∈ names, ∀ e : Draft, e.memory = m → J e.bindings →
      EndsIn e (do entry s (← field s (.text name) row)) (.ok (filled s.stem (cell m row name) e.bindings).1)
        (filled s.stem (cell m row name) e.bindings).2 := by
    intro name hname e hme hje
    have hshown : cell (e.view s) row name = cell m row name := by
      rw [← hsteady _ hje row hrow name hname,← hme]
      rfl
    have hfield : EndsIn e (field s (.text name) row) (.ok (cell (e.view s) row name)) e.bindings :=
      ends_field (hrows row hrow)
    rw [hshown] at hfield
    refine .bind hfield (fun c hc => ?_)
    rw [← hc]
    exact ends_entry hb
  have htraversed := ends_traversed hcell (fun name hname => hkeep row hrow name hname) hm hj
  unfold memberRow
  refine .view ?_
  rw [he,List.mapM_map,filledTuple,accumulate_map]
  exact .bind htraversed (fun _ he => .pure he)

/-- The whole test: the names of the columns, and a tuple for each row. -/
theorem ends_compositeMember (hm : d.memory = m) (hj : J d.bindings) :
    EndsIn d (compositeMember s negated (names.map .text) rows)
      (.ok (rowsTest negated names (accumulate (filledTuple s.stem) (cells m names rows) d.bindings).1))
      (accumulate (filledTuple s.stem) (cells m names rows) d.bindings).2 := by
  have hkeepRow : ∀ row ∈ rows, ∀ es, J es → J (filledTuple s.stem (names.map (cell m row)) es).2 := by
    intro row hrow es hj
    rw [filledTuple,accumulate_map]
    exact accumulate_keeps (fun name hname => hkeep row hrow name hname) hj
  have hrow : ∀ row ∈ rows, ∀ e : Draft, e.memory = m → J e.bindings →
      EndsIn e (memberRow s negated (names.map .text) row) (.ok (filledTuple s.stem (names.map (cell m row)) e.bindings).1)
        (filledTuple s.stem (names.map (cell m row)) e.bindings).2 :=
    fun row hrow e hme hje => ends_memberRow hb hrows hsteady hkeep hrow hme hje
  have htuples := ends_traversed hrow hkeepRow hm hj
  unfold compositeMember
  rw [cells,accumulate_map]
  refine .bind htuples (fun e he => .bind (Statement.ends_names names) (fun e' he' => ?_))
  rw [nameList_some]
  exact .bind (.pure (he'.trans he)) (fun _ he => .pure he)

end Run

/-! ## What keeps the rows as they are -/

/-- No column is named by a number behind the stem, or as something that an expression in a cell brings. -/
structure Apart (s : Setting) (m : Memory) (names : List String) (rows : List Value) : Prop where
  number : ∀ name ∈ names, ∀ n, name ≠ s.placeholderName n
  expression : ∀ name ∈ names, ∀ row ∈ rows, ∀ column ∈ names, ∀ sql params,
    cell m row column = .expression sql params → name ∉ Entries.names params

def Unaltered (names : List String) (start es : Entries) : Prop := ∀ name ∈ names, es.field? name = start.field? name

/-- What a cell brings stands under none of the columns. -/
theorem Unaltered.filled (ha : Apart s m names rows) (hrow : row ∈ rows) (hname : name ∈ names)
    (h : Unaltered names start es) : Unaltered names start (filled s.stem (cell m row name) es).2 := by
  intro t ht
  have hput : ∀ v, (Entries.put (.text (s.placeholderName es.length)) v es).field? t = start.field? t := by
    intro v
    have hne : ¬ Value.text? (.text (s.placeholderName es.length)) = some t := by
      intro heq
      exact ha.number t ht es.length (Option.some.inj heq).symm
    rw [Entries.field?_put,if_neg hne]
    exact h t ht
  cases hv : cell m row name with
  | null => exact h t ht
  | expression sql params =>
    exact (Entries.field?_merge_of_not_mem (ha.expression t ht row hrow name hname sql params hv)).trans (h t ht)
  | _ => exact hput _

/-- Only the mapping that takes the bindings may show something else, and it does not under the columns. -/
theorem Unaltered.steady (h : ∀ home, s.collection = .shared home → .shared home ∈ rows →
      m.Holds home ∧ Unaltered names (m.mapping home) es) : Steady s m names rows es := by
  intro row hrow name hname
  unfold cell
  cases row with
  | shared home =>
    simp only [Value.entries?,Option.bind_some]
    by_cases hc : s.collection = .shared home
    · obtain ⟨hh,hes⟩ := h home hc hrow
      rw [Draft.view_mapping_own hc hh,hes name hname]
    · rw [Draft.view_mapping_other (fun hn => hc hn.1)]
  | _ => rfl

/-! ## What stands for a cell -/

def Fills (s : Setting) (es : Entries) : Value → Sql → Prop
  | .null,sql => sql = [.text "NULL"]
  | .expression text _,sql => sql = [.text text]
  | v,sql => ∃ n < es.length, sql = [.placeholder (s.placeholderName n)] ∧ es.field? (s.placeholderName n) = some v

def Counted (s : Setting) (es : Entries) : Prop := ∀ n, es.length ≤ n → s.placeholderName n ∉ es.names

structure Onward (s : Setting) (es es' : Entries) : Prop where
  counted : Counted s es'
  grown : es.length ≤ es'.length
  kept : ∀ n < es.length, es'.field? (s.placeholderName n) = es.field? (s.placeholderName n)

theorem Onward.trans {a b c : Entries} (h : Onward s a b) (h' : Onward s b c) : Onward s a c where
  counted := h'.counted
  grown := h.grown.trans h'.grown
  kept n hn := (h'.kept n (Nat.lt_of_lt_of_le hn h.grown)).trans (h.kept n hn)

theorem Fills.mono {sql : Sql} (h : Onward s es es') (hv : Fills s es v sql) : Fills s es' v sql := by
  cases v with
  | null | expression => exact hv
  | _ =>
    obtain ⟨n,hn,hsql,hes⟩ := hv
    exact ⟨n,Nat.lt_of_lt_of_le hn h.grown,hsql,(h.kept n hn).trans hes⟩

theorem onward_put (hc : Counted s es) :
    Onward s es (Entries.put (.text (s.placeholderName es.length)) v es) ∧
      (Entries.put (.text (s.placeholderName es.length)) v es).length = es.length + 1 := by
  have hnew := Entries.put_of_not_mem (v := v) (hc es.length (Nat.le_refl _))
  have hlength : (Entries.put (.text (s.placeholderName es.length)) v es).length = es.length + 1 := by simp [hnew]
  have hne : ∀ n ≠ es.length, ¬ Value.text? (.text (s.placeholderName es.length)) = some (s.placeholderName n) := by
    intro n hn heq
    exact hn (s.placeholderName_inj.mp (Option.some.inj heq).symm)
  refine ⟨⟨?_,?_,?_⟩,hlength⟩
  · intro n hn hm
    rw [hlength] at hn
    rcases Entries.mem_names_put.mp hm with h | h
    · exact hne n (by omega) h
    · exact hc n (by omega) h
  · omega
  · intro n hn
    rw [Entries.field?_put,if_neg (hne n (by omega))]

theorem onward_merge (hc : Counted s es) (hm : ∀ n, s.placeholderName n ∉ more.names) : Onward s es (es.merge more) where
  counted n hn h := by
    rcases Entries.mem_names_merge.mp h with h | h
    · exact hc n (Entries.length_le_merge.trans hn) h
    · exact hm n h
  grown := Entries.length_le_merge
  kept n _ := Entries.field?_merge_of_not_mem (hm n)

/-- A cell fills its place, and what had been counted before it stays. -/
theorem filled_onward (hv : ∀ sql params, v = .expression sql params → ∀ n, s.placeholderName n ∉ Entries.names params)
    (hc : Counted s es) :
    Onward s es (filled s.stem v es).2 ∧ Fills s (filled s.stem v es).2 v (filled s.stem v es).1 := by
  have hput := onward_put (v := v) hc
  have hfills : ∃ n < (Entries.put (.text (s.placeholderName es.length)) v es).length,
      [Token.placeholder (s.placeholderName es.length)] = [Token.placeholder (s.placeholderName n)] ∧
        (Entries.put (.text (s.placeholderName es.length)) v es).field? (s.placeholderName n) = some v := by
    refine ⟨es.length,by omega,rfl,?_⟩
    rw [Entries.field?_put]
    exact if_pos rfl
  cases v with
  | null => exact ⟨⟨hc,Nat.le_refl _,fun _ _ => rfl⟩,rfl⟩
  | expression sql params => exact ⟨onward_merge hc (hv sql params rfl),rfl⟩
  | _ => exact ⟨hput.1,hfills⟩

/-- A list fills its places one after the other if its items do, each with the bindings before it. -/
theorem accumulate_onward {R : Entries → α → Sql → Prop} {g : α → Entries → Sql × Entries} {l : List α}
    (hmono : ∀ {es es' a sql}, Onward s es es' → R es a sql → R es' a sql)
    (h : ∀ a ∈ l, ∀ es, Counted s es → Onward s es (g a es).2 ∧ R (g a es).2 a (g a es).1) (hc : Counted s es) :
    Onward s es (accumulate g l es).2 ∧ List.Forall₂ (R (accumulate g l es).2) l (accumulate g l es).1 := by
  induction l generalizing es with
  | nil => exact ⟨⟨hc,Nat.le_refl _,fun _ _ => rfl⟩,.nil⟩
  | cons a l ih =>
    obtain ⟨hfirst,ha⟩ := h a (.head _) es hc
    obtain ⟨hrest,hl⟩ := ih (fun a ha => h a (.tail _ ha)) hfirst.counted
    exact ⟨hfirst.trans hrest,.cons (hmono hrest ha) hl⟩

def FillsTuple (s : Setting) (es : Entries) (cells : List Value) (sql : Sql) : Prop :=
  ∃ entries, sql = tupled entries ∧ List.Forall₂ (Fills s es) cells entries

/-- All tuples are filled in the end, row by row and column by column. -/
theorem filled_rows {grid : List (List Value)} (hc : Counted s es)
    (hgrid : ∀ cells ∈ grid, ∀ v ∈ cells, ∀ sql params, v = .expression sql params →
      ∀ n, s.placeholderName n ∉ Entries.names params) :
    List.Forall₂ (FillsTuple s (accumulate (filledTuple s.stem) grid es).2) grid
      (accumulate (filledTuple s.stem) grid es).1 := by
  refine (accumulate_onward ?_ ?_ hc).2
  · rintro es es' cells sql h ⟨entries,rfl,hf⟩
    exact ⟨entries,rfl,hf.imp (fun _ _ hv => hv.mono h)⟩
  · intro cells hcells es hc
    obtain ⟨hon,hf⟩ := accumulate_onward (R := Fills s) Fills.mono
      (fun v hv es hc => filled_onward (hgrid cells hcells v hv) hc) hc
    exact ⟨hon,_,rfl,hf⟩

/-! ## The whole test -/

/-- The columns, and one tuple for each row in the order of the rows, with one entry for each column in the order of the
columns; each entry stands for the cell of its row and its column. -/
def Aligned (s : Setting) (m : Memory) (negated : Bool) (names : List String) (rows : List Value) (sql : Sql)
    (es : Entries) : Prop :=
  ∃ grid : List (List Sql),
    s.dialect.render sql =
      "(" ++ ", ".intercalate (names.map (fun name => s.dialect.render (Sql.column name))) ++ ")" ++
        (if negated then " NOT IN " else " IN ") ++ "(" ++
        ", ".intercalate (grid.map (fun entries => "(" ++ ", ".intercalate (entries.map s.dialect.render) ++ ")")) ++ ")" ∧
    List.Forall₂ (fun row entries =>
      List.Forall₂ (fun name entry => Fills s es (cell m row name) entry) names entries) rows grid

theorem render_rowsTest (dialect : Dialect) (names : List String) (grid : List (List Sql)) :
    dialect.render (rowsTest negated names (grid.map tupled)) =
      "(" ++ ", ".intercalate (names.map (fun name => dialect.render (Sql.column name))) ++ ")" ++
        (if negated then " NOT IN " else " IN ") ++ "(" ++
        ", ".intercalate (grid.map (fun entries => "(" ++ ", ".intercalate (entries.map dialect.render) ++ ")")) ++ ")" := by
  have htext : ∀ t : String, dialect.render [.text t] = t := by
    intro t
    simp [Dialect.render,Dialect.renderToken]
  have htupled : ∀ parts : List Sql,
      dialect.render (tupled parts) = "(" ++ ", ".intercalate (parts.map dialect.render) ++ ")" := by
    intro parts
    unfold tupled parenthesized Sql.commas
    rw [dialect.render_append,dialect.render_append,dialect.render_join,htext,htext]
  have hnames : dialect.render (parenthesized (Sql.commas (names.map Sql.column))) =
      "(" ++ ", ".intercalate (names.map (fun name => dialect.render (Sql.column name))) ++ ")" := by
    have h := htupled (names.map Sql.column)
    rwa [List.map_map] at h
  have hgrid : dialect.render ∘ tupled = fun entries => "(" ++ ", ".intercalate (entries.map dialect.render) ++ ")" :=
    funext htupled
  unfold rowsTest
  rw [dialect.render_append,dialect.render_append,hnames,htext,htupled,List.map_map,hgrid]
  simp only [String.append_assoc]

/-- Filled tuples make a grid of filled entries. -/
theorem grid_of_filled {sqls : List Sql} (h : List.Forall₂ (FillsTuple s es) (cells m names rows) sqls) :
    ∃ grid : List (List Sql), sqls = grid.map tupled ∧ List.Forall₂ (fun row entries =>
      List.Forall₂ (fun name entry => Fills s es (cell m row name) entry) names entries) rows grid := by
  induction rows generalizing sqls with
  | nil =>
    cases h
    exact ⟨[],rfl,.nil⟩
  | cons row rows ih =>
    obtain _ | ⟨⟨entries,rfl,hrow⟩,hrest⟩ := h
    obtain ⟨grid,rfl,hgrid⟩ := ih hrest
    exact ⟨entries :: grid,rfl,.cons (List.forall₂_map_left_iff.mp hrow) hgrid⟩

/-- `row'` has the entries of `row` in any order, and others besides that stand under none of the columns. -/
def Rearranged (m : Memory) (names : List String) (row row' : Value) : Prop :=
  ∃ es es' more : Entries, row.entries? m = some es ∧ row'.entries? m = some es' ∧ es'.Perm (es ++ more) ∧
    es'.names.Nodup ∧ ∀ name ∈ names, name ∉ more.names

theorem Rearranged.cell_eq {row' : Value} (h : Rearranged m names row row') (hname : name ∈ names) :
    cell m row' name = cell m row name := by
  obtain ⟨es,es',more,he,he',hp,hn,hmore⟩ := h
  unfold cell
  simp only [he,he',Option.bind_some]
  rw [Entries.field?_perm hp hn,Entries.field?_append,Entries.field?_eq_none (hmore name hname),Option.or_none]

theorem Rearranged.cells_eq {rows' : List Value} (h : List.Forall₂ (Rearranged m names) rows rows') :
    cells m names rows' = cells m names rows := by
  induction h with
  | nil => rfl
  | cons hrow _ ih =>
    have hcells := List.map_congr_left (fun name (hname : name ∈ names) => hrow.cell_eq hname)
    unfold cells at ih ⊢
    rw [List.map_cons,List.map_cons,hcells,ih]

section Request
variable {head column values params : Value}

theorem member_composite (hcolumn : column = .list (names.map .text) ∨ column = .tuple (names.map .text))
    (hnames : 2 ≤ names.length) (hvalues : values = .list rows ∨ values = .tuple rows) (hrows : rows ≠ []) :
    member s negated column values = compositeMember s negated (names.map .text) rows := by
  obtain ⟨first,second,others,rfl⟩ : ∃ first second others, names = first :: second :: others := by
    match names, hnames with
    | first :: second :: others, _ => exact ⟨first,second,others,rfl⟩
  obtain ⟨row,more,rfl⟩ := List.exists_cons_of_ne_nil hrows
  rcases hcolumn with rfl | rfl <;> rcases hvalues with rfl | rfl <;> rfl

/-- What the test of the rows comes to over a collection. -/
theorem perform_rows (hs : s.collection = .own) (hp : Collecting params m) (hhead : Operator.ofValue head = .ok (.member negated))
    (hcolumn : column = .list (names.map .text) ∨ column = .tuple (names.map .text)) (hnames : 2 ≤ names.length)
    (hvalues : values = .list rows ∨ values = .tuple rows) (hrows : rows ≠ []) (hmappings : ∀ row ∈ rows, row.hasEntries)
    (hapart : ∀ home, params = .shared home → .shared home ∈ rows → Apart s m names rows) :
    let (tuples,es) := accumulate (filledTuple s.stem) (cells m names rows) (params.bindings m)
    (Request.filter (.list [head,column,values]) params).perform s m =
      (.ok (rowsTest negated names tuples,(rebound params es m).1),(rebound params es m).2) := by
  obtain ⟨c,hopen,hb⟩ := hp.opening_eq hs
  have hown : ∀ home, c = .shared home → params = .shared home := by
    rintro home rfl
    refine (Request.start_of_shared (m := m) (r := .filter (.list [head,column,values]) params) hs ?_).1
    exact congrArg (fun o => o.1.collection) hopen
  let J : Entries → Prop := fun es =>
    ∀ home, c = .shared home → .shared home ∈ rows → Unaltered names (params.bindings m) es
  have hsteady : ∀ es, J es → Steady { s with collection := c } m names rows es := by
    intro es hj
    refine Unaltered.steady (fun home hc hrow => ?_)
    have hparams := hown home hc
    have hes := hj home hc hrow
    subst hparams
    rcases hp with ⟨_,hp⟩ | ⟨_,hp,hh⟩
    · cases hp
    · cases hp
      exact ⟨hh,hes⟩
  have hkeep : ∀ row ∈ rows, ∀ name ∈ names, ∀ es, J es → J (filled s.stem (cell m row name) es).2 :=
    fun row hrow name hname es hj home hc hin => (hj home hc hin).filled (hapart home (hown home hc) hin) hrow hname
  have hends : EndsIn (Build.opening s params m).2 (compile (Build.opening s params m).1 (.list [head,column,values]))
      (.ok (rowsTest negated names (accumulate (filledTuple s.stem) (cells m names rows) (params.bindings m)).1))
      (accumulate (filledTuple s.stem) (cells m names rows) (params.bindings m)).2 := by
    rw [hopen,compile_form hhead]
    dsimp only [operate]
    rw [member_composite hcolumn hnames hvalues hrows]
    exact ends_compositeMember hb hmappings hsteady hkeep rfl (fun _ _ _ _ _ => rfl)
  show Build.over s params (fun s => compile s (.list [head,column,values])) m = _
  refine hp.over_eq (r := .ok _) ?_
  exact hends

/-- A test of several columns keeps rows and columns aligned. Let no name in the collection or in an expression under the
columns be a number behind the stem; and if the collection that takes the bindings is itself one of the rows, let no
column be named by such a number, or as something that an expression under the columns brings. Then every entry stands
for the cell of its row and its column, and rows that have the same under the columns, in any order and with whatever
else, write and bind the same. -/
theorem rows_aligned (hs : s.collection = .own) (hp : Collecting params m)
    (hhead : Operator.ofValue head = .ok (.member negated))
    (hcolumn : column = .list (names.map .text) ∨ column = .tuple (names.map .text)) (hnames : 2 ≤ names.length)
    (hvalues : values = .list rows ∨ values = .tuple rows) (hrows : rows ≠ []) (hmappings : ∀ row ∈ rows, row.hasEntries)
    (hstart : ∀ n, s.placeholderName n ∉ (params.bindings m).names)
    (hexpressions : ∀ row ∈ rows, ∀ name ∈ names, ∀ sql more, cell m row name = .expression sql more →
      ∀ n, s.placeholderName n ∉ Entries.names more)
    (hapart : ∀ home, params = .shared home → .shared home ∈ rows → Apart s m names rows) :
    (∃ sql p m', (Request.filter (.list [head,column,values]) params).perform s m = (.ok (sql,p),m') ∧
      Aligned s m negated names rows sql (p.bindings m')) ∧
    ∀ rows', List.Forall₂ (Rearranged m names) rows rows' →
      (∀ home, params = .shared home → .shared home ∈ rows' → Apart s m names rows') →
      (Request.filter (.list [head,column,.list rows']) params).perform s m =
        (Request.filter (.list [head,column,values]) params).perform s m := by
  have hrun := perform_rows hs hp hhead hcolumn hnames hvalues hrows hmappings hapart
  refine ⟨⟨_,_,_,hrun,?_⟩,?_⟩
  · have hcells : ∀ line ∈ cells m names rows, ∀ v ∈ line, ∀ sql more, v = .expression sql more →
        ∀ n, s.placeholderName n ∉ Entries.names more := by
      intro line hline v hv sql more heq
      obtain ⟨row,hrow,rfl⟩ := List.mem_map.mp hline
      obtain ⟨name,hname,rfl⟩ := List.mem_map.mp hv
      exact hexpressions row hrow name hname sql more heq
    obtain ⟨grid,htuples,hgrid⟩ := grid_of_filled (filled_rows (fun n _ => hstart n) hcells)
    rw [hp.bindings_rebound]
    refine ⟨grid,?_,hgrid⟩
    rw [htuples]
    exact render_rowsTest s.dialect names grid
  · intro rows' hrows' hapart'
    have hne : rows' ≠ [] := by
      rintro rfl
      cases hrows'
      exact hrows rfl
    have hmappings' : ∀ row' ∈ rows', row'.hasEntries := by
      intro row' hrow'
      obtain ⟨i,hi,rfl⟩ := List.mem_iff_getElem.mp hrow'
      obtain ⟨_,_,_,-,he,-⟩ := (List.forall₂_iff_get.mp hrows').2 i (hrows'.length_eq ▸ hi) hi
      have hsome := Value.isSome_entries m rows'[i]
      rw [← hsome]
      exact Option.isSome_iff_exists.mpr ⟨_,he⟩
    have hrun' := perform_rows hs hp hhead hcolumn hnames (.inl rfl) hne hmappings' hapart'
    rw [Rearranged.cells_eq hrows'] at hrun'
    exact hrun'.trans hrun.symm

end Request

/-- The collection that takes the bindings is one of the rows, and another row brings an expression; neither disturbs
the columns. -/
theorem rows_aligned_shared :
    let s := Options.setting {} .sqlite
    let m : Memory := { mappings := #[[(.text "a",.int 5)]] }
    let now := Value.expression "now()" [(.text "zone",.null)]
    let request rows := Request.filter (.list [.text "in",.list [.text "a",.text "t.b"],.list rows]) (.shared (.cell 0))
    let rows := [.mapping [(.text "t.b",now),(.text "c",.int 9)],.shared (.cell 0)]
    (∃ sql p m', (request rows).perform s m = (.ok (sql,p),m') ∧ Aligned s m false ["a","t.b"] rows sql (p.bindings m') ∧
      s.dialect.render sql = "(\"a\", \"t\".\"b\") IN ((NULL, now()), (:qp2, NULL))") ∧
    (request [.mapping [(.text "d",.int 8),(.text "c",.int 9),(.text "t.b",now)],.shared (.cell 0)]).perform s m =
      (request rows).perform s m := by
  intro s m now request rows
  let rows' : List Value := [.mapping [(.text "d",.int 8),(.text "c",.int 9),(.text "t.b",now)],.shared (.cell 0)]
  have hp : Collecting (.shared (.cell 0)) m := .inr ⟨_,rfl,Nat.zero_lt_one⟩
  have hother : ∀ t : String, ¬ "qp".toList <+: t.toList → ∀ n, t ≠ s.placeholderName n :=
    fun t ht n => Setting.ne_placeholderName ht
  have hbrought : ∀ row ∈ rows ++ rows', ∀ name ∈ ["a","t.b"], ∀ sql more, cell m row name = .expression sql more →
      Entries.names more = ["zone"] := by
    intro row hrow name hname sql more hcell
    have hcells : cells m ["a","t.b"] (rows ++ rows') = [[.null,now],[.int 5,.null],[.null,now],[.int 5,.null]] := rfl
    have hin : .expression sql more ∈ (cells m ["a","t.b"] (rows ++ rows')).flatten :=
      List.mem_flatten.mpr ⟨_,List.mem_map_of_mem hrow,hcell ▸ List.mem_map_of_mem hname⟩
    simp only [hcells,now,List.flatten_cons,List.mem_append,List.mem_cons,List.flatten_nil,List.not_mem_nil,or_false,
      reduceCtorEq,false_or,Value.expression.injEq,or_self] at hin
    rw [hin.2]
    rfl
  have hapart : ∀ l ⊆ rows ++ rows', Apart s m ["a","t.b"] l := by
    intro l hl
    refine ⟨?_,?_⟩
    · simp only [List.forall_mem_cons]
      exact ⟨hother "a" (by decide),hother "t.b" (by decide),by simp⟩
    · intro name hname row hrow column hcolumn sql more hcell
      rw [hbrought row (hl hrow) column hcolumn sql more hcell]
      revert name
      decide
  have hnumbered : ∀ row ∈ rows, ∀ name ∈ ["a","t.b"], ∀ sql more, cell m row name = .expression sql more →
      ∀ n, s.placeholderName n ∉ Entries.names more := by
    intro row hrow name hname sql more hcell n hn
    rw [hbrought row (List.mem_append_left _ hrow) name hname sql more hcell,List.mem_singleton] at hn
    exact hother "zone" (by decide) n hn.symm
  have hhead : Operator.ofValue (.text "in") = .ok (.member false) := rfl
  have hstart : ∀ n, s.placeholderName n ∉ (Value.bindings m (.shared (.cell 0))).names :=
    fun n hn => hother "a" (by decide) n (List.mem_singleton.mp hn).symm
  obtain ⟨⟨sql,p,m',hrun,haligned⟩,hsame⟩ := rows_aligned (s := s) rfl hp hhead (.inl rfl) (by decide) (.inl rfl)
    (by simp [rows]) (by simp [rows,Value.hasEntries]) hstart hnumbered
    (fun _ _ _ => hapart rows (List.subset_append_left _ _))
  refine ⟨⟨sql,p,m',hrun,haligned,?_⟩,hsame rows' ?_ (fun _ _ _ => hapart rows' (List.subset_append_right _ _))⟩
  · cases hrun
    decide
  · have hrow : Rearranged m ["a","t.b"] (.mapping [(.text "t.b",now),(.text "c",.int 9)])
        (.mapping [(.text "d",.int 8),(.text "c",.int 9),(.text "t.b",now)]) :=
      ⟨_,_,[(.text "d",.int 8)],rfl,rfl,
        List.reverse_perm [(Value.text "t.b",now),(Value.text "c",Value.int 9),(Value.text "d",Value.int 8)],
        by decide,by decide⟩
    have hshared : Rearranged m ["a","t.b"] (.shared (.cell 0)) (.shared (.cell 0)) :=
      ⟨_,_,[],rfl,rfl,.refl _,by decide,by decide⟩
    exact .cons hrow (.cons hshared .nil)

/-- The row is the collection that takes the bindings and has nothing under the second column, but the first placeholder
is named like that column: when the second cell is read, the row has something there. -/
theorem row_grows_meanwhile :
    let s := Options.setting {} .sqlite
    let m : Memory := { mappings := #[[(.text "a",.int 5)]] }
    (∀ n, s.placeholderName n ∉ (Value.bindings m (.shared (.cell 0))).names) ∧
      cell m (.shared (.cell 0)) "qp1" = .null ∧
      ∃ sql p m', (Request.filter (.list [.text "in",.list [.text "a",.text "qp1"],.list [.shared (.cell 0)]])
          (.shared (.cell 0))).perform s m = (.ok (sql,p),m') ∧
        s.dialect.render sql = "(\"a\", \"qp1\") IN ((:qp1, :qp2))" ∧
        ¬ Aligned s m false ["a","qp1"] [.shared (.cell 0)] sql (p.bindings m') := by
  have hrun : (Request.filter (.list [.text "in",.list [.text "a",.text "qp1"],.list [.shared (.cell 0)]])
      (.shared (.cell 0))).perform (Options.setting {} .sqlite) { mappings := #[[(.text "a",.int 5)]] } =
      (.ok (rowsTest false ["a","qp1"] [tupled [[.placeholder "qp1"],[.placeholder "qp2"]]],.shared (.cell 0)),
        { mappings := #[[(.text "a",.int 5),(.text "qp1",.int 5),(.text "qp2",.int 5)]] }) := rfl
  intro s m
  have ha : ∀ n, "a" ≠ s.placeholderName n := fun n => Setting.ne_placeholderName (by decide)
  refine ⟨fun n hn => ha n (List.mem_singleton.mp hn).symm,rfl,_,_,_,hrun,by decide,?_⟩
  rintro ⟨grid,htext,hgrid⟩
  obtain _ | ⟨hrow,hrest⟩ := hgrid
  cases hrest
  obtain _ | ⟨⟨n,hn,rfl,-⟩,hsecond⟩ := hrow
  obtain _ | ⟨hnull,hrest⟩ := hsecond
  cases hrest
  cases hnull
  have hcounted : n < 3 := hn
  revert htext
  interval_cases n <;> decide

end Condition

end SqlCompose
