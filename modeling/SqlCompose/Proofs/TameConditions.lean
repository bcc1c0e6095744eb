import SqlCompose.Proofs.Tame

/-! # What tame conditions are written as

On the way of a statement without expressions, whatever is tame is written in quoted paths, placeholders and words that have
no percent sign.
-/
namespace SqlCompose
open Relation Build

variable {A : Char → Prop} {x : Extent} {s : Setting} {start d e : Draft} {v w : Value} {α β : Type}

/-! ## Names -/

namespace Sql
variable {name : String} {parts : List Sql} {sql : Sql} {k : NameKind}

/-- A name is quoted as a path of its own characters. -/
theorem calm_quoted (hA : ¬ A '(') (h : IsName A name) : Calm A (k.quoted name) := by
  rw [NameKind.quoted_eq (fun hc => hA (h _ hc))]
  refine List.forall_mem_singleton.mpr ⟨k.proper_path name,fun segment hsegment c hc => h c ?_⟩
  cases k with
  | column => exact Dialect.mem_of_mem_segments hsegment hc
  | table =>
    rw [← (Path.isCut_ofTable name).joined]
    exact mem_intercalate_of_mem hsegment hc

theorem calm_column (hA : ¬ A '(') (h : IsName A name) : Calm A (column name) := calm_quoted (k := .column) hA h

theorem calm_table (hA : ¬ A '(') (h : IsName A name) : Calm A (table name) := calm_quoted (k := .table) hA h

theorem calm_aliased (hA : ¬ A '(') (h : IsName A name) : Calm A (k.aliased name) := by
  rw [NameKind.aliased_eq (fun hc => hA (h _ hc))]
  refine (calm_quoted hA (fun c hc => h c (Naming.mem_of_mem_name hc))).append ?_
  cases hlabel : (k.naming name).label with
  | none => exact calm_nil
  | some a =>
    have hseparator : '%' ∉ k.separator.toList := by
      cases k <;> decide
    have ha : Calm A (k.quoted a) := calm_quoted hA (fun c hc => h c (Naming.mem_of_mem_label hlabel hc))
    exact List.forall_mem_cons.mpr ⟨hseparator,ha⟩

theorem Calm.parenthesized (h : Calm A sql) : Calm A (Condition.parenthesized sql) :=
  ((calm_text (by decide)).append h).append (calm_text (by decide))

theorem Calm.tupled (h : ∀ part ∈ parts, Calm A part) : Calm A (Condition.tupled parts) := (Calm.commas h).parenthesized

theorem Calm.grouped {word : String} (hw : '%' ∉ word.toList) (h : ∀ part ∈ parts, Calm A part) :
    Calm A (Condition.grouped word parts) := by
  refine ((calm_text (by decide)).append (.join ?_ h)).append (calm_text (by decide))
  simp [hw]

theorem Calm.connected {word : String} (hw : '%' ∉ word.toList) (h : ∀ part ∈ parts, Calm A part) :
    Calm A (Condition.connected word parts) := by
  have hsaid : ∀ part ∈ parts.filter (fun part => !part.isEmpty), Calm A part :=
    fun part hm => h part (List.mem_filter.mp hm).1
  unfold Condition.connected
  split
  · exact calm_nil
  · next part hpart => exact hsaid part (by rw [hpart]; exact .head _)
  · exact .grouped hw hsaid

end Sql

/-! ## Parts of a statement -/

def Calms (x : Extent) (s : Setting) (start d : Draft) (p : Build α) (P : α → Prop) : Prop :=
  d.Counted x s start → ∀ a e, p.runOn d = (.ok a,e) → e.Counted x s start ∧ P a

namespace Calms
variable {p : Build α} {f : α → Build β} {P : α → Prop} {Q : β → Prop}

theorem pure {a : α} (h : P a) : Calms x s start d (Pure.pure a) P := by
  rintro hd a e ⟨⟩
  exact ⟨hd,h⟩

theorem fail (y : Fault) : Calms x s start d (Build.fail y) P := fun _ _ _ h => nomatch h

theorem misuse (y : Misuse) : Calms x s start d (Build.misuse y) P := fun _ _ _ h => nomatch h

theorem bind (hp : Calms x s start d p P) (hf : ∀ a e, P a → Calms x s start e (f a) Q) :
    Calms x s start d (p >>= f) Q := by
  intro hd b e h
  obtain ⟨a,c,ha,hb⟩ := runOn_bind_ok.mp h
  obtain ⟨hc,hP⟩ := hp hd a c ha
  exact hf a c hP hc b e hb

theorem map {g : α → β} (hp : Calms x s start d p P) (h : ∀ a, P a → Q (g a)) :
    Calms x s start d (p >>= fun a => Pure.pure (g a)) Q := bind hp (fun a _ ha => pure (h a ha))

theorem counted (h : d.Counted x s start → Calms x s start d p P) : Calms x s start d p P := fun hd => h hd hd

theorem get {f : Draft → Build β} (h : Calms x s start d (f d) Q) : Calms x s start d (MonadState.get >>= f) Q := by
  intro hd b e hb
  rw [runOn_bind,runOn_get] at hb
  exact h hd b e hb

theorem view {f : Memory → Build β} (h : Calms x s start d (f (d.view s)) Q) :
    Calms x s start d (Build.view s >>= f) Q := by
  intro hd b e hb
  rw [runOn_bind,runOn_view] at hb
  exact h hd b e hb

theorem mapM {l : List α} {f : α → Build β} (h : ∀ a ∈ l, ∀ e, Calms x s start e (f a) Q) :
    Calms x s start d (l.mapM f) (fun bs => ∀ b ∈ bs, Q b) := by
  induction l generalizing d with
  | nil =>
    rw [List.mapM_nil]
    exact pure (by simp)
  | cons a l ih =>
    rw [List.mapM_cons]
    refine bind (h a (.head _) d) (fun b e hb => ?_)
    exact map (ih (fun a ha => h a (.tail _ ha))) (fun bs hbs => List.forall_mem_cons.mpr ⟨hb,hbs⟩)

/-- A part that goes by steps, and what its result is like. -/
theorem of_goes (hs : s.Calm A x) (hp : Goes x s d p P) {R : α → Prop}
    (hr : d.Counted x s start → ∀ a e, p.runOn d = (.ok a,e) → P a → R a) : Calms x s start d p R := by
  intro hd a e h
  obtain ⟨st,ha,-⟩ := hp hd.covers
  rw [h] at st ha
  exact ⟨hd.steps hs.expressions st,hr hd a e h (ha a rfl)⟩

theorem goes (hs : s.Calm A x) (hp : Goes x s d p P) : Calms x s start d p P := of_goes hs hp (fun _ _ _ _ h => h)

end Calms

namespace Build
variable {column : Value} {f : Value → Build α} {Q : α → Prop} {P : Value → Prop}

theorem calms_rendered (hs : s.Calm A x) (hv : x.value v) : Calms x s start d (rendered s v) (Sql.Calm A) := by
  refine .of_goes hs (goes_rendered hv) (fun _ sql e h _ => ?_)
  unfold rendered at h
  split at h
  · exact absurd hv (hs.expressions _ _)
  · obtain ⟨name,c,hbind,hlast⟩ := runOn_bind_ok.mp h
    cases hlast
    by_cases hb : s.Binds
    · rw [runOn_bindValue hb] at hbind
      cases hbind
      exact List.forall_mem_singleton.mpr ⟨hs.not_mem (hs.names _),hs.closed _⟩
    · obtain ⟨y,hy⟩ := (runOn_of_not_binds (d := d) (v := v) hb []).1
      rw [hy] at hbind
      cases hbind

theorem calms_columnName (hs : s.Calm A x) (hv : x.value column) (hn : column.Nameable A (start.view s)) :
    Calms x s start d (columnName s column) (Sql.Calm A) := by
  refine .of_goes hs (goes_columnName hv) (fun hd sql e h _ => ?_)
  have hcolumn := hn.counted hd hs
  obtain ⟨q,hq⟩ := Option.isSome_iff_exists.mp hs.quotes
  unfold Value.Nameable at hcolumn
  unfold columnName at h
  split at h
  · cases h
    exact Sql.calm_column hs.paren hcolumn
  · next hno =>
    cases ht : column.text? with
    | none =>
      simp only [ht] at hcolumn
      obtain ⟨found,c,hfound,hrest⟩ := runOn_bind_ok.mp h
      rw [holds_eq_false ht hcolumn hfound] at hrest
      obtain ⟨point,c',hpoint,hlast⟩ := runOn_bind_ok.mp hrest
      cases point with
      | true => cases hlast
      | false =>
        simp only [hq,ht] at hlast
        cases hlast
    | some name =>
      simp only [ht] at hcolumn
      rw [runOn_bind,runOn_holds_token ht hno (.inl rfl)] at h
      dsimp only at h
      rw [if_neg Bool.false_ne_true,runOn_bind,runOn_holds_token ht hno (.inr rfl)] at h
      simp only [hq,ht] at h
      cases h
      exact Sql.calm_column hs.paren hcolumn

theorem calms_listedColumn (hs : s.Calm A x) (hv : x.value column) (hn : column.Nameable A (start.view s)) :
    Calms x s start d (listedColumn s column) (fun o => ∀ sql, o = some sql → sql.Calm A) := by
  unfold listedColumn
  split
  · refine .pure ?_
    rintro sql ⟨⟩
    exact Sql.calm_column hs.paren hn
  · refine .bind (.goes hs (goes_holds hv)) (fun found e _ => ?_)
    split
    · exact .pure nofun
    · refine .map (calms_columnName hs hv hn) (fun sql hsql => ?_)
      rintro sql ⟨⟩
      exact hsql

theorem calms_nameList {names : List (Option Sql)} (h : ∀ o ∈ names, ∀ sql, o = some sql → sql.Calm A) :
    Calms x s start d (nameList names) (Sql.Calm A) := by
  unfold nameList
  split
  · next sqls hsqls => exact .pure (.commas (fun sql hm => h _ (some_mem_of_mapM hsqls hm) sql rfl))
  · exact .misuse _

theorem calms_tableName (hs : s.Calm A x) (hv : x.value v) (hn : v.Nameable A (start.view s)) :
    Calms x s start d (tableName s v) (Sql.Calm A) := by
  refine .of_goes hs (goes_tableName hv) (fun hd sql e h _ => ?_)
  have htable := hn.counted hd hs
  unfold Value.Nameable at htable
  unfold tableName at h
  cases ht : v.text? with
  | some name =>
    simp only [ht] at h htable
    cases h
    exact Sql.calm_table hs.paren htable
  | none =>
    simp only [ht] at h htable
    obtain ⟨found,c,hfound,hrest⟩ := runOn_bind_ok.mp h
    rw [holds_eq_false ht htable hfound] at hrest
    cases hrest

/-! ### What is gone through -/

structure Known (s : Setting) (start : Draft) (v : Value) (P : Value → Prop) : Prop where
  elements : ∀ w ∈ (v.elements? (start.view s)).getD [], P w
  placeholder : ∀ n, P (.text (s.placeholderName n))
  int : ∀ n, P (.int n)

theorem Known.counted (h : Known s start v P) (hd : d.Counted x s start) (hw : w ∈ (v.elements? (d.view s)).getD []) :
    P w := by
  rcases hd.mem_elements hw with hw | ⟨n,rfl⟩
  · exact h.elements w hw
  · exact h.placeholder n

theorem mem_of_runOn_next? {cell : Nat} {o : Option Value} (h : (next? cell).runOn d = (.ok o,e)) (hw : o = some w) :
    w ∈ d.memory.stream cell := by
  unfold next? at h
  rw [runOn_bind,runOn_get] at h
  unfold Memory.next? at h
  cases hc : d.memory.stream cell with
  | nil =>
    simp only [hc] at h
    cases h
    cases hw
  | cons v rest =>
    simp only [hc] at h
    cases h
    cases hw
    exact .head _

theorem calms_eachOfStream {cell limit : Nat} (hs : s.Calm A x) (hv : x.value (.stream cell))
    (hk : Known s start (.stream cell) P) (hf : ∀ w, x.value w → P w → ∀ e, Calms x s start e (f w) Q) :
    Calms x s start d (eachOfStream f cell limit) (fun as => ∀ a ∈ as, Q a) := by
  induction limit generalizing d with
  | zero => exact .pure (by simp)
  | succ limit ih =>
    unfold eachOfStream
    have hnext : Calms x s start d (next? cell) (fun o => ∀ w, o = some w → x.value w ∧ P w) := by
      refine .of_goes hs (goes_next? hv) (fun hd o e hrun ho w hw => ⟨ho w hw,hk.counted hd ?_⟩)
      have hmem := mem_of_runOn_next? hrun hw
      simpa [Value.elements?,Value.text?,Value.sequence?,Value.entries?,Value.fields?,Draft.view_stream] using hmem
    refine .bind hnext (fun o e ho => ?_)
    cases o with
    | none => exact .pure (by simp)
    | some w =>
      obtain ⟨hw,hp⟩ := ho w rfl
      refine .bind (hf w hw hp e) (fun a e' ha => ?_)
      exact .map ih (fun as has => List.forall_mem_cons.mpr ⟨ha,has⟩)

theorem calms_eachOfRange {first step : Int} {left : Nat} (hf : ∀ n e, Calms x s start e (f (.int n)) Q) :
    Calms x s start d (eachOfRange f first step left) (fun as => ∀ a ∈ as, Q a) := by
  induction left generalizing d first with
  | zero => exact .pure (by simp)
  | succ left ih =>
    unfold eachOfRange
    refine .bind (hf first d) (fun a e ha => ?_)
    exact .map ih (fun as has => List.forall_mem_cons.mpr ⟨ha,has⟩)

/-- The statement's own bindings stand under placeholders. -/
theorem calms_eachBinding {g : Value × Value → Build α} {size left : Nat} {home : Home}
    (hc : s.collection = .shared home) (hv : x.value (.shared home)) (hk : Known s start (.shared home) P)
    (hf : ∀ b, x.value b.1 → x.value b.2 → P b.1 → ∀ e, Calms x s start e (g b) Q) :
    Calms x s start d (eachBinding g size left) (fun as => ∀ a ∈ as, Q a) := by
  induction left generalizing d with
  | zero => exact .pure (by simp)
  | succ left ih =>
    unfold eachBinding
    refine .get (.counted (fun hd => ?_))
    cases hb : d.bindings[size - (left + 1)]? with
    | none => exact .pure (by simp)
    | some b =>
      have hmem := List.mem_of_getElem? hb
      obtain ⟨hkey,hvalue⟩ := hd.covers.own home hc hv b hmem
      obtain ⟨n,hn⟩ := hd.mem_keys (List.mem_map_of_mem hmem)
      have hP : P b.1 := hn ▸ hk.placeholder n
      refine .bind (hf b hkey hvalue hP d) (fun a e ha => .get ?_)
      split
      · exact .misuse _
      · exact .map ih (fun as has => List.forall_mem_cons.mpr ⟨ha,has⟩)

theorem calms_eachEntry {g : Value × Value → Build α} (hv : x.value v) (hk : Known s start v P)
    (hf : ∀ b, x.value b.1 → x.value b.2 → P b.1 → ∀ e, Calms x s start e (g b) Q) :
    Calms x s start d (eachEntry s v g) (fun as => ∀ a ∈ as, Q a) := by
  unfold eachEntry
  refine .counted (fun hd => .view ?_)
  cases he : v.entries? (d.view s) with
  | none => exact .misuse _
  | some es =>
    by_cases hr : s.receives v
    · obtain ⟨home,rfl,hc⟩ := receives_iff.mp hr
      simp only [hr,if_true]
      exact calms_eachBinding hc hv hk hf
    · simp only [hr]
      have hes := hd.covers.entries hv he
      have hkeys : v.elements? (d.view s) = some es.keys := by
        cases v <;> simp only [Value.entries?,reduceCtorEq] at he <;>
          simp [Value.elements?,Value.text?,Value.sequence?,Value.entries?,he]
      refine .mapM (fun b hb e => hf b (hes b hb).1 (hes b hb).2 (hk.counted hd ?_) e)
      rw [hkeys]
      exact List.mem_map_of_mem hb

theorem calms_each (hs : s.Calm A x) (hv : x.value v) (hk : Known s start v P)
    (hf : ∀ w, x.value w → P w → ∀ e, Calms x s start e (f w) Q) :
    Calms x s start d (each s v f) (fun as => ∀ a ∈ as, Q a) := by
  unfold each
  split
  · exact .get (calms_eachOfStream hs hv hk hf)
  · exact calms_eachOfRange (fun n e => hf _ (x.int n) (hk.int n) e)
  · refine .counted (fun hd => .view ?_)
    cases he : v.elements? (d.view s) with
    | none => exact .misuse _
    | some items =>
      by_cases hr : s.receives v
      · obtain ⟨home,rfl,hc⟩ := receives_iff.mp hr
        simp only [hr,if_true]
        exact calms_eachBinding hc hv hk (fun b hb _ hP e => hf b.1 hb hP e)
      · simp only [hr]
        refine .mapM (fun w hw e => hf w (hd.covers.elements hv he w hw) (hk.counted hd ?_) e)
        rwa [he]

end Build

/-! ## Conditions -/

namespace Condition
variable {column low high : Value} {columns values operands : List Value} {negated any : Bool} {op : Operator}
  {named : List (String × Value)}

theorem calms_entry (hs : s.Calm A x) (hv : x.value v) : Calms x s start d (entry s v) (Sql.Calm A) := by
  unfold entry
  split
  · exact .pure (Sql.calm_text (by decide))
  · exact calms_rendered hs hv

/-- The entry of a value under a column. -/
theorem calms_fieldEntry (hs : s.Calm A x) (hv : x.value v) :
    Calms x s start d (do entry s (← field s column v)) (Sql.Calm A) :=
  .bind (.goes hs (goes_field hv)) (fun _ _ hw => calms_entry hs hw)

theorem calms_singleMember (hs : s.Calm A x) (hc : x.value column) (hn : column.Nameable A (start.view s))
    (hv : ∀ w ∈ values, x.value w) : Calms x s start d (singleMember s negated column values) (Sql.Calm A) := by
  unfold singleMember
  refine .bind (.mapM (fun w hw _ => calms_fieldEntry hs (hv w hw))) (fun entries e hentries => ?_)
  refine .bind (calms_columnName hs hc hn) (fun name e' hname => ?_)
  split
  · next one =>
    refine .pure ((hname.append (Sql.calm_text ?_)).append (hentries one (.head _)))
    cases negated <;> decide
  · refine .pure ((hname.append (Sql.calm_text ?_)).append (.tupled hentries))
    cases negated <;> decide

theorem calms_memberRow (hs : s.Calm A x) (hv : x.value v) :
    Calms x s start d (memberRow s negated columns v) (Sql.Calm A) := by
  unfold memberRow
  refine .view ?_
  split
  · exact .fail _
  · exact .map (.mapM (fun c _ e => calms_fieldEntry hs hv)) (fun parts hparts => .tupled hparts)

theorem calms_compositeMember (hs : s.Calm A x) (hc : ∀ c ∈ columns, x.value c)
    (hn : ∀ c ∈ columns, c.Nameable A (start.view s)) (hv : ∀ w ∈ values, x.value w) :
    Calms x s start d (compositeMember s negated columns values) (Sql.Calm A) := by
  unfold compositeMember
  refine .bind (.mapM (fun w hw e => calms_memberRow hs (hv w hw))) (fun rows e hrows => ?_)
  refine .bind (.mapM (fun c hm e => calms_listedColumn hs (hc c hm) (hn c hm))) (fun names e' hnames => ?_)
  refine .map (calms_nameList hnames) (fun list hlist => ?_)
  refine (hlist.parenthesized.append (Sql.calm_text ?_)).append (.tupled hrows)
  cases negated <;> decide

theorem calm_overNothing : (overNothing negated).Calm A := by
  cases negated with
  | false => exact Sql.calm_text (by decide)
  | true => exact Sql.calm_nil

theorem calms_member (hs : s.Calm A x) (hc : x.value column)
    (hn : ∀ c ∈ (columns? column).getD [column], c.Nameable A (start.view s)) (hv : x.value v) :
    Calms x s start d (member s negated column v) (Sql.Calm A) := by
  unfold member
  refine .bind (.goes hs (goes_valuesOf hv)) (fun values e hvalues => .counted (fun he => ?_))
  split
  · exact .pure calm_overNothing
  · cases hcolumns : columns? column with
    | none =>
      rw [hcolumns] at hn
      exact calms_singleMember hs hc (hn column (.head _)) hvalues
    | some columns =>
      rw [hcolumns,Option.getD_some] at hn
      have hmembers := value_of_columns? he.covers hc hcolumns
      match columns with
      | [] => exact .pure calm_overNothing
      | [single] => exact calms_singleMember hs (hmembers _ (.head _)) (hn _ (.head _)) hvalues
      | first :: second :: more => exact calms_compositeMember hs hmembers hn hvalues

theorem calms_like (hs : s.Calm A x) (hc : x.value column) (hn : column.Nameable A (start.view s)) (hv : x.value v) :
    Calms x s start d (like s any negated column v) (Sql.Calm A) := by
  unfold like
  refine .bind (.goes hs (goes_valuesOf hv)) (fun values e hvalues => ?_)
  split
  · exact .pure calm_overNothing
  · refine .bind (calms_columnName hs hc hn) (fun name e' hname => ?_)
    refine .map (.mapM (Q := Sql.Calm A) (fun w hw e => ?_)) (fun parts hparts => .join ?_ hparts)
    · refine .map (calms_rendered hs (hvalues w hw)) (fun sql hsql => (hname.append (Sql.calm_text ?_)).append hsql)
      cases negated <;> decide
    · cases any <;> decide

theorem calms_between (hs : s.Calm A x) (hc : x.value column) (hn : column.Nameable A (start.view s)) (hl : x.value low)
    (hh : x.value high) : Calms x s start d (between s negated column low high) (Sql.Calm A) := by
  unfold between
  refine .bind (calms_columnName hs hc hn) (fun name _ hname => ?_)
  refine .bind (calms_rendered hs hl) (fun low _ hlow => ?_)
  refine .map (calms_rendered hs hh) (fun high hhigh => ?_)
  refine (((hname.append (Sql.calm_text ?_)).append hlow).append (Sql.calm_text (by decide))).append hhigh
  cases negated <;> decide

theorem calms_comparison {c : Comparison} (hs : s.Calm A x) (hc : x.value column) (hn : column.Nameable A (start.view s))
    (hv : x.value v) : Calms x s start d (comparison s c column v) (Sql.Calm A) := by
  unfold comparison
  refine .bind (calms_columnName hs hc hn) (fun name _ hname => ?_)
  refine .map (calms_rendered hs hv) (fun sql hsql => (hname.append (Sql.calm_text ?_)).append hsql)
  cases c <;> decide

theorem calms_pair {name : String} (hs : s.Calm A x) (hn : IsName A name) (hv : x.value v) :
    Calms x s start d (pair s name v) (Sql.Calm A) := by
  have hcolumn : (Sql.column name).Calm A := Sql.calm_column hs.paren hn
  unfold pair
  split
  · exact calms_member hs (x.text name) (List.forall_mem_singleton.mpr hn) hv
  · split
    · exact .pure (hcolumn.append (Sql.calm_text (by decide)))
    · exact .map (calms_rendered hs hv) (fun sql hsql => (hcolumn.append (Sql.calm_text (by decide))).append hsql)

theorem calms_pairs (hs : s.Calm A x) (hn : ∀ c ∈ named, IsName A c.1) (hv : ∀ c ∈ named, x.value c.2) :
    Calms x s start d (pairs s named) (Sql.Calm A) := by
  unfold pairs
  refine .bind (.mapM (fun c hc e => calms_pair hs (hn c hc) (hv c hc))) (fun parts e hparts => ?_)
  split
  · next part => exact .pure (hparts part (.head _))
  · exact .pure (.grouped (by decide) hparts)

theorem calms_operate {inner : Build (List Sql)} (hs : s.Calm A x) (ho : ∀ o ∈ operands, x.value o)
    (hn : op.connects = false → ∀ c ∈ (Test.operation op operands).columns, c.Nameable A (start.view s))
    (hi : op.connects → Calms x s start d inner (fun parts => ∀ part ∈ parts, part.Calm A)) :
    Calms x s start d (operate s op operands inner) (Sql.Calm A) := by
  unfold operate
  split
  · exact .map (hi rfl) (fun parts hparts => .connected (by decide) hparts)
  · exact .map (hi rfl) (fun parts hparts => .connected (by decide) hparts)
  · refine calms_between hs (ho _ ?_) (hn rfl _ (.head _)) (ho _ ?_) (ho _ ?_) <;> simp
  · exact .fail _
  · refine calms_member hs (ho _ ?_) (hn rfl) (ho _ ?_) <;> simp
  · refine calms_like hs (ho _ ?_) (hn rfl _ (.head _)) (ho _ ?_) <;> simp
  · refine calms_comparison hs (ho _ ?_) (hn rfl _ (.head _)) (ho _ ?_) <;> simp
  · exact .fail _

theorem calms_simple (hs : s.Calm A x) (hb : Bare v) (hv : x.value v) (ht : Wordless A (start.view s) v) :
    Calms x s start d (simple s v) (Sql.Calm A) := by
  refine .counted (fun hd => .view ?_)
  have hwords := ht.counted hd hs
  split
  · exact .fail _
  · next sql hraw => exact absurd hraw (typed_ne_raw hb hwords.text hwords.raw)
  · next columns hcolumns =>
    exact calms_pairs hs (columns_of_typed hwords.text hwords.columns hwords.keys hcolumns)
      (value_of_typed hd.covers hv hcolumns)
  · exact .pure Sql.calm_nil

theorem calms_operator (hs : s.Calm A x) (ho : ∀ o ∈ operands, x.value o)
    (ht : ∀ t ∈ testsOf op operands (testsOfAll operands), t.Tame A (start.view s))
    (hi : (∀ t ∈ testsOfAll operands, t.Tame A (start.view s)) →
      Calms x s start d (compileAll s operands) (fun parts => ∀ part ∈ parts, part.Calm A)) :
    Calms x s start d (operate s op operands (compileAll s operands)) (Sql.Calm A) := by
  refine calms_operate hs ho (fun hop => ?_) (fun hop => hi ?_)
  · rw [testsOf_test hop] at ht
    exact ht _ (.head _)
  · rwa [testsOf_connective hop] at ht

theorem calms_operands (ht : ∀ t ∈ testsOfAll operands, t.Tame A (start.view s))
    (h : ∀ o ∈ operands, ∀ e, Calms x s start e (compile s o) (Sql.Calm A)) :
    Calms x s start d (compileAll s operands) (fun parts => ∀ part ∈ parts, part.Calm A) := by
  rw [compileAll_eq_mapM]
  refine .mapM (fun o ho e => ?_)
  have hsymbol : symbol? o = none := symbol?_eq_none (fun hsimple => (ht _ (mem_testsOfAll ho hsimple)).text)
  rw [asOperand_of_none hsymbol]
  exact h o ho e

theorem calms_compile (hs : s.Calm A x) (v : Value) (d : Draft) (hv : x.value v)
    (ht : ∀ t ∈ tests v, t.Tame A (start.view s)) : Calms x s start d (compile s v) (Sql.Calm A) := by
  induction v using induct generalizing d with
  | expression sql params => exact absurd hv (hs.expressions sql params)
  | operation v op operands h ih =>
    refine .counted (fun hd => ?_)
    have ho := hd.covers.operands hv h
    rw [tests_of_operation? h] at ht
    rw [compile_of_operation? h]
    refine calms_operator hs ho ht (fun ht => calms_operands ht (fun o hm e => ?_))
    exact ih o hm e (ho o hm) (fun t hto => ht t (mem_testsOfAll hm hto))
  | empty v h =>
    rw [compile_of_empty h]
    exact .pure Sql.calm_nil
  | unread v y h =>
    rw [compile_of_unread h]
    exact .fail y
  | bare v hb he =>
    rw [tests_of_bare hb] at ht
    rw [compile_of_bare hb he]
    exact calms_simple hs hb hv (ht _ (.head _))

end Condition

end SqlCompose
