import SqlCompose.Proofs.Flaws
import SqlCompose.Proofs.Pruning
import SqlCompose.Proofs.TidyTexts

/-! # Groups that are not empty

Wherever parts are grouped there is a part, so a condition without raw text is written without an empty pair of
parentheses. Only a record of columns that has no columns is written as a group of nothing.
-/
namespace SqlCompose
open Relation Build

variable {s : Setting} {m : Memory} {d e : Draft} {v w : Value} {dialect : Dialect} {parts : List Sql} {α β : Type}

/-! ## Conditions without raw text -/

def Value.Nominal (s : Setting) (m : Memory) (v : Value) : Prop :=
  match v.text? with
  | some name => s.dialect.Harmless name
  | none => s.dialect.quote.isSome ∧ ∀ w ∈ (v.elements? m).getD [], w.text? ≠ some "("

namespace Condition

structure Unworded (s : Setting) (m : Memory) (v : Value) : Prop where
  text : v.text? = none
  raw : ∀ sql, v ≠ .raw sql
  columns : ∀ columns, v = .pairs columns → ∀ c ∈ columns, s.dialect.Harmless c.1
  keys : v.hasEntries → ∀ key ∈ (v.elements? m).getD [], ∀ name, key.readText? = some name → s.dialect.Harmless name

def Test.Rawless (s : Setting) (m : Memory) : Test → Prop
  | .operation op operands => ∀ c ∈ (Test.operation op operands).columns, c.Nominal s m
  | .simple v => Unworded s m v

/-- A condition without raw text at any depth: it reaches no expression, and none of its tests is or names one. -/
structure Rawless (s : Setting) (m : Memory) (v : Value) : Prop where
  expressions : ∀ sql params, ¬ v.Reaches m (.expression sql params)
  tests : ∀ t ∈ tests v, t.Rawless s m

end Condition

def Extent.literals (m : Memory) : Extent := .plain m (fun _ => False)

namespace Extent
variable {home : Home}

theorem covers_literals (hh : ∀ home, s.collection = .shared home → d.memory.Holds home) :
    (literals (d.view s)).Covers s d where
  parts _ hv _ hp sql params hr := hv sql params (.of_part hp hr)
  own home hc hv e he := by
    rw [← Draft.view_mapping_own hc (hh home hc)] at he
    have hp := Value.mem_parts_of_entries (v := .shared home) (m := d.view s) rfl he
    exact ⟨fun sql params hr => hv sql params (.of_part hp.1 hr),fun sql params hr => hv sql params (.of_part hp.2 hr)⟩
  clauses _ hc := hc.elim
  members _ hc := hc.elim
  merged _ hc := hc.elim

/-- A step leaves a mapping as it is shown, or adds a literal under the name of its placeholder. -/
theorem Step.mapping_put (st : (literals m).Step s d e) (home : Home) : (e.view s).mapping home = (d.view s).mapping home ∨
    ∃ v, (e.view s).mapping home = ((d.view s).mapping home).put (.text (d.nextName s)) v := by
  by_cases hc : s.collection = .shared home ∧ d.memory.Holds home
  · rw [Draft.view_mapping_own hc.1 hc.2,Draft.view_mapping_own hc.1 ((st.holds home).mpr hc.2)]
    cases st with
    | bind _ => exact .inr ⟨_,rfl⟩
    | adopt hv => exact absurd .refl (hv _ _)
    | take hc => exact hc.elim
    | hand hc => exact hc.elim
    | drain _ => exact .inl rfl
  · rw [Draft.view_mapping_other hc,Draft.view_mapping_other (fun hn => hc ⟨hn.1,(st.holds home).mp hn.2⟩)]
    left
    cases st with
    | bind _ => rfl
    | adopt hv => exact absurd .refl (hv _ _)
    | take hc => exact hc.elim
    | hand hc => exact hc.elim
    | drain _ => exact Draft.mapping_drained ..

/-- The keys that a step brings are names of placeholders. -/
theorem Step.mem_keys (st : (literals m).Step s d e) (h : w ∈ ((e.view s).mapping home).keys) :
    w ∈ ((d.view s).mapping home).keys ∨ w = .text (d.nextName s) := by
  rcases st.mapping_put home with hm | ⟨v,hm⟩
  · exact .inl (hm ▸ h)
  · rw [hm,Entries.keys_put] at h
    split at h
    · exact .inl h
    · exact (List.mem_append.mp h).imp_right List.mem_singleton.mp

theorem Step.mem_elements (st : (literals m).Step s d e) (h : w ∈ (v.elements? (e.view s)).getD []) :
    w ∈ (v.elements? (d.view s)).getD [] ∨ w = .text (d.nextName s) := by
  cases v with
  | shared home => exact st.mem_keys h
  | stream n =>
    simp only [Value.elements?,Value.text?,Value.sequence?,Value.entries?,Value.fields?,Draft.view_stream] at h ⊢
    exact .inl (st.stream n w h)
  | query n =>
    have hfields : (e.view s).fields n = (d.view s).fields n := by
      rw [Draft.view_fields,Draft.view_fields]
      exact Memory.fields_of_query (st.query n)
    simp only [Value.elements?,Value.text?,Value.sequence?,Value.entries?,Value.fields?,hfields] at h ⊢
    exact .inl h
  | _ => exact .inl h

end Extent

structure Draft.Rawless (s : Setting) (m : Memory) (ts : List Condition.Test) (d : Draft) : Prop where
  covers : (Extent.literals m).Covers s d
  tests : ∀ t ∈ ts, t.Rawless s (d.view s)

def Value.Named (s : Setting) (m : Memory) (ts : List Condition.Test) (v : Value) : Prop :=
  ∀ d : Draft, d.Rawless s m ts → v.Nominal s (d.view s)

namespace Draft.Rawless
variable {ts : List Condition.Test}

theorem step (hs : s.Clean) (st : (Extent.literals m).Step s d e) (h : d.Rawless s m ts) : e.Rawless s m ts := by
  have hname : Unbracketed (d.nextName s) := (Setting.unbracketed_placeholderName hs.stem _).1
  refine ⟨st.covers h.covers,fun t ht => ?_⟩
  have htest := h.tests t ht
  cases t with
  | operation op operands =>
    intro c hc
    have hcolumn := htest c hc
    unfold Value.Nominal at hcolumn ⊢
    split
    · next name hn => simpa only [hn] using hcolumn
    · next hn =>
      simp only [hn] at hcolumn
      refine ⟨hcolumn.1,fun w hw => ?_⟩
      rcases st.mem_elements hw with hw | rfl
      · exact hcolumn.2 w hw
      · intro hopen
        rw [Value.text?,Option.some.injEq] at hopen
        exact hname.1 (by rw [hopen]; decide)
  | simple v =>
    refine ⟨htest.text,htest.raw,htest.columns,fun hv key hk name hr => ?_⟩
    rcases st.mem_elements hk with hk | rfl
    · exact htest.keys hv key hk name hr
    · cases hr
      exact ⟨hname.1,fun _ => hname.2⟩

theorem of_steps (hs : s.Clean) (st : ReflTransGen ((Extent.literals m).Step s) d e) (h : d.Rawless s m ts) :
    e.Rawless s m ts :=
  Extent.keep_steps (P := Draft.Rawless s m ts) (fun _ _ st h => h.step hs st) st h

end Draft.Rawless

/-! ## What is written -/

/-- Where the tests get no raw text, `p` gives what satisfies `Q`, and they get none behind it. -/
def Writes (s : Setting) (m : Memory) (ts : List Condition.Test) (d : Draft) (p : Build α) (Q : α → Prop) : Prop :=
  d.Rawless s m ts → ∀ a e, p.runOn d = (.ok a,e) → e.Rawless s m ts ∧ Q a

namespace Writes
variable {ts : List Condition.Test} {p : Build α} {f : α → Build β} {P : α → Prop} {Q : β → Prop}

theorem pure {a : α} (h : P a) : Writes s m ts d (Pure.pure a) P := by
  rintro hd a e ⟨⟩
  exact ⟨hd,h⟩

theorem fail (x : Fault) : Writes s m ts d (Build.fail x) P := fun _ _ _ h => nomatch h

theorem bind (hp : Writes s m ts d p P) (hf : ∀ a e, P a → Writes s m ts e (f a) Q) : Writes s m ts d (p >>= f) Q := by
  intro hd b e h
  obtain ⟨a,c,ha,hb⟩ := runOn_bind_ok.mp h
  obtain ⟨hc,hP⟩ := hp hd a c ha
  exact hf a c hP hc b e hb

theorem weaken {P' : α → Prop} (hp : Writes s m ts d p P) (h : ∀ a, P a → P' a) : Writes s m ts d p P' :=
  fun hd a e hrun => ⟨(hp hd a e hrun).1,h a (hp hd a e hrun).2⟩

theorem rawless (h : d.Rawless s m ts → Writes s m ts d p P) : Writes s m ts d p P := fun hd => h hd hd

theorem view {f : Memory → Build β} (h : Writes s m ts d (f (d.view s)) Q) :
    Writes s m ts d (Build.view s >>= f) Q := by
  intro hd b e hb
  rw [runOn_bind,runOn_view] at hb
  exact h hd b e hb

/-- As many results as items. -/
theorem mapM {l : List α} {f : α → Build β} (h : ∀ a ∈ l, ∀ e, Writes s m ts e (f a) Q) :
    Writes s m ts d (l.mapM f) (fun bs => bs.length = l.length ∧ ∀ b ∈ bs, Q b) := by
  induction l generalizing d with
  | nil =>
    rw [List.mapM_nil]
    exact pure ⟨rfl,by simp⟩
  | cons a l ih =>
    rw [List.mapM_cons]
    refine bind (h a (.head _) d) (fun b e hb => ?_)
    refine bind (ih (fun a ha => h a (.tail _ ha))) (fun bs e' hbs => ?_)
    exact pure ⟨by simp [hbs.1],by simpa [hb] using hbs.2⟩

/-- Some results if there are some items. -/
theorem mapM_ne_nil {l : List α} {f : α → Build β} (hne : l ≠ []) (h : ∀ a ∈ l, ∀ e, Writes s m ts e (f a) Q) :
    Writes s m ts d (l.mapM f) (fun bs => bs ≠ [] ∧ ∀ b ∈ bs, Q b) := by
  refine .weaken (mapM h) (fun bs hbs => ⟨?_,hbs.2⟩)
  rintro rfl
  exact hne (List.length_eq_zero_iff.mp hbs.1.symm)

/-- A part that goes by steps, and what its result is like. -/
theorem of_goes (hs : s.Clean) (hp : Goes (Extent.literals m) s d p P)
    {R : α → Prop} (hr : d.Rawless s m ts → ∀ a e, p.runOn d = (.ok a,e) → P a → R a) : Writes s m ts d p R := by
  intro hd a e h
  obtain ⟨st,ha,-⟩ := hp hd.covers
  rw [h] at st ha
  exact ⟨hd.of_steps hs st,hr hd a e h (ha a rfl)⟩

end Writes

theorem Operator.unbracketed_qualified (op : Operator) : Unbracketed op.qualified := by
  have htoken : '(' ∉ op.token.toList := by simpa [Text.hasChar] using op.hasChar_token.1
  have hlabel : '(' ∉ op.label.toList := by
    intro hc
    cases op with
    | compare c => cases c <;> exact absurd hc (by decide)
    | _ =>
      simp only [label,String.toList_map,List.mem_map] at hc
      obtain ⟨c,hmem,hc⟩ := hc
      split at hc
      · cases hc
      · exact htoken (hc ▸ hmem)
  unfold Unbracketed qualified
  rw [String.toList_append]
  exact ⟨by simp [hlabel],by simp⟩

theorem Direction.unbracketed_qualified (direction : Direction) : Unbracketed direction.qualified := by
  cases direction <;> unfold Unbracketed <;> decide

namespace Build
variable {ts : List Condition.Test} {column : Value}

theorem writes_rendered (hs : s.Clean) (hv : (Extent.literals m).value v) :
    Writes s m ts d (rendered s v) (fun sql => sql.Neat s.dialect) := by
  refine .of_goes hs (goes_rendered hv) (fun _ sql e h _ => ?_)
  unfold rendered at h
  split at h
  · exact absurd .refl (hv _ _)
  · obtain ⟨name,c,hbind,hlast⟩ := runOn_bind_ok.mp h
    cases hlast
    by_cases hb : s.Binds
    · rw [runOn_bindValue hb] at hbind
      cases hbind
      obtain ⟨hname,hne⟩ := Setting.unbracketed_placeholderName hs.stem d.bindings.length
      exact Sql.neat_placeholder hname hne
    · obtain ⟨x,hx⟩ := (runOn_of_not_binds (d := d) (v := v) hb []).1
      rw [hx] at hbind
      cases hbind

/-- A stream is searched in vain for what it does not have left. -/
theorem soughtInStream_eq {wanted : String} {cell limit : Nat} {found : Bool}
    (h : ∀ w ∈ d.memory.stream cell, w.text? ≠ some wanted)
    (hrun : (soughtInStream wanted cell limit).runOn d = (.ok found,e)) : found = false := by
  induction limit generalizing d with
  | zero =>
    cases hrun
    rfl
  | succ limit ih =>
    unfold soughtInStream at hrun
    obtain ⟨o,c,hnext,hrest⟩ := runOn_bind_ok.mp hrun
    unfold next? at hnext
    rw [runOn_bind,runOn_get] at hnext
    unfold Memory.next? at hnext
    cases hc : d.memory.stream cell with
    | nil =>
      simp only [hc] at hnext
      cases hnext
      cases hrest
      rfl
    | cons w rest =>
      rw [hc] at h
      simp only [hc] at hnext
      cases hnext
      have hw : (w.text? == some wanted) = false := by simpa using h w (.head _)
      simp only [hw,Bool.false_eq_true,if_false] at hrest
      refine ih (fun w' hw' => ?_) hrest
      simp only [Memory.stream_setStream] at hw'
      split at hw'
      · exact h w' (.tail _ hw')
      · rw [hc] at hw'
        exact h w' hw'

/-- What is no text holds the parenthesis as a member only. -/
theorem holds_eq_false {found : Bool} (ht : v.text? = none)
    (h : ∀ w ∈ (v.elements? (d.view s)).getD [], w.text? ≠ some "(") (hrun : (holds s '(' v).runOn d = (.ok found,e)) : found = false := by
  unfold holds at hrun
  simp only [ht] at hrun
  split at hrun
  case h_8 cell =>
    rw [runOn_bind,runOn_get] at hrun
    refine soughtInStream_eq (fun w hw => h w ?_) hrun
    simpa [Value.elements?,Value.text?,Value.sequence?,Value.entries?,Value.fields?,Draft.view_stream] using hw
  case h_9 hstream =>
    obtain ⟨items,c,hitems,hlast⟩ := runOn_bind_ok.mp hrun
    cases hlast
    unfold elements at hitems
    rw [runOn_bind,runOn_view] at hitems
    cases hh : v.held (d.view s) with
    | error x =>
      simp only [hh] at hitems
      cases hitems
    | ok held =>
      simp only [hh] at hitems
      have hheld : held = items := by
        cases v with
        | stream n => exact absurd rfl (hstream n)
        | _ => cases hitems; rfl
      rw [elements_of_held hh,Option.getD_some,hheld] at h
      simpa using h
  all_goals cases hrun
  all_goals rfl

theorem unbracketed_display (ht : v.text?.isSome) (hn : ∀ name, v ≠ .text name) (m : Memory) :
    Unbracketed (m.display v) := by
  cases v with
  | text name => exact absurd rfl (hn name)
  | operator op => exact op.unbracketed_qualified
  | direction direction => exact direction.unbracketed_qualified
  | _ => cases ht

/-- The name of a column is tidy, if there is one. -/
theorem writes_columnName (hs : s.Clean) (hv : (Extent.literals m).value column)
    (hc : column.Named s m ts) :
    Writes s m ts d (columnName s column) (fun sql => sql.Tidy s.dialect) := by
  refine .of_goes hs (goes_columnName hv) (fun hd sql e h _ => ?_)
  have hcolumn := hc d hd
  unfold Value.Nominal at hcolumn
  unfold columnName at h
  split at h
  · cases h
    exact Sql.tidy_column hs hcolumn
  · next hn =>
    cases ht : column.text? with
    | none =>
      simp only [ht] at hcolumn
      obtain ⟨found,c,hfound,hrest⟩ := runOn_bind_ok.mp h
      rw [holds_eq_false ht hcolumn.2 hfound] at hrest
      obtain ⟨point,c',hpoint,hlast⟩ := runOn_bind_ok.mp hrest
      obtain ⟨q,hq⟩ := Option.isSome_iff_exists.mp hcolumn.1
      cases point with
      | true => cases hlast
      | false =>
        simp only [hq,ht] at hlast
        cases hlast
    | some name =>
      simp only [ht] at hcolumn
      rw [runOn_bind,runOn_holds_token ht hn (.inl rfl)] at h
      dsimp only at h
      rw [if_neg Bool.false_ne_true,runOn_bind,runOn_holds_token ht hn (.inr rfl)] at h
      cases hq : s.dialect.quote with
      | none =>
        simp only [hq,ht] at h
        cases h
        exact Sql.tidy_text (unbracketed_display (by rw [ht]; rfl) hn _)
      | some q =>
        simp only [hq,ht] at h
        cases h
        exact Sql.tidy_column hs hcolumn

theorem writes_listedColumn (hs : s.Clean) (hv : (Extent.literals m).value column)
    (hc : column.Named s m ts) :
    Writes s m ts d (listedColumn s column) (fun o => ∀ sql, o = some sql → sql.Tidy s.dialect) := by
  refine .rawless (fun hd => ?_)
  have hcolumn := hc d hd
  unfold listedColumn
  split
  · refine .pure ?_
    rintro sql ⟨⟩
    exact Sql.tidy_column hs hcolumn
  · refine .bind (.of_goes hs (goes_holds hv) (fun _ _ _ _ h => h)) (fun found e _ => ?_)
    split
    · exact .pure (fun _ h => nomatch h)
    · refine .bind (writes_columnName hs hv hc) (fun sql e' hsql => .pure ?_)
      rintro sql ⟨⟩
      exact hsql

theorem eq_map_of_mapM {names : List (Option Sql)} {sqls : List Sql} (h : names.mapM id = some sqls) :
    names = sqls.map some := by
  induction names generalizing sqls with
  | nil =>
    cases h
    rfl
  | cons o names ih =>
    rw [List.mapM_cons] at h
    simp only [bind,Option.bind_eq_some_iff] at h
    obtain ⟨sql,ho,rest,hrest,hsqls⟩ := h
    cases hsqls
    rw [ih hrest,List.map_cons]
    exact congrArg (· :: _) ho

/-- Of several names the list is not empty, whatever they are. -/
theorem writes_nameList {names : List (Option Sql)} (h : ∀ o ∈ names, ∀ sql, o = some sql → sql.Tidy s.dialect)
    (hlength : 2 ≤ names.length) : Writes s m ts d (nameList names) (fun sql => sql.Neat s.dialect) := by
  unfold nameList
  split
  · next sqls hsqls =>
    have hnames := eq_map_of_mapM hsqls
    have htidy : ∀ sql ∈ sqls, sql.Tidy s.dialect := by
      intro sql hm
      exact h (some sql) (by simp [hnames,hm]) sql rfl
    refine .pure ⟨Sql.Tidy.join (by decide) htidy,?_⟩
    rw [hnames,List.length_map] at hlength
    match sqls,hlength with
    | first :: second :: more,_ => simp [Sql.commas,Sql.join,Text.between,Dialect.renderToken]
  · exact .fail _

end Build

namespace Condition
variable {ts : List Test} {column : Value} {columns values operands : List Value} {negated any : Bool} {op : Operator}

theorem writes_entry (hs : s.Clean) (hv : (Extent.literals m).value v) :
    Writes s m ts d (entry s v) (fun sql => sql.Neat s.dialect) := by
  unfold entry
  split
  · exact .pure (Sql.neat_text (by decide) (by decide))
  · exact writes_rendered hs hv

/-- The entries for several values under one column. -/
theorem writes_entries (hs : s.Clean) (hv : ∀ w ∈ values, (Extent.literals m).value w) (hne : values ≠ []) :
    Writes s m ts d (values.mapM (fun v => do entry s (← field s column v)))
      (fun parts => parts ≠ [] ∧ ∀ part ∈ parts, part.Neat s.dialect) :=
  .mapM_ne_nil hne (fun w hw _ =>
    .bind (.of_goes hs (goes_field (hv w hw)) (fun _ _ _ _ h => h)) (fun _ _ hw' => writes_entry hs hw'))

theorem writes_singleMember (hs : s.Clean) (hc : (Extent.literals m).value column) (hn : column.Named s m ts)
    (hv : ∀ w ∈ values, (Extent.literals m).value w) (hne : values ≠ []) :
    Writes s m ts d (singleMember s negated column values) (fun sql => sql.Neat s.dialect) := by
  unfold singleMember
  refine .bind (writes_entries hs hv hne) (fun entries e hentries => ?_)
  refine .bind (writes_columnName hs hc hn) (fun name e' hname => ?_)
  split
  · next one =>
    refine .pure ((hname.append (Sql.tidy_text ?_)).append_neat (hentries.2 one (.head _)))
    cases negated <;> decide
  · refine .pure ((hname.append (Sql.tidy_text ?_)).append_neat (.tupled hentries.1 hentries.2))
    cases negated <;> decide

theorem writes_memberRow (hs : s.Clean) (hv : (Extent.literals m).value v) (hne : columns ≠ []) :
    Writes s m ts d (memberRow s negated columns v) (fun sql => sql.Neat s.dialect) := by
  unfold memberRow
  refine .view ?_
  split
  · exact .fail _
  · refine .bind (.mapM_ne_nil (Q := fun sql => sql.Neat s.dialect) hne (fun c _ e => ?_))
      (fun parts e hparts => .pure (.tupled hparts.1 hparts.2))
    exact .bind (.of_goes hs (goes_field hv) (fun _ _ _ _ h => h)) (fun _ _ hw => writes_entry hs hw)

theorem writes_compositeMember (hs : s.Clean) (hc : ∀ c ∈ columns, (Extent.literals m).value c)
    (hn : ∀ c ∈ columns, c.Named s m ts) (hlength : 2 ≤ columns.length)
    (hv : ∀ w ∈ values, (Extent.literals m).value w) (hne : values ≠ []) :
    Writes s m ts d (compositeMember s negated columns values) (fun sql => sql.Neat s.dialect) := by
  have hcolumns : columns ≠ [] := by
    rintro rfl
    cases hlength
  unfold compositeMember
  refine .bind (.mapM_ne_nil hne (fun w hw e => writes_memberRow hs (hv w hw) hcolumns)) (fun rows e hrows => ?_)
  refine .bind (.mapM (fun c hm e => writes_listedColumn hs (hc c hm) (hn c hm))) (fun names e' hnames => ?_)
  refine .bind (writes_nameList hnames.2 (hnames.1 ▸ hlength)) (fun list e'' hlist => .pure ?_)
  refine (hlist.parenthesized.append_tidy (Sql.tidy_text ?_)).append_tidy (Sql.Neat.tupled hrows.1 hrows.2).1
  cases negated <;> decide

/-- What a test over nothing is written as, if it is one. -/
theorem neat_overNothing : (overNothing negated).Neat dialect ∨ negated ∧ (overNothing negated).isEmpty := by
  cases negated with
  | false => exact .inl (Sql.neat_text (by decide) (by decide))
  | true => exact .inr ⟨rfl,rfl⟩

theorem writes_member (hs : s.Clean) (hc : (Extent.literals m).value column)
    (hn : ∀ c ∈ (columns? column).getD [column], c.Named s m ts) (hv : (Extent.literals m).value v) :
    Writes s m ts d (member s negated column v) (fun sql => sql.Neat s.dialect ∨ negated ∧ sql.isEmpty) := by
  unfold member
  refine .bind (.of_goes hs (goes_valuesOf hv) (fun _ _ _ _ h => h)) (fun values e hvalues => .rawless (fun he => ?_))
  split
  · exact .pure neat_overNothing
  · next hfull =>
    have hne : values ≠ [] := fun hnil => hfull (by rw [hnil]; rfl)
    cases hcolumns : columns? column with
    | none =>
      rw [hcolumns] at hn
      exact .weaken (writes_singleMember hs hc (hn column (.head _)) hvalues hne) (fun _ h => .inl h)
    | some columns =>
      rw [hcolumns,Option.getD_some] at hn
      have hmembers := value_of_columns? he.covers hc hcolumns
      match columns with
      | [] => exact .pure neat_overNothing
      | [single] =>
        exact .weaken (writes_singleMember hs (hmembers _ (.head _)) (hn _ (.head _)) hvalues hne) (fun _ h => .inl h)
      | first :: second :: more =>
        have hlength : 2 ≤ (first :: second :: more).length := by simp
        exact .weaken (writes_compositeMember hs hmembers hn hlength hvalues hne) (fun _ h => .inl h)

theorem writes_like (hs : s.Clean) (hc : (Extent.literals m).value column) (hn : column.Named s m ts)
    (hv : (Extent.literals m).value v) :
    Writes s m ts d (like s any negated column v) (fun sql => sql.Neat s.dialect ∨ sql.isEmpty) := by
  unfold like
  refine .bind (.of_goes hs (goes_valuesOf hv) (fun _ _ _ _ h => h)) (fun values e hvalues => ?_)
  split
  · exact .pure (neat_overNothing.imp_right And.right)
  · next hfull =>
    refine .bind (writes_columnName hs hc hn) (fun name e' hname => ?_)
    have hne : values ≠ [] := fun hnil => hfull (by rw [hnil]; rfl)
    refine .bind (.mapM_ne_nil (Q := fun sql => sql.Neat s.dialect) hne (fun w hw e => ?_))
      (fun parts e hparts => .pure (.inl ?_))
    · refine .bind (writes_rendered hs (hvalues w hw)) (fun sql e hsql => .pure ?_)
      refine (hname.append (Sql.tidy_text ?_)).append_neat hsql
      cases negated <;> decide
    · refine .join ?_ hparts.1 hparts.2
      cases any <;> decide

theorem writes_between {low high : Value} (hs : s.Clean) (hc : (Extent.literals m).value column)
    (hn : column.Named s m ts) (hl : (Extent.literals m).value low) (hh : (Extent.literals m).value high) :
    Writes s m ts d (between s negated column low high) (fun sql => sql.Neat s.dialect) := by
  unfold between
  refine .bind (writes_columnName hs hc hn) (fun name _ hname => ?_)
  refine .bind (writes_rendered hs hl) (fun low _ hlow => ?_)
  refine .bind (writes_rendered hs hh) (fun high _ hhigh => .pure ?_)
  refine (((hname.append (Sql.tidy_text ?_)).append hlow.1).append (Sql.tidy_text ?_)).append_neat hhigh
  · cases negated <;> decide
  · decide

theorem writes_comparison {c : Comparison} (hs : s.Clean) (hc : (Extent.literals m).value column)
    (hn : column.Named s m ts) (hv : (Extent.literals m).value v) :
    Writes s m ts d (comparison s c column v) (fun sql => sql.Neat s.dialect) := by
  unfold comparison
  refine .bind (writes_columnName hs hc hn) (fun name _ hname => ?_)
  refine .bind (writes_rendered hs hv) (fun sql _ hsql => .pure ?_)
  refine (hname.append (Sql.tidy_text ?_)).append_neat hsql
  cases c <;> decide

theorem writes_pair {name : String} (hs : s.Clean) (hn : s.dialect.Harmless name) (hv : (Extent.literals m).value v) :
    Writes s m ts d (pair s name v) (fun sql => sql.Neat s.dialect) := by
  have hcolumn := Sql.tidy_column hs hn
  unfold pair
  split
  · have hnamed : ∀ c ∈ (columns? (.text name)).getD [.text name], c.Named s m ts := by
      intro c hc d _
      rw [List.mem_singleton.mp hc]
      exact hn
    refine .weaken (writes_member hs ((Extent.literals m).text name) hnamed hv) (fun _ h => ?_)
    exact h.resolve_right (fun hn => Bool.false_ne_true hn.1)
  · split
    · exact .pure (hcolumn.append_neat (Sql.neat_text (by decide) (by decide)))
    · refine .bind (writes_rendered hs hv) (fun sql _ hsql => .pure ?_)
      exact (hcolumn.append (Sql.tidy_text (by decide))).append_neat hsql

theorem writes_pairs {named : List (String × Value)} (hs : s.Clean) (hn : ∀ c ∈ named, s.dialect.Harmless c.1)
    (hv : ∀ c ∈ named, (Extent.literals m).value c.2) (hne : named ≠ []) :
    Writes s m ts d (pairs s named) (fun sql => sql.Neat s.dialect) := by
  unfold pairs
  refine .bind (.mapM_ne_nil hne (fun c hc e => writes_pair hs (hn c hc) (hv c hc))) (fun parts e hparts => ?_)
  split
  · next part => exact .pure (hparts.2 part (.head _))
  · exact .pure (.grouped (by decide) hparts.1 hparts.2)

theorem neat_connected {word : String} (hw : '(' ∉ word.toList)
    (h : ∀ part ∈ parts, part.Neat dialect ∨ part.isEmpty) :
    (connected word parts).Neat dialect ∨ (connected word parts).isEmpty := by
  have hsaid : ∀ part ∈ parts.filter (fun part => !part.isEmpty), part.Neat dialect := by
    intro part hm
    obtain ⟨hm,hfull⟩ := List.mem_filter.mp hm
    exact (h part hm).resolve_right (fun hempty => by simp [hempty] at hfull)
  unfold connected
  split
  · exact .inr rfl
  · next part hpart => exact .inl (hsaid part (by rw [hpart]; exact .head _))
  · next hnil _ => exact .inl (.grouped hw hnil hsaid)

theorem writes_operate {inner : Build (List Sql)} (hs : s.Clean) (ho : ∀ o ∈ operands, (Extent.literals m).value o)
    (hn : op.connects = false → ∀ c ∈ (Test.operation op operands).columns, c.Named s m ts)
    (hi : op.connects → Writes s m ts d inner (fun parts => ∀ part ∈ parts, part.Neat s.dialect ∨ part.isEmpty)) :
    Writes s m ts d (operate s op operands inner) (fun sql => sql.Neat s.dialect ∨ sql.isEmpty) := by
  unfold operate
  split
  · exact .bind (hi rfl) (fun parts e hparts => .pure (neat_connected (by decide) hparts))
  · exact .bind (hi rfl) (fun parts e hparts => .pure (neat_connected (by decide) hparts))
  · refine .weaken (writes_between hs (ho _ ?_) (hn rfl _ (.head _)) (ho _ ?_) (ho _ ?_)) (fun _ h => .inl h) <;> simp
  · exact .fail _
  · refine .weaken (writes_member hs (ho _ ?_) (hn rfl) (ho _ ?_)) (fun _ h => h.imp_right And.right) <;> simp
  · refine writes_like hs (ho _ ?_) (hn rfl _ (.head _)) (ho _ ?_) <;> simp
  · refine .weaken (writes_comparison hs (ho _ ?_) (hn rfl _ (.head _)) (ho _ ?_)) (fun _ h => .inl h) <;> simp
  · exact .fail _

theorem putAll_ne_nil {named more : List (String × α)} (h : named ≠ [] ∨ more ≠ []) : Text.putAll named more ≠ [] := by
  induction more generalizing named with
  | nil => exact h.resolve_right (fun hn => hn rfl)
  | cons f more ih =>
    have hput : Text.put f.1 f.2 named ≠ [] := by
      cases named with
      | nil => exact List.cons_ne_nil _ _
      | cons g named =>
        unfold Text.put
        split <;> exact List.cons_ne_nil _ _
    exact ih (.inl hput)

/-- A mapping with entries has columns. -/
theorem named_ne_nil {es : Entries} {named : List (String × Value)} (h : es.named? = some named) (hne : es ≠ []) :
    named ≠ [] := by
  obtain ⟨l,hl,rfl⟩ := Option.map_eq_some_iff.mp h
  obtain ⟨e,es,rfl⟩ := List.exists_cons_of_ne_nil hne
  rw [List.mapM_cons] at hl
  simp only [bind,Option.bind_eq_some_iff] at hl
  obtain ⟨f,-,rest,-,hlast⟩ := hl
  cases hlast
  exact putAll_ne_nil (.inr (List.cons_ne_nil _ _))

theorem typed_ne_raw {sql : String} (hb : Bare v) (hv : v.text? = none) (hr : ∀ sql, v ≠ .raw sql) :
    typed m v ≠ .ok (.raw sql) := by
  have hpairs : ∀ es : Entries, typedPairs es ≠ .ok (.raw sql) := by
    intro es ht
    unfold typedPairs at ht
    split at ht
    · cases ht
    · split at ht <;> cases ht
  intro ht
  cases v with
  | list items => exact hb
  | tuple items => exact hb
  | operation op operands => exact hb
  | raw sql' => exact hr sql' rfl
  | mapping es => exact hpairs es ht
  | shared home => exact hpairs _ ht
  | text t => cases hv
  | operator op => cases hv
  | direction direction => cases hv
  | _ => cases ht

/-- The columns of a condition are those of its record, or its entries. -/
theorem typed_eq_pairs {columns : List (String × Value)} (hv : v.text? = none) (ht : typed m v = .ok (.pairs columns)) :
    v = .pairs columns ∨
      ∃ es : Entries, v.hasEntries ∧ v.elements? m = some es.keys ∧ es ≠ [] ∧ es.named? = some columns := by
  have hpairs : ∀ es : Entries, typedPairs es = .ok (.pairs columns) → es ≠ [] ∧ es.named? = some columns := by
    intro es htyped
    refine ⟨?_,typedPairs_eq_pairs htyped⟩
    rintro rfl
    cases htyped
  cases v with
  | pairs own =>
    cases ht
    exact .inl rfl
  | mapping es => exact .inr ⟨es,rfl,rfl,hpairs es ht⟩
  | shared home => exact .inr ⟨m.mapping home,rfl,rfl,hpairs _ ht⟩
  | list items => exact absurd ht typedForm_ne_pairs
  | tuple items => exact absurd ht typedForm_ne_pairs
  | text t => cases hv
  | operator op => cases hv
  | direction direction => cases hv
  | _ => cases ht

/-- What holds of the columns that a condition lists holds of the columns that are read from it. -/
theorem columns_of_typed {P : String → Prop} {columns : List (String × Value)} (hv : v.text? = none)
    (hc : ∀ columns, v = .pairs columns → ∀ c ∈ columns, P c.1)
    (hk : v.hasEntries → ∀ key ∈ (v.elements? m).getD [], ∀ name, key.readText? = some name → P name)
    (ht : typed m v = .ok (.pairs columns)) : ∀ c ∈ columns, P c.1 := by
  rcases typed_eq_pairs hv ht with hpairs | ⟨es,hentries,hkeys,-,hread⟩
  · exact hc columns hpairs
  · have hnames := hk hentries
    rw [hkeys,Option.getD_some] at hnames
    exact forall_named? hread (fun e he key hkey => hnames e.1 (List.mem_map_of_mem he) key hkey)

theorem columns_ne_nil {columns : List (String × Value)} (hv : v.text? = none) (hp : v ≠ .pairs [])
    (ht : typed m v = .ok (.pairs columns)) : columns ≠ [] := by
  rcases typed_eq_pairs hv ht with hpairs | ⟨es,-,-,hne,hread⟩
  · exact fun hnil => hp (hnil ▸ hpairs)
  · exact named_ne_nil hread hne

theorem writes_simple (hs : s.Clean) (hb : Bare v) (hv : (Extent.literals m).value v) (ht : .simple v ∈ ts)
    (hp : .simple (.pairs []) ∉ ts) :
    Writes s m ts d (simple s v) (fun sql => sql.Neat s.dialect ∨ sql.isEmpty) := by
  refine .rawless (fun hd => .view ?_)
  have hwords : Unworded s (d.view s) v := hd.tests _ ht
  split
  · exact .fail _
  · next sql hraw => exact absurd hraw (typed_ne_raw hb hwords.text hwords.raw)
  · next columns hcolumns =>
    have hn := columns_of_typed hwords.text hwords.columns hwords.keys hcolumns
    have hne := columns_ne_nil hwords.text (fun hnil => hp (hnil ▸ ht)) hcolumns
    exact .weaken (writes_pairs hs hn (value_of_typed hd.covers hv hcolumns) hne) (fun _ h => .inl h)
  · exact .pure (.inr rfl)

theorem writes_operator (hs : s.Clean) (ho : ∀ o ∈ operands, (Extent.literals m).value o)
    (ht : ∀ t ∈ testsOf op operands (testsOfAll operands), t ∈ ts)
    (hi : (∀ t ∈ testsOfAll operands, t ∈ ts) → Writes s m ts d (compileAll s operands)
      (fun parts => ∀ part ∈ parts, part.Neat s.dialect ∨ part.isEmpty)) :
    Writes s m ts d (operate s op operands (compileAll s operands)) (fun sql => sql.Neat s.dialect ∨ sql.isEmpty) := by
  refine writes_operate hs ho (fun hop c hc d hd => ?_) (fun hop => hi ?_)
  · rw [testsOf_test hop] at ht
    exact hd.tests _ (ht _ (.head _)) c hc
  · rwa [testsOf_connective hop] at ht

theorem writes_operands (ht : ∀ t ∈ testsOfAll operands, t ∈ ts)
    (h : ∀ o ∈ operands, ∀ e, Writes s m ts e (compile s o) (fun sql => sql.Neat s.dialect ∨ sql.isEmpty)) :
    Writes s m ts d (compileAll s operands) (fun parts => ∀ part ∈ parts, part.Neat s.dialect ∨ part.isEmpty) := by
  rw [compileAll_eq_mapM]
  refine .weaken (.mapM (Q := fun sql => sql.Neat s.dialect ∨ sql.isEmpty) (fun o ho e => ?_)) (fun _ h => h.2)
  refine .rawless (fun hd => ?_)
  have hsymbol : symbol? o = none :=
    symbol?_eq_none (fun hsimple => (hd.tests _ (ht _ (mem_testsOfAll ho hsimple))).text)
  rw [asOperand_of_none hsymbol]
  exact h o ho e

theorem writes_compile (hs : s.Clean) (hp : .simple (.pairs []) ∉ ts) (v : Value) (d : Draft)
    (hv : (Extent.literals m).value v) (ht : ∀ t ∈ tests v, t ∈ ts) :
    Writes s m ts d (compile s v) (fun sql => sql.Neat s.dialect ∨ sql.isEmpty) := by
  induction v using induct generalizing d with
  | expression sql params => exact absurd .refl (hv sql params)
  | operation v op operands h ih =>
    refine .rawless (fun hd => ?_)
    have ho := hd.covers.operands hv h
    rw [tests_of_operation? h] at ht
    rw [compile_of_operation? h]
    refine writes_operator hs ho ht (fun ht => writes_operands ht (fun o hm e => ?_))
    exact ih o hm e (ho o hm) (fun t hto => ht t (mem_testsOfAll hm hto))
  | empty v h =>
    rw [compile_of_empty h]
    exact .pure (.inr rfl)
  | unread v x h =>
    rw [compile_of_unread h]
    exact .fail x
  | bare v hb hx =>
    rw [tests_of_bare hb] at ht
    rw [compile_of_bare hb hx]
    exact writes_simple hs hb hv (ht _ (.head _)) hp

/-- A condition without raw text has no empty group in its text, unless it is or holds a record of no columns. -/
theorem no_empty_group (hs : s.Clean) (hh : ∀ home, s.collection = .shared home → d.memory.Holds home)
    (hv : Rawless s (d.view s) v) (hp : .simple (.pairs []) ∉ tests v) {sql : Sql}
    (h : (compile s v).runOn d = (.ok sql,e)) : ¬ "()".toList <:+: (s.dialect.render sql).toList := by
  have hd : d.Rawless s (d.view s) (tests v) := ⟨Extent.covers_literals hh,hv.tests⟩
  rcases (writes_compile hs hp v d hv.expressions (fun _ ht => ht) hd sql e h).2 with hneat | hempty
  · rw [Dialect.render_toList]
    exact hneat.1.no_group
  · rw [render_of_isEmpty hempty]
    decide

end Condition

end SqlCompose
