import SqlCompose.Proofs.Expressions
import SqlCompose.Proofs.Grouping
import SqlCompose.Proofs.Structure

/-! # Conditions that are traced

A condition whose columns are named by texts without a parenthesis, which comes upon no expression and in which every
mapping has a column and no list stands empty for a condition, is traced whenever it is written. So it has a tree exactly
where it has a text.
-/
namespace SqlCompose
open Relation Build

variable {s : Setting} {m : Memory} {d e : Draft} {v w : Value} {α β γ δ : Type}

def Value.Titled (v : Value) : Prop := ∃ name, v = .text name ∧ Sql.isExpression name = false

namespace Condition

def Columnar (m : Memory) : Value → Prop
  | .pairs columns => columns ≠ [] ∧ ∀ c ∈ columns, Sql.isExpression c.1 = false
  | v => ∃ es, v.entries? m = some es ∧ es ≠ [] ∧
    ∀ key ∈ Entries.keys es, ∃ name, key.readText? = some name ∧ Sql.isExpression name = false

def Test.Traceable (m : Memory) : Test → Prop
  | .operation op operands => ∀ c ∈ (Test.operation op operands).columns, c.Titled
  | .simple v => Columnar m v

/-- A condition of connectives, tests and mappings without raw SQL, expressions and empty lists. -/
structure Traceable (m : Memory) (v : Value) : Prop where
  expressions : ∀ sql params, ¬ v.Reaches m (.expression sql params)
  tests : ∀ t ∈ tests v, t.Traceable m
  filled : ∀ n ∈ nodes v, ¬ Empty n

theorem traceable_of_bare (hm : m.bare) (hv : v.bare) (ht : ∀ t ∈ tests v, t.Traceable m)
    (hf : ∀ n ∈ nodes v, ¬ Empty n) : Traceable m v :=
  ⟨fun _ _ => Value.not_reaches_expression hm hv,ht,hf⟩

theorem Columnar.text? (h : Columnar m v) : v.text? = none := by
  cases v with
  | text _ | operator _ | direction _ =>
    obtain ⟨es,he,-⟩ := h
    cases he
  | _ => rfl

theorem typed_of_columnar (h : Columnar m v) : ∃ columns, typed m v = .ok (.pairs columns) ∧ columns ≠ [] ∧
    ∀ c ∈ columns, Sql.isExpression c.1 = false := by
  have hpairs : ∀ es : Entries, es ≠ [] →
      (∀ key ∈ es.keys, ∃ name, key.readText? = some name ∧ Sql.isExpression name = false) →
      ∃ columns, typedPairs es = .ok (.pairs columns) ∧ columns ≠ [] ∧ ∀ c ∈ columns, Sql.isExpression c.1 = false := by
    intro es hne hkeys
    have hnamed : es.named?.isSome := by
      rw [isSome_named?,List.all_eq_true]
      intro key hm
      obtain ⟨name,hname,-⟩ := hkeys key hm
      rw [hname]
      rfl
    obtain ⟨columns,hcolumns⟩ := Option.isSome_iff_exists.mp hnamed
    refine ⟨columns,?_,named_ne_nil hcolumns hne,?_⟩
    · rw [typedPairs,List.isEmpty_eq_false_iff.mpr hne,hcolumns]
      rfl
    · refine forall_named? hcolumns (fun f hf key hkey => ?_)
      obtain ⟨name,hname,hplain⟩ := hkeys f.1 (List.mem_map_of_mem hf)
      rw [hkey] at hname
      cases hname
      exact hplain
  cases v with
  | pairs columns => exact ⟨columns,rfl,h⟩
  | mapping own =>
    obtain ⟨es,he,hne,hkeys⟩ := h
    cases he
    exact hpairs own hne hkeys
  | shared home =>
    obtain ⟨es,he,hne,hkeys⟩ := h
    cases he
    exact hpairs _ hne hkeys
  | _ =>
    obtain ⟨es,he,-⟩ := h
    cases he

theorem Columnar.step (hstem : Unbracketed s.stem) (st : (Extent.literals m).Step s d e) (h : Columnar (d.view s) v) :
    Columnar (e.view s) v := by
  cases v with
  | shared home =>
    obtain ⟨es,he,hne,hkeys⟩ := h
    cases he
    refine ⟨_,rfl,?_,fun key hk => ?_⟩
    · rcases st.mapping_put home with hm | ⟨w,hm⟩
      · rwa [hm]
      · rw [hm]
        cases hd : (d.view s).mapping home with
        | nil => exact absurd hd hne
        | cons f es =>
          rw [Entries.put_cons]
          split <;> exact List.cons_ne_nil _ _
    · rcases st.mem_keys hk with hk | rfl
      · exact hkeys key hk
      · have hname := (Setting.unbracketed_placeholderName hstem d.bindings.length).1.1
        exact ⟨_,rfl,by simpa [Sql.isExpression,Text.hasChar,Draft.nextName] using hname⟩
  | _ => exact h

end Condition

structure Draft.Traceable (s : Setting) (m : Memory) (ts : List Condition.Test) (d : Draft) : Prop where
  covers : (Extent.literals m).Covers s d
  tests : ∀ t ∈ ts, t.Traceable (d.view s)

theorem Draft.Traceable.step {ts : List Condition.Test} (hstem : Unbracketed s.stem)
    (st : (Extent.literals m).Step s d e) (h : d.Traceable s m ts) : e.Traceable s m ts := by
  refine ⟨st.covers h.covers,fun t ht => ?_⟩
  have htest := h.tests t ht
  cases t with
  | operation op operands => exact htest
  | simple v => exact htest.step hstem st

/-! ## Steps that are traced -/

def Traces (s : Setting) (m : Memory) (ts : List Condition.Test) (d : Draft) (p : Build β) (r : Tracing α)
    (R : β → α → Prop) : Prop :=
  d.Traceable s m ts → ∀ b e, p.runOn d = (.ok b,e) → e.Traceable s m ts ∧ ∃ a, r d = some (a,e) ∧ R b a

namespace Traces
variable {ts : List Condition.Test} {p : Build β} {r : Tracing α} {f : β → Build δ} {g : α → Tracing γ}
  {R : β → α → Prop} {Q : δ → γ → Prop}

theorem pure {b : β} {a : α} (h : R b a) : Traces s m ts d (Pure.pure b) (Pure.pure a) R := by
  rintro hd _ _ ⟨⟩
  exact ⟨hd,a,rfl,h⟩

theorem fail (x : Fault) : Traces s m ts d (Build.fail x) r R := fun _ _ _ h => nomatch h

theorem traceable (h : d.Traceable s m ts → Traces s m ts d p r R) : Traces s m ts d p r R := fun hd => h hd hd

theorem bind (hp : Traces s m ts d p r R) (hf : ∀ b a e, R b a → Traces s m ts e (f b) (g a) Q) :
    Traces s m ts d (p >>= f) (r >>= g) Q := by
  intro hd c e h
  obtain ⟨b,c',hb,hc⟩ := runOn_bind_ok.mp h
  obtain ⟨he,a,ha,hR⟩ := hp hd b c' hb
  obtain ⟨he',a',ha',hQ⟩ := hf b a c' hR he c e hc
  exact ⟨he',a',Tracing.bind_eq_some.mpr ⟨a,c',ha,ha'⟩,hQ⟩

theorem map {g : β → δ} {h : α → γ} (hp : Traces s m ts d p r R) :
    Traces s m ts d (p >>= fun b => Pure.pure (g b)) (r >>= fun a => Pure.pure (h a)) (fun _ _ => True) :=
  bind hp (fun _ _ _ _ => pure trivial)

/-- A step with a trace of which more is made. -/
theorem onTrace {h : α → γ} (hp : Traces s m ts d p r R) :
    Traces s m ts d p (r >>= fun a => Pure.pure (h a)) (fun _ _ => True) := by
  intro hd b e hb
  obtain ⟨he,a,ha,-⟩ := hp hd b e hb
  exact ⟨he,h a,Tracing.bind_eq_some.mpr ⟨a,e,ha,rfl⟩,trivial⟩

/-- A traced step of which more is made. -/
theorem onResult {g : β → δ} (hp : Traces s m ts d p r R) :
    Traces s m ts d (p >>= fun b => Pure.pure (g b)) r (fun _ _ => True) := by
  intro hd c e hc
  obtain ⟨b,c',hb,hlast⟩ := runOn_bind_ok.mp hc
  cases hlast
  obtain ⟨he,a,ha,-⟩ := hp hd b e hb
  exact ⟨he,a,ha,trivial⟩

theorem view {f : Memory → Build β} {g : Memory → Tracing α} (h : Traces s m ts d (f (d.view s)) (g (d.view s)) R) :
    Traces s m ts d (Build.view s >>= f) (Tracing.ofBuild (Build.view s) >>= g) R := by
  intro hd b e hb
  rw [runOn_bind,runOn_view] at hb
  obtain ⟨he,a,ha,hR⟩ := h hd b e hb
  exact ⟨he,a,Tracing.bind_eq_some.mpr ⟨_,d,rfl,ha⟩,hR⟩

/-- What is read on both sides. -/
theorem read (hstem : Unbracketed s.stem) {p : Build β} {P : β → Prop} (hp : Goes (Extent.literals m) s d p P) :
    Traces s m ts d p (Tracing.ofBuild p) (fun b a => a = b ∧ P b) := by
  intro hd b e hb
  obtain ⟨st,hP,-⟩ := hp hd.covers
  rw [hb] at st hP
  refine ⟨Extent.keep_steps (fun _ _ st h => Draft.Traceable.step hstem st h) st hd,b,?_,rfl,hP b rfl⟩
  rw [Tracing.ofBuild,hb]

theorem mapM {l : List γ} {f : γ → Build β} {g : γ → Tracing α}
    (h : ∀ c ∈ l, ∀ e, Traces s m ts e (f c) (g c) (fun _ _ => True)) :
    Traces s m ts d (l.mapM f) (l.mapM g) (fun _ _ => True) := by
  induction l generalizing d with
  | nil =>
    rw [List.mapM_nil,List.mapM_nil]
    exact pure trivial
  | cons c l ih =>
    rw [List.mapM_cons,List.mapM_cons]
    exact bind (h c (.head _) d) (fun _ _ e _ => map (ih (fun c hc => h c (.tail _ hc))))

end Traces

/-! ## Tests -/

namespace Condition
variable {ts : List Test} {column : Value} {columns values operands : List Value} {negated any : Bool} {op : Operator}

theorem column_of_titled (h : v.Titled) : ∃ name, Tracing.column v = pure name := by
  obtain ⟨name,rfl,hname⟩ := h
  exact ⟨name,by simp [Tracing.column,hname]⟩

/-- Steps that only give results give the list of them. -/
theorem mapM_eq_pure {M : Type → Type} [Monad M] [LawfulMonad M] {f : α → M β} {l : List α}
    (h : ∀ a ∈ l, ∃ b, f a = pure b) : ∃ bs, l.mapM f = pure bs := by
  induction l with
  | nil => exact ⟨[],List.mapM_nil⟩
  | cons a l ih =>
    obtain ⟨b,hb⟩ := h a (.head _)
    obtain ⟨bs,hbs⟩ := ih (fun a ha => h a (.tail _ ha))
    exact ⟨b :: bs,by rw [List.mapM_cons,hb,hbs,pure_bind,pure_bind]⟩

theorem traces_columnName (h : v.Titled) : Traces s m ts d (columnName s v) (Tracing.column v) (fun _ _ => True) := by
  obtain ⟨name,hname⟩ := column_of_titled h
  obtain ⟨_,rfl,-⟩ := h
  rw [hname]
  exact .pure trivial

theorem traces_singleMember_nil (h : column.Titled) :
    Traces s m ts d (pure (overNothing negated)) (Tracing.singleMember s negated column []) (fun _ _ => True) := by
  obtain ⟨name,hname⟩ := column_of_titled h
  rw [Tracing.singleMember,List.mapM_nil,pure_bind,hname,pure_bind]
  exact .pure trivial

theorem traces_rowMember_nil (h : ∀ c ∈ columns, c.Titled) :
    Traces s m ts d (pure (overNothing negated)) (Tracing.rowMember s negated columns []) (fun _ _ => True) := by
  obtain ⟨names,hnames⟩ := mapM_eq_pure (fun c hc => column_of_titled (h c hc))
  rw [Tracing.rowMember,List.mapM_nil,pure_bind,hnames,pure_bind]
  exact .pure trivial

section Tests
variable (hs : s.Binds) (hstem : Unbracketed s.stem)
include hs hstem

theorem traces_literal (hv : (Extent.literals m).value v) :
    Traces s m ts d (rendered s v) (Tracing.literal s v) (fun _ _ => True) := by
  intro hd b e h
  cases v with
  | expression sql params => exact absurd .refl (hv sql params)
  | _ =>
    rw [rendered,runOn_bind,runOn_bindValue hs] at h
    · cases h
      exact ⟨hd.step hstem (.bind d hv),_,rfl,trivial⟩
    · simp

theorem traces_operand (hv : (Extent.literals m).value v) :
    Traces s m ts d (entry s v) (Tracing.operand s v) (fun _ _ => True) := by
  have hliteral : Traces s m ts d (rendered s v) (Tracing.literal s v) (fun _ _ => True) := traces_literal hs hstem hv
  cases v with
  | null => exact .pure trivial
  | _ => exact hliteral.onTrace

theorem traces_entry (hv : (Extent.literals m).value v) :
    Traces s m ts d (do entry s (← field s column v)) (Tracing.entry s column v) (fun _ _ => True) := by
  refine .bind (.read hstem (goes_field hv)) (fun _ w e h => ?_)
  obtain ⟨rfl,hw⟩ := h
  exact traces_operand hs hstem hw

theorem traces_singleMember (hc : column.Titled) (hv : ∀ w ∈ values, (Extent.literals m).value w) :
    Traces s m ts d (singleMember s negated column values) (Tracing.singleMember s negated column values)
      (fun _ _ => True) := by
  refine .bind (.mapM (fun w hw _ => traces_entry hs hstem (hv w hw))) (fun entries _ e _ => ?_)
  refine .bind (traces_columnName hc) (fun _ _ _ _ => ?_)
  split <;> exact .pure trivial

theorem traces_row (hv : (Extent.literals m).value v) :
    Traces s m ts d (memberRow s negated columns v) (Tracing.row s columns v) (fun _ _ => True) := by
  refine .view ?_
  cases v.entries? (d.view s) with
  | none => exact .fail _
  | some es => exact .onResult (.mapM (fun c _ _ => traces_entry hs hstem hv))

theorem traces_rowMember (hc : ∀ c ∈ columns, c.Titled) (hv : ∀ w ∈ values, (Extent.literals m).value w) :
    Traces s m ts d (compositeMember s negated columns values) (Tracing.rowMember s negated columns values)
      (fun _ _ => True) := by
  refine .bind (.mapM (fun w hw _ => traces_row hs hstem (hv w hw))) (fun rows rows' e _ => ?_)
  have hlisted : ∀ c ∈ columns, ∃ o, listedColumn s c = pure o := by
    intro c hm
    obtain ⟨name,rfl,-⟩ := hc c hm
    exact ⟨_,rfl⟩
  obtain ⟨names,hnames⟩ := mapM_eq_pure (fun c hm => column_of_titled (hc c hm))
  obtain ⟨listed,hlisted⟩ := mapM_eq_pure hlisted
  rw [hnames,hlisted,pure_bind,pure_bind]
  unfold nameList
  split
  · exact .pure trivial
  · exact .fail _

theorem traces_member (hc : ∀ c ∈ (columns? column).getD [column], c.Titled) (hv : (Extent.literals m).value v) :
    Traces s m ts d (member s negated column v) (Tracing.member s negated column v) (fun _ _ => True) := by
  refine .bind (.read hstem (goes_valuesOf hv)) (fun _ values e h => ?_)
  obtain ⟨rfl,hvalues⟩ := h
  cases hcolumns : columns? column with
  | none =>
    have hcolumn : column.Titled := hc column (by rw [hcolumns]; exact .head _)
    cases values with
    | nil => exact traces_singleMember_nil hcolumn
    | cons w values => exact traces_singleMember hs hstem hcolumn hvalues
  | some columns =>
    rw [hcolumns,Option.getD_some] at hc
    rcases columns with _ | ⟨first,_ | ⟨second,more⟩⟩
    · cases values <;> exact .pure trivial
    · cases values with
      | nil => exact traces_singleMember_nil (hc first (.head _))
      | cons w values => exact traces_singleMember hs hstem (hc first (.head _)) hvalues
    · cases values with
      | nil => exact traces_rowMember_nil hc
      | cons w values => exact traces_rowMember hs hstem hc hvalues

theorem traces_like (hc : column.Titled) (hv : (Extent.literals m).value v) :
    Traces s m ts d (like s any negated column v) (Tracing.like s any negated column v) (fun _ _ => True) := by
  refine .bind (.read hstem (goes_valuesOf hv)) (fun _ values e h => ?_)
  obtain ⟨rfl,hvalues⟩ := h
  cases values with
  | nil =>
    obtain ⟨name,hname⟩ := column_of_titled hc
    rw [hname,pure_bind,List.mapM_nil,pure_bind]
    exact .pure trivial
  | cons w values =>
    refine .bind (traces_columnName hc) (fun _ _ e _ => .map (.mapM (fun w hw e => ?_)))
    exact .onResult (traces_literal hs hstem (hvalues w hw))

theorem traces_between {low high : Value} (hc : column.Titled) (hl : (Extent.literals m).value low)
    (hh : (Extent.literals m).value high) :
    Traces s m ts d (between s negated column low high) (Tracing.between s negated column low high)
      (fun _ _ => True) := by
  refine .bind (traces_columnName hc) (fun _ _ _ _ => ?_)
  exact .bind (traces_literal hs hstem hl) (fun _ _ _ _ => .map (traces_literal hs hstem hh))

theorem traces_comparison {c : Comparison} (hc : column.Titled) (hv : (Extent.literals m).value v) :
    Traces s m ts d (comparison s c column v) (Tracing.comparison s c column v) (fun _ _ => True) :=
  .bind (traces_columnName hc) (fun _ _ _ _ => .map (traces_literal hs hstem hv))

theorem traces_pair {c : String × Value} (hc : Sql.isExpression c.1 = false) (hv : (Extent.literals m).value c.2) :
    Traces s m ts d (pair s c.1 c.2) (Tracing.pair s c) (fun _ _ => True) := by
  have htitled : (Value.text c.1).Titled := ⟨c.1,rfl,hc⟩
  unfold pair Tracing.pair
  by_cases hl : c.2.listsValues
  · rw [if_pos hl,if_pos hl]
    exact traces_member hs hstem (List.forall_mem_singleton.mpr htitled) hv
  · rw [if_neg hl,if_neg hl]
    obtain ⟨name,v⟩ := c
    obtain ⟨title,htitle⟩ := column_of_titled htitled
    have hcompare : Traces s m ts d (comparison s .eq (.text name) v) (Tracing.comparison s .eq (.text name) v)
        (fun _ _ => True) := traces_comparison hs hstem htitled hv
    cases v with
    | null =>
      dsimp only
      rw [htitle,pure_bind]
      exact .pure trivial
    | _ => exact hcompare

theorem traces_hash (hv : (Extent.literals m).value v) (ht : .simple v ∈ ts) :
    Traces s m ts d (simple s v) (Tracing.hash s v) (fun _ _ => True) := by
  refine .traceable (fun hd => .view ?_)
  obtain ⟨columns,hcolumns,hne,hnames⟩ := typed_of_columnar (hd.tests _ ht)
  have hvalues := value_of_typed hd.covers hv hcolumns
  rw [hcolumns]
  cases columns with
  | nil => exact absurd rfl hne
  | cons c columns =>
    refine .bind (.mapM (fun f hf e => traces_pair hs hstem (hnames f hf) (hvalues f hf))) (fun _ _ _ _ => ?_)
    split <;> exact .pure trivial

theorem traces_leaf {inner : Build (List Sql)} (hop : op.connects = false)
    (ho : ∀ o ∈ operands, (Extent.literals m).value o) (hc : ∀ c ∈ (Test.operation op operands).columns, c.Titled) :
    Traces s m ts d (operate s op operands inner) (Tracing.leaf s op operands) (fun _ _ => True) := by
  unfold operate
  split
  · cases hop
  · cases hop
  · refine traces_between hs hstem (hc _ (.head _)) (ho _ ?_) (ho _ ?_) <;> simp
  · exact .fail _
  · refine traces_member hs hstem hc (ho _ ?_)
    simp
  · refine traces_like hs hstem (hc _ (.head _)) (ho _ ?_)
    simp
  · refine traces_comparison hs hstem (hc _ (.head _)) (ho _ ?_)
    simp
  · exact .fail _

/-! ## Trees -/

theorem traces_operate {inner : Build (List Sql)} {trees : Tracing (List (Tree (String × Value)))} {inside : List Test}
    (ho : ∀ o ∈ operands, (Extent.literals m).value o) (ht : ∀ t ∈ testsOf op operands inside, t ∈ ts)
    (hi : op.connects → (∀ t ∈ inside, t ∈ ts) → Traces s m ts d inner trees (fun _ _ => True)) :
    Traces s m ts d (operate s op operands inner) (Tracing.operate s op operands trees) (fun _ _ => True) := by
  refine .traceable (fun hd => ?_)
  cases hop : op.connects with
  | true =>
    rw [testsOf_connective hop] at ht
    cases op with
    | and => exact .map (hi rfl ht)
    | or => exact .map (hi rfl ht)
    | _ => cases hop
  | false =>
    rw [testsOf_test hop] at ht
    have hleaf : Traces s m ts d (operate s op operands inner) (Tracing.leaf s op operands) (fun _ _ => True) :=
      traces_leaf hs hstem hop ho (hd.tests _ (ht _ (.head _)))
    cases op with
    | and | or => cases hop
    | _ => exact hleaf.onTrace

omit hs hstem in
theorem traces_trees (ht : ∀ t ∈ testsOfAll operands, t ∈ ts)
    (h : ∀ o ∈ operands, ∀ e, Traces s m ts e (compile s o) (Tracing.tree s o) (fun _ _ => True)) :
    Traces s m ts d (compileAll s operands) (Tracing.trees s operands) (fun _ _ => True) := by
  rw [compileAll_eq_mapM,Tracing.trees_eq_mapM]
  refine .mapM (fun o ho e => .traceable (fun hd => ?_))
  have hsymbol : symbol? o = none :=
    symbol?_eq_none (fun hsimple => Columnar.text? (hd.tests _ (ht _ (mem_testsOfAll ho hsimple))))
  rw [asOperand_of_none hsymbol]
  exact h o ho e

theorem traces_compile (v : Value) (d : Draft) (hv : (Extent.literals m).value v) (ht : ∀ t ∈ tests v, t ∈ ts)
    (hn : ∀ n ∈ nodes v, ¬ Empty n) : Traces s m ts d (compile s v) (Tracing.tree s v) (fun _ _ => True) := by
  induction v using induct generalizing d with
  | expression sql params => exact absurd .refl (hv sql params)
  | operation v op operands h ih =>
    refine .traceable (fun hd => ?_)
    have ho := hd.covers.operands hv h
    rw [tests_of_operation? h] at ht
    rw [nodes_of_operation? h] at hn
    rw [compile_of_operation? h,Tracing.tree_of_operation? h]
    refine traces_operate hs hstem ho ht (fun hop ht => traces_trees ht (fun o hm e => ?_))
    refine ih o hm e (ho o hm) (fun t hto => ht t (mem_testsOfAll hm hto)) (fun n hno => hn n (.tail _ ?_))
    rw [if_pos hop]
    exact mem_nodesOfAll hm hno
  | empty v h => exact absurd h (hn v (by rcases h with rfl | rfl <;> exact .head _))
  | unread v x h =>
    rw [compile_of_unread h]
    exact .fail x
  | bare v hb hx =>
    rw [tests_of_bare hb] at ht
    rw [compile_of_bare hb hx,Tracing.tree_of_bare hb]
    exact traces_hash hs hstem hv (ht _ (.head _))

end Tests

/-- A condition that can be traced is traced if and only if it is written, and both leave the same draft. -/
theorem exists_tree_iff (hs : s.Binds) (hstem : Unbracketed s.stem) (hread : Readable s.stem)
    (hh : ∀ home, s.collection = .shared home → d.memory.Holds home) (hv : Traceable (d.view s) v) :
    (∃ t, Tracing.tree s v d = some (t,e)) ↔ ∃ sql, (compile s v).runOn d = (.ok sql,e) := by
  constructor
  · rintro ⟨t,ht⟩
    obtain ⟨sql,-,hsql,-,-⟩ := follows_compile hs hread v d t e ht
    exact ⟨sql,hsql⟩
  · rintro ⟨sql,hsql⟩
    have hd : d.Traceable s (d.view s) (tests v) := ⟨Extent.covers_literals hh,hv.tests⟩
    obtain ⟨-,t,ht,-⟩ := traces_compile hs hstem v d hv.expressions (fun _ ht => ht) hv.filled hd sql e hsql
    exact ⟨t,ht⟩

end Condition

open Condition

/-- The text of a traced condition is read as the formula of its tree: operands that say nothing are left out, and
nothing is written if nothing is left. A condition that can be traced is traced wherever it is written. -/
theorem formula_of_text {q : Char} (hs : s.Binds) (hstem : Readable s.stem) (hq : IsQuote q)
    (hd : s.dialect.quote = some q) :
    (∀ t e, Tracing.tree s v d = some (t,e) → ∃ sql, (compile s v).runOn d = (.ok sql,e) ∧
      e.given = d.given ++ t.values ∧ Reader.read q (s.dialect.render sql) = some (t.map Prod.fst).formula) ∧
    (Unbracketed s.stem → (∀ home, s.collection = .shared home → d.memory.Holds home) → Traceable (d.view s) v →
      ∀ sql e, (compile s v).runOn d = (.ok sql,e) → ∃ t, Tracing.tree s v d = some (t,e) ∧
        e.given = d.given ++ t.values ∧ Reader.read q (s.dialect.render sql) = some (t.map Prod.fst).formula) := by
  have htext : ∀ t e, Tracing.tree s v d = some (t,e) → ∃ sql, (compile s v).runOn d = (.ok sql,e) ∧
      e.given = d.given ++ t.values ∧ Reader.read q (s.dialect.render sql) = some (t.map Prod.fst).formula := by
    intro t e ht
    obtain ⟨sql,l,hsql,hgiven,rfl,rfl,hlegible⟩ := follows_compile hs hstem v d t e ht
    exact ⟨_,hsql,hgiven,Tree.read_render hq hd hlegible⟩
  refine ⟨htext,fun hbare hh hv sql e hsql => ?_⟩
  obtain ⟨t,ht⟩ := (exists_tree_iff hs hbare hstem hh hv).mpr ⟨sql,hsql⟩
  obtain ⟨sql',hsql',hgiven,hread⟩ := htext t e ht
  cases hsql.symm.trans hsql'
  exact ⟨t,ht,hgiven,hread⟩

def disjunction : Value :=
  .list [.operator .or,.list [.operator (.between true),.text "a",.int 1,.int 2],
    .mapping [(.text "b",.list [.null,.int 3])],.operation (.member true) [.text "c",.list []],
    .tuple [.operator (.like false true),.text "d.e",.list [.text "x",.text "y"]]]

theorem traceable_disjunction : Traceable {} disjunction := by
  have htitled : ∀ name, Sql.isExpression name = false → (Value.text name).Titled := fun name h => ⟨name,rfl,h⟩
  refine traceable_of_bare (by decide +kernel) (by decide +kernel) (fun t ht => ?_) (fun n hn h => ?_)
  · have htests : tests disjunction = [.operation (.between true) [.text "a",.int 1,.int 2],
        .simple (.mapping [(.text "b",.list [.null,.int 3])]),.operation (.member true) [.text "c",.list []],
        .operation (.like false true) [.text "d.e",.list [.text "x",.text "y"]]] := rfl
    rw [htests] at ht
    simp only [List.mem_cons,List.not_mem_nil,or_false] at ht
    rcases ht with rfl | rfl | rfl | rfl
    · exact fun c hc => List.mem_singleton.mp hc ▸ htitled "a" rfl
    · refine ⟨_,rfl,List.cons_ne_nil _ _,fun key hk => ?_⟩
      rw [List.mem_singleton.mp hk]
      exact ⟨"b",rfl,rfl⟩
    · exact fun c hc => List.mem_singleton.mp hc ▸ htitled "c" rfl
    · exact fun c hc => List.mem_singleton.mp hc ▸ htitled "d.e" rfl
  · have hnodes : nodes disjunction = [disjunction,.list [.operator (.between true),.text "a",.int 1,.int 2],
        .mapping [(.text "b",.list [.null,.int 3])],.operation (.member true) [.text "c",.list []],
        .tuple [.operator (.like false true),.text "d.e",.list [.text "x",.text "y"]]] := rfl
    rw [hnodes] at hn
    rcases h with rfl | rfl <;> simp [disjunction] at hn

theorem formula_of_text_disjunction :
    ∃ t e sql, Tracing.tree (Options.setting {} .sqlite) disjunction { bindings := [],memory := {} } = some (t,e) ∧
      (compile (Options.setting {} .sqlite) disjunction).runOn { bindings := [],memory := {} } = (.ok sql,e) ∧
      e.given = [("qp0",.int 1),("qp1",.int 2),("qp2",.int 3),("qp3",.text "x"),("qp4",.text "y")] ∧
      Reader.read '\x22' (Dialect.sqlite.render sql) = some (some (.any
        [.atom (.between true ⟨["a"],false⟩ (.bound "qp0") (.bound "qp1")),
          .atom (.member false ⟨["b"],false⟩ [.null,.bound "qp2"]),
          .all [.atom (.like true ⟨["d","e"],false⟩ (.bound "qp3")),
            .atom (.like true ⟨["d","e"],false⟩ (.bound "qp4"))]])) := by
  obtain ⟨_,⟨⟩,hgiven,hread⟩ := (formula_of_text (s := Options.setting {} .sqlite) (q := '\x22') (v := disjunction)
    (d := { bindings := [],memory := {} }) (.inl rfl) (Options.readable_of_isStem (by decide)) (.inl rfl) rfl).2
    (Options.unbracketed_of_isStem (by decide)) nofun traceable_disjunction _ _ rfl
  exact ⟨_,_,_,rfl,rfl,hgiven,hread⟩

end SqlCompose
