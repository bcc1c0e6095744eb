import SqlCompose.Proofs.Meaning
import SqlCompose.Proofs.Traceability
import SqlCompose.Proofs.Uniqueness

/-! # The rows that pass a text

Placeholders stand for the literals that they were given out for, so the text of a traced condition passes the rows
that the formula of its tree passes.
-/
namespace SqlCompose
open Build Condition

variable {s : Setting} {d e : Draft} {α β δ : Type} {v : Value}

/-! ## What placeholders stand for -/

/-- All names from the number of bindings on are new, and what was given out is bound. -/
structure Draft.Counts (s : Setting) (d : Draft) : Prop where
  fresh : ∀ n, d.bindings.length ≤ n → s.placeholderName n ∉ d.bindings.names
  held : ∀ g ∈ d.given, d.bindings.field? g.1 = some g.2

theorem Draft.Counts.bound (h : d.Counts s) (v : Value) : (d.bound s v).Counts s := by
  have hnew : d.nextName s ∉ d.bindings.names := h.fresh d.bindings.length (Nat.le_refl _)
  have hlength : (d.bound s v).bindings.length = d.bindings.length + 1 := by
    simp [Draft.bound,Entries.put_of_not_mem hnew]
  constructor
  · intro n hn hm
    rw [hlength] at hn
    rcases Entries.mem_names_put.mp hm with heq | hm
    · have := s.placeholderName_inj.mp (Option.some.inj heq)
      omega
    · exact h.fresh n (by omega) hm
  · intro g hg
    show (Entries.put (.text (d.nextName s)) v d.bindings).field? g.1 = some g.2
    rw [Entries.field?_put]
    rcases List.mem_append.mp hg with hg | hg
    · have hold : g.1 ∈ d.bindings.names := Entries.isSome_field?.mp (by rw [h.held g hg]; rfl)
      have hne : ¬ d.nextName s = g.1 := fun heq => hnew (heq ▸ hold)
      simpa [Value.text?,hne] using h.held g hg
    · rw [List.mem_singleton.mp hg]
      simp [Value.text?]

def Tracing.Keeps (P : Draft → Prop) (r : Tracing α) : Prop := ∀ d a e, r d = some (a,e) → P d → P e

namespace Tracing.Keeps
variable {P : Draft → Prop} {r : Tracing α}

theorem pure {a : α} : Keeps P (Pure.pure a) := by
  rintro d _ _ ⟨⟩ h
  exact h

theorem failure : Keeps P (failure : Tracing α) := fun _ _ _ h => nomatch h

theorem bind {g : α → Tracing β} (hr : Keeps P r) (hg : ∀ a, Keeps P (g a)) : Keeps P (r >>= g) := by
  intro d b e h hd
  obtain ⟨a,c,hc,he⟩ := Tracing.bind_eq_some.mp h
  exact hg a c b e he (hr d a c hc hd)

theorem mapM {l : List α} {g : α → Tracing β} (h : ∀ a ∈ l, Keeps P (g a)) : Keeps P (l.mapM g) := by
  induction l with
  | nil => exact pure
  | cons a l ih =>
    rw [List.mapM_cons]
    exact (h a (.head _)).bind (fun b => (ih (fun a ha => h a (.tail _ ha))).bind (fun bs => pure))

/-- What is read keeps what is kept by the step. -/
theorem ofBuild {p : Build α} (h : ∀ d a e, p.runOn d = (.ok a,e) → P d → P e) : Keeps P (Tracing.ofBuild p) := by
  intro d a e hr
  unfold Tracing.ofBuild at hr
  rcases hp : p.runOn d with ⟨x | b,c⟩
  · rw [hp] at hr
    cases hr
  · rw [hp] at hr
    cases hr
    exact h d a e hp

end Tracing.Keeps

/-- What stands under a column is only read. -/
theorem field_stays {column a : Value} (h : (field s column v).runOn d = (.ok a,e)) : e = d := by
  unfold field at h
  rw [runOn_bind,runOn_view] at h
  dsimp only at h
  split at h
  · cases h
    rfl
  · split at h
    · cases h
      rfl
    · cases h

/-- Reading the values of a test uses up a stream at most. -/
theorem valuesOf_drains {values : List Value} (h : (valuesOf s v).runOn d = (.ok values,e)) :
    e = d ∨ ∃ cell, e = d.drained cell [] := by
  unfold valuesOf at h
  split at h
  · unfold elements at h
    rw [runOn_bind,runOn_view] at h
    dsimp only at h
    split at h
    · cases h
    · split at h
      · cases h
        exact .inr ⟨_,rfl⟩
      · cases h
        exact .inl rfl
  · cases h
    exact .inl rfl

namespace Tracing
variable {P : Draft → Prop}

theorem keeps_view : Keeps P (ofBuild (Build.view s)) := by
  refine .ofBuild ?_
  rintro d _ _ ⟨⟩ h
  exact h

theorem keeps_column : Keeps P (column v) := by
  intro d a e h hd
  rwa [column_stays h]

section Binding
variable (hbound : ∀ d v, P d → P (d.bound s v))
include hbound

theorem keeps_literal : Keeps P (literal s v) := by
  cases v with
  | expression sql params => exact .failure
  | _ =>
    rintro d _ _ ⟨⟩ h
    exact hbound d _ h

theorem keeps_operand : Keeps P (operand s v) := by
  have hother : Keeps P (do return Operand.bound (← literal s v)) := (keeps_literal hbound).bind (fun _ => .pure)
  cases v with
  | null => exact .pure
  | _ => exact hother

theorem keeps_entry {c : Value} : Keeps P (entry s c v) := by
  refine .bind (.ofBuild (fun d a e h hd => ?_)) (fun _ => keeps_operand hbound)
  rwa [field_stays h]

theorem keeps_row {columns : List Value} : Keeps P (row s columns v) := by
  refine .bind keeps_view (fun m => ?_)
  split
  · exact .failure
  · exact .mapM (fun _ _ => keeps_entry hbound)

theorem keeps_singleMember {negated : Bool} {values : List Value} : Keeps P (singleMember s negated v values) :=
  .bind (.mapM (fun _ _ => keeps_entry hbound)) (fun _ => keeps_column.bind (fun _ => .pure))

theorem keeps_rowMember {negated : Bool} {names rows : List Value} : Keeps P (rowMember s negated names rows) :=
  .bind (.mapM (fun _ _ => keeps_row hbound)) (fun _ => .bind (.mapM (fun _ _ => keeps_column)) (fun _ => .pure))

variable (hdrained : ∀ d cell, P d → P (d.drained cell []))
include hdrained

omit hbound in
theorem keeps_valuesOf : Keeps P (ofBuild (valuesOf s v)) := by
  refine .ofBuild (fun d a e h hd => ?_)
  rcases valuesOf_drains h with rfl | ⟨cell,rfl⟩
  · exact hd
  · exact hdrained d cell hd

theorem keeps_member {negated : Bool} {name : Value} : Keeps P (member s negated name v) := by
  refine .bind (keeps_valuesOf hdrained) (fun values => ?_)
  split
  · exact .pure
  · exact keeps_singleMember hbound
  · exact keeps_rowMember hbound
  · exact keeps_singleMember hbound

theorem keeps_like {any negated : Bool} {name : Value} : Keeps P (like s any negated name v) :=
  .bind (keeps_valuesOf hdrained) (fun _ => keeps_column.bind (fun _ =>
    .bind (.mapM (fun _ _ => keeps_literal hbound)) (fun _ => .pure)))

omit hdrained in
theorem keeps_between {negated : Bool} {name low high : Value} : Keeps P (between s negated name low high) :=
  keeps_column.bind (fun _ => (keeps_literal hbound).bind (fun _ => (keeps_literal hbound).bind (fun _ => .pure)))

omit hdrained in
theorem keeps_comparison {c : Comparison} {name : Value} : Keeps P (comparison s c name v) :=
  keeps_column.bind (fun _ => (keeps_literal hbound).bind (fun _ => .pure))

theorem keeps_leaf {op : Operator} {operands : List Value} : Keeps P (leaf s op operands) := by
  unfold leaf
  split
  · exact keeps_between hbound
  · exact keeps_member hbound hdrained
  · exact keeps_like hbound hdrained
  · exact keeps_comparison hbound
  · exact .failure

theorem keeps_pair {c : String × Value} : Keeps P (pair s c) := by
  unfold pair
  split
  · exact keeps_member hbound hdrained
  · split
    · exact keeps_column.bind (fun _ => .pure)
    · exact keeps_comparison hbound

theorem keeps_hash : Keeps P (hash s v) := by
  refine .bind keeps_view (fun m => ?_)
  split
  · exact .bind (.mapM (fun _ _ => keeps_pair hbound hdrained)) (fun _ => .pure)
  · exact .failure

theorem keeps_operate {op : Operator} {operands : List Value} {inner : Tracing (List (Tree (String × Value)))}
    (h : Keeps P inner) : Keeps P (operate s op operands inner) := by
  unfold operate
  split
  · exact h.bind (fun _ => .pure)
  · exact h.bind (fun _ => .pure)
  · exact .bind (keeps_leaf hbound hdrained) (fun _ => .pure)

end Binding

theorem keeps_tree (hbound : ∀ d v, P d → P (d.bound s v)) (hdrained : ∀ d cell, P d → P (d.drained cell []))
    (v : Value) : Keeps P (tree s v) := by
  induction v using Condition.induct with
  | expression sql params =>
    have hb : Condition.Bare (.expression sql params) := trivial
    rw [tree_of_bare hb]
    exact keeps_hash hbound hdrained
  | operation v op operands h ih =>
    rw [tree_of_operation? h,trees_eq_mapM]
    exact keeps_operate hbound hdrained (.mapM ih)
  | empty v h =>
    rw [tree_of_empty h]
    exact .failure
  | unread v x h =>
    rw [tree_of_unread h]
    exact .failure
  | bare v hb hx =>
    rw [tree_of_bare hb]
    exact keeps_hash hbound hdrained

end Tracing

/-! ## Texts and rows -/

def Draft.standsFor (d : Draft) (name : String) : Value := (d.bindings.field? name).getD .null

theorem standsFor_of_trace {t : Tree (String × Value)} (hd : d.Counts s) (ht : Tracing.tree s v d = some (t,e))
    (hgiven : e.given = d.given ++ t.values) : ∀ a ∈ t.values, e.standsFor a.1 = a.2 := by
  have he : e.Counts s := by
    refine Tracing.keeps_tree ?_ ?_ v d t e ht hd
    · intro d v hd
      exact hd.bound v
    · intro d cell hd
      exact ⟨hd.fresh,hd.held⟩
  intro a ha
  have hfield := he.held a (by rw [hgiven]; exact List.mem_append_right _ ha)
  rw [Draft.standsFor,hfield]
  rfl

/-- A text that is read as `f` passes no row beyond those that a tree passes, and passes all of them if no disjunction of
the tree has operands that are written as nothing beside others. A text that says nothing passes every row. Each
placeholder means what is bound to it in the end. -/
structure Tree.Selects (δ : Type) (t : Tree (String × Value)) (e : Draft) (f : Option (Formula String)) : Prop where
  passed : ∀ (w : TableRow δ) (literal : Value → δ),
    Formula.Says w (fun name => literal (e.standsFor name)) f → t.Holds w (fun a => literal a.2)
  passes : t.uniform → ∀ (w : TableRow δ) (literal : Value → δ),
    t.Holds w (fun a => literal a.2) → Formula.Says w (fun name => literal (e.standsFor name)) f

/-- The text of a traced condition selects the rows that its tree selects, as far as that can be: nothing that was bound
before has a numbered name. A condition that can be traced is traced wherever it is written. -/
theorem rows_of_text {q : Char} (hs : s.Binds) (hstem : Readable s.stem) (hq : IsQuote q)
    (hd : s.dialect.quote = some q) (hnew : d.Counts s) :
    (∀ t e, Tracing.tree s v d = some (t,e) → t.filled → ∃ sql f, (compile s v).runOn d = (.ok sql,e) ∧
      Reader.read q (s.dialect.render sql) = some f ∧ t.Selects δ e f) ∧
    (Unbracketed s.stem → (∀ home, s.collection = .shared home → d.memory.Holds home) → Traceable (d.view s) v →
      ∀ sql e, (compile s v).runOn d = (.ok sql,e) → ∃ t, Tracing.tree s v d = some (t,e) ∧
        (t.filled → ∃ f, Reader.read q (s.dialect.render sql) = some f ∧ t.Selects δ e f)) := by
  have hrows : ∀ t e, Tracing.tree s v d = some (t,e) → t.filled → ∃ sql f, (compile s v).runOn d = (.ok sql,e) ∧
      Reader.read q (s.dialect.render sql) = some f ∧ t.Selects δ e f := by
    intro t e ht hfilled
    obtain ⟨_,_,hsql,hgiven,rfl,rfl,hlegible⟩ := follows_compile hs hstem v d t e ht
    have hmap : ∀ (w : TableRow δ) (literal : Value → δ),
        (t.map Prod.fst).Holds w (fun name => literal (e.standsFor name)) ↔ t.Holds w (fun a => literal a.2) :=
      fun w literal => Tree.holds_map (fun a ha => congrArg literal (standsFor_of_trace hnew ht hgiven a ha))
    refine ⟨_,_,hsql,Tree.read_render hq hd hlegible,fun w literal h => ?_,fun hu w literal h => ?_⟩
    · exact (hmap w literal).mp (Tree.holds_of_says (t.filled_map.mpr hfilled) h)
    · exact Tree.says_of_holds (t.uniform_map.mpr hu) ((hmap w literal).mpr h)
  refine ⟨hrows,fun hbare hh hv sql e hsql => ?_⟩
  obtain ⟨t,ht⟩ := (exists_tree_iff hs hbare hstem hh hv).mpr ⟨sql,hsql⟩
  refine ⟨t,ht,fun hfilled => ?_⟩
  obtain ⟨sql',f,hsql',hread,hselects⟩ := hrows t e ht hfilled
  cases hsql.symm.trans hsql'
  exact ⟨f,hread,hselects⟩

/-- A draft that counts from nothing. -/
theorem Draft.counts_empty (s : Setting) (m : Memory) : Draft.Counts s { bindings := [],memory := m } :=
  ⟨by simp [Entries.names],nofun⟩

def Condition.evenly : Value :=
  .list [.text "and",.list [.text "not in",.text "a",.list []],
    .list [.text "or",.mapping [(.text "b",.int 1)],.list [.text "in",.text "c",.list []]]]

theorem traceable_evenly : Traceable {} evenly := by
  have htitled : ∀ name, Sql.isExpression name = false → (Value.text name).Titled := fun name h => ⟨name,rfl,h⟩
  refine traceable_of_bare (by decide +kernel) (by decide +kernel) (fun t ht => ?_) (fun n hn h => ?_)
  · have htests : tests evenly = [.operation (.member true) [.text "a",.list []],
        .simple (.mapping [(.text "b",.int 1)]),.operation (.member false) [.text "c",.list []]] := rfl
    rw [htests] at ht
    simp only [List.mem_cons,List.not_mem_nil,or_false] at ht
    rcases ht with rfl | rfl | rfl
    · exact fun c hc => List.mem_singleton.mp hc ▸ htitled "a" rfl
    · refine ⟨_,rfl,List.cons_ne_nil _ _,fun key hk => ?_⟩
      rw [List.mem_singleton.mp hk]
      exact ⟨"b",rfl,rfl⟩
    · exact fun c hc => List.mem_singleton.mp hc ▸ htitled "c" rfl
  · have hnodes : nodes evenly = [evenly,.list [.text "not in",.text "a",.list []],
        .list [.text "or",.mapping [(.text "b",.int 1)],.list [.text "in",.text "c",.list []]],
        .mapping [(.text "b",.int 1)],.list [.text "in",.text "c",.list []]] := rfl
    rw [hnodes] at hn
    rcases h with rfl | rfl <;> simp [evenly] at hn

theorem rows_of_text_evenly :
    ∃ t e sql f, Tracing.tree (Options.setting {} .sqlite) evenly { bindings := [],memory := {} } = some (t,e) ∧
      (compile (Options.setting {} .sqlite) evenly).runOn { bindings := [],memory := {} } = (.ok sql,e) ∧
      Reader.read '\x22' (Dialect.sqlite.render sql) = some f ∧
      ∀ w : TableRow Value, t.Holds w (fun a => a.2) ↔ Formula.Says w e.standsFor f := by
  obtain ⟨_,⟨⟩,hfilled⟩ := (rows_of_text (δ := Value) (s := Options.setting {} .sqlite) (q := '\x22') (v := evenly)
    (d := { bindings := [],memory := {} }) (.inl rfl) (Options.readable_of_isStem (by decide)) (.inl rfl) rfl
    (Draft.counts_empty _ _)).2 (Options.unbracketed_of_isStem (by decide)) nofun traceable_evenly _ _ rfl
  obtain ⟨f,hread,hselects⟩ := hfilled rfl
  exact ⟨_,_,_,f,rfl,rfl,hread,fun w => ⟨fun h => hselects.passes rfl w id h,fun h => hselects.passed w id h⟩⟩

def Condition.unevenly : Value :=
  .list [.text "or",.list [.text "=",.text "a",.int 1],.list [.text "not in",.text "b",.list []]]

def TableRow.filledWith (n : Int) : TableRow Int where
  column _ := n
  isNull _ := False
  compare c x y := c = .eq ∧ x = y
  like _ _ _ := False

theorem disjunction_loses_rows :
    ∃ t e sql f, Tracing.tree (Options.setting {} .sqlite) unevenly { bindings := [],memory := {} } = some (t,e) ∧
      t.filled ∧ (compile (Options.setting {} .sqlite) unevenly).runOn { bindings := [],memory := {} } = (.ok sql,e) ∧
      Dialect.sqlite.render sql = "\x22a\x22=:qp0" ∧ Reader.read '\x22' (Dialect.sqlite.render sql) = some f ∧
      t.Holds (.filledWith 2) (fun a => if a.2.same (.int 1) then 1 else 0) ∧
      ¬ Formula.Says (.filledWith 2) (fun name => if (e.standsFor name).same (.int 1) then 1 else 0) f := by
  obtain ⟨_,_,hsql,-,rfl,rfl,hlegible⟩ := follows_compile (s := Options.setting {} .sqlite) (.inl rfl)
    (Options.readable_of_isStem (by decide)) unevenly { bindings := [],memory := {} } _ _ rfl
  refine ⟨_,_,_,_,rfl,rfl,hsql,?_,Tree.read_render (s := Options.setting {} .sqlite) (.inl rfl) rfl hlegible,?_,?_⟩
  · decide
  · exact .inr (.inl nofun)
  · intro h
    obtain ⟨-,heq⟩ := h _ rfl
    exact absurd heq (by decide)

end SqlCompose
