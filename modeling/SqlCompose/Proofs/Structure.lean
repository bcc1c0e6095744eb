import SqlCompose.Proofs.Legibility
import SqlCompose.Proofs.LiteralPlaces
import SqlCompose.Proofs.Tracing

/-! # Conditions keep their structure

A condition that can be traced as a tree is written as the layout of the tree. So its text is read as the formula of
the tree, in which each literal is the placeholder that was given out for it.
-/
namespace SqlCompose
open Build Condition

variable {s : Setting} {d e : Draft} {α β γ δ : Type} {v : Value}

theorem Logs.given_eq {p : Build α} {a : α} {post : α → List String → Prop} (h : Logs d p [] post)
    (hr : p.runOn d = (.ok a,e)) : e.given = d.given := by
  obtain ⟨names,hg,_,_⟩ := h a e hr
  simpa using hg

def Follows (p : Build β) (r : Tracing α) (post : β → α → List (String × Value) → Prop) : Prop :=
  ∀ d a e, r d = some (a,e) → ∃ b l, p.runOn d = (.ok b,e) ∧ e.given = d.given ++ l ∧ post b a l

def Tells (sql : α → β) (literals : α → List (String × Value)) (good : α → Prop) (b : β) (a : α)
    (l : List (String × Value)) : Prop :=
  b = sql a ∧ l = literals a ∧ good a

theorem Tracing.bind_eq_some {r : Tracing α} {g : α → Tracing β} {b : β} :
    (r >>= g) d = some (b,e) ↔ ∃ a c, r d = some (a,c) ∧ g a c = some (b,e) := by
  show (r d).bind (fun p => g p.1 p.2) = some (b,e) ↔ _
  cases r d with
  | none => simp
  | some p =>
    constructor
    · intro h
      exact ⟨p.1,p.2,rfl,h⟩
    · rintro ⟨a,c,h,hg⟩
      cases h
      exact hg

namespace Follows
variable {p : Build β} {r : Tracing α} {post post' : β → α → List (String × Value) → Prop}

theorem pure {a : α} {b : β} (h : post b a []) : Follows (Pure.pure b) (Pure.pure a) post := by
  rintro d _ _ ⟨⟩
  exact ⟨b,[],rfl,by simp,h⟩

theorem failure : Follows p failure post := fun _ _ _ h => nomatch h

theorem weaken (hp : Follows p r post) (h : ∀ b a l, post b a l → post' b a l) : Follows p r post' := by
  intro d a e hr
  obtain ⟨b,l,hb,hl,hpost⟩ := hp d a e hr
  exact ⟨b,l,hb,hl,h b a l hpost⟩

theorem bind {f : β → Build δ} {g : α → Tracing γ} {goal : δ → γ → List (String × Value) → Prop} (hp : Follows p r post)
    (hf : ∀ b a l, post b a l → Follows (f b) (g a) (fun b' a' l' => goal b' a' (l ++ l'))) :
    Follows (p >>= f) (r >>= g) goal := by
  intro d c e hr
  obtain ⟨a,m,hr,hg⟩ := Tracing.bind_eq_some.mp hr
  obtain ⟨b,l,hb,hl,hpost⟩ := hp d a m hr
  obtain ⟨b',l',hb',hl',hgoal⟩ := hf b a l hpost m c e hg
  exact ⟨b',l ++ l',runOn_bind_ok.mpr ⟨b,m,hb,hb'⟩,by rw [hl',hl,List.append_assoc],hgoal⟩

theorem map {f : β → δ} {g : α → γ} {goal : δ → γ → List (String × Value) → Prop} (hp : Follows p r post)
    (h : ∀ b a l, post b a l → goal (f b) (g a) l) :
    Follows (p >>= fun b => Pure.pure (f b)) (r >>= fun a => Pure.pure (g a)) goal :=
  bind hp (fun b a l hpost => pure (by simpa using h b a l hpost))

theorem onResult {f : β → δ} {goal : δ → α → List (String × Value) → Prop} (hp : Follows p r post)
    (h : ∀ b a l, post b a l → goal (f b) a l) : Follows (p >>= fun b => Pure.pure (f b)) r goal := by
  intro d a e hr
  obtain ⟨b,l,hb,hl,hpost⟩ := hp d a e hr
  exact ⟨f b,l,runOn_bind_ok.mpr ⟨b,e,hb,rfl⟩,hl,h b a l hpost⟩

theorem onTrace {g : α → γ} {goal : β → γ → List (String × Value) → Prop} (hp : Follows p r post)
    (h : ∀ b a l, post b a l → goal b (g a) l) : Follows p (r >>= fun a => Pure.pure (g a)) goal := by
  intro d c e hr
  obtain ⟨a,m,hr,hg⟩ := Tracing.bind_eq_some.mp hr
  cases hg
  obtain ⟨b,l,hb,hl,hpost⟩ := hp d a _ hr
  exact ⟨b,l,hb,hl,h b a l hpost⟩

/-- What is known of the trace alone. -/
theorem also {P : α → Prop} (hp : Follows p r post) (h : ∀ d a e, r d = some (a,e) → P a) :
    Follows p r (fun b a l => post b a l ∧ P a) := by
  intro d a e hr
  obtain ⟨b,l,hb,hl,hpost⟩ := hp d a e hr
  exact ⟨b,l,hb,hl,hpost,h d a e hr⟩

/-- A trace that stays where it is. -/
theorem skip {g : γ → Tracing α} {r : Tracing γ} (hr : ∀ d c e, r d = some (c,e) → e = d) (hf : ∀ c, Follows p (g c) post) :
    Follows p (r >>= g) post := by
  intro d a e h
  obtain ⟨c,m,hc,hg⟩ := Tracing.bind_eq_some.mp h
  cases hr d c m hc
  exact hf c d a e hg

/-- A step that only reads. -/
theorem read (h : ∀ d a e, p.runOn d = (.ok a,e) → e.given = d.given) :
    Follows p (Tracing.ofBuild p) (fun b a l => b = a ∧ l = []) := by
  intro d a e hr
  unfold Tracing.ofBuild at hr
  rcases hp : p.runOn d with ⟨x | b,c⟩
  · rw [hp] at hr
    cases hr
  · rw [hp] at hr
    cases hr
    exact ⟨a,[],rfl,by simpa using h d a e hp,rfl,rfl⟩

theorem view : Follows (Build.view s) (Tracing.ofBuild (Build.view s)) (fun b a l => b = a ∧ l = []) := by
  refine read ?_
  rintro _ _ _ ⟨⟩
  rfl

theorem mapM {xs : List γ} {f : γ → Build β} {g : γ → Tracing α} {sql : α → β} {literals : α → List (String × Value)}
    {good : α → Prop} (h : ∀ x ∈ xs, Follows (f x) (g x) (Tells sql literals good)) :
    Follows (xs.mapM f) (xs.mapM g)
      (Tells (List.map sql) (List.flatMap literals) (fun as => as.length = xs.length ∧ ∀ a ∈ as, good a)) := by
  induction xs with
  | nil =>
    rw [List.mapM_nil,List.mapM_nil]
    exact pure ⟨rfl,rfl,rfl,by simp⟩
  | cons x xs ih =>
    rw [List.mapM_cons,List.mapM_cons]
    refine bind (h x (.head _)) (fun b a l hb => ?_)
    obtain ⟨rfl,rfl,ha⟩ := hb
    refine map (ih (fun x hx => h x (.tail _ hx))) (fun bs as l hbs => ?_)
    obtain ⟨rfl,rfl,hlen,has⟩ := hbs
    exact ⟨rfl,rfl,by simp [hlen],by simpa [ha] using has⟩

end Follows

/-! ## Tests -/

theorem follows_text {step : Value → Build β} {sql : String → β}
    (h : ∀ name, Sql.isExpression name = false → step (.text name) = pure (sql name)) :
    Follows (step v) (Tracing.column v) (Tells sql (fun _ => []) (fun _ => True)) := by
  cases v with
  | text name =>
    cases hname : Sql.isExpression name with
    | true =>
      simp only [Tracing.column,hname,if_true]
      exact .failure
    | false =>
      simp only [Tracing.column,hname,h name hname]
      exact .pure ⟨rfl,rfl,trivial⟩
  | _ => exact .failure

theorem Tracing.column_stays {name : String} (h : Tracing.column v d = some (name,e)) : e = d := by
  cases v with
  | text t =>
    unfold Tracing.column at h
    dsimp only at h
    split at h
    · cases h
    · cases h
      rfl
  | _ => cases h

theorem Tracing.columns_stay {columns : List Value} {names : List String}
    (h : columns.mapM Tracing.column d = some (names,e)) : e = d := by
  induction columns generalizing d names with
  | nil =>
    cases h
    rfl
  | cons v columns ih =>
    rw [List.mapM_cons] at h
    obtain ⟨name,c,hv,h⟩ := Tracing.bind_eq_some.mp h
    obtain ⟨more,c',hm,h⟩ := Tracing.bind_eq_some.mp h
    cases h
    rw [ih hm,Tracing.column_stays hv]

theorem Sql.column_of_not_expression {name : String} (h : isExpression name = false) :
    column name = [.path (.ofColumn name)] := by
  simp [column,h]

theorem follows_column : Follows (columnName s v) (Tracing.column v)
    (Tells (fun name => [.path (.ofColumn name)]) (fun _ => []) (fun _ => True)) :=
  follows_text (fun _ h => congrArg pure (Sql.column_of_not_expression h))

theorem follows_listedColumn : Follows (listedColumn s v) (Tracing.column v)
    (Tells (fun name => some [.path (.ofColumn name)]) (fun _ => []) (fun _ => True)) :=
  follows_text (fun _ h => congrArg (fun sql => pure (some sql)) (Sql.column_of_not_expression h))

def OperandTells : Sql → Operand (String × Value) → List (String × Value) → Prop :=
  Tells (fun o => (o.map Prod.fst).sql) Operand.values (fun o => ∀ name ∈ (o.map Prod.fst).values, Readable name)

def LeafTells : Sql → Leaf (String × Value) → List (String × Value) → Prop :=
  Tells (fun l => (l.map Prod.fst).sql) Leaf.values (fun l => (l.map Prod.fst).Legible)

theorem Leaf.sql_rowMember (negated : Bool) {columns : List String} {rows : List (List (Operand String))}
    (hc : columns ≠ []) (hr : rows ≠ []) :
    (Leaf.rowMember negated columns rows).sql =
      parenthesized (Sql.commas (columns.map (fun name => [.path (.ofColumn name)]))) ++
        [.text (if negated then " NOT IN " else " IN ")] ++
          tupled (rows.map (fun row => tupled (row.map Operand.sql))) := by
  rw [sql,layout_rowMember hc hr]
  simp only [Layout.sqlOf,Option.elim_some,Layout.sql,Predicate.sql,List.map_map,Function.comp_def]

theorem Leaf.sql_member (negated : Bool) (column : String) {values : List (Operand String)} (hne : values ≠ []) :
    (Leaf.member negated column values).sql = match values.map Operand.sql with
      | [one] => [.path (.ofColumn column)] ++ [.text (if negated then "<>" else "=")] ++ one
      | many => [.path (.ofColumn column)] ++ [.text (if negated then " NOT IN " else " IN ")] ++ tupled many := by
  match values, hne with
  | [o], _ => cases negated <;> rfl
  | _ :: _ :: _, _ => rfl

theorem Leaf.sql_like (any negated : Bool) (column : String) {patterns : List String} (hne : patterns ≠ []) :
    (Leaf.like any negated column patterns).sql = Sql.join (if any then " OR " else " AND ")
      (patterns.map (fun name => (Predicate.like negated (.ofColumn column) (.bound name)).sql)) := by
  match patterns, hne with
  | [p], _ => rfl
  | p :: p' :: more, _ =>
    simp [sql,layout,Layout.sqlOf,Layout.sql,Function.comp_def]

theorem Leaf.isSome_member {column : String} (values : List (Operand α)) :
    (Leaf.member false column values).layout.isSome := by
  match values with
  | [] => rfl
  | [_] => rfl
  | _ :: _ :: _ => rfl

theorem Tracing.column_text {name t : String} (h : Tracing.column (.text name) d = some (t,e)) : t = name := by
  unfold Tracing.column at h
  dsimp only at h
  split at h
  · cases h
  · cases h
    rfl

theorem Tracing.member_text {negated : Bool} {name : String} {l : Leaf (String × Value)}
    (h : Tracing.member s negated (.text name) v d = some (l,e)) : ∃ values, l = .member negated name values := by
  obtain ⟨values,_,_,h⟩ := Tracing.bind_eq_some.mp h
  obtain ⟨os,_,_,h⟩ := Tracing.bind_eq_some.mp h
  obtain ⟨t,_,ht,h⟩ := Tracing.bind_eq_some.mp h
  cases h
  exact ⟨os,by rw [Tracing.column_text ht]⟩

theorem leafTells_member (negated : Bool) (name : String) :
    LeafTells (overNothing negated) (.member negated name []) [] :=
  ⟨by cases negated <;> rfl,rfl,Leaf.legible_member (by simp)⟩

theorem leafTells_rowMember (negated : Bool) (names : List String) :
    LeafTells (overNothing negated) (.rowMember negated names []) [] := by
  refine ⟨?_,rfl,Leaf.legible_rowMember (by simp) (by simp)⟩
  cases negated <;> simp [Leaf.sql,Leaf.map,Leaf.layout,Layout.overNothing,overNothing,Layout.sqlOf,Layout.sql,never]

section Tests
variable (hs : s.Binds) (hstem : Readable s.stem)
include hs hstem

theorem follows_literal : Follows (rendered s v) (Tracing.literal s v)
    (Tells (fun x => (Operand.bound x.1).sql) (fun x => [x]) (fun x => Readable x.1)) := by
  cases v with
  | expression sql params => exact .failure
  | _ =>
    rintro d _ _ ⟨⟩
    refine ⟨_,_,?_,rfl,rfl,rfl,s.readable_placeholderName hstem _⟩
    rw [rendered,runOn_bind,runOn_bindValue hs]
    · rfl
    · simp

theorem follows_operand : Follows (Condition.entry s v) (Tracing.operand s v) OperandTells := by
  have hother : Follows (rendered s v) (do return .bound (← Tracing.literal s v)) OperandTells := by
    refine .onTrace (follows_literal hs hstem) (fun b x l h => ?_)
    obtain ⟨rfl,rfl,hx⟩ := h
    refine ⟨rfl,rfl,fun name hn => ?_⟩
    rw [List.mem_singleton.mp hn]
    exact hx
  cases v with
  | null => exact .pure ⟨rfl,rfl,by simp [Operand.map,Operand.values]⟩
  | _ => exact hother

theorem follows_entry {column : Value} :
    Follows (do Condition.entry s (← field s column v)) (Tracing.entry s column v) OperandTells := by
  refine .bind (.read (fun _ _ _ => logs_field.given_eq)) (fun b a l h => ?_)
  obtain ⟨rfl,rfl⟩ := h
  exact follows_operand hs hstem

theorem follows_singleMember {negated : Bool} {column : Value} {values : List Value} (hne : values ≠ []) :
    Follows (singleMember s negated column values) (Tracing.singleMember s negated column values) LeafTells := by
  refine .bind (.mapM (fun v _ => follows_entry hs hstem)) (fun sqls os l h => ?_)
  obtain ⟨rfl,rfl,hlen,hos⟩ := h
  have hnil : os.map (Operand.map Prod.fst) ≠ [] := by
    rw [Ne,List.map_eq_nil_iff]
    rintro rfl
    exact hne (List.length_eq_zero_iff.mp hlen.symm)
  refine .bind follows_column (fun _ name _ h => ?_)
  obtain ⟨rfl,rfl,_⟩ := h
  have hsql := Leaf.sql_member negated name hnil
  rw [List.map_map] at hsql
  have hleaf : ∀ sql : Sql, (Leaf.member negated name (os.map (Operand.map Prod.fst))).sql = sql →
      Follows (pure sql) (pure (.member negated name os)) (fun b a l => LeafTells b a (os.flatMap Operand.values ++ ([] ++ l))) := by
    intro sql h
    refine .pure ⟨h.symm,by simp [Leaf.values],Leaf.legible_member (fun o ho => ?_)⟩
    obtain ⟨o',ho',rfl⟩ := List.mem_map.mp ho
    exact hos o' ho'
  match os, hsql with
  | [], hsql => exact hleaf _ hsql
  | [_], hsql => exact hleaf _ hsql
  | _ :: _ :: _, hsql => exact hleaf _ hsql

theorem follows_row {negated : Bool} {columns : List Value} :
    Follows (memberRow s negated columns v) (Tracing.row s columns v)
      (Tells (fun row => tupled (row.map (fun o => (o.map Prod.fst).sql))) (List.flatMap Operand.values)
        (fun row => row.length = columns.length ∧
          ∀ o ∈ row, ∀ name ∈ (o.map Prod.fst).values, Readable name)) := by
  refine .bind .view (fun m m' _ h => ?_)
  obtain ⟨rfl,rfl⟩ := h
  cases v.entries? m with
  | none => exact .failure
  | some es =>
    refine .onResult (.mapM (fun c _ => follows_entry hs hstem)) (fun sqls row l h => ?_)
    obtain ⟨rfl,rfl,hlen,hrow⟩ := h
    exact ⟨rfl,rfl,hlen,hrow⟩

theorem follows_rowMember {negated : Bool} {columns rows : List Value} (hc : columns ≠ []) (hr : rows ≠ []) :
    Follows (compositeMember s negated columns rows) (Tracing.rowMember s negated columns rows) LeafTells := by
  refine .bind (.mapM (fun v _ => follows_row hs hstem)) (fun sqls os l h => ?_)
  obtain ⟨rfl,rfl,hlen,hos⟩ := h
  refine .bind (.mapM (fun v _ => follows_listedColumn)) (fun sqls names l h => ?_)
  obtain ⟨rfl,rfl,hnames,_⟩ := h
  have hsome : names.map (fun name => some [Token.path (.ofColumn name)]) =
      (names.map (fun name => [Token.path (.ofColumn name)])).map some := by simp
  rw [hsome,nameList_some,pure_bind]
  have hnil : names ≠ [] := by
    rintro rfl
    exact hc (List.length_eq_zero_iff.mp hnames.symm)
  have hrows : os.map (List.map (Operand.map Prod.fst)) ≠ [] := by
    rw [Ne,List.map_eq_nil_iff]
    rintro rfl
    exact hr (List.length_eq_zero_iff.mp hlen.symm)
  refine .pure ⟨?_,?_,?_⟩
  · have hsql := Leaf.sql_rowMember negated hnil hrows
    simp only [List.map_map,Function.comp_def] at hsql
    exact hsql.symm
  · simp [Leaf.values]
  · refine Leaf.legible_rowMember (fun row hrow => ?_) (fun row hrow o ho => ?_)
    · obtain ⟨row',hrow',rfl⟩ := List.mem_map.mp hrow
      rw [List.length_map,(hos row' hrow').1,hnames]
    · obtain ⟨row',hrow',rfl⟩ := List.mem_map.mp hrow
      obtain ⟨o',ho',rfl⟩ := List.mem_map.mp ho
      exact (hos row' hrow').2 o' ho'

theorem follows_member {negated : Bool} {column : Value} :
    Follows (member s negated column v) (Tracing.member s negated column v) LeafTells := by
  refine .bind (.read (fun _ _ _ => logs_valuesOf.given_eq)) (fun values _ _ h => ?_)
  obtain ⟨rfl,rfl⟩ := h
  by_cases hv : values.isEmpty
  · rw [if_pos hv]
    rw [List.isEmpty_iff] at hv
    subst hv
    have hsingle : ∀ c, Follows (pure (overNothing negated)) (Tracing.singleMember s negated c []) LeafTells := by
      intro c
      rw [Tracing.singleMember,List.mapM_nil,pure_bind]
      exact .skip (fun _ _ _ => Tracing.column_stays) (fun name => .pure (leafTells_member negated name))
    have hrow : ∀ cs, Follows (pure (overNothing negated)) (Tracing.rowMember s negated cs []) LeafTells := by
      intro cs
      rw [Tracing.rowMember,List.mapM_nil,pure_bind]
      exact .skip (fun _ _ _ => Tracing.columns_stay) (fun names => .pure (leafTells_rowMember negated names))
    match columns? column with
    | none => exact hsingle column
    | some [] => exact .pure (leafTells_rowMember negated [])
    | some [c] => exact hsingle c
    | some (c :: c' :: more) => exact hrow (c :: c' :: more)
  · rw [if_neg hv]
    have hne : values ≠ [] := by simpa using hv
    match columns? column with
    | none => exact follows_singleMember hs hstem hne
    | some [] => exact .pure (leafTells_rowMember negated [])
    | some [c] => exact follows_singleMember hs hstem hne
    | some (c :: c' :: more) => exact follows_rowMember hs hstem (List.cons_ne_nil _ _) hne

theorem follows_like {any negated : Bool} {column : Value} :
    Follows (like s any negated column v) (Tracing.like s any negated column v) LeafTells := by
  refine .bind (.read (fun _ _ _ => logs_valuesOf.given_eq)) (fun values _ _ h => ?_)
  obtain ⟨rfl,rfl⟩ := h
  by_cases hv : values.isEmpty
  · rw [if_pos hv]
    rw [List.isEmpty_iff] at hv
    subst hv
    refine .skip (fun _ _ _ => Tracing.column_stays) (fun name => ?_)
    rw [List.mapM_nil,pure_bind]
    exact .pure ⟨by cases negated <;> rfl,rfl,Leaf.legible_like (by simp)⟩
  · rw [if_neg hv]
    refine .bind follows_column (fun _ name _ h => ?_)
    obtain ⟨rfl,rfl,_⟩ := h
    dsimp only
    have hpart : ∀ v ∈ values, Follows (do
        return [.path (.ofColumn name)] ++ [.text (if negated then " NOT LIKE " else " LIKE ")] ++ (← rendered s v))
        (Tracing.literal s v) (Tells (fun x => (Predicate.like negated (.ofColumn name) (.bound x.1)).sql)
          (fun x => [x]) (fun x => Readable x.1)) := by
      intro v _
      refine .onResult (follows_literal hs hstem) (fun b x l h => ?_)
      obtain ⟨rfl,rfl,hx⟩ := h
      exact ⟨rfl,rfl,hx⟩
    refine .map (.mapM hpart) (fun sqls xs l h => ?_)
    obtain ⟨rfl,rfl,hlen,hxs⟩ := h
    have hnil : xs.map Prod.fst ≠ [] := by
      rw [Ne,List.map_eq_nil_iff]
      rintro rfl
      exact hv (List.isEmpty_iff.mpr (List.length_eq_zero_iff.mp hlen.symm))
    refine ⟨?_,by simp [Leaf.values],Leaf.legible_like (fun n hn => ?_)⟩
    · have hsql := Leaf.sql_like any negated name hnil
      rw [List.map_map] at hsql
      exact hsql.symm
    · obtain ⟨x,hx,rfl⟩ := List.mem_map.mp hn
      exact hxs x hx

theorem follows_between {negated : Bool} {column low high : Value} :
    Follows (between s negated column low high) (Tracing.between s negated column low high) LeafTells := by
  refine .bind follows_column (fun _ name _ h => ?_)
  obtain ⟨rfl,rfl,_⟩ := h
  refine .bind (follows_literal hs hstem) (fun _ x _ h => ?_)
  obtain ⟨rfl,rfl,hx⟩ := h
  refine .map (follows_literal hs hstem) (fun _ y _ h => ?_)
  obtain ⟨rfl,rfl,hy⟩ := h
  refine ⟨rfl,rfl,Leaf.legible_atom rfl (Predicate.legible_of rfl (fun n hn => ?_) trivial)⟩
  rcases List.mem_append.mp hn with hn | hn
  · rw [List.mem_singleton.mp hn]
    exact hx
  · rw [List.mem_singleton.mp hn]
    exact hy

theorem follows_comparison {c : Comparison} {column : Value} :
    Follows (comparison s c column v) (Tracing.comparison s c column v) LeafTells := by
  refine .bind follows_column (fun _ name _ h => ?_)
  obtain ⟨rfl,rfl,_⟩ := h
  refine .map (follows_literal hs hstem) (fun _ x _ h => ?_)
  obtain ⟨rfl,rfl,hx⟩ := h
  refine ⟨rfl,rfl,Leaf.legible_atom rfl (Predicate.legible_of rfl (fun n hn => ?_) trivial)⟩
  rw [List.mem_singleton.mp hn]
  exact hx

theorem follows_pair {c : String × Value} : Follows (pair s c.1 c.2) (Tracing.pair s c)
    (Tells (fun l => (l.map Prod.fst).sql) Leaf.values
      (fun l => (l.map Prod.fst).Legible ∧ (l.map Prod.fst).layout.isSome)) := by
  suffices h : Follows (pair s c.1 c.2) (Tracing.pair s c)
      (fun b l lits => LeafTells b l lits ∧ (l.map Prod.fst).layout.isSome) from
    h.weaken (fun _ _ _ h => ⟨h.1.1,h.1.2.1,h.1.2.2,h.2⟩)
  unfold pair Tracing.pair
  by_cases hl : c.2.listsValues
  · rw [if_pos hl,if_pos hl]
    refine .also (follows_member hs hstem) (fun d l e h => ?_)
    obtain ⟨values,rfl⟩ := Tracing.member_text h
    exact Leaf.isSome_member (values.map (Operand.map Prod.fst))
  · rw [if_neg hl,if_neg hl]
    have hcompare : ∀ v : Value, Follows (comparison s .eq (.text c.1) v) (Tracing.comparison s .eq (.text c.1) v)
        (fun b l lits => LeafTells b l lits ∧ (l.map Prod.fst).layout.isSome) := by
      intro v
      refine .also (follows_comparison hs hstem) (fun d l e h => ?_)
      obtain ⟨name,_,_,h⟩ := Tracing.bind_eq_some.mp h
      obtain ⟨x,_,_,h⟩ := Tracing.bind_eq_some.mp h
      cases h
      rfl
    obtain ⟨name,v⟩ := c
    cases v with
    | null =>
      have hnull : Follows (do return (← columnName s (.text name)) ++ [.text " IS NULL"])
          (do return .isNull (← Tracing.column (.text name)))
          (fun b l lits => LeafTells b l lits ∧ (l.map Prod.fst).layout.isSome) := by
        refine .map follows_column (fun _ t _ h => ?_)
        obtain ⟨rfl,rfl,_⟩ := h
        exact ⟨⟨rfl,rfl,Leaf.legible_atom rfl (Predicate.legible_of rfl nofun trivial)⟩,rfl⟩
      exact hnull
    | _ => exact hcompare _

def TreeTells : Sql → Tree (String × Value) → List (String × Value) → Prop :=
  Tells (fun t => (t.map Prod.fst).sql) Tree.values (fun t => (t.map Prod.fst).Legible)

theorem follows_pairs {columns : List (String × Value)} (hne : columns ≠ []) :
    Follows (pairs s columns) (do return .hash (← columns.mapM (Tracing.pair s))) TreeTells := by
  refine .bind (.mapM (fun c _ => follows_pair hs hstem)) (fun sqls leaves l h => ?_)
  obtain ⟨rfl,rfl,hlen,hleaves⟩ := h
  have hnil : leaves.map (Leaf.map Prod.fst) ≠ [] := by
    rw [Ne,List.map_eq_nil_iff]
    rintro rfl
    exact hne (List.length_eq_zero_iff.mp hlen.symm)
  have hsome : ∀ l ∈ leaves.map (Leaf.map Prod.fst), l.layout.isSome := by
    intro l hl
    obtain ⟨l',hl',rfl⟩ := List.mem_map.mp hl
    exact (hleaves l' hl').2
  have hlegible : ((Tree.hash leaves).map Prod.fst).Legible := by
    refine Tree.legible_hash (fun l hl => ?_)
    obtain ⟨l',hl',rfl⟩ := List.mem_map.mp hl
    exact (hleaves l' hl').1
  have hsql := Tree.sql_hash hsome hnil
  rw [List.map_map] at hsql
  have hpure : ∀ sql : Sql, ((Tree.hash leaves).map Prod.fst).sql = sql → Follows (pure sql) (pure (.hash leaves))
      (fun b a l => TreeTells b a (leaves.flatMap Leaf.values ++ l)) :=
    fun sql h => .pure ⟨h.symm,by simp [Tree.values],hlegible⟩
  match leaves, hsql with
  | [], hsql => exact hpure _ hsql
  | [_], hsql => exact hpure _ hsql
  | _ :: _ :: _, hsql => exact hpure _ hsql

theorem follows_hash : Follows (simple s v) (Tracing.hash s v) TreeTells := by
  refine .bind .view (fun m _ _ h => ?_)
  obtain ⟨rfl,rfl⟩ := h
  cases typed m v with
  | error x => exact .failure
  | ok t =>
    cases t with
    | pairs columns =>
      cases columns with
      | nil => exact .failure
      | cons c columns => exact follows_pairs hs hstem (List.cons_ne_nil c columns)
    | _ => exact .failure

theorem follows_leaf {op : Operator} {operands : List Value} {inner : Build (List Sql)} :
    Follows (operate s op operands inner) (Tracing.leaf s op operands) LeafTells := by
  unfold Tracing.leaf
  split
  · exact follows_between hs hstem
  · exact follows_member hs hstem
  · exact follows_like hs hstem
  · exact follows_comparison hs hstem
  · exact .failure

theorem follows_operate {op : Operator} {operands : List Value} {inner : Build (List Sql)}
    {trees : Tracing (List (Tree (String × Value)))}
    (h : Follows inner trees (Tells (List.map (fun t => (t.map Prod.fst).sql)) (List.flatMap Tree.values)
      (fun ts => ∀ t ∈ ts, (t.map Prod.fst).Legible))) :
    Follows (operate s op operands inner) (Tracing.operate s op operands trees) TreeTells := by
  have hnode : ∀ any, Follows (do return connected (connective any) (← inner)) (do return .node any (← trees))
      TreeTells := by
    intro any
    refine .map h (fun sqls ts l h => ?_)
    obtain ⟨rfl,rfl,hts⟩ := h
    have hmap : (Tree.node any ts).map Prod.fst = .node any (ts.map (Tree.map Prod.fst)) := by
      rw [Tree.map,Tree.mapAll_eq]
    refine ⟨?_,by rw [Tree.values,Tree.valuesAll_eq],?_⟩
    · show _ = ((Tree.node any ts).map Prod.fst).sql
      rw [hmap,Tree.sql_node,List.map_map]
      rfl
    · show ((Tree.node any ts).map Prod.fst).Legible
      rw [hmap]
      refine Tree.legible_node (fun t ht => ?_)
      obtain ⟨t',ht',rfl⟩ := List.mem_map.mp ht
      exact hts t' ht'
  have hleaf : Follows (operate s op operands inner) (do return .leaf (← Tracing.leaf s op operands)) TreeTells :=
    .onTrace (follows_leaf hs hstem) (fun _ _ _ h => h)
  cases op with
  | and => exact hnode false
  | or => exact hnode true
  | _ => exact hleaf

end Tests

theorem follows_operands {operands : List Value} (h : ∀ o ∈ operands, Follows (compile s o) (Tracing.tree s o) TreeTells) :
    Follows (compileAll s operands) (Tracing.trees s operands)
      (Tells (List.map (fun t => (t.map Prod.fst).sql)) (List.flatMap Tree.values)
        (fun ts => ∀ t ∈ ts, (t.map Prod.fst).Legible)) := by
  rw [compileAll_eq_mapM,Tracing.trees_eq_mapM]
  refine .weaken (.mapM (fun o ho => ?_)) (fun _ _ _ h => ⟨h.1,h.2.1,h.2.2.2⟩)
  unfold asOperand
  split
  · next hs =>
    -- a symbol has no tree
    intro d t e ht
    cases o <;> simp only [symbol?,reduceCtorEq] at hs <;> cases ht
  · exact h o ho

theorem follows_compile (hs : s.Binds) (hstem : Readable s.stem) (v : Value) :
    Follows (compile s v) (Tracing.tree s v) TreeTells := by
  induction v using induct with
  | expression sql params => exact .failure
  | operation v op operands h ih =>
    rw [compile_of_operation? h,Tracing.tree_of_operation? h]
    exact follows_operate hs hstem (follows_operands ih)
  | empty v h =>
    rw [Tracing.tree_of_empty h]
    exact .failure
  | unread v x h =>
    rw [Tracing.tree_of_unread h]
    exact .failure
  | bare v hb hx =>
    rw [compile_of_bare hb hx,Tracing.tree_of_bare hb]
    exact follows_hash hs hstem

/-! ## What the text says -/

theorem Tree.read_render {q : Char} (hq : IsQuote q) (hd : s.dialect.quote = some q) {t : Tree String}
    (h : t.Legible) : Reader.read q (s.dialect.render t.sql) = some t.formula := by
  rw [Tree.formula_eq]
  unfold Tree.sql
  cases hx : t.layout with
  | none => rfl
  | some x => exact Layout.read_render hq hd (h x hx)

end SqlCompose
