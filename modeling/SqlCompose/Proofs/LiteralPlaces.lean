import SqlCompose.Proofs.ConditionShapes
import SqlCompose.Proofs.Literals

/-! # Where the literals are placed

A part that succeeds gives out one placeholder for each of its literals, in their order, and its SQL has exactly
these placeholders from left to right.
-/
namespace SqlCompose
open Build Reads

variable {s : Setting} {d : Draft} {α β γ : Type} {v : Value}

namespace Sql

def placeholders (sql : Sql) : List String :=
  sql.filterMap fun
    | .placeholder name => some name
    | _ => none

variable {a b : Sql} {parts : List Sql}

@[simp] theorem placeholders_nil : placeholders [] = [] := rfl

@[simp] theorem placeholders_append : (a ++ b).placeholders = a.placeholders ++ b.placeholders :=
  List.filterMap_append

@[simp] theorem placeholders_cons_text (t : String) (a : Sql) :
    placeholders (.text t :: a) = a.placeholders := rfl

theorem placeholders_of_isEmpty (h : a.isEmpty) : a.placeholders = [] := by
  refine List.filterMap_eq_nil_iff.mpr (fun t ht => ?_)
  have := List.all_eq_true.mp h t ht
  cases t <;> simp_all [Token.isEmpty]

theorem placeholders_join (separator : String) (parts : List Sql) :
    (join separator parts).placeholders = parts.flatMap placeholders := by
  unfold join
  induction parts with
  | nil => rfl
  | cons a parts ih =>
    cases parts with
    | nil => simp [Text.between]
    | cons b parts =>
      simp only [Text.between,List.flatMap_cons,placeholders_append,placeholders_cons_text,placeholders_nil,
        List.append_nil] at ih ⊢
      rw [ih]

@[simp] theorem placeholders_commas (parts : List Sql) : (commas parts).placeholders = parts.flatMap placeholders :=
  placeholders_join ", " parts

@[simp] theorem placeholders_alone (a : Sql) : a.alone.placeholders = a.placeholders := by
  unfold alone
  split <;> rfl

/-- Empty parts may be left out. -/
theorem placeholders_filter (parts : List Sql) :
    (parts.filter (fun part => !part.isEmpty)).flatMap placeholders = parts.flatMap placeholders := by
  induction parts with
  | nil => rfl
  | cons a parts ih =>
    by_cases h : a.isEmpty
    · simp [h,ih,placeholders_of_isEmpty h]
    · simp [h,ih]

@[simp] theorem placeholders_column (name : String) : (column name).placeholders = [] := by
  unfold column
  split <;> rfl

@[simp] theorem placeholders_table (name : String) : (table name).placeholders = [] := by
  unfold table
  split <;> rfl

@[simp] theorem placeholders_aliasedColumn (name : String) : (aliasedColumn name).placeholders = [] := by
  unfold aliasedColumn
  split
  · rfl
  · split <;> simp

@[simp] theorem placeholders_aliasedTable (name : String) : (aliasedTable name).placeholders = [] := by
  unfold aliasedTable
  split
  · rfl
  · split <;> simp

end Sql

def Logs (d : Draft) (p : Build α) (literals : List Value) (post : α → List String → Prop) : Prop :=
  ∀ a e, p.runOn d = (.ok a,e) →
    ∃ names, e.given = d.given ++ names.zip literals ∧ names.length = literals.length ∧ post a names

namespace Logs
variable {p : Build α} {f : α → Build β} {l more : List Value} {post post' : α → List String → Prop}
  {goal : β → List String → Prop}

theorem pure {a : α} (h : post a []) : Logs d (Pure.pure a) [] post := by
  rintro b e ⟨⟩
  exact ⟨[],by simp,rfl,h⟩

theorem fail (x : Fault) : Logs d (Build.fail x) l post := fun _ _ h => nomatch h

theorem misuse (x : Misuse) : Logs d (Build.misuse x) l post := fun _ _ h => nomatch h

theorem weaken (hp : Logs d p l post) (h : ∀ a names, post a names → post' a names) : Logs d p l post' := by
  intro a e hr
  obtain ⟨names,hg,hl,ha⟩ := hp a e hr
  exact ⟨names,hg,hl,h a names ha⟩

theorem bind {rest : α → Reads} (hp : Logs d p l post)
    (hf : ∀ a e names, post a names → Logs e (f a) (rest a e) (fun b more => goal b (names ++ more))) :
    Logs d (p >>= f) (l ++ after p rest d) goal := by
  intro b e hr
  obtain ⟨a,c,hp',hf'⟩ := runOn_bind_ok.mp hr
  obtain ⟨names,hg,hl,ha⟩ := hp a c hp'
  obtain ⟨more,hg',hl',hb⟩ := hf a c names ha b e hf'
  have hafter : after p rest d = rest a c := by simp only [after,hp']
  refine ⟨names ++ more,?_,?_,hb⟩
  · rw [hg',hg,hafter,List.zip_append hl,List.append_assoc]
  · rw [hafter,List.length_append,List.length_append,hl,hl']

/-- A step without literals first. -/
theorem after {rest : α → Reads} (hp : Logs d p [] post)
    (hf : ∀ a e names, post a names → Logs e (f a) (rest a e) (fun b more => goal b (names ++ more))) :
    Logs d (p >>= f) (Reads.after p rest d) goal := by
  have h := bind hp hf
  rwa [List.nil_append] at h

/-- A step behind which nothing is read. -/
theorem before (hp : Logs d p l post)
    (hf : ∀ a e names, post a names → Logs e (f a) [] (fun b more => goal b (names ++ more))) :
    Logs d (p >>= f) l goal := by
  have h : Logs d (p >>= f) (l ++ Reads.after p (fun _ => nothing) d) goal := bind hp hf
  have hn : Reads.after p (fun _ => nothing) d = [] := by
    unfold Reads.after
    split <;> rfl
  rwa [hn,List.append_nil] at h

theorem map {g : α → β} (hp : Logs d p l post) (h : ∀ a names, post a names → goal (g a) names) :
    Logs d (p >>= fun a => Pure.pure (g a)) l goal :=
  before hp (fun a _ names ha => .pure (by simpa using h a names ha))

theorem get {f : Draft → Build β} (h : Logs d (f d) l goal) : Logs d (MonadState.get >>= f) l goal := by
  intro b e hr
  rw [runOn_bind,runOn_get] at hr
  exact h b e hr

theorem view {f : Memory → Build β} (h : Logs d (f (d.view s)) l goal) : Logs d (Build.view s >>= f) l goal := by
  intro b e hr
  rw [runOn_bind,runOn_view] at hr
  exact h b e hr

/-- A step that leaves the log as it is. -/
theorem silent {a : α} {e : Draft} (h : p.runOn d = (.ok a,e)) (hg : e.given = d.given) (ha : post a []) :
    Logs d p [] post := by
  intro b e' hr
  rw [h] at hr
  cases hr
  exact ⟨[],by simp [hg],rfl,ha⟩

end Logs

def Placed (post : β → List String → Prop) : List β → List String → Prop
  | [], names => names = []
  | b :: bs, names => ∃ first rest, names = first ++ rest ∧ post b first ∧ Placed post bs rest

theorem placed_flatMap {bs : List β} {names : List String} {f : β → List String}
    (h : Placed (fun b names => f b = names) bs names) : bs.flatMap f = names := by
  induction bs generalizing names with
  | nil => exact h.symm
  | cons b bs ih =>
    obtain ⟨first,rest,rfl,hb,hr⟩ := h
    rw [List.flatMap_cons,hb,ih hr]

theorem placed_forall {bs : List β} {names : List String} {P : β → Prop}
    (h : Placed (fun b names => names = [] ∧ P b) bs names) : names = [] ∧ ∀ b ∈ bs, P b := by
  induction bs generalizing names with
  | nil => exact ⟨h,by simp⟩
  | cons b bs ih =>
    obtain ⟨first,rest,rfl,⟨rfl,hb⟩,hr⟩ := h
    obtain ⟨rfl,hbs⟩ := ih hr
    exact ⟨rfl,by simpa [hb] using hbs⟩

namespace Logs

theorem mapM {l : List α} {f : α → Build β} {reads : α → Reads} {goal : β → List String → Prop}
    (h : ∀ a ∈ l, ∀ e, Logs e (f a) (reads a e) goal) : Logs d (l.mapM f) (inTurn f reads l d) (Placed goal) := by
  induction l generalizing d with
  | nil =>
    rw [List.mapM_nil]
    exact .pure rfl
  | cons a l ih =>
    rw [List.mapM_cons]
    refine bind (h a (.head _) d) (fun b e names hb => ?_)
    refine map (ih (fun a ha => h a (.tail _ ha))) (fun bs more hbs => ?_)
    exact ⟨names,more,rfl,hb,hbs⟩

end Logs

/-- Where no placeholder is given out there are no literals. -/
theorem Logs.bare {p : Build α} {l : List Value} {post : α → List String → Prop} (hp : Logs d p l post)
    (h : ∀ a names, post a names → names = []) : Logs d p [] post := by
  intro a e hr
  obtain ⟨names,hg,hl,ha⟩ := hp a e hr
  have hn := h a names ha
  subst hn
  exact ⟨[],by simpa using hg,rfl,ha⟩

theorem Logs.mapM_silent {l : List α} {f : α → Build β} {P : β → Prop}
    (h : ∀ a e, Logs e (f a) [] (fun b names => names = [] ∧ P b)) :
    Logs d (l.mapM f) [] (Placed (fun b names => names = [] ∧ P b)) := by
  have hall : Logs d (l.mapM f) (inTurn f (fun _ => nothing) l d) (Placed (fun b names => names = [] ∧ P b)) :=
    .mapM (fun a _ e => h a e)
  exact hall.bare (fun bs names hp => (placed_forall hp).1)

/-- How the result of a step is used does not change what is read. -/
theorem Reads.inTurn_map {step : α → Build β} {g : α → β → γ} {reads : α → Reads} (l : List α) :
    inTurn (fun a => do return g a (← step a)) reads l = inTurn step reads l := by
  induction l with
  | nil => rfl
  | cons a l ih =>
    funext d
    simp only [inTurn,sequel,after,ih,runOn_bind]
    rcases (step a).runOn d with ⟨x | b,e⟩ <;> rfl

def Bare (sql : Sql) (names : List String) : Prop := names = [] ∧ sql.placeholders = []

def Shows (sql : Sql) (names : List String) : Prop := sql.placeholders = names

def Silent (_ : α) (names : List String) : Prop := names = []

namespace Build

theorem logs_bindValue : Logs d (bindValue s v) [v] (fun name names => names = [name]) := by
  by_cases hb : s.Binds
  · intro a e h
    rw [runOn_bindValue hb] at h
    cases h
    exact ⟨[d.nextName s],rfl,rfl,rfl⟩
  · obtain ⟨x,hx⟩ := (runOn_of_not_binds (d := d) (v := v) hb []).1
    intro a e h
    rw [hx] at h
    cases h

theorem logs_adopt (more : Entries) : Logs d (adopt s more) [] Silent := by
  by_cases hb : s.Binds
  · exact .silent (runOn_adopt hb more) rfl rfl
  · obtain ⟨x,hx⟩ := (runOn_of_not_binds (d := d) (v := .null) hb more).2
    intro a e h
    rw [hx] at h
    cases h

theorem logs_rendered : Logs d (rendered s v) (literal v d) Shows := by
  unfold rendered
  split
  · exact .map (logs_adopt _) (fun _ names h => h.symm)
  · next h =>
    have hl : literal v d = [v] := by
      unfold literal
      split
      · next sql params => exact absurd rfl (h sql params)
      · rfl
    rw [hl]
    refine .map logs_bindValue (fun name names hn => ?_)
    rw [hn]
    rfl

theorem logs_next? {cell : Nat} : Logs d (next? cell) [] Silent := by
  unfold next?
  apply Logs.get
  split
  · exact .pure rfl
  · exact .silent rfl rfl rfl

theorem logs_elements : Logs d (elements s v) [] Silent := by
  unfold elements
  apply Logs.view
  split
  · exact .misuse _
  · split
    · exact .silent rfl rfl rfl
    · exact .pure rfl

theorem logs_eachOfStream {f : Value → Build β} {reads : Value → Reads} {goal : β → List String → Prop} {cell limit : Nat}
    (h : ∀ v e, Logs e (f v) (reads v e) goal) :
    Logs d (eachOfStream f cell limit) (ofStream f reads cell limit d) (Placed goal) := by
  induction limit generalizing d with
  | zero => exact .pure rfl
  | succ limit ih =>
    unfold eachOfStream ofStream
    refine .after logs_next? (fun o e names hn => ?_)
    rw [hn]
    cases o with
    | none => exact .pure rfl
    | some v =>
      refine .bind (h v e) (fun b e' first hb => ?_)
      exact .map ih (fun bs rest hbs => ⟨first,rest,by simp,hb,hbs⟩)

theorem logs_eachOfRange {f : Value → Build β} {reads : Value → Reads} {goal : β → List String → Prop}
    {first step : Int} {left : Nat} (h : ∀ v e, Logs e (f v) (reads v e) goal) :
    Logs d (eachOfRange f first step left) (ofRange f reads first step left d) (Placed goal) := by
  induction left generalizing d first with
  | zero => exact .pure rfl
  | succ left ih =>
    unfold eachOfRange ofRange
    refine .bind (h _ d) (fun b e' names hb => ?_)
    exact .map ih (fun bs rest hbs => ⟨names,rest,rfl,hb,hbs⟩)

theorem logs_eachBinding {f : Value × Value → Build β} {reads : Value × Value → Reads} {goal : β → List String → Prop}
    {size left : Nat} (h : ∀ v e, Logs e (f v) (reads v e) goal) :
    Logs d (eachBinding f size left) (ofBindings f reads size left d) (Placed goal) := by
  induction left generalizing d with
  | zero => exact .pure rfl
  | succ left ih =>
    unfold eachBinding ofBindings
    apply Logs.get
    cases d.bindings[size - (left + 1)]? with
    | none => exact .pure rfl
    | some b =>
      refine .bind (h b d) (fun c e names hc => ?_)
      apply Logs.get
      split
      · exact .misuse _
      · exact .map ih (fun bs rest hbs => ⟨names,rest,rfl,hc,hbs⟩)

theorem logs_eachEntry {f : Value × Value → Build β} {reads : Value × Value → Reads} {goal : β → List String → Prop}
    (h : ∀ v e, Logs e (f v) (reads v e) goal) :
    Logs d (eachEntry s v f) (ofEntries s v f reads d) (Placed goal) := by
  unfold eachEntry ofEntries
  apply Logs.view
  cases v.entries? (d.view s) with
  | none => exact .misuse _
  | some es =>
    dsimp only
    split
    · exact logs_eachBinding h
    · exact .mapM (fun a _ e => h a e)

/-- Members that are at hand as a whole. -/
theorem logs_members {f : Value → Build β} {reads : Value → Reads} {goal : β → List String → Prop}
    (h : ∀ v e, Logs e (f v) (reads v e) goal) :
    Logs d (do
      match v.elements? (← view s) with
      | none => misuse .wrongType
      | some items =>
        if s.receives v then eachBinding (fun e => f e.1) items.length items.length else items.mapM f)
      (match v.elements? (d.view s) with
      | none => []
      | some items =>
        if s.receives v then ofBindings (fun e => f e.1) (fun e => reads e.1) items.length items.length d
        else inTurn f reads items d) (Placed goal) := by
  apply Logs.view
  cases v.elements? (d.view s) with
  | none => exact .misuse _
  | some items =>
    dsimp only
    split
    · exact logs_eachBinding (fun e => h e.1)
    · exact .mapM (fun a _ e => h a e)

theorem logs_each {f : Value → Build β} {reads : Value → Reads} {goal : β → List String → Prop}
    (h : ∀ v e, Logs e (f v) (reads v e) goal) :
    Logs d (each s v f) (ofElements s v f reads d) (Placed goal) := by
  have hmembers := logs_members (d := d) (s := s) (v := v) h
  cases v with
  | stream cell => exact .get (logs_eachOfStream h)
  | range start stop step => exact logs_eachOfRange h
  | _ => exact hmembers

/-! ## Names -/

theorem logs_soughtInStream {wanted : String} {cell limit : Nat} :
    Logs d (soughtInStream wanted cell limit) [] Silent := by
  induction limit generalizing d with
  | zero => exact .pure rfl
  | succ limit ih =>
    unfold soughtInStream
    refine .before logs_next? (fun o e names hn => ?_)
    rw [hn]
    cases o with
    | none => exact .pure rfl
    | some v =>
      dsimp only
      split
      · exact .pure rfl
      · exact ih

theorem logs_holds {needle : Char} : Logs d (holds s needle v) [] Silent := by
  unfold holds
  dsimp only
  split
  · exact .pure rfl
  · split
    · exact .pure rfl
    · exact .pure rfl
    · exact .pure rfl
    · exact .pure rfl
    · exact .pure rfl
    · exact .pure rfl
    · exact .misuse _
    · exact .get logs_soughtInStream
    · exact .map logs_elements (fun _ _ h => h)

theorem logs_shown : Logs d (shown s v) [] Bare := .view (.pure ⟨rfl,rfl⟩)

theorem logs_columnName : Logs d (columnName s v) [] Bare := by
  unfold columnName
  split
  · exact .pure ⟨rfl,Sql.placeholders_column _⟩
  · refine .before logs_holds (fun _ e names hn => ?_)
    rw [hn]
    split
    · exact logs_shown
    · refine .before logs_holds (fun _ e names hn => ?_)
      rw [hn]
      split
      · exact .misuse _
      · split
        · exact logs_shown
        · exact .pure ⟨rfl,Sql.placeholders_column _⟩
        · exact .misuse _

theorem logs_listedColumn :
    Logs d (listedColumn s v) [] (fun o names => names = [] ∧ ∀ sql, o = some sql → sql.placeholders = []) := by
  unfold listedColumn
  split
  · exact .pure ⟨rfl,by simp⟩
  · refine .before logs_holds (fun _ e names hn => ?_)
    rw [hn]
    split
    · exact .pure ⟨rfl,by simp⟩
    · exact .map logs_columnName (fun sql names h => ⟨h.1,by rintro _ ⟨⟩; exact h.2⟩)

theorem logs_tableName : Logs d (tableName s v) [] Bare := by
  unfold tableName
  split
  · exact .pure ⟨rfl,Sql.placeholders_table _⟩
  · refine .before logs_holds (fun _ e names hn => ?_)
    rw [hn]
    split
    · exact logs_shown
    · exact .misuse _

theorem some_mem_of_mapM {names : List (Option Sql)} {sqls : List Sql} (h : names.mapM id = some sqls) {sql : Sql}
    (hm : sql ∈ sqls) : some sql ∈ names := by
  induction names generalizing sqls with
  | nil =>
    cases h
    cases hm
  | cons o names ih =>
    rw [List.mapM_cons] at h
    simp only [id,bind,Option.bind_eq_some_iff,pure,Option.some.injEq] at h
    obtain ⟨first,rfl,rest,hr,rfl⟩ := h
    rcases List.mem_cons.mp hm with rfl | hm
    · exact .head _
    · exact .tail _ (ih hr hm)

theorem logs_nameList {names : List (Option Sql)}
    (h : ∀ o ∈ names, ∀ sql, o = some sql → sql.placeholders = []) : Logs d (nameList names) [] Bare := by
  unfold nameList
  split
  · next sqls hs =>
    refine .pure ⟨rfl,?_⟩
    rw [Sql.placeholders_commas,List.flatMap_eq_nil_iff]
    exact fun sql hm => h _ (some_mem_of_mapM hs hm) sql rfl
  · exact .misuse _

end Build

/-! ## Conditions -/

namespace Condition
variable {column : Value} {columns values operands : List Value} {negated any : Bool}

theorem entry_of_ne (h : v ≠ .null) : entry s v = rendered s v := by
  cases v <;> first | rfl | exact absurd rfl h

theorem entryReads_of_ne (h : v ≠ .null) : entryReads v = literal v := by
  cases v <;> first | rfl | exact absurd rfl h

theorem logs_entry : Logs d (entry s v) (entryReads v d) Shows := by
  by_cases h : v = .null
  · subst h
    exact .pure rfl
  · rw [entry_of_ne h,entryReads_of_ne h]
    exact logs_rendered

theorem logs_field : Logs d (field s column v) [] Silent := by
  unfold field
  apply Logs.view
  split
  · exact .pure rfl
  · split
    · exact .pure rfl
    · exact .misuse _

theorem logs_valuesOf : Logs d (valuesOf s v) [] Silent := by
  unfold valuesOf
  split
  · exact logs_elements
  · exact .pure rfl

/-- The entry under a column. -/
theorem logs_fieldEntry : Logs d (do entry s (← field s column v)) (after (field s column v) entryReads d) Shows := by
  refine .after logs_field (fun w e names hn => ?_)
  rw [hn]
  exact logs_entry

theorem logs_singleMember :
    Logs d (singleMember s negated column values) (singleReads s column values d) Shows := by
  unfold singleMember singleReads
  refine .before (.mapM (fun w _ e => logs_fieldEntry)) (fun entries e names he => ?_)
  have hp := placed_flatMap he
  refine .before logs_columnName (fun name e' more hm => ?_)
  obtain ⟨rfl,hn⟩ := hm
  split
  · apply Logs.pure
    simpa [Shows,hn] using hp
  · apply Logs.pure
    simpa [Shows,hn,tupled,parenthesized] using hp

theorem logs_memberRow : Logs d (memberRow s negated columns v) (rowReads s columns v d) Shows := by
  unfold memberRow rowReads
  apply Logs.view
  split
  · exact .fail _
  · refine .map (.mapM (fun c _ e => logs_fieldEntry)) (fun parts names hp => ?_)
    have := placed_flatMap hp
    simpa [Shows,tupled,parenthesized] using this

theorem logs_compositeMember :
    Logs d (compositeMember s negated columns values) (inTurn (memberRow s negated columns) (rowReads s columns) values d)
      Shows := by
  unfold compositeMember
  refine .before (.mapM (fun w _ e => logs_memberRow)) (fun rows e names hr => ?_)
  have hp := placed_flatMap hr
  refine .before (.mapM_silent (fun c e => logs_listedColumn)) (fun listed e' more hl => ?_)
  obtain ⟨rfl,hbare⟩ := placed_forall hl
  refine .before (logs_nameList hbare) (fun sql e'' last hs => ?_)
  obtain ⟨rfl,hs⟩ := hs
  apply Logs.pure
  simpa [Shows,hs,tupled,parenthesized] using hp

theorem shows_overNothing : Shows (overNothing negated) [] := by
  cases negated <;> rfl

theorem logs_member : Logs d (member s negated column v) (memberReads s negated column v d) Shows := by
  unfold member memberReads
  refine .after logs_valuesOf (fun values e names hn => ?_)
  rw [hn]
  split
  · exact .pure shows_overNothing
  · rcases columns? column with _ | (_ | ⟨single,_ | ⟨second,more⟩⟩)
    · exact logs_singleMember
    · exact .pure shows_overNothing
    · exact logs_singleMember
    · exact logs_compositeMember

theorem logs_like : Logs d (like s any negated column v) (likeReads s column v d) Shows := by
  unfold like likeReads
  refine .after logs_valuesOf (fun values e names hn => ?_)
  rw [hn]
  split
  · exact .pure shows_overNothing
  · refine .after logs_columnName (fun name e' names hn => ?_)
    obtain ⟨rfl,hname⟩ := hn
    rw [← inTurn_map (g := fun _ sql => name ++ [.text (if negated then " NOT LIKE " else " LIKE ")] ++ sql)]
    have hpart : ∀ w e, Logs e (do return name ++ [.text (if negated then " NOT LIKE " else " LIKE ")] ++ (← rendered s w))
        (literal w e) Shows :=
      fun w e => .map logs_rendered (fun sql names h => by simpa [Shows,hname] using h)
    refine .map (.mapM (fun w _ e => hpart w e)) (fun parts names hp => ?_)
    have := placed_flatMap hp
    simpa [Shows,Sql.placeholders_join] using this

theorem logs_between {low high : Value} :
    Logs d (between s negated column low high)
      (after (columnName s column) (fun _ => sequel (rendered s low) (literal low) fun _ => literal high) d) Shows := by
  unfold between
  refine .after logs_columnName (fun name e names hn => ?_)
  obtain ⟨rfl,hn⟩ := hn
  refine .bind logs_rendered (fun low e first hl => ?_)
  refine .map logs_rendered (fun high second hh => ?_)
  simp only [Shows] at hl hh
  simp [Shows,hn,hl,hh]

theorem logs_comparison {c : Comparison} :
    Logs d (comparison s c column v) (after (columnName s column) (fun _ => literal v) d) Shows := by
  unfold comparison
  refine .after logs_columnName (fun name e names hn => ?_)
  obtain ⟨rfl,hn⟩ := hn
  refine .map logs_rendered (fun sql names hs => ?_)
  simpa [Shows,hn] using hs

theorem logs_pair {name : String} : Logs d (pair s name v) (pairReads s name v d) Shows := by
  unfold pair pairReads
  split
  · exact logs_member
  · have hvalue : Logs d (do return Sql.column name ++ [.text "="] ++ (← rendered s v)) (literal v d) Shows :=
      .map logs_rendered (fun sql names hs => by simpa [Shows] using hs)
    by_cases h : v = .null
    · subst h
      exact .pure (by simp [Shows])
    · rw [entryReads_of_ne h]
      cases v <;> first | exact hvalue | exact absurd rfl h

theorem placeholders_grouped (word : String) (parts : List Sql) :
    (grouped word parts).placeholders = parts.flatMap Sql.placeholders := by
  simp [grouped,Sql.placeholders_join]

theorem placeholders_connected (word : String) (parts : List Sql) :
    (connected word parts).placeholders = parts.flatMap Sql.placeholders := by
  rw [← Sql.placeholders_filter]
  unfold connected
  split
  · next h => rw [h]; rfl
  · next h => rw [h]; simp
  · exact placeholders_grouped word _

theorem logs_pairs {named : List (String × Value)} : Logs d (pairs s named) (pairsReads s named d) Shows := by
  unfold pairs pairsReads
  refine .before (.mapM (fun c _ e => logs_pair)) (fun parts e names hp => ?_)
  have := placed_flatMap hp
  split
  · exact .pure (by simpa [Shows] using this)
  · exact .pure (by simpa [Shows,placeholders_grouped] using this)

theorem logs_operate {op : Operator} {inner : Build (List Sql)} {reads : Reads}
    (hi : Logs d inner (reads d) (Placed Shows)) :
    Logs d (operate s op operands inner) (operateReads s op operands reads d) Shows := by
  have hconnected : ∀ word, Logs d (do return connected word (← inner)) (reads d) Shows :=
    fun word => .map hi (fun parts names hp => (placeholders_connected word parts).trans (placed_flatMap hp))
  unfold operate operateReads
  split
  · exact hconnected _
  · exact hconnected _
  · exact logs_between
  · exact .fail _
  · exact logs_member
  · exact logs_like
  · exact logs_comparison
  · exact .fail _

theorem logs_simple : Logs d (simple s v) (simpleReads s v d) Shows := by
  unfold simple simpleReads
  apply Logs.view
  cases typed (d.view s) v with
  | error x => exact .fail x
  | ok t =>
    cases t with
    | raw sql => exact .pure rfl
    | pairs named => exact logs_pairs
    | _ => exact .pure rfl

theorem reads_of_operation? {op : Operator} (h : operation? v = some (op,operands)) :
    reads s v = operateReads s op operands (readsAll s operands) := by
  rcases operation?_eq_some h with rfl | ⟨head,rfl | rfl,hop⟩
  · rw [reads]
  · rw [reads,readsForm,hop]
  · rw [reads,readsForm,hop]

theorem logs_operands (h : ∀ o ∈ operands, ∀ e, Logs e (compile s o) (reads s o e) Shows) :
    Logs d (compileAll s operands) (readsAll s operands d) (Placed Shows) := by
  induction operands generalizing d with
  | nil =>
    rw [compileAll,readsAll]
    exact .pure rfl
  | cons v vs ih =>
    have hrest := fun e => ih (d := e) (fun o ho => h o (.tail _ ho))
    rw [compileAll,readsAll]
    cases hv : symbol? v with
    | some sql =>
      have hs : sql.placeholders = [] := by
        cases v <;> simp only [symbol?,reduceCtorEq] at hv <;> cases hv <;> rfl
      exact .map (hrest d) (fun parts names hp => ⟨[],names,rfl,hs,hp⟩)
    | none =>
      refine .bind (h v (.head _) d) (fun sql e names hs => ?_)
      exact .map (hrest e) (fun parts more hp => ⟨names,more,rfl,hs,hp⟩)

theorem logs_compile (v : Value) (d : Draft) : Logs d (compile s v) (reads s v d) Shows := by
  induction v using induct generalizing d with
  | expression sql params =>
    rw [compile,reads]
    exact .map (logs_adopt _) (fun _ names h => h.symm)
  | operation v op operands h ih =>
    rw [compile_of_operation? h,reads_of_operation? h]
    exact logs_operate (logs_operands ih)
  | empty v h => rcases h with rfl | rfl <;> exact .pure rfl
  | unread v x h =>
    rw [compile_of_unread h]
    exact .fail x
  | bare v hb hx =>
    have hreads : reads s v = simpleReads s v := by
      cases v <;> first | rfl | exact hb.elim
    rw [compile_of_bare hb hx,hreads]
    exact logs_simple

end Condition

/-! ## Queries -/

namespace Join

theorem logs_compile {j : Join} : Logs d (compile s j) (Condition.reads s j.on d) Shows := by
  unfold compile
  refine .map (Condition.logs_compile j.on d) (fun condition names hc => ?_)
  split
  · next he =>
    simp only [Shows,Sql.placeholders_of_isEmpty he] at hc
    simpa [Shows] using hc
  · simpa [Shows] using hc

theorem logs_ofValue? : Logs d (do
      match ofValue? (← view s) v with
      | some j => compile s j
      | none => fail (.malformedJoin v))
    (match ofValue? (d.view s) v with
      | some j => Condition.reads s j.on d
      | none => []) Shows := by
  apply Logs.view
  cases ofValue? (d.view s) v with
  | none => exact .fail _
  | some j => exact logs_compile

theorem logs_compileEntry : Logs d (compileEntry s v) (Join.reads s v d) Shows := by
  have hother := logs_ofValue? (d := d) (s := s) (v := v)
  cases v with
  | expression sql params => exact .map (logs_adopt _) (fun _ names h => h.symm)
  | _ => exact hother

end Join

namespace Query
variable {q : Query} {compile : Nat → Build Sql} {reads : Nat → Reads}

theorem logs_items {name : String → Sql} {l : List Item} (h : ∀ t, (name t).placeholders = []) :
    Logs d (items s name l) [] Bare := by
  have hitem : ∀ (i : Item) (e : Draft), Logs e (item s name i) [] Bare := by
    intro i e
    cases i with
    | name t => exact .pure ⟨rfl,h t⟩
    | expression sql params => exact .map (logs_adopt _) (fun _ names hn => ⟨hn,rfl⟩)
  refine .map (.mapM_silent hitem) (fun parts names hp => ?_)
  obtain ⟨rfl,hbare⟩ := placed_forall hp
  refine ⟨rfl,?_⟩
  rw [Sql.placeholders_commas,List.flatMap_eq_nil_iff]
  exact hbare

theorem logs_selectClause : Logs d (selectClause s q) [] Bare := by
  unfold selectClause
  dsimp only
  split
  · exact .pure ⟨rfl,rfl⟩
  · exact .map (logs_items Sql.placeholders_aliasedColumn) (fun sql names h => ⟨h.1,h.2⟩)

theorem logs_fromClause : Logs d (fromClause s q) [] Bare := by
  unfold fromClause
  split
  · exact .pure ⟨rfl,rfl⟩
  · exact .map (logs_items Sql.placeholders_aliasedTable) (fun sql names h => ⟨h.1,h.2⟩)

theorem logs_joinClause : Logs d (joinClause s q) (inTurn (Join.compileEntry s) (Join.reads s) q.joins d) Shows := by
  unfold joinClause
  refine .map (.mapM (fun j _ e => Join.logs_compileEntry)) (fun parts names hp => ?_)
  have := placed_flatMap hp
  rwa [Shows,Sql.placeholders_join]

theorem logs_filterClause {keyword : String} :
    Logs d (filterClause s keyword v) (Condition.reads s v d) Shows := by
  unfold filterClause
  refine .map (Condition.logs_compile v d) (fun sql names h => ?_)
  split
  · next he =>
    simp only [Shows,Sql.placeholders_of_isEmpty he] at h
    exact h
  · simpa [Shows] using h

theorem logs_groupClause : Logs d (groupClause s q) [] Bare := by
  unfold groupClause
  split
  · exact .pure ⟨rfl,rfl⟩
  · exact .map (logs_items Sql.placeholders_column) (fun sql names h => ⟨h.1,h.2⟩)

theorem logs_sortKey {e : String × SortKey} : Logs d (sortKey s e) [] Bare := by
  unfold sortKey
  split
  · exact .map (logs_adopt _) (fun _ names h => ⟨h,rfl⟩)
  · exact .pure ⟨rfl,Sql.placeholders_column _⟩
  · exact .pure ⟨rfl,by simp⟩

theorem logs_orderClause : Logs d (orderClause s q) [] Bare := by
  unfold orderClause
  split
  · exact .pure ⟨rfl,rfl⟩
  · refine .map (.mapM_silent (fun e e' => logs_sortKey)) (fun parts names hp => ?_)
    obtain ⟨rfl,hbare⟩ := placed_forall hp
    refine ⟨rfl,?_⟩
    rw [Sql.placeholders_append,Sql.placeholders_commas,List.flatMap_eq_nil_iff.mpr hbare]
    rfl

theorem logs_member {c : Member} (h : ∀ cell e, Logs e (compile cell) (reads cell e) Shows) :
    Logs d (member s compile c) (memberReads s reads c d) Shows := by
  cases c with
  | sql sql => exact .pure rfl
  | query cell =>
    unfold member memberReads
    apply Logs.view
    refine .after (logs_adopt _) (fun _ e names hn => ?_)
    rw [hn]
    refine .before (h cell e) (fun sql e' names hs => ?_)
    have hand : Logs e' (modify (handed s cell)) [] Silent := .silent rfl rfl rfl
    refine .map hand (fun _ more hm => ?_)
    rw [hm]
    simpa [Shows] using hs

theorem placeholders_unionText (members : List Sql) :
    (unionText members).placeholders = members.flatMap Sql.placeholders := by
  simp [unionText,Sql.placeholders_join]

theorem logs_unionClause (h : ∀ cell e, Logs e (compile cell) (reads cell e) Shows) :
    Logs d (unionClause s compile q) (inTurn (member s compile) (memberReads s reads) q.members d) Shows := by
  unfold unionClause
  split
  · next he =>
    rw [List.isEmpty_iff.mp he]
    exact .pure rfl
  · refine .map (.mapM (fun c _ e => logs_member h)) (fun parts names hp => ?_)
    rw [Shows,placeholders_unionText]
    exact placed_flatMap hp

theorem limitClause_placeholders (q : Query) : (limitClause q).placeholders = [] := by
  unfold limitClause
  dsimp only
  split <;> rfl

/-- The clauses stand in the order in which they are written. -/
theorem logs_compileWith (h : ∀ cell e, Logs e (compile cell) (reads cell e) Shows) :
    Logs d (compileWith s compile q) (readsWith s compile reads q d) Shows := by
  unfold compileWith readsWith
  refine .after logs_selectClause (fun select e _ hselect => ?_)
  obtain ⟨rfl,hselect⟩ := hselect
  refine .after logs_fromClause (fun tables e _ htables => ?_)
  obtain ⟨rfl,htables⟩ := htables
  refine .bind logs_joinClause (fun joins e joinNames hjoins => ?_)
  refine .bind logs_filterClause (fun filter e filterNames hfilter => ?_)
  refine .after logs_groupClause (fun groups e _ hgroups => ?_)
  obtain ⟨rfl,hgroups⟩ := hgroups
  refine .bind logs_filterClause (fun groupFilter e groupNames hgroupFilter => ?_)
  refine .before (logs_unionClause h) (fun union e unionNames hunion => ?_)
  refine .map logs_orderClause (fun order _ horder => ?_)
  obtain ⟨rfl,horder⟩ := horder
  simp only [Shows] at hjoins hfilter hgroupFilter hunion
  rw [Shows,clauses,Sql.placeholders_join,Sql.placeholders_filter]
  simp [hselect,htables,hjoins,hfilter,hgroups,hgroupFilter,hunion,horder,limitClause_placeholders]

theorem logs_compile (cell : Nat) (d : Draft) : Logs d (Query.compile s cell) (Query.reads s cell d) Shows := by
  induction cell using Nat.strongRecOn generalizing d with
  | _ cell ih =>
    rw [Query.compile,Query.reads]
    refine .get (logs_compileWith (fun earlier e => ?_))
    split
    · next hlt => exact ih earlier hlt e
    · exact .misuse _

end Query

/-! ## Statements -/

namespace Statement
variable {table columns rows condition : Value}

theorem logs_columns :
    Logs d (each s columns (listedColumn s)) [] (Placed (fun o names => names = [] ∧ ∀ sql, o = some sql → sql.placeholders = [])) := by
  have hall : Logs d (each s columns (listedColumn s)) (ofElements s columns (listedColumn s) (fun _ => nothing) d)
      (Placed (fun o names => names = [] ∧ ∀ sql, o = some sql → sql.placeholders = [])) :=
    logs_each (fun v e => logs_listedColumn)
  exact hall.bare (fun bs names hp => (placed_forall hp).1)

theorem logs_insert : Logs d (insert table columns s) (insertReads s columns d) Shows := by
  unfold insert insertReads
  refine .after logs_columns (fun listed e names hl => ?_)
  obtain ⟨rfl,hlisted⟩ := placed_forall hl
  refine .before (logs_eachEntry (fun v e => logs_rendered)) (fun values e names hv => ?_)
  have hvalues := placed_flatMap hv
  refine .before logs_tableName (fun target e more ht => ?_)
  obtain ⟨rfl,htarget⟩ := ht
  refine .map (logs_nameList hlisted) (fun sql more hn => ?_)
  obtain ⟨rfl,hsql⟩ := hn
  simpa [Shows,htarget,hsql,Condition.tupled,Condition.parenthesized] using hvalues

theorem logs_batchRow {width : Nat} : Logs d (batchRow s width v) (ofElements s v (rendered s) literal d) Shows := by
  unfold batchRow
  apply Logs.view
  split
  · exact .misuse _
  · split
    · refine .map (logs_each (fun w e => logs_rendered)) (fun parts names hp => ?_)
      have := placed_flatMap hp
      simpa [Shows,Condition.tupled,Condition.parenthesized] using this
    · exact .fail _

theorem logs_batchInsert : Logs d (batchInsert table columns rows s) (batchReads s table columns rows d) Shows := by
  unfold batchInsert batchReads
  apply Logs.view
  split
  · exact .fail _
  · refine .after logs_tableName (fun target e names ht => ?_)
    obtain ⟨rfl,htarget⟩ := ht
    refine .after logs_columns (fun listed e names hl => ?_)
    obtain ⟨rfl,hlisted⟩ := placed_forall hl
    split
    · exact .fail _
    · refine .before (logs_each (fun w e => logs_batchRow)) (fun tuples e names hp => ?_)
      have htuples := placed_flatMap hp
      refine .map (logs_nameList hlisted) (fun sql more hn => ?_)
      obtain ⟨rfl,hsql⟩ := hn
      simpa [Shows,htarget,hsql,Condition.parenthesized] using htuples

theorem logs_filtered {sql : Sql} :
    Logs d (filtered s sql condition) (Condition.reads s condition d)
      (fun whole names => whole.placeholders = sql.placeholders ++ names) := by
  unfold filtered
  refine .map Query.logs_filterClause (fun filter names hf => ?_)
  split
  · next he =>
    simp only [Shows,Sql.placeholders_of_isEmpty he] at hf
    simp [← hf]
  · simpa [Shows] using hf

theorem logs_assignment {e : Value × Value} :
    Logs d (assignment s e) (after (columnName s e.1) (fun _ => literal e.2) d) Shows := by
  unfold assignment
  refine .after logs_columnName (fun name e' names hn => ?_)
  obtain ⟨rfl,hname⟩ := hn
  refine .map logs_rendered (fun sql names hs => ?_)
  simpa [Shows,hname] using hs

theorem logs_update : Logs d (update table columns condition s) (updateReads s table columns condition d) Shows := by
  unfold update updateReads
  refine .bind (logs_eachEntry (fun e e' => logs_assignment)) (fun lines e names hl => ?_)
  have hlines := placed_flatMap hl
  refine .after logs_tableName (fun target e more ht => ?_)
  obtain ⟨rfl,htarget⟩ := ht
  refine logs_filtered.weaken (fun whole more hw => ?_)
  simpa [Shows,htarget,hlines] using hw

theorem logs_delete : Logs d (delete table condition s) (deleteReads s table condition d) Shows := by
  unfold delete deleteReads
  refine .after logs_tableName (fun target e names ht => ?_)
  obtain ⟨rfl,htarget⟩ := ht
  refine logs_filtered.weaken (fun whole more hw => ?_)
  simpa [Shows,htarget] using hw

end Statement

/-- A request that succeeds has given out one placeholder for each of its literals, in their order, and these are the
placeholders of its SQL from left to right. -/
theorem Request.logs (m : Memory) (r : Request) :
    Logs (r.start s m) (r.body (r.setting s m)) (r.literals s m) Shows := by
  cases r with
  | query cell => exact Query.logs_compile cell _
  | insert table columns params => exact Statement.logs_insert
  | batchInsert table columns rows params => exact Statement.logs_batchInsert
  | update table columns condition params => exact Statement.logs_update
  | delete table condition params => exact Statement.logs_delete
  | filter spec params => exact Condition.logs_compile spec _

end SqlCompose
