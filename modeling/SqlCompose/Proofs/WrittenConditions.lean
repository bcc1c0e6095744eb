import SqlCompose.Proofs.Vacuity

/-! # Which conditions are written

A vacuous condition is written as nothing and leaves the bindings alone. Any other condition that is composed without a
fault is written as something.
-/
namespace SqlCompose
open Relation Build

variable {s : Setting} {start d d' e : Draft} {m : Memory} {v w : Value} {n : Nat} {cells : List Nat} {sql : Sql}

namespace Memory.Used

theorem query (h : start.memory.Used d.memory) (n : Nat) : d.memory.query n = start.memory.query n := by
  unfold Memory.query
  rw [h.queries]

theorem mapping (h : start.memory.Used d.memory) (home : Home) : d.memory.mapping home = start.memory.mapping home := by
  cases home with
  | cell n => simp only [Memory.mapping,h.mappings]
  | query n => simp only [Memory.mapping,h.query]

/-- All mappings but the one that receives the bindings show what they showed. -/
theorem view_mapping (h : start.memory.Used d.memory) {home : Home} (hc : s.collection ≠ .shared home) :
    (d.view s).mapping home = (start.view s).mapping home := by
  rw [Draft.view_mapping_other (fun hn => hc hn.1),Draft.view_mapping_other (fun hn => hc hn.1),h.mapping]

theorem view_fields (h : start.memory.Used d.memory) (n : Nat) : (d.view s).fields n = (start.view s).fields n := by
  rw [Draft.view_fields,Draft.view_fields]
  exact Memory.fields_of_query ⟨_,h.query n⟩

theorem typed (h : start.memory.Used d.memory) (hc : ∀ home, s.collection = .shared home → v ≠ .shared home) :
    Condition.typed (d.view s) v = Condition.typed (start.view s) v := by
  cases v with
  | shared home =>
    have hm : (d.view s).mapping home = (start.view s).mapping home := h.view_mapping (fun hs => hc home hs rfl)
    simp only [Condition.typed,Value.text?,Value.entries?,hm]
  | _ => rfl

/-- What a value stands for depends only on what the streams have left. -/
theorem listed (h : start.memory.Used d.memory) (hs : ∀ n, v = .stream n → d.memory.stream n = start.memory.stream n) :
    v.listed (d.view s) = v.listed (start.view s) := by
  unfold Value.listed
  split
  · next hl =>
    cases v with
    | stream n =>
      have hn := hs n rfl
      simp only [Value.elements?,Value.text?,Value.sequence?,Value.entries?,Value.fields?,Draft.view_stream,hn]
    | query n =>
      simp only [Value.elements?,Value.text?,Value.sequence?,Value.entries?,Value.fields?,h.view_fields]
    | _ => first | rfl | cases hl
  · rfl

/-- What is empty stays empty. -/
theorem listed_nil (h : start.memory.Used d.memory) (hv : v.listed (start.view s) = []) : v.listed (d.view s) = [] := by
  rw [h.listed,hv]
  rintro n rfl
  have hn : start.memory.stream n = [] := by
    simpa [Value.listed,Value.listsValues,Value.elements?,Value.text?,Value.sequence?,Value.entries?,Value.fields?,
      Draft.view_stream] using hv
  rw [hn]
  refine List.eq_nil_iff_forall_not_mem.mpr (fun w hw => ?_)
  have := h.streams n w hw
  rw [hn] at this
  cases this

end Memory.Used

namespace Condition

/-- What is asked of a test for its condition to be pruned: what a vacuous test uses up no other test lists, and no
test is the collection that receives the bindings. -/
structure Prunable (s : Setting) (start : Draft) (cells : List Nat) (t : Test) : Prop where
  columns : ∀ c ∈ t.columns, c.IsText
  worded : ∀ params, t ≠ .simple (.expression "" params)
  apart : ∀ home, s.collection = .shared home → t ≠ .simple (.shared home)
  spent : t.vacuous (start.view s) → ∀ n, .stream n ∈ t.lists (start.view s) → n ∈ cells
  kept : t.vacuous (start.view s) = false → ∀ n, .stream n ∈ t.lists (start.view s) → n ∉ cells

variable {t : Test} {op : Operator} {operands : List Value} {column : Value} {any negated : Bool}

namespace Prunable

theorem typed (h : Prunable s start cells (.simple v)) (hu : start.memory.Used d.memory) :
    typed (d.view s) v = Condition.typed (start.view s) v :=
  hu.typed (fun home hs hv => h.apart home hs (congrArg Test.simple hv))

theorem lists (h : Prunable s start cells t) (hu : start.memory.Used d.memory) :
    t.lists (d.view s) = t.lists (start.view s) := by
  cases t with
  | operation op operands =>
    rcases operands with _ | ⟨a,_ | ⟨b,_ | ⟨c,rest⟩⟩⟩ <;> cases op <;> rfl
  | simple v => simp only [Test.lists,Test.pairLists,h.typed hu]

/-- A test that says something looks into no stream that is left out of account. -/
theorem allows (h : Prunable s start cells t) (hv : t.vacuous (start.view s) = false) :
    (Mirror.without s start.memory cells).Allows t where
  columns c hc _ := .inl (h.columns c hc)
  mapping _ _ _ _ _ := trivial
  streams hu v hm n hn := by
    have hm : v ∈ t.lists (start.view s) := h.lists hu ▸ hm
    exact h.kept hv n (hn ▸ hm)
  rows _ _ _ _ _ _ := trivial

end Prunable

/-! ## Vacuous conditions -/

/-- The values that a value stands for, and what is used up for them. -/
theorem valuesOf_eq {vs : List Value} (h : (valuesOf s v).runOn d = (.ok vs,e)) :
    vs = v.listed (d.view s) ∧ (e = d ∨ ∃ n, v = .stream n ∧ e = d.drained n []) := by
  unfold valuesOf at h
  unfold Value.listed
  by_cases hl : v.listsValues
  · rw [if_pos hl] at h ⊢
    unfold elements at h
    rw [runOn_bind,runOn_view] at h
    cases hh : v.held (d.view s) with
    | error x =>
      simp only [hh] at h
      cases h
    | ok items =>
      simp only [hh] at h
      rw [elements_of_held hh]
      cases v with
      | stream n =>
        cases h
        exact ⟨rfl,.inr ⟨n,rfl,rfl⟩⟩
      | _ =>
        cases h
        exact ⟨rfl,.inl rfl⟩
  · rw [if_neg hl] at h ⊢
    cases h
    exact ⟨rfl,.inl rfl⟩

theorem quiet_valuesOf {vs : List Value} (hs : ∀ n, v = .stream n → n ∈ cells)
    (h : (valuesOf s v).runOn d = (.ok vs,e)) : vs = v.listed (d.view s) ∧ e.without cells = d.without cells := by
  obtain ⟨hvs,rfl | ⟨n,rfl,rfl⟩⟩ := valuesOf_eq h
  · exact ⟨hvs,rfl⟩
  · refine ⟨hvs,?_⟩
    simp only [Draft.without,Draft.drained,Memory.without_setStream (hs n rfl)]

theorem quiet_member (hs : ∀ n, v = .stream n → n ∈ cells)
    (hv : (columns? column).elim false List.isEmpty || (v.listed (d.view s)).isEmpty)
    (h : (member s true column v).runOn d = (.ok sql,e)) : sql.isEmpty ∧ e.without cells = d.without cells := by
  obtain ⟨vs,c,hvs,hrest⟩ := runOn_bind_ok.mp h
  obtain ⟨rfl,hc⟩ := quiet_valuesOf hs hvs
  split at hrest
  · cases hrest
    exact ⟨rfl,hc⟩
  · next hfull =>
    have hcolumns : columns? column = some [] := by
      cases hcol : columns? column with
      | none =>
        rw [hcol] at hv
        exact absurd hv hfull
      | some columns =>
        rw [hcol] at hv
        rcases columns with _ | ⟨c,columns⟩
        · rfl
        · exact absurd hv hfull
    simp only [hcolumns] at hrest
    cases hrest
    exact ⟨rfl,hc⟩

theorem quiet_like (hs : ∀ n, v = .stream n → n ∈ cells) (hv : (v.listed (d.view s)).isEmpty)
    (h : (like s any true column v).runOn d = (.ok sql,e)) : sql.isEmpty ∧ e.without cells = d.without cells := by
  obtain ⟨vs,c,hvs,hrest⟩ := runOn_bind_ok.mp h
  obtain ⟨rfl,hc⟩ := quiet_valuesOf hs hvs
  rw [if_pos hv] at hrest
  cases hrest
  exact ⟨rfl,hc⟩

/-- A vacuous test is written as nothing, and uses up no more than is left out of account. -/
theorem quiet_operation {inner : Build (List Sql)} (hp : Prunable s start cells (.operation op operands))
    (hu : start.memory.Used d.memory) (hv : (Test.operation op operands).vacuous (start.view s))
    (h : (operate s op operands inner).runOn d = (.ok sql,e)) : sql.isEmpty ∧ e.without cells = d.without cells := by
  have hspent := hp.spent hv
  have hstay : ∀ values : Value, (values.listed (start.view s)).isEmpty → (values.listed (d.view s)).isEmpty := by
    intro values hnil
    rw [hu.listed_nil (List.isEmpty_iff.mp hnil)]
    rfl
  unfold Test.vacuous at hv
  split at hv
  · next hop => cases hop
  · next hop => cases hop
  · next hop => cases hop
  · next hop => cases hop
  · next hop => cases hop
  · next column values hop =>
    cases hop
    refine quiet_member (fun n hn => hspent n (hn ▸ .head _)) ?_ h
    rw [Bool.or_eq_true] at hv ⊢
    exact hv.imp_right (hstay values)
  · next any column values hop =>
    cases hop
    exact quiet_like (fun n hn => hspent n (hn ▸ .head _)) (hstay values hv) h
  · cases hv

theorem quiet_simple (hp : Prunable s start cells (.simple v)) (hu : start.memory.Used d.memory)
    (hv : (Test.simple v).vacuous (start.view s)) (h : (simple s v).runOn d = (.ok sql,e)) : sql.isEmpty ∧ e = d := by
  unfold simple at h
  rw [runOn_bind,runOn_view] at h
  dsimp only at h
  rw [hp.typed hu] at h
  have hraw : ∀ text : String, (text == "") = true → (Sql.isEmpty [.text text]) = true := by
    intro text ht
    simpa [Sql.isEmpty,Token.isEmpty] using ht
  unfold Test.vacuous at hv
  split at hv
  · next hop =>
    cases hop
    cases h
    exact ⟨rfl,rfl⟩
  · next hop =>
    cases hop
    cases h
    exact ⟨hraw _ hv,rfl⟩
  · next hop =>
    cases hop
    cases h
    exact ⟨hraw _ hv,rfl⟩
  · next hop =>
    cases hop
    simp only [typed,Value.text?,Value.entries?,typedPairs,hv,if_true] at h
    cases h
    exact ⟨rfl,rfl⟩
  · next hop =>
    cases hop
    simp only [typed,Value.text?,Value.entries?,typedPairs,hv,if_true] at h
    cases h
    exact ⟨rfl,rfl⟩
  · next hop => cases hop
  · next hop => cases hop
  · cases hv

/-- Whatever is written, memory keeps all but what streams had left. -/
theorem used_of_run {v : Value} {r : Except Fault Sql} (hu : start.memory.Used d.memory)
    (h : (compile s v).runOn d = (r,e)) : start.memory.Used e.memory := by
  have st := (goes_compile (x := Extent.values) (s := s) v d trivial Extent.covers_values).1
  rw [h] at st
  exact (Mirror.without s start.memory []).keepsAll hu st

theorem isEmpty_connected {word : String} {parts : List Sql} (h : Sql.said parts = []) :
    (connected word parts).isEmpty := by
  have hw : (connected word parts).written = (connected word []).written := written_connected word h
  exact Sql.isEmpty_iff_written.mpr hw

/-- A connective joins the parts of its operands. -/
theorem operate_of_connects {inner : Build (List Sql)} (h : op.connects) :
    operate s op operands inner = do return connected op.token (← inner) := by
  cases op <;> first | rfl | cases h

theorem quiet_operate {inner : Build (List Sql)} {ts : List Test} {b : Bool}
    (hp : ∀ t ∈ testsOf op operands ts, Prunable s start cells t) (hu : start.memory.Used d.memory)
    (hv : vacuousOf (start.view s) op operands b)
    (hi : (∀ t ∈ ts, Prunable s start cells t) → b → ∀ parts e, inner.runOn d = (.ok parts,e) →
      Sql.said parts = [] ∧ e.without cells = d.without cells)
    (h : (operate s op operands inner).runOn d = (.ok sql,e)) : sql.isEmpty ∧ e.without cells = d.without cells := by
  cases hop : op.connects with
  | false =>
    rw [testsOf_test hop] at hp
    rw [vacuousOf_test hop] at hv
    exact quiet_operation (hp _ (.head _)) hu hv h
  | true =>
    rw [testsOf_connective hop] at hp
    rw [vacuousOf_connective hop] at hv
    rw [operate_of_connects hop] at h
    obtain ⟨parts,c,hparts,hrest⟩ := runOn_bind_ok.mp h
    obtain ⟨hsaid,hc⟩ := hi hp hv parts c hparts
    cases hrest
    exact ⟨isEmpty_connected hsaid,hc⟩

theorem quiet_operands {parts : List Sql} (hp : ∀ t ∈ testsOfAll operands, Prunable s start cells t)
    (hu : start.memory.Used d.memory) (hv : allVacuous (start.view s) operands)
    (ih : ∀ o ∈ operands, ∀ d e sql, (∀ t ∈ tests o, Prunable s start cells t) → start.memory.Used d.memory →
      vacuous (start.view s) o → (compile s o).runOn d = (.ok sql,e) → sql.isEmpty ∧ e.without cells = d.without cells)
    (h : (compileAll s operands).runOn d = (.ok parts,e)) : Sql.said parts = [] ∧ e.without cells = d.without cells := by
  induction operands generalizing d parts with
  | nil =>
    rw [compileAll] at h
    cases h
    exact ⟨rfl,rfl⟩
  | cons v vs ihs =>
    rw [allVacuous,Bool.and_eq_true] at hv
    rw [testsOfAll,List.forall_mem_append] at hp
    have hsymbol : symbol? v = none := by
      cases v <;> first | rfl | cases hv.1
    rw [compileAll_asOperand,asOperand_of_none hsymbol] at h
    obtain ⟨sql,c,hsql,hrest⟩ := runOn_bind_ok.mp h
    obtain ⟨rest,c',hparts,hlast⟩ := runOn_bind_ok.mp hrest
    cases hlast
    obtain ⟨hempty,hc⟩ := ih v (.head _) d c sql hp.1 hu hv.1 hsql
    obtain ⟨hsaid,hc'⟩ := ihs hp.2 (used_of_run hu hsql) hv.2 (fun o ho => ih o (.tail _ ho)) hparts
    refine ⟨?_,hc'.trans hc⟩
    rw [Sql.said_cons,if_pos hempty,hsaid]

theorem quiet_compile (v : Value) (d e : Draft) (sql : Sql) (hp : ∀ t ∈ tests v, Prunable s start cells t)
    (hu : start.memory.Used d.memory) (hv : vacuous (start.view s) v)
    (h : (compile s v).runOn d = (.ok sql,e)) : sql.isEmpty ∧ e.without cells = d.without cells := by
  induction v using induct generalizing d e sql with
  | expression text params => cases hv
  | operation v op operands ho ih =>
    rw [tests_of_operation? ho] at hp
    rw [vacuous_of_operation? ho] at hv
    rw [compile_of_operation? ho] at h
    exact quiet_operate hp hu hv (fun hp hv parts e => quiet_operands hp hu hv ih) h
  | empty v hempty =>
    rw [compile_of_empty hempty] at h
    cases h
    exact ⟨rfl,rfl⟩
  | unread v x hx =>
    rw [vacuous_of_unread hx] at hv
    cases hv
  | bare v hb hx =>
    rw [tests_of_bare hb] at hp
    rw [vacuous_of_bare hb] at hv
    rw [compile_of_bare hb hx] at h
    obtain ⟨hsql,rfl⟩ := quiet_simple (hp _ (.head _)) hu hv h
    exact ⟨hsql,rfl⟩

/-! ## Other conditions -/

end Condition

def Token.Visible : Token → Prop
  | .text t | .symbol t _ => t ≠ ""
  | .placeholder _ => True
  | .path _ => False

namespace Sql
variable {a b : Sql} {parts : List Sql}

def Visible (sql : Sql) : Prop := ∃ t ∈ sql, t.Visible

theorem visible_text {t : String} (h : t ≠ "") (b : Sql) : Visible (.text t :: b) := ⟨_,.head _,h⟩

theorem Visible.append_left (h : a.Visible) (b : Sql) : (a ++ b).Visible := by
  obtain ⟨t,ht,hv⟩ := h
  exact ⟨t,List.mem_append_left _ ht,hv⟩

theorem Visible.append_right (h : b.Visible) (a : Sql) : (a ++ b).Visible := by
  obtain ⟨t,ht,hv⟩ := h
  exact ⟨t,List.mem_append_right _ ht,hv⟩

theorem Visible.isEmpty (h : a.Visible) : a.isEmpty = false := by
  obtain ⟨t,ht,hv⟩ := h
  refine List.all_eq_false.mpr ⟨t,ht,?_⟩
  cases t <;> simp_all [Token.isEmpty,Token.Visible]

theorem Visible.render_ne (h : a.Visible) (dialect : Dialect) : dialect.render a ≠ "" := by
  obtain ⟨t,ht,hv⟩ := h
  have htoken : dialect.renderToken t ≠ "" := by
    cases t with
    | text t => exact hv
    | symbol t label => exact hv
    | path p => exact hv.elim
    | placeholder name =>
      unfold Dialect.renderToken Dialect.placeholder
      cases dialect.placeholders <;> simp [String.append_eq_empty_iff]
  clear hv
  induction a with
  | nil => cases ht
  | cons t' a ih =>
    rw [dialect.render_cons,Ne,String.append_eq_empty_iff]
    rintro ⟨hhead,htail⟩
    rcases List.mem_cons.mp ht with rfl | ht
    · exact htoken hhead
    · exact ih ht htail

/-- The first of several parts shows. -/
theorem Visible.join (separator : String) (h : a.Visible) (parts : List Sql) : (join separator (a :: parts)).Visible := by
  cases parts with
  | nil => exact h
  | cons b parts => exact (h.append_left _).append_left _

end Sql

namespace Condition
variable {op : Operator} {operands : List Value} {column : Value} {any negated : Bool} {t : Test}

theorem visible_grouped (word : String) (parts : List Sql) : (grouped word parts).Visible :=
  ((Sql.visible_text (by decide) []).append_left _).append_left _

theorem visible_tupled (parts : List Sql) : (tupled parts).Visible :=
  ((Sql.visible_text (by decide) []).append_left _).append_left _

theorem visible_connected {word : String} {parts : List Sql} (h : ∃ part ∈ parts, part.Visible) :
    (connected word parts).Visible := by
  obtain ⟨part,hm,hv⟩ := h
  have hpart : part ∈ parts.filter (fun part => !part.isEmpty) := List.mem_filter.mpr ⟨hm,by simp [hv.isEmpty]⟩
  unfold connected
  split
  · next hn =>
    rw [hn] at hpart
    cases hpart
  · next hn =>
    rw [hn,List.mem_singleton] at hpart
    exact hpart ▸ hv
  · exact visible_grouped word _

def Shown (d : Draft) (p : Build Sql) : Prop := ∀ sql e, p.runOn d = (.ok sql,e) → sql.Visible

namespace Shown
variable {α : Type} {p : Build α} {f : α → Build Sql}

theorem pure (h : sql.Visible) : Shown d (Pure.pure sql) := by
  rintro a e ⟨⟩
  exact h

theorem fail (x : Fault) : Shown d (Build.fail x) := fun _ _ h => nomatch h

theorem bind (hf : ∀ a e, p.runOn d = (.ok a,e) → Shown e (f a)) : Shown d (p >>= f) := by
  intro sql e h
  obtain ⟨a,c,hp,hrest⟩ := runOn_bind_ok.mp h
  exact hf a c hp sql e hrest

/-- Of several parts there are as many as there were things to write, and each of them shows. -/
theorem mapM {f : α → Build Sql} (hf : ∀ a e, Shown e (f a)) {l : List α} {parts : List Sql}
    (h : (l.mapM f).runOn d = (.ok parts,e)) : parts.length = l.length ∧ ∀ part ∈ parts, part.Visible := by
  induction l generalizing d parts with
  | nil =>
    rw [List.mapM_nil] at h
    cases h
    exact ⟨rfl,nofun⟩
  | cons a l ih =>
    rw [List.mapM_cons] at h
    obtain ⟨part,c,hpart,hrest⟩ := runOn_bind_ok.mp h
    obtain ⟨rest,c',hl,hlast⟩ := runOn_bind_ok.mp hrest
    cases hlast
    obtain ⟨hlength,hall⟩ := ih hl
    exact ⟨by rw [List.length_cons,hlength,List.length_cons],List.forall_mem_cons.mpr ⟨hf a d part c hpart,hall⟩⟩

end Shown

theorem shown_singleMember {values : List Value} : Shown d (singleMember s negated column values) := by
  refine .bind (fun entries e _ => .bind (fun name e' _ => ?_))
  split
  · refine .pure (((Sql.visible_text ?_ []).append_right _).append_left _)
    cases negated <;> decide
  · exact .pure ((visible_tupled _).append_right _)

theorem shown_compositeMember {columns rows : List Value} : Shown d (compositeMember s negated columns rows) :=
  .bind (fun _ _ _ => .bind (fun _ _ _ => .bind (fun _ _ _ => .pure ((visible_tupled _).append_right _))))

theorem visible_overNothing (h : negated = false) : (overNothing negated).Visible := by
  subst h
  exact Sql.visible_text (by decide) []

/-- A membership test shows, unless it is a negated one over nothing. -/
theorem shown_member (h : negated = false ∨ (columns? column ≠ some [] ∧ v.listed (d.view s) ≠ [])) :
    Shown d (member s negated column v) := by
  refine .bind (fun values e hvalues => ?_)
  have hlisted := (valuesOf_eq hvalues).1
  split
  · next hnil =>
    refine .pure (visible_overNothing (h.resolve_right (fun hn => hn.2 ?_)))
    rw [← hlisted,List.isEmpty_iff.mp hnil]
  · cases hcol : columns? column with
    | none => exact shown_singleMember
    | some columns =>
      rcases columns with _ | ⟨single,_ | ⟨second,more⟩⟩
      · exact .pure (visible_overNothing (h.resolve_right (fun hn => hn.1 hcol)))
      · exact shown_singleMember
      · exact shown_compositeMember

theorem shown_like (h : negated = false ∨ v.listed (d.view s) ≠ []) : Shown d (like s any negated column v) := by
  refine .bind (fun values e hvalues => ?_)
  have hlisted := (valuesOf_eq hvalues).1
  split
  · next hnil =>
    refine .pure (visible_overNothing (h.resolve_right (fun hn => hn ?_)))
    rw [← hlisted,List.isEmpty_iff.mp hnil]
  · next hfull =>
    refine .bind (fun name e' _ => .bind (fun parts e'' hparts => .pure ?_))
    have hpart : ∀ w c, Shown c (do
        return name ++ [.text (if negated then " NOT LIKE " else " LIKE ")] ++ (← rendered s w)) := by
      refine fun w c => .bind (fun sql c' _ => .pure (((Sql.visible_text ?_ []).append_right _).append_left _))
      cases negated <;> decide
    obtain ⟨hlength,hall⟩ := Shown.mapM hpart hparts
    rcases parts with _ | ⟨part,parts⟩
    · rw [List.length_nil,eq_comm,List.length_eq_zero_iff] at hlength
      exact absurd (List.isEmpty_iff.mpr hlength) hfull
    · exact (hall part (.head _)).join _ parts

theorem shown_between {low high : Value} : Shown d (between s negated column low high) := by
  refine .bind (fun name e _ => .bind (fun low e' _ => .bind (fun high e'' _ => .pure ?_)))
  refine ((Sql.visible_text (t := " AND ") (by decide) []).append_right _).append_left _

theorem shown_comparison {c : Comparison} : Shown d (comparison s c column v) := by
  refine .bind (fun name e _ => .bind (fun sql e' _ => .pure ?_))
  refine ((Sql.visible_text ?_ []).append_right _).append_left _
  cases c <;> decide

theorem shown_pair {name : String} : Shown d (pair s name v) := by
  unfold pair
  split
  · exact shown_member (.inl rfl)
  · split
    · exact .pure ((Sql.visible_text (by decide) []).append_right _)
    · refine .bind (fun sql e _ => .pure ?_)
      exact ((Sql.visible_text (by decide) []).append_right _).append_left _

theorem shown_pairs {named : List (String × Value)} : Shown d (pairs s named) := by
  unfold pairs
  refine .bind (fun parts e hparts => ?_)
  have hpair : ∀ (c : String × Value) e, Shown e (pair s c.1 c.2) := fun _ _ => shown_pair
  have hall := (Shown.mapM hpair hparts).2
  rcases parts with _ | ⟨one,_ | ⟨two,more⟩⟩
  · exact .pure (visible_grouped _ _)
  · exact .pure (hall one (.head _))
  · exact .pure (visible_grouped _ _)

def Untouched (start : Draft) (cells : List Nat) (d : Draft) : Prop :=
  ∀ n, n ∉ cells → d.memory.stream n = start.memory.stream n

theorem Untouched.of_eq (h : Untouched start cells d) (he : e.without cells = d.without cells) :
    Untouched start cells e := by
  intro n hn
  have hs : (e.memory.without cells).stream n = (d.memory.without cells).stream n :=
    congrArg (fun d : Draft => d.memory.stream n) he
  rw [Memory.stream_without,Memory.stream_without,if_neg hn,if_neg hn] at hs
  rw [hs,h n hn]

theorem shown_operation {inner : Build (List Sql)} (hp : Prunable s start cells (.operation op operands))
    (hu : start.memory.Used d.memory) (hc : Untouched start cells d) (hop : op.connects = false)
    (hv : (Test.operation op operands).vacuous (start.view s) = false) : Shown d (operate s op operands inner) := by
  have hkept := hp.kept hv
  have hlisted : ∀ values, values ∈ (Test.operation op operands).lists (start.view s) →
      values.listed (start.view s) ≠ [] → values.listed (d.view s) ≠ [] := by
    intro values hm hne
    rwa [hu.listed (fun n hn => hc n (hkept n (hn ▸ hm)))]
  unfold operate
  split
  · cases hop
  · cases hop
  · exact shown_between
  · exact .fail _
  · next negated column values =>
    cases negated with
    | false => exact shown_member (.inl rfl)
    | true =>
      simp only [Test.vacuous,Bool.or_eq_false_iff,List.isEmpty_eq_false_iff] at hv
      refine shown_member (.inr ⟨?_,hlisted values (.head _) hv.2⟩)
      intro hcol
      rw [hcol] at hv
      cases hv.1
  · next any negated column values =>
    cases negated with
    | false => exact shown_like (.inl rfl)
    | true =>
      simp only [Test.vacuous,List.isEmpty_eq_false_iff] at hv
      exact shown_like (.inr (hlisted values (.head _) hv))
  · exact shown_comparison
  · exact .fail _

theorem token_ne_empty (op : Operator) : op.token ≠ "" := by
  cases op with
  | like any negated => cases any <;> cases negated <;> decide
  | between negated => cases negated <;> decide
  | member negated => cases negated <;> decide
  | compare c => cases c <;> decide
  | _ => decide

theorem visible_symbol (h : symbol? v = some sql) : sql.Visible := by
  cases v <;> simp only [symbol?,reduceCtorEq] at h <;> cases h
  · next op => exact ⟨_,.head _,token_ne_empty op⟩
  · next direction =>
    refine ⟨_,.head _,(?_ : direction.token ≠ "")⟩
    cases direction <;> decide

theorem shown_simple (hb : Bare v) (hp : Prunable s start cells (.simple v)) (hu : start.memory.Used d.memory)
    (hv : (Test.simple v).vacuous (start.view s) = false) : Shown d (simple s v) := by
  have hpairs : ∀ es : Entries, es.isEmpty = false → typed (start.view s) v = typedPairs es → Shown d (simple s v) := by
    intro es hes ht
    refine .bind (fun m e hm => ?_)
    cases hm
    rw [hp.typed hu,ht,typedPairs,hes,if_neg Bool.false_ne_true]
    cases es.named? with
    | none => exact .fail _
    | some named => exact shown_pairs
  have hraw : ∀ text : String, text ≠ "" → typed (start.view s) v = .ok (.raw text) → Shown d (simple s v) := by
    intro text hne ht
    refine .bind (fun m e hm => ?_)
    cases hm
    rw [hp.typed hu,ht]
    exact .pure (Sql.visible_text hne [])
  cases v with
  | list items => exact hb.elim
  | tuple items => exact hb.elim
  | operation op operands => exact hb.elim
  | null => cases hv
  | raw text => exact hraw text (by simpa [Test.vacuous] using hv) rfl
  | text text => exact hraw text (by simpa [Test.vacuous] using hv) rfl
  | operator op => exact hraw op.token (token_ne_empty op) rfl
  | direction direction => exact hraw direction.token (by cases direction <;> decide) rfl
  | mapping entries => exact hpairs entries hv rfl
  | shared home => exact hpairs _ hv rfl
  | pairs columns => exact .bind (fun m e hm => by cases hm; exact shown_pairs)
  | _ => exact .bind (fun m e hm => by cases hm; exact .fail _)

theorem shown_operate {inner : Build (List Sql)} {ts : List Test} {b : Bool}
    (hp : ∀ t ∈ testsOf op operands ts, Prunable s start cells t) (hu : start.memory.Used d.memory)
    (hc : Untouched start cells d) (hv : vacuousOf (start.view s) op operands b = false)
    (hi : (∀ t ∈ ts, Prunable s start cells t) → b = false → ∀ parts e, inner.runOn d = (.ok parts,e) →
      ∃ part ∈ parts, part.Visible) : Shown d (operate s op operands inner) := by
  cases hop : op.connects with
  | false =>
    rw [testsOf_test hop] at hp
    rw [vacuousOf_test hop] at hv
    exact shown_operation (hp _ (.head _)) hu hc hop hv
  | true =>
    rw [testsOf_connective hop] at hp
    rw [vacuousOf_connective hop] at hv
    rw [operate_of_connects hop]
    exact .bind (fun parts e hparts => .pure (visible_connected (hi hp hv parts e hparts)))

/-- What shows of the operands of a connective, those that are vacuous left aside. -/
theorem shown_operands {parts : List Sql} (hp : ∀ t ∈ testsOfAll operands, Prunable s start cells t)
    (hu : start.memory.Used d.memory) (hc : Untouched start cells d) (hv : allVacuous (start.view s) operands = false)
    (ih : ∀ o ∈ operands, ∀ d, (∀ t ∈ tests o, Prunable s start cells t) → start.memory.Used d.memory →
      Untouched start cells d → vacuous (start.view s) o = false → Shown d (compile s o))
    (h : (compileAll s operands).runOn d = (.ok parts,e)) : ∃ part ∈ parts, part.Visible := by
  induction operands generalizing d parts with
  | nil => cases hv
  | cons v vs ihs =>
    rw [allVacuous,Bool.and_eq_false_iff] at hv
    rw [testsOfAll,List.forall_mem_append] at hp
    rw [compileAll_asOperand] at h
    obtain ⟨sql,c,hsql,hrest⟩ := runOn_bind_ok.mp h
    obtain ⟨rest,c',hparts,hlast⟩ := runOn_bind_ok.mp hrest
    cases hlast
    unfold asOperand at hsql
    split at hsql
    · next hs =>
      cases hsql
      exact ⟨_,.head _,visible_symbol hs⟩
    · cases hhead : vacuous (start.view s) v with
      | false => exact ⟨sql,.head _,ih v (.head _) d hp.1 hu hc hhead sql c hsql⟩
      | true =>
        obtain ⟨-,hquiet⟩ := quiet_compile v d c sql hp.1 hu hhead hsql
        obtain ⟨part,hm,hvisible⟩ := ihs hp.2 (used_of_run hu hsql) (hc.of_eq hquiet) (hv.resolve_left (by simp [hhead]))
          (fun o ho => ih o (.tail _ ho)) hparts
        exact ⟨part,.tail _ hm,hvisible⟩

theorem shown_compile (v : Value) (d : Draft) (hp : ∀ t ∈ tests v, Prunable s start cells t)
    (hu : start.memory.Used d.memory) (hc : Untouched start cells d) (hv : vacuous (start.view s) v = false) :
    Shown d (compile s v) := by
  induction v using induct generalizing d with
  | expression text params =>
    rw [compile]
    refine .bind (fun _ e _ => .pure (Sql.visible_text ?_ []))
    rintro rfl
    exact (hp _ (.head _)).worded params rfl
  | operation v op operands h ih =>
    rw [tests_of_operation? h] at hp
    rw [vacuous_of_operation? h] at hv
    rw [compile_of_operation? h]
    exact shown_operate hp hu hc hv (fun hp hv parts e => shown_operands hp hu hc hv ih)
  | empty v h => rcases h with rfl | rfl <;> cases hv
  | unread v x h =>
    rw [compile_of_unread h]
    exact .fail x
  | bare v hb hx =>
    rw [tests_of_bare hb] at hp
    rw [vacuous_of_bare hb] at hv
    rw [compile_of_bare hb hx]
    exact shown_simple hb (hp _ (.head _)) hu hv

end Condition

end SqlCompose
