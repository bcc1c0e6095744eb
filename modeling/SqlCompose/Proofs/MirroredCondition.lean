import SqlCompose.Proofs.Mirror

/-! # Mirrored conditions

A condition is mirrored if its tests name their columns by what may stand for a name, and look only into what is open.
-/
namespace SqlCompose
open Relation Build

variable {M : Mirror} {d : Draft} {v w : Value}

namespace Condition
variable {f : String → String}

@[simp] theorem rename_overNothing (negated : Bool) : (overNothing negated).rename f = overNothing negated := by
  cases negated <;> rfl

@[simp] theorem rename_parenthesized (sql : Sql) : (parenthesized sql).rename f = parenthesized (sql.rename f) := by
  simp [parenthesized]

@[simp] theorem rename_tupled (parts : List Sql) : (tupled parts).rename f = tupled (parts.map (Sql.rename f)) := by
  simp [tupled]

@[simp] theorem rename_grouped (word : String) (parts : List Sql) :
    (grouped word parts).rename f = grouped word (parts.map (Sql.rename f)) := by
  simp [grouped]

@[simp] theorem rename_connected (word : String) (parts : List Sql) :
    (connected word parts).rename f = connected word (parts.map (Sql.rename f)) := by
  unfold connected
  rw [Sql.filter_rename]
  generalize parts.filter (fun part => !part.isEmpty) = some
  rcases some with _ | ⟨one,_ | ⟨two,more⟩⟩
  · rfl
  · rfl
  · simp

end Condition

structure Mirror.Allows (M : Mirror) (t : Condition.Test) : Prop where
  columns : ∀ c ∈ t.columns, M.extent.value c → M.Names c
  mapping : ∀ v, t = .simple v → M.extent.value v → M.Row v
  streams : ∀ {d}, M.Fits d → ∀ v ∈ t.lists (d.view M.left), ∀ n, v = .stream n → M.cell n
  rows : ∀ {d}, M.Fits d → ∀ v ∈ t.rows (d.view M.left), M.extent.value v → M.Row v

namespace Condition
variable {column : Value} {columns values operands : List Value} {negated any : Bool}

/-! ## Membership -/

theorem mirror_field (ho : M.Row v) (hv : M.extent.value v) :
    Mirrors M d (field M.left column v) (field M.right column v) id M.extent.value := by
  unfold field
  refine .view (fun hd => ?_)
  rw [M.entries hd ho]
  cases he : v.entries? (d.view M.left) with
  | none => exact .pure rfl hv
  | some es =>
    dsimp only
    split
    · refine .pure rfl ?_
      cases hg : es.get? column with
      | none => exact M.extent.null
      | some w => exact value_of_get? ((M.covers hd).entries hv he) hg
    · exact .misuse _

theorem mirror_entry (hv : M.extent.value v) :
    Mirrors M d (entry M.left v) (entry M.right v) (Sql.rename M.name) (fun _ => True) := by
  unfold entry
  split
  · exact .pure rfl trivial
  · exact mirror_rendered hv

/-- The entry under a column. -/
theorem mirror_fieldEntry (ho : M.Row v) (hv : M.extent.value v) :
    Mirrors M d (do entry M.left (← field M.left column v)) (do entry M.right (← field M.right column v))
      (Sql.rename M.name) (fun _ => True) :=
  (mirror_field ho hv).bind (fun _ _ hw => mirror_entry hw)

theorem open_of_listsValues (hl : v.listsValues) (hc : ∀ n, v = .stream n → M.cell n) : M.Open v := by
  cases v with
  | stream n => exact hc n rfl
  | shared home => cases hl
  | _ => trivial

theorem mirror_valuesOf (hc : ∀ n, v = .stream n → M.cell n) (hv : M.extent.value v) :
    Mirrors M d (valuesOf M.left v) (valuesOf M.right v) id
      (fun vs => vs = v.listed (d.view M.left) ∧ ∀ w ∈ vs, M.extent.value w) := by
  unfold valuesOf Value.listed
  by_cases hl : v.listsValues
  · rw [if_pos hl,if_pos hl,if_pos hl]
    refine (mirror_elements (open_of_listsValues hl hc) hv).weaken (fun vs hvs => ⟨?_,hvs.2⟩)
    rw [hvs.1,Option.getD_some]
  · rw [if_neg hl,if_neg hl,if_neg hl]
    exact .pure rfl ⟨rfl,by simpa using hv⟩

theorem mirror_singleMember (hc : M.Names column) (ho : ∀ w ∈ values, M.Row w) (hv : ∀ w ∈ values, M.extent.value w) :
    Mirrors M d (singleMember M.left negated column values) (singleMember M.right negated column values)
      (Sql.rename M.name) (fun _ => True) := by
  unfold singleMember
  refine .bind (Mirrors.mapM (fun w hw _ _ => mirror_fieldEntry (ho w hw) (hv w hw))) (fun entries e _ => ?_)
  refine .bind (mirror_columnName hc) (fun name e' _ => ?_)
  rcases entries with _ | ⟨one,_ | ⟨two,more⟩⟩
  · exact .pure (by simp) trivial
  · exact .pure (by simp) trivial
  · exact .pure (by simp) trivial

theorem mirror_memberRow (ho : M.Row v) (hv : M.extent.value v) :
    Mirrors M d (memberRow M.left negated columns v) (memberRow M.right negated columns v) (Sql.rename M.name)
      (fun _ => True) := by
  unfold memberRow
  refine .view (fun hd => ?_)
  rw [M.entries hd ho]
  split
  · exact .fail _
  · refine (Mirrors.mapM (fun _ _ _ _ => mirror_fieldEntry ho hv)).map (fun parts _ => ⟨?_,trivial⟩)
    exact (rename_tupled parts).symm

theorem mirror_compositeMember (hc : ∀ c ∈ columns, M.Names c) (ho : ∀ w ∈ values, M.Row w)
    (hv : ∀ w ∈ values, M.extent.value w) :
    Mirrors M d (compositeMember M.left negated columns values) (compositeMember M.right negated columns values)
      (Sql.rename M.name) (fun _ => True) := by
  unfold compositeMember
  refine .bind (Mirrors.mapM (fun w hw _ _ => mirror_memberRow (ho w hw) (hv w hw))) (fun rows e _ => ?_)
  refine .bind (Mirrors.mapM (fun c hm _ _ => mirror_listedColumn (hc c hm))) (fun names e _ => ?_)
  exact mirror_nameList.map (fun sql _ => ⟨by simp,trivial⟩)

theorem mirror_member (hc : ∀ c ∈ (columns? column).getD [column], M.Names c) (hs : ∀ n, v = .stream n → M.cell n)
    (ho : ∀ w ∈ v.listed (d.view M.left), M.extent.value w → M.Row w) (hv : M.extent.value v) :
    Mirrors M d (member M.left negated column v) (member M.right negated column v) (Sql.rename M.name)
      (fun _ => True) := by
  unfold member
  refine .bind (mirror_valuesOf hs hv) (fun values e hvs => ?_)
  obtain ⟨hlisted,hvalues⟩ := hvs
  have hopen : ∀ w ∈ values, M.Row w := fun w hw => ho w (hlisted ▸ hw) (hvalues w hw)
  dsimp only [id]
  split
  · exact .pure (rename_overNothing _).symm trivial
  · cases hcol : columns? column with
    | none =>
      rw [hcol] at hc
      exact mirror_singleMember (hc column (.head _)) hopen hvalues
    | some columns =>
      rw [hcol] at hc
      rcases columns with _ | ⟨single,_ | ⟨second,more⟩⟩
      · exact .pure (rename_overNothing _).symm trivial
      · exact mirror_singleMember (hc single (.head _)) hopen hvalues
      · exact mirror_compositeMember hc hopen hvalues

/-! ## The other tests -/

theorem mirror_like (hc : M.Names column) (hs : ∀ n, v = .stream n → M.cell n) (hv : M.extent.value v) :
    Mirrors M d (like M.left any negated column v) (like M.right any negated column v) (Sql.rename M.name)
      (fun _ => True) := by
  unfold like
  refine .bind (mirror_valuesOf hs hv) (fun values e hvs => ?_)
  dsimp only [id]
  split
  · exact .pure (rename_overNothing _).symm trivial
  · refine .bind (mirror_columnName hc) (fun name e' _ => ?_)
    refine (Mirrors.mapM (Q := fun _ => True) (h := Sql.rename M.name) (fun w hw _ _ => ?_)).map
      (fun parts _ => ⟨(Sql.rename_join _ parts).symm,trivial⟩)
    exact (mirror_rendered (hvs.2 w hw)).map (fun sql _ => ⟨by simp,trivial⟩)

theorem mirror_between {low high : Value} (hc : M.Names column) (hl : M.extent.value low) (hh : M.extent.value high) :
    Mirrors M d (between M.left negated column low high) (between M.right negated column low high) (Sql.rename M.name)
      (fun _ => True) := by
  unfold between
  refine .bind (mirror_columnName hc) (fun name e _ => ?_)
  refine .bind (mirror_rendered hl) (fun low e _ => ?_)
  exact (mirror_rendered hh).map (fun high _ => ⟨by simp,trivial⟩)

theorem mirror_comparison {c : Comparison} (hc : M.Names column) (hv : M.extent.value v) :
    Mirrors M d (comparison M.left c column v) (comparison M.right c column v) (Sql.rename M.name)
      (fun _ => True) := by
  unfold comparison
  refine .bind (mirror_columnName hc) (fun name e _ => ?_)
  exact (mirror_rendered hv).map (fun sql _ => ⟨by simp,trivial⟩)

theorem mirror_pair {name : String} (hs : ∀ n, v = .stream n → M.cell n)
    (ho : v.listsValues → ∀ w ∈ v.listed (d.view M.left), M.extent.value w → M.Row w) (hv : M.extent.value v) :
    Mirrors M d (pair M.left name v) (pair M.right name v) (Sql.rename M.name) (fun _ => True) := by
  unfold pair
  split
  · next hl =>
    refine mirror_member ?_ hs (ho hl) hv
    intro c hc
    exact .inl ⟨name,List.mem_singleton.mp hc⟩
  · split
    · exact .pure (by simp) trivial
    · exact (mirror_rendered hv).map (fun sql _ => ⟨by simp,trivial⟩)

/-- A value that stands for several stands for no new ones later. -/
theorem listed_of_steps {x : Extent} {s : Setting} {e : Draft} (hl : v.listsValues)
    (st : ReflTransGen (x.Step s) d e) : ∀ w ∈ v.listed (e.view s), w ∈ v.listed (d.view s) := by
  intro w hw
  unfold Value.listed at hw ⊢
  rw [if_pos hl] at hw ⊢
  cases v with
  | stream n =>
    simp only [Value.elements?,Value.text?,Value.sequence?,Value.entries?,Value.fields?,Draft.view_stream] at hw ⊢
    exact Extent.stream_of_steps st n w hw
  | query n =>
    simp only [Value.elements?,Value.text?,Value.sequence?,Value.entries?,Value.fields?,Draft.view_fields,
      Extent.fields_of_steps st] at hw ⊢
    exact hw
  | _ => first | exact hw | cases hl

theorem mirror_pairs {named : List (String × Value)} (hs : ∀ c ∈ named, ∀ n, c.2 = .stream n → M.cell n)
    (ho : ∀ c ∈ named, c.2.listsValues → ∀ w ∈ c.2.listed (d.view M.left), M.extent.value w → M.Row w)
    (hv : ∀ c ∈ named, M.extent.value c.2) :
    Mirrors M d (pairs M.left named) (pairs M.right named) (Sql.rename M.name) (fun _ => True) := by
  unfold pairs
  refine .bind (Mirrors.mapM (Q := fun _ => True) (h := Sql.rename M.name) (fun c hc e hst => ?_)) (fun parts e _ => ?_)
  · exact mirror_pair (hs c hc) (fun hl w hw => ho c hc hl w (listed_of_steps hl hst w hw)) (hv c hc)
  · rcases parts with _ | ⟨one,_ | ⟨two,more⟩⟩
    · exact .pure (by simp) trivial
    · exact .pure (by simp) trivial
    · exact .pure (by simp) trivial

theorem mirror_typed (hd : M.Fits d) (h : M.Row v) :
    typed ((M.image d).view M.right) v = typed (d.view M.left) v := by
  have he := M.entries hd h
  cases v <;> first | rfl | simp only [typed,Value.text?,he]

/-- A condition that has no operands. -/
theorem mirror_simple (ha : M.Allows (.simple v)) (hv : M.extent.value v) :
    Mirrors M d (simple M.left v) (simple M.right v) (Sql.rename M.name) (fun _ => True) := by
  unfold simple
  refine .view (fun hd => ?_)
  rw [mirror_typed hd (ha.mapping v rfl hv)]
  split
  · exact .fail _
  · exact .pure rfl trivial
  · next named hn =>
    have hlist : ∀ c ∈ named, c.2.listsValues → c.2 ∈ Test.pairLists (d.view M.left) v := by
      intro c hc hl
      unfold Test.pairLists
      rw [hn]
      exact List.mem_filter.mpr ⟨List.mem_map_of_mem hc,hl⟩
    refine mirror_pairs ?_ ?_ (value_of_typed (M.covers hd) hv hn)
    · intro c hc n hcn
      exact ha.streams hd c.2 (hlist c hc (by rw [hcn]; rfl)) n hcn
    · intro c hc hl w hw
      exact ha.rows hd w (List.mem_flatMap.mpr ⟨c.2,hlist c hc hl,hw⟩)
  · exact .pure rfl trivial

/-! ## Conditions -/

/-- The columns of a test are among what its operands list. -/
theorem value_of_mem_columns {x : Extent} {s : Setting} {op : Operator} (hd : x.Covers s d)
    (hv : ∀ o ∈ operands, x.value o) : ∀ c ∈ (Test.operation op operands).columns, x.value c := by
  intro c hc
  unfold Test.columns at hc
  split at hc
  · next column values heq =>
    cases heq
    cases hcol : columns? column with
    | none =>
      rw [hcol] at hc
      rw [List.mem_singleton.mp hc]
      exact hv column (.head _)
    | some columns =>
      rw [hcol] at hc
      exact value_of_columns? hd (hv column (.head _)) hcol c hc
  · next heq =>
    cases heq
    rw [List.mem_singleton.mp hc]
    exact hv _ (.head _)
  · next heq =>
    cases heq
    rw [List.mem_singleton.mp hc]
    exact hv _ (.head _)
  · next heq =>
    cases heq
    rw [List.mem_singleton.mp hc]
    exact hv _ (.head _)
  · cases hc

/-- A test that has operands, if its operator joins no conditions. -/
theorem mirror_operation {op : Operator} {inner inner' : Build (List Sql)} (hop : op.connects = false)
    (ha : M.Allows (.operation op operands)) (hv : ∀ o ∈ operands, M.extent.value o) :
    Mirrors M d (operate M.left op operands inner) (operate M.right op operands inner') (Sql.rename M.name)
      (fun _ => True) := by
  refine .fitting (fun hd => ?_)
  have hc : ∀ c ∈ (Test.operation op operands).columns, M.Names c :=
    fun c hm => ha.columns c hm (value_of_mem_columns (M.covers hd) hv c hm)
  unfold operate
  split
  · cases hop
  · cases hop
  · exact mirror_between (hc _ (.head _)) (hv _ (by simp)) (hv _ (by simp))
  · exact .fail _
  · exact mirror_member hc (ha.streams hd _ (.head _)) (ha.rows hd) (hv _ (by simp))
  · exact mirror_like (hc _ (.head _)) (ha.streams hd _ (.head _)) (hv _ (by simp))
  · exact mirror_comparison (hc _ (.head _)) (hv _ (by simp))
  · exact .fail _

theorem mirror_connected {word : String} {inner inner' : Build (List Sql)}
    (hi : Mirrors M d inner inner' (List.map (Sql.rename M.name)) (fun _ => True)) :
    Mirrors M d (do return connected word (← inner)) (do return connected word (← inner')) (Sql.rename M.name)
      (fun _ => True) :=
  hi.map (fun parts _ => ⟨(rename_connected word parts).symm,trivial⟩)

theorem mirror_operate {op : Operator} {inner inner' : Build (List Sql)} {tests : List Test}
    (ha : ∀ t ∈ testsOf op operands tests, M.Allows t) (hv : ∀ o ∈ operands, M.extent.value o)
    (hi : (∀ t ∈ tests, M.Allows t) → Mirrors M d inner inner' (List.map (Sql.rename M.name)) (fun _ => True)) :
    Mirrors M d (operate M.left op operands inner) (operate M.right op operands inner') (Sql.rename M.name)
      (fun _ => True) := by
  cases hop : op.connects with
  | true =>
    rw [testsOf_connective hop] at ha
    cases op with
    | and => exact mirror_connected (hi ha)
    | or => exact mirror_connected (hi ha)
    | _ => cases hop
  | false =>
    rw [testsOf_test hop] at ha
    exact mirror_operation hop (ha _ (.head _)) hv

theorem rename_symbol {sql : Sql} (h : symbol? v = some sql) (f : String → String) : sql.rename f = sql := by
  cases v <;> simp only [symbol?,reduceCtorEq] at h <;> cases h <;> rfl

theorem mirror_operands (h : ∀ o ∈ operands, ∀ e,
      Mirrors M e (compile M.left o) (compile M.right o) (Sql.rename M.name) (fun _ => True)) :
    Mirrors M d (compileAll M.left operands) (compileAll M.right operands) (List.map (Sql.rename M.name))
      (fun _ => True) := by
  rw [compileAll_eq_mapM,compileAll_eq_mapM]
  refine .weaken (.mapM (Q := fun _ => True) (fun o hm e _ => ?_)) (fun _ _ => trivial)
  unfold asOperand
  split
  · next hs => exact .pure (rename_symbol hs M.name).symm trivial
  · exact h o hm e

theorem mirror_compile (v : Value) (d : Draft) (ha : ∀ t ∈ tests v, M.Allows t) (hv : M.extent.value v) :
    Mirrors M d (compile M.left v) (compile M.right v) (Sql.rename M.name) (fun _ => True) := by
  induction v using induct generalizing d with
  | expression sql params =>
    rw [compile,compile]
    exact mirror_rendered hv
  | operation v op operands h ih =>
    rw [tests_of_operation? h] at ha
    rw [compile_of_operation? h,compile_of_operation? h]
    refine .fitting (fun hd => ?_)
    have ho := (M.covers hd).operands hv h
    refine mirror_operate ha ho (fun ha => mirror_operands (fun o hm e => ?_))
    exact ih o hm e (fun t ht => ha t (mem_testsOfAll hm ht)) (ho o hm)
  | empty v h =>
    rw [compile_of_empty h,compile_of_empty h]
    exact .pure rfl trivial
  | unread v x h =>
    rw [compile_of_unread h,compile_of_unread h]
    exact .fail x
  | bare v hb hx =>
    rw [tests_of_bare hb] at ha
    rw [compile_of_bare hb hx,compile_of_bare hb hx]
    exact mirror_simple (ha _ (.head _)) hv

end Condition

end SqlCompose
