import SqlCompose.Proofs.Precedence
import SqlCompose.Proofs.Stems

/-! # Legible trees

The SQL of a tree is that of its layout. It can be read if the names in the tree are readable, and these are if the
stem of the placeholders is.
-/
namespace SqlCompose
open Condition

variable {s : Setting} {α : Type}

/-! ## Names -/

theorem readable_append {a b : String} (ha : Readable a) (hb : Readable b) : Readable (a ++ b) := by
  intro c hc
  rw [String.toList_append,List.mem_append] at hc
  rcases hc with hc | hc
  · exact ha c hc
  · exact hb c hc

/-- Placeholders are readable if their stem is. -/
theorem Setting.readable_placeholderName (h : Readable s.stem) (n : Nat) : Readable (s.placeholderName n) := by
  refine readable_append h (fun c hc => ?_)
  have hdigit : c.isDigit := Number.isDigit_of_mem_writeInt hc
  cases hend : Reader.isNameEnd c with
  | false => rfl
  | true =>
    simp only [Reader.isNameEnd,Bool.or_eq_true,beq_iff_eq] at hend
    rcases hend with (rfl | rfl) | rfl <;> exact absurd hdigit (by decide)

/-- Options accept readable stems only. -/
theorem Options.readable_of_isStem {stem : String} (h : isStem stem) : Readable stem := by
  intro c hc
  cases hend : Reader.isNameEnd c with
  | false => rfl
  | true =>
    have hstem := mem_stem h hc
    simp only [Reader.isNameEnd,Bool.or_eq_true,beq_iff_eq] at hend
    rcases hend with (rfl | rfl) | rfl <;> exact absurd hstem (by decide)

/-! ## The SQL of trees -/

def Layout.sqlOf (x : Option (Layout String)) : Sql := x.elim [] sql

def Leaf.sql (l : Leaf String) : Sql := Layout.sqlOf l.layout

def Tree.sql (t : Tree String) : Sql := Layout.sqlOf t.layout

theorem Sql.isEmpty_append {a b : Sql} (h : a.isEmpty = false) : (a ++ b).isEmpty = false := by
  unfold Sql.isEmpty at h ⊢
  rw [List.all_append,h,Bool.false_and]

theorem Predicate.isEmpty_sql (p : Predicate String) : p.sql.isEmpty = false := by cases p <;> rfl

theorem Layout.isEmpty_sql (x : Layout String) : x.sql.isEmpty = false := by
  cases x with
  | atom p => exact p.isEmpty_sql
  | never => rfl
  | row any first second more => exact Sql.isEmpty_append (Sql.isEmpty_append first.isEmpty_sql)
  | group any first second more => rfl

/-- Only what says something has SQL. -/
theorem Layout.filter_sqlOf (l : List (Option (Layout String))) :
    (l.map sqlOf).filter (fun part => !part.isEmpty) = (l.flatMap Option.toList).map sql := by
  induction l with
  | nil => rfl
  | cons x l ih =>
    cases x with
    | none => exact ih
    | some x =>
      have hx : (sqlOf (some x)).isEmpty = false := x.isEmpty_sql
      rw [List.map_cons,List.filter_cons,hx,ih]
      rfl

theorem Layout.connected_sqlOf (any : Bool) (l : List (Option (Layout String))) :
    connected (connective any) (l.map sqlOf) = sqlOf (gather any (l.flatMap Option.toList)) := by
  unfold connected
  rw [filter_sqlOf]
  match l.flatMap Option.toList with
  | [] => rfl
  | [x] => rfl
  | x :: y :: more => simp [sqlOf,gather,sql,sqls_eq]

/-- Parts that all say something. -/
theorem connected_of_said {word : String} {parts : List Sql} :
    (∀ part ∈ parts, part.isEmpty = false) → parts ≠ [] → connected word parts = match parts with
      | [part] => part
      | parts => grouped word parts := by
  intro h hne
  have hfilter : parts.filter (fun part => !part.isEmpty) = parts :=
    List.filter_eq_self.mpr (fun part hp => by rw [h part hp]; rfl)
  unfold connected
  rw [hfilter]
  match parts, hne with
  | [part], _ => rfl
  | _ :: _ :: _, _ => rfl

namespace Tree

theorem layouts_eq (ts : List (Tree α)) : layouts ts = (ts.map layout).flatMap Option.toList := by
  induction ts with
  | nil => rfl
  | cons t ts ih => rw [layouts,ih,List.map_cons,List.flatMap_cons]

theorem sql_node (any : Bool) (ts : List (Tree String)) :
    (node any ts).sql = connected (connective any) (ts.map sql) := by
  have hparts := Layout.connected_sqlOf any (ts.map layout)
  rw [List.map_map] at hparts
  unfold sql
  rw [layout,layouts_eq]
  exact hparts.symm

theorem sql_hash {leaves : List (Leaf String)} (h : ∀ l ∈ leaves, l.layout.isSome) (hne : leaves ≠ []) :
    (hash leaves).sql = match leaves.map Leaf.sql with
      | [part] => part
      | parts => grouped "AND" parts := by
  have hsaid : ∀ part ∈ leaves.map Leaf.sql, part.isEmpty = false := by
    intro part hp
    obtain ⟨l,hl,rfl⟩ := List.mem_map.mp hp
    obtain ⟨x,hx⟩ := Option.isSome_iff_exists.mp (h l hl)
    rw [Leaf.sql,hx]
    exact x.isEmpty_sql
  rw [← connected_of_said hsaid (by simpa using hne)]
  have hparts := Layout.connected_sqlOf false (leaves.map Leaf.layout)
  rw [List.map_map] at hparts
  have hmap : (leaves.map Leaf.layout).flatMap Option.toList = leaves.filterMap Leaf.layout := by
    rw [List.flatMap_map,← List.filterMap_eq_flatMap_toList]
  rw [hmap] at hparts
  exact hparts.symm

end Tree

theorem Tree.mapAll_eq {β : Type} (f : α → β) (ts : List (Tree α)) : mapAll f ts = ts.map (map f) := by
  induction ts with
  | nil => rfl
  | cons t ts ih => rw [mapAll,ih,List.map_cons]

theorem Tree.valuesAll_eq (ts : List (Tree α)) : valuesAll ts = ts.flatMap values := by
  induction ts with
  | nil => rfl
  | cons t ts ih => rw [valuesAll,ih,List.flatMap_cons]

/-! ## Legible trees -/

def Leaf.Legible (l : Leaf String) : Prop := ∀ x, l.layout = some x → x.Legible

def Tree.Legible (t : Tree String) : Prop := ∀ x, t.layout = some x → x.Legible

theorem Layout.legible_gather {any : Bool} {xs : List (Layout String)} (h : ∀ x ∈ xs, x.Legible) :
    ∀ x, gather any xs = some x → x.Legible := by
  intro x hx
  match xs with
  | [] => cases hx
  | [y] =>
    cases hx
    exact h _ (.head _)
  | y :: z :: more =>
    cases hx
    exact ⟨h y (.head _),h z (.tail _ (.head _)),(legibleAll_iff more).mpr (fun w hw => h w (.tail _ (.tail _ hw)))⟩

theorem Layout.legible_overNothing (negated : Bool) : ∀ x, overNothing negated = some x → x.Legible := by
  intro x hx
  cases negated with
  | false =>
    cases hx
    trivial
  | true => cases hx

theorem Tree.legible_node {any : Bool} {ts : List (Tree String)} (h : ∀ t ∈ ts, t.Legible) : (node any ts).Legible := by
  intro x hx
  rw [layout,layouts_eq] at hx
  refine Layout.legible_gather (fun y hy => ?_) x hx
  obtain ⟨o,ho,hyo⟩ := List.mem_flatMap.mp hy
  obtain ⟨t,ht,rfl⟩ := List.mem_map.mp ho
  exact h t ht y (Option.mem_toList.mp hyo)

theorem Tree.legible_hash {leaves : List (Leaf String)} (h : ∀ l ∈ leaves, l.Legible) : (hash leaves).Legible := by
  intro x hx
  refine Layout.legible_gather (fun y hy => ?_) x hx
  obtain ⟨l,hl,hyl⟩ := List.mem_filterMap.mp hy
  exact h l hl y hyl

theorem Leaf.legible_atom {l : Leaf String} {p : Predicate String} (h : l.layout = some (.atom p)) (hp : p.Legible) :
    l.Legible := by
  intro x hx
  rw [h] at hx
  cases hx
  exact hp

theorem Predicate.legible_of {p : Predicate String} {column : String} (hp : p.paths = [.ofColumn column])
    (hn : ∀ name ∈ p.names, Readable name) (hl : p.Listed) : p.Legible := by
  refine ⟨fun path hpath => ?_,hn,hl⟩
  rw [hp] at hpath
  rw [List.mem_singleton.mp hpath]
  exact proper_ofColumn column

theorem Leaf.legible_member {negated : Bool} {column : String} {values : List (Operand String)}
    (h : ∀ o ∈ values, ∀ name ∈ o.values, Readable name) : (Leaf.member negated column values).Legible := by
  match values with
  | [] => exact Layout.legible_overNothing negated
  | [o] => exact legible_atom rfl (Predicate.legible_of rfl (h o (.head _)) trivial)
  | o :: o' :: more =>
    refine legible_atom rfl (Predicate.legible_of rfl (fun name hn => ?_) (List.cons_ne_nil _ _))
    obtain ⟨o,ho,hn⟩ := List.mem_flatMap.mp hn
    exact h o ho name hn

theorem Leaf.layout_rowMember {negated : Bool} {columns : List String} {rows : List (List (Operand α))}
    (hc : columns ≠ []) (hr : rows ≠ []) :
    (Leaf.rowMember negated columns rows).layout =
      some (.atom (.rowMember negated (columns.map Path.ofColumn) rows)) := by
  have hempty : ¬ ((columns.isEmpty || rows.isEmpty) = true) := by simp [hc,hr]
  simp only [layout,if_neg hempty]

theorem Leaf.legible_rowMember {negated : Bool} {columns : List String} {rows : List (List (Operand String))}
    (hlen : ∀ row ∈ rows, row.length = columns.length)
    (h : ∀ row ∈ rows, ∀ o ∈ row, ∀ name ∈ o.values, Readable name) :
    (Leaf.rowMember negated columns rows).Legible := by
  by_cases hempty : columns.isEmpty || rows.isEmpty
  · intro x hx
    simp only [layout,hempty,if_true] at hx
    exact Layout.legible_overNothing negated x hx
  · simp only [Bool.or_eq_true,not_or,List.isEmpty_iff] at hempty
    obtain ⟨hcolumns,hrows⟩ := hempty
    refine legible_atom (layout_rowMember hcolumns hrows) ⟨fun path hp => ?_,fun name hn => ?_,?_,hrows,fun row hr hnil => ?_⟩
    · obtain ⟨c,_,rfl⟩ := List.mem_map.mp hp
      exact proper_ofColumn c
    · obtain ⟨row,hr,hn⟩ := List.mem_flatMap.mp hn
      obtain ⟨o,ho,hn⟩ := List.mem_flatMap.mp hn
      exact h row hr o ho name hn
    · simpa using hcolumns
    · have hl := hlen row hr
      rw [hnil] at hl
      exact hcolumns (List.length_eq_zero_iff.mp hl.symm)

theorem Leaf.legible_like {any negated : Bool} {column : String} {patterns : List String}
    (h : ∀ name ∈ patterns, Readable name) : (Leaf.like any negated column patterns).Legible := by
  have hpattern : ∀ name ∈ patterns, (Predicate.like negated (.ofColumn column) (.bound name)).Legible := by
    intro name hn
    refine Predicate.legible_of rfl (fun n hm => ?_) trivial
    rw [List.mem_singleton.mp hm]
    exact h name hn
  match patterns with
  | [] => exact Layout.legible_overNothing negated
  | [p] => exact legible_atom rfl (hpattern p (.head _))
  | p :: p' :: more =>
    intro x hx
    cases hx
    intro pred hp
    change pred ∈ (p :: p' :: more).map (fun name => Predicate.like negated (.ofColumn column) (.bound name)) at hp
    obtain ⟨name,hn,rfl⟩ := List.mem_map.mp hp
    exact hpattern name hn

end SqlCompose
