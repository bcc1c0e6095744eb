import SqlCompose.Compose
import SqlCompose.Proofs.Mirror

/-! # Clauses that are read alone

Three clauses of a query list columns or tables. How they are read from a mapping and how they are written differs in the
key, in the words before the items and in the way a name is written. If a clause can be read at all, then a mapping that
has it reads as the query that is read without it, with the clause put in.
-/
namespace SqlCompose
open Build

variable {s : Setting} {m : Memory} {v w : Value} {es fs before after : Entries} {nested : Entries → Reading (Option Nat)}

theorem Sql.isExpression_iff {name : String} : isExpression name ↔ '(' ∈ name.toList := List.contains_iff_mem

theorem Sql.column_of_mem {name : String} (h : '(' ∈ name.toList) : column name = [.text name] :=
  if_pos (isExpression_iff.mpr h)

inductive ItemClause where
  | columns
  | tables
  | groups

namespace ItemClause
variable {c : ItemClause} {q : Query} {l : List Item}

def key : ItemClause → String
  | .columns => "SELECT"
  | .tables => "FROM"
  | .groups => "GROUP_BY"

def items : ItemClause → Query → List Item
  | .columns => Query.columns
  | .tables => Query.tables
  | .groups => Query.groups

def put (l : List Item) : ItemClause → Query → Query
  | .columns,q => { q with columns := l }
  | .tables,q => { q with tables := l }
  | .groups,q => { q with groups := l }

def opening (q : Query) : ItemClause → String
  | .columns => (if q.distinct then "SELECT DISTINCT" else "SELECT") ++ q.selectOption.elim "" (" " ++ ·) ++ " "
  | .tables => "FROM "
  | .groups => "GROUP BY "

def name : ItemClause → String → Sql
  | .columns => Sql.aliasedColumn
  | .tables => Sql.aliasedTable
  | .groups => Sql.column

def compile (s : Setting) (q : Query) : ItemClause → Build Sql
  | .columns => Query.selectClause s q
  | .tables => Query.fromClause s q
  | .groups => Query.groupClause s q

theorem compile_of_ne (h : c.items q ≠ []) : c.compile s q = do
    return [.text (c.opening q)] ++ (← Build.items s c.name (c.items q)) := by
  have hempty : (c.items q).isEmpty = false := by simpa using h
  cases c <;> simp only [compile,Query.selectClause,Query.fromClause,Query.groupClause]
  all_goals
    rw [if_neg (by simpa [items] using h)]
    rfl

end ItemClause

namespace Build

theorem items_names (name : String → Sql) (names : List String) :
    items s name (names.map .name) = pure (Sql.commas (names.map name)) := by
  have hnames : (names.map Item.name).mapM (item s name) = pure (names.map name) := by
    rw [List.mapM_map]
    exact List.mapM_pure
  rw [items,hnames]
  rfl

end Build

theorem ItemClause.compile_names {c : ItemClause} {q : Query} {names : List String} (h : c.items q = names.map .name)
    (hne : names ≠ []) : c.compile s q = pure ([.text (c.opening q)] ++ Sql.commas (names.map c.name)) := by
  rw [compile_of_ne (by simpa [h] using hne),h,Build.items_names]
  rfl

/-- An expression is written as it is in all three. -/
theorem ItemClause.compile_expression {c : ItemClause} {q : Query} {text : String} (h : '(' ∈ text.toList)
    (hq : c.items q = [.name text]) : c.compile s q = pure [.text (c.opening q),.text text] := by
  have hname : c.name text = [.text text] := by cases c <;> exact if_pos (Sql.isExpression_iff.mpr h)
  have hnames : c.items q = [text].map .name := hq
  rw [compile_names hnames (List.cons_ne_nil text []),List.map_singleton,hname]
  rfl

theorem Dialect.render_clause (d : Dialect) (opening : String) (parts : List Sql) :
    d.render ([.text opening] ++ Sql.commas parts) = opening ++ ", ".intercalate (parts.map d.render) := by
  rw [render_append,Sql.commas,render_join]
  simp [render,renderToken]

/-- The clause of a list of names, as it is written in the dialect. -/
theorem ItemClause.render_compile {c : ItemClause} {q : Query} {names : List String} (h : c.items q = names.map .name)
    (hne : names ≠ []) : ∃ sql, c.compile s q = pure sql ∧ s.dialect.render sql =
      c.opening q ++ ", ".intercalate (names.map (fun name => s.dialect.render (c.name name))) := by
  refine ⟨_,compile_names h hne,?_⟩
  rw [Dialect.render_clause,List.map_map]
  rfl

/-! ## Reading one clause -/

/-- What has been read in all places is read as a whole. -/
theorem sequence_some {α : Type} (l : List α) : (l.map some).mapM id = some l := by
  rw [List.mapM_map]
  exact List.mapM_pure.trans (congrArg some (List.map_id l))

namespace Entries

theorem unknown_insert {known : List String} {key : String} (hk : key ∈ known) :
    (before ++ (.text key,v) :: after).unknown m known = (before ++ after).unknown m known := by
  have hknown : ((Value.text key).text?.isSome && known.contains ((Value.text key).reportedName m)) = true := by
    simpa [Value.text?,Value.reportedName] using hk
  simp only [unknown,keys,List.map_append,List.map_cons,List.filterMap_append,List.filterMap_cons,hknown,if_true]

theorem field?_insert_self {key : String} (h : key ∉ (before ++ after).names) :
    (before ++ (.text key,v) :: after).field? key = some v := by
  have hbefore : before.field? key = none := by
    rw [← Option.not_isSome_iff_eq_none,isSome_field?]
    exact fun hmem => h (by simp only [names,List.filterMap_append]; exact List.mem_append_left _ hmem)
  rw [field?_append,hbefore,field?_cons]
  simp [Value.text?]

theorem field?_insert_other {key t : String} (h : t ≠ key) :
    (before ++ (.text key,v) :: after).field? t = (before ++ after).field? t := by
  rw [field?_append,field?_append,field?_cons,if_neg]
  simpa [Value.text?] using Ne.symm h

end Entries

namespace Checked

theorem map_ofFields {α β : Type} (f : α → β) (result : Option α) (fields : List (String × Bool)) (unknown : List String) :
    (ofFields result fields unknown).map f = ofFields (f <$> result) fields unknown := by
  unfold ofFields
  cases result <;> cases unknown <;> rfl

end Checked

namespace Query

theorem readClause_insert_self {α : Type} {key : String} {absent : α} {read : Value → Reading (Option α)}
    (h : key ∉ (before ++ after).names) :
    readClause (before ++ (.text key,v) :: after) key absent read = read v := by
  rw [readClause,Entries.field?_insert_self h]

theorem readClause_insert_other {α : Type} {key t : String} {absent : α} {read : Value → Reading (Option α)} (h : t ≠ key) :
    readClause (before ++ (.text key,v) :: after) t absent read = readClause (before ++ after) t absent read := by
  rw [readClause,readClause,Entries.field?_insert_other h]

theorem readClause_absent {α : Type} {key : String} {absent : α} {read : Value → Reading (Option α)}
    (h : key ∉ es.names) : readClause es key absent read = pure (some absent) := by
  have hnone : es.field? key = none := by rwa [← Option.not_isSome_iff_eq_none,Entries.isSome_field?]
  rw [readClause,hnone]

/-- With `v` under `key`, a mapping is read like the one without it, and what is read changes so. -/
def Contributes (key : String) (v : Value) (change : Query → Query) : Prop :=
  ∀ (nested : Entries → Reading (Option Nat)) (before after : Entries), key ∉ (before ++ after).names →
    ofEntries nested (before ++ (.text key,v) :: after) = Except.map change <$> ofEntries nested (before ++ after)

/-- A clause that can be read puts its items in. -/
theorem contributes_items (c : ItemClause) {l : List Item} (hread : Item.readAll v = pure (some l)) :
    Contributes c.key v (c.put l) := by
  intro nested before after hkey
  unfold ofEntries
  cases c
  all_goals
    simp only [ItemClause.key] at hkey ⊢
    simp (disch := decide) only [readClause_insert_self hkey,readClause_insert_other,readClause_absent hkey,hread,
      Entries.unknown_insert,map_bind,pure_bind,map_pure,Checked.map_ofFields]
    rfl

/-- The same for the clause that sorts. -/
theorem contributes_order {keys : List (String × SortKey)} (hread : ∀ m, SortKey.readAll m v = .ok (some keys)) :
    Contributes "ORDER_BY" v (fun q => { q with order := keys }) := by
  intro nested before after hkey
  have horder : Reading.ofMemory (fun m => SortKey.readAll m v) = pure (some keys) := by
    simp only [hread]
    rfl
  unfold ofEntries
  simp (disch := decide) only [readClause_insert_self hkey,readClause_insert_other,readClause_absent hkey,horder,
    Entries.unknown_insert,map_bind,pure_bind,map_pure,Checked.map_ofFields]
  rfl

/-- Two values that contribute the same are the same to whoever composes the query. -/
theorem Contributes.composeQuery_eq {key : String} {change : Query → Query} (hv : Contributes key v change)
    (hw : Contributes key w change) (hkey : key ∉ (before ++ after).names) (r : Registry) (o : Options) (target : String)
    (m : Memory) : r.composeQuery o target (.mapping (before ++ (.text key,v) :: after)) m =
      r.composeQuery o target (.mapping (before ++ (.text key,w) :: after)) m := by
  have hread : read (before ++ (.text key,v) :: after) = read (before ++ (.text key,w) :: after) := by
    unfold read
    rw [hv _ _ _ hkey,hw _ _ _ hkey]
  have hvalue : ofValue (.mapping (before ++ (.text key,v) :: after)) =
      ofValue (.mapping (before ++ (.text key,w) :: after)) := by
    have hmapping : ∀ es, ofValue (.mapping es) = (do let _ ← get; read es) := fun _ => rfl
    rw [hmapping,hmapping,hread]
  have hparse : parse (.mapping (before ++ (.text key,v) :: after)) =
      parse (.mapping (before ++ (.text key,w) :: after)) := by
    have hmapping : ∀ es, parse (.mapping es) = parse.check none (.mapping es) := fun _ => rfl
    rw [hmapping,hmapping,parse.check,parse.check,hvalue]
  unfold Registry.composeQuery
  rw [hparse]

end Query

end SqlCompose
