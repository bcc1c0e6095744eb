import SqlCompose.Proofs.WrittenConditions

/-! # Malformed conditions

What is wrong with a condition is told from one node of it at a time: the shape of the node, the token at its head, the
number of its operands, the rows of a test of several columns. A condition whose columns are named fails exactly if one
of its nodes is malformed or lists more than can be held, and it fails for the first such node, depth first.
-/
namespace SqlCompose
open Build

variable {s : Setting} {d e : Draft} {m : Memory} {v w : Value} {α β : Type}

/-! ## What is wrong with a node -/

namespace Value

def hasEntries : Value → Bool
  | .mapping _ | .shared _ => true
  | _ => false

/-- Why a value cannot be listed: it is a range of too many numbers. -/
def excess? : Value → Option Misuse
  | .range start stop step =>
    if maxLength < rangeLength start stop step then some .unbounded
    else if maxHeld < rangeLength start stop step then some .tooMany
    else none
  | _ => none

end Value

def Operator.arity? : Operator → Option Nat
  | .and | .or => none
  | .between _ => some 3
  | .member _ | .like .. | .compare _ => some 2

namespace Condition

def keyFlaw? (keys : List Value) : Option Fault :=
  if keys.all (fun key => key.readText?.isSome) then none else some (.keysNotNames keys)

def shapeFlaw? (m : Memory) : Value → Option Fault
  | .null | .text _ | .operator _ | .direction _ | .expression .. => none
  | .raw _ | .pairs _ | .operation .. | .list [] | .tuple [] => none
  | .mapping entries => keyFlaw? (Entries.keys entries)
  | .shared home => keyFlaw? (m.mapping home).keys
  | .list (head :: _) | .tuple (head :: _) =>
    match Operator.ofValue head with
    | .ok _ => none
    | .error _ => some (.unknownOperator head)
  | v => some (.unsupportedShape v.kind)

def countFlaw? (op : Operator) (operands : List Value) : Option Fault :=
  op.arity?.bind (fun n => if operands.length = n then none else some (.operandCount op n operands.length))

def rowFlaw? (negated : Bool) (row : Value) : Option Fault :=
  if row.hasEntries then none else some (.rowNotMapping (.member negated) row)

def rowsFlaw? (m : Memory) : Operator → List Value → Option Fault
  | .member negated,[column,values] =>
    if 1 < ((columns? column).getD [column]).length then (values.listed m).findSome? (rowFlaw? negated) else none
  | _,_ => none

/-- What is wrong with a node, its operands apart. -/
def flaw? (m : Memory) (v : Value) : Option Fault :=
  (shapeFlaw? m v).or ((operation? v).bind (fun o => (countFlaw? o.1 o.2).or (rowsFlaw? m o.1 o.2)))

def listedBy (m : Memory) (v : Value) : List Value :=
  match operation? v with
  | some (op,operands) => (Test.operation op operands).lists m
  | none => Test.pairLists m v

/-- The fault of a node that lists more than can be held. -/
def excess? (m : Memory) (v : Value) : Option Fault := ((listedBy m v).findSome? Value.excess?).map .misuse

def nodeFault? (s : Setting) (n : Value × Draft) : Option Fault :=
  (excess? (n.2.view s) n.1).or (flaw? (n.2.view s) n.1)

mutual
def nodes : Value → List Value
  | .operation op operands => .operation op operands :: if op.connects then nodesOfAll operands else []
  | .list items => .list items :: nodesOfForm items
  | .tuple items => .tuple items :: nodesOfForm items
  | v => [v]

def nodesOfForm : List Value → List Value
  | [] => []
  | head :: operands =>
    match Operator.ofValue head with
    | .ok op => if op.connects then nodesOfAll operands else []
    | .error _ => []

def nodesOfAll : List Value → List Value
  | [] => []
  | v :: vs => nodes v ++ nodesOfAll vs
end

mutual
/-- The nodes of a condition, each with the draft with which it is come upon. -/
def visits (s : Setting) : Value → Draft → List (Value × Draft)
  | .operation op operands,d =>
    (.operation op operands,d) :: if op.connects then visitsAll s operands d else []
  | .list items,d => (.list items,d) :: visitsForm s items d
  | .tuple items,d => (.tuple items,d) :: visitsForm s items d
  | v,d => [(v,d)]

def visitsForm (s : Setting) : List Value → Draft → List (Value × Draft)
  | [],_ => []
  | head :: operands,d =>
    match Operator.ofValue head with
    | .ok op => if op.connects then visitsAll s operands d else []
    | .error _ => []

def visitsAll (s : Setting) : List Value → Draft → List (Value × Draft)
  | [],_ => []
  | v :: vs,d => visits s v d ++ visitsAll s vs ((compile s v).runOn d).2
end

variable {op : Operator} {operands : List Value}

theorem nodes_of_operation? (h : operation? v = some (op,operands)) :
    nodes v = v :: if op.connects then nodesOfAll operands else [] := by
  rcases operation?_eq_some h with rfl | ⟨head,rfl | rfl,hop⟩
  · rw [nodes]
  · rw [nodes,nodesOfForm,hop]
  · rw [nodes,nodesOfForm,hop]

theorem visits_of_operation? (h : operation? v = some (op,operands)) :
    visits s v d = (v,d) :: if op.connects then visitsAll s operands d else [] := by
  rcases operation?_eq_some h with rfl | ⟨head,rfl | rfl,hop⟩
  · rw [visits]
  · rw [visits,visitsForm,hop]
  · rw [visits,visitsForm,hop]

theorem mem_nodesOfAll {o n : Value} (ho : o ∈ operands) (hn : n ∈ nodes o) : n ∈ nodesOfAll operands := by
  induction operands with
  | nil => cases ho
  | cons v vs ih =>
    rw [nodesOfAll,List.mem_append]
    rcases List.mem_cons.mp ho with rfl | ho
    · exact .inl hn
    · exact .inr (ih ho)

theorem nodes_of_unread {x : Fault} (h : Unread v x) : nodes v = [v] := by
  obtain ⟨head,operands,rfl | rfl,hop⟩ := h <;> rw [nodes,nodesOfForm,hop]

theorem visits_of_unread {x : Fault} (h : Unread v x) : visits s v d = [(v,d)] := by
  obtain ⟨head,operands,rfl | rfl,hop⟩ := h <;> rw [visits,visitsForm,hop]

end Condition

/-! ## Steps that fail for one reason -/

def Fares (d : Draft) (p : Build α) (o : Option Fault) (R : α → Prop) : Prop :=
  match (p.runOn d).1 with
  | .ok a => o = none ∧ R a
  | .error f => o = some f

namespace Fares
variable {p : Build α} {f : α → Build β} {o o' : Option Fault} {R R' : α → Prop} {Q : β → Prop}

theorem pure {a : α} (h : R a) : Fares d (Pure.pure a) none R := ⟨rfl,h⟩

theorem fail (x : Fault) : Fares d (Build.fail x : Build α) (some x) R := rfl

/-- A step that succeeds. -/
theorem done {a : α} (h : p.runOn d = (.ok a,e)) : Fares d p none (· = a) := by
  unfold Fares
  rw [h]
  exact ⟨rfl,rfl⟩

theorem bind (hp : Fares d p o R) (hf : ∀ a e, p.runOn d = (.ok a,e) → R a → Fares e (f a) o' Q) :
    Fares d (p >>= f) (o.or o') Q := by
  unfold Fares at hp ⊢
  rw [runOn_bind]
  cases hr : p.runOn d with
  | mk r e =>
    rw [hr] at hp
    cases r with
    | error x =>
      rw [show o = some x from hp]
      rfl
    | ok a =>
      rw [hp.1]
      exact hf a e hr hp.2

theorem congr (hp : Fares d p o R) (h : o' = o) : Fares d p o' R := h ▸ hp

/-- A step before which nothing can go wrong. -/
theorem after (hp : Fares d p none R) (hf : ∀ a e, R a → Fares e (f a) o Q) : Fares d (p >>= f) o Q :=
  hp.bind (fun a e _ ha => hf a e ha)

/-- A step after which nothing can go wrong. -/
theorem andThen (hp : Fares d p o R) (hf : ∀ a e, R a → Fares e (f a) none Q) : Fares d (p >>= f) o Q :=
  (hp.bind (fun a e _ ha => hf a e ha)).congr (Option.or_none.symm)

theorem view {f : Memory → Build β} (h : Fares d (f (d.view s)) o Q) : Fares d (Build.view s >>= f) o Q := by
  unfold Fares at h ⊢
  rwa [runOn_bind,runOn_view]

/-- A traversal fails for the first of its items that fails. -/
theorem mapM {l : List α} {f : α → Build β} {o : α → Option Fault} (h : ∀ a ∈ l, ∀ e, Fares e (f a) (o a) Q) :
    Fares d (l.mapM f) (l.findSome? o) (fun bs => ∀ b ∈ bs, Q b) := by
  induction l generalizing d with
  | nil => exact pure nofun
  | cons a l ih =>
    have hrest := fun e => ih (d := e) (fun a ha => h a (.tail _ ha))
    rw [List.mapM_cons]
    refine ((h a (.head _) d).bind (fun b e _ hb => (hrest e).andThen (fun bs e' hbs => ?_))).congr ?_
    · exact pure (List.forall_mem_cons.mpr ⟨hb,hbs⟩)
    · rw [List.findSome?_cons]
      cases o a <;> rfl

/-- A traversal none of whose items fails. -/
theorem each {l : List α} {f : α → Build β} (h : ∀ a ∈ l, ∀ e, Fares e (f a) none Q) :
    Fares d (l.mapM f) none (fun bs => ∀ b ∈ bs, Q b) := by
  refine (mapM h).congr ?_
  rw [List.findSome?_eq_none_iff.mpr (fun _ _ => rfl)]

theorem error_iff {x : Fault} (h : Fares d p o R) : (p.runOn d).1 = .error x ↔ o = some x := by
  unfold Fares at h
  split at h
  · next hr => simp [hr,h.1]
  · next y hr => simp [hr,h]

theorem ok_iff (h : Fares d p o R) : (∃ a, (p.runOn d).1 = .ok a) ↔ o = none := by
  unfold Fares at h
  split at h
  · next hr => simp [hr,h.1]
  · next y hr => simp [hr,h]

end Fares

/-! ## Values and columns -/

namespace Build

theorem fares_rendered (hb : s.Binds) : Fares d (rendered s v) none (fun _ => True) := by
  unfold rendered
  split
  · exact .after (.done (runOn_adopt hb _)) (fun _ _ _ => .pure trivial)
  · exact .after (.done (runOn_bindValue hb)) (fun _ _ _ => .pure trivial)

end Build

theorem Operator.hasChar_token (op : Operator) :
    Text.hasChar '(' op.token = false ∧ Text.hasChar '.' op.token = false := by
  cases op with
  | like any negated => cases any <;> cases negated <;> decide
  | between negated => cases negated <;> decide
  | member negated => cases negated <;> decide
  | compare c => cases c <;> decide
  | _ => decide

theorem Direction.hasChar_token (direction : Direction) :
    Text.hasChar '(' direction.token = false ∧ Text.hasChar '.' direction.token = false := by
  cases direction <;> decide

namespace Build

/-- The tokens of operators and directions hold neither a parenthesis nor a dot. -/
theorem runOn_holds_token {c : Char} {t : String} (hv : v.text? = some t) (ht : ∀ n, v ≠ .text n)
    (hc : c = '(' ∨ c = '.') : (holds s c v).runOn d = (.ok false,d) := by
  have hfalse : Text.hasChar c t = false := by
    cases v with
    | text n => exact absurd rfl (ht n)
    | operator op =>
      cases hv
      rcases hc with rfl | rfl
      · exact op.hasChar_token.1
      · exact op.hasChar_token.2
    | direction direction =>
      cases hv
      rcases hc with rfl | rfl
      · exact direction.hasChar_token.1
      · exact direction.hasChar_token.2
    | _ => cases hv
  unfold holds
  simp only [hv,hfalse]
  rfl

theorem fares_columnName (h : v.text?.isSome) : Fares d (columnName s v) none (fun _ => True) := by
  obtain ⟨t,ht⟩ := Option.isSome_iff_exists.mp h
  unfold columnName
  split
  · exact .pure trivial
  · next hn =>
    refine .after (.done (runOn_holds_token ht hn (.inl rfl))) ?_
    rintro _ e rfl
    refine .after (.done (runOn_holds_token ht hn (.inr rfl))) ?_
    rintro _ e rfl
    cases s.dialect.quote with
    | none => exact .view (.pure trivial)
    | some quote =>
      simp only [ht]
      exact .pure trivial

theorem fares_listedColumn (h : v.text?.isSome) : Fares d (listedColumn s v) none (fun o => o.isSome) := by
  obtain ⟨t,ht⟩ := Option.isSome_iff_exists.mp h
  unfold listedColumn
  split
  · exact .pure rfl
  · next hn =>
    refine .after (.done (runOn_holds_token ht hn (.inl rfl))) ?_
    rintro _ e rfl
    exact .after (fares_columnName h) (fun _ _ _ => .pure rfl)

theorem fares_nameList {names : List (Option Sql)} (h : ∀ o ∈ names, o.isSome) :
    Fares d (nameList names) none (fun _ => True) := by
  have hall : ∃ sqls : List Sql, names = sqls.map some := by
    induction names with
    | nil => exact ⟨[],rfl⟩
    | cons o names ih =>
      obtain ⟨sql,rfl⟩ := Option.isSome_iff_exists.mp (h o (.head _))
      obtain ⟨sqls,rfl⟩ := ih (fun o ho => h o (.tail _ ho))
      exact ⟨sql :: sqls,rfl⟩
  obtain ⟨sqls,rfl⟩ := hall
  rw [nameList_some]
  exact .pure trivial

end Build

theorem Value.isKey_of_text (h : v.text?.isSome) : v.isKey := by
  cases v <;> first | rfl | cases h

theorem Value.isSome_entries (m : Memory) (v : Value) : (v.entries? m).isSome = v.hasEntries := by cases v <;> rfl

namespace Condition
variable {op : Operator} {operands : List Value} {column : Value} {any negated : Bool}

theorem fares_entry (hb : s.Binds) : Fares d (entry s v) none (fun _ => True) := by
  unfold entry
  split
  · exact .pure trivial
  · exact fares_rendered hb

theorem fares_field (h : column.text?.isSome) : Fares d (field s column v) none (fun _ => True) := by
  unfold field
  refine .view ?_
  split
  · exact .pure trivial
  · rw [if_pos (Value.isKey_of_text h)]
    exact .pure trivial

/-- A range is listed if it is short enough. -/
theorem fares_elements_range {start stop step : Int} :
    Fares d (elements s (.range start stop step)) ((Value.range start stop step).excess?.map .misuse)
      (fun vs => vs = (Value.range start stop step).listed (d.view s)) := by
  refine .view ?_
  unfold Value.held Value.excess?
  by_cases hlong : Value.maxLength < Value.rangeLength start stop step
  · simp only [if_pos hlong]
    exact .fail _
  · by_cases hlarge : Value.maxHeld < Value.rangeLength start stop step
    · simp only [if_neg hlong,if_pos hlarge]
      exact .fail _
    · simp only [if_neg hlong,if_neg hlarge]
      exact .pure rfl

/-- Values are listed as they are, unless there are too many of them. -/
theorem fares_valuesOf : Fares d (valuesOf s v) (v.excess?.map .misuse) (fun vs => vs = v.listed (d.view s)) := by
  unfold valuesOf
  split
  · next hl =>
    cases v with
    | range start stop step => exact fares_elements_range
    | _ => first | exact .congr (.done rfl) rfl | cases hl
  · next hl =>
    have hlisted : v.listed (d.view s) = [v] := if_neg hl
    rw [hlisted]
    cases v with
    | range start stop step => exact absurd rfl hl
    | _ => exact .congr (.done rfl) rfl

theorem fares_singleMember (hb : s.Binds) {values : List Value} (h : column.text?.isSome) :
    Fares d (singleMember s negated column values) none (fun _ => True) := by
  have hvalue : ∀ v ∈ values, ∀ e, Fares e (do entry s (← field s column v)) none (fun _ => True) :=
    fun v _ e => .after (fares_field h) (fun _ _ _ => fares_entry hb)
  refine .after (.each hvalue) (fun entries e _ => .after (fares_columnName h) (fun name e' _ => ?_))
  split <;> exact .pure trivial

theorem fares_memberRow (hb : s.Binds) {columns : List Value} (h : ∀ c ∈ columns, c.text?.isSome) :
    Fares d (memberRow s negated columns v) (rowFlaw? negated v) (fun _ => True) := by
  unfold memberRow rowFlaw?
  refine .view ?_
  rw [← Value.isSome_entries (d.view s)]
  cases v.entries? (d.view s) with
  | none => exact .fail _
  | some es =>
    refine .andThen (.each (Q := fun _ => True) (fun c hc e => ?_)) (fun _ _ _ => .pure trivial)
    exact .after (fares_field (h c hc)) (fun _ _ _ => fares_entry hb)

theorem fares_compositeMember (hb : s.Binds) {columns rows : List Value} (h : ∀ c ∈ columns, c.text?.isSome) :
    Fares d (compositeMember s negated columns rows) (rows.findSome? (rowFlaw? negated)) (fun _ => True) := by
  refine .andThen (.mapM (fun row _ e => fares_memberRow hb h)) (fun tuples e _ => ?_)
  refine .after (.each (fun c hc e => fares_listedColumn (h c hc))) (fun names e' hnames => ?_)
  exact .after (fares_nameList hnames) (fun _ _ _ => .pure trivial)

theorem fares_member (hb : s.Binds) (h : ∀ c ∈ (columns? column).getD [column], c.text?.isSome) :
    Fares d (member s negated column v)
      ((v.excess?.map .misuse).or (rowsFlaw? (d.view s) (.member negated) [column,v])) (fun _ => True) := by
  refine .bind fares_valuesOf (fun values e _ hvalues => ?_)
  simp only [rowsFlaw?,← hvalues]
  split
  · next hnil =>
    rw [List.isEmpty_iff.mp hnil]
    exact .congr (.pure trivial) (by split <;> rfl)
  · -- rows are looked into for their columns only if there are at least two of these
    cases hcol : columns? column with
    | none =>
      rw [hcol] at h
      exact .congr (fares_singleMember hb (h column (.head _))) rfl
    | some columns =>
      rw [hcol] at h
      rcases columns with _ | ⟨single,_ | ⟨second,more⟩⟩
      · exact .pure trivial
      · exact fares_singleMember hb (h single (.head _))
      · exact .congr (fares_compositeMember hb h) (if_pos (by simp))

theorem fares_like (hb : s.Binds) (h : column.text?.isSome) :
    Fares d (like s any negated column v) (v.excess?.map .misuse) (fun _ => True) := by
  refine .andThen fares_valuesOf (fun values e _ => ?_)
  split
  · exact .pure trivial
  · refine .after (fares_columnName h) (fun name e' _ => ?_)
    refine .after (.each (Q := fun _ => True) (fun v _ e'' => ?_)) (fun _ _ _ => .pure trivial)
    exact .after (fares_rendered hb) (fun _ _ _ => .pure trivial)

theorem fares_between (hb : s.Binds) {low high : Value} (h : column.text?.isSome) :
    Fares d (between s negated column low high) none (fun _ => True) :=
  .after (fares_columnName h) (fun _ _ _ => .after (fares_rendered hb) (fun _ _ _ =>
    .after (fares_rendered hb) (fun _ _ _ => .pure trivial)))

theorem fares_comparison (hb : s.Binds) {c : Comparison} (h : column.text?.isSome) :
    Fares d (comparison s c column v) none (fun _ => True) :=
  .after (fares_columnName h) (fun _ _ _ => .after (fares_rendered hb) (fun _ _ _ => .pure trivial))

theorem excess?_of_not_listsValues (h : v.listsValues = false) : v.excess? = none := by
  cases v with
  | range start stop step => cases h
  | _ => rfl

theorem fares_pair (hb : s.Binds) {name : String} :
    Fares d (pair s name v) (v.excess?.map .misuse) (fun _ => True) := by
  unfold pair
  split
  · refine (fares_member hb ?_).congr Option.or_none.symm
    intro c hc
    cases List.mem_singleton.mp hc
    rfl
  · next hl =>
    rw [excess?_of_not_listsValues (Bool.eq_false_iff.mpr hl)]
    split
    · exact .pure trivial
    · exact .after (fares_rendered hb) (fun _ _ _ => .pure trivial)

/-- What is listed under the columns of a mapping is what counts there. -/
theorem findSome?_excess? (columns : List (String × Value)) :
    ((columns.map (·.2)).filter Value.listsValues).findSome? Value.excess? =
      columns.findSome? (fun c => c.2.excess?) := by
  induction columns with
  | nil => rfl
  | cons c columns ih =>
    rw [List.map_cons,List.filter_cons,List.findSome?_cons,← ih]
    cases hl : c.2.listsValues with
    | true => rfl
    | false => rw [excess?_of_not_listsValues hl]; rfl

theorem fares_pairs (hb : s.Binds) {named : List (String × Value)} :
    Fares d (pairs s named) ((((named.map (·.2)).filter Value.listsValues).findSome? Value.excess?).map .misuse)
      (fun _ => True) := by
  refine .andThen (.congr (.mapM (fun c _ e => fares_pair hb)) ?_) (fun parts e _ => ?_)
  · rw [findSome?_excess?,List.map_findSome?]
    rfl
  · split <;> exact .pure trivial

/-! ## Nodes -/

theorem isSome_named? (es : Entries) : es.named?.isSome = es.keys.all (fun key => key.readText?.isSome) := by
  unfold Entries.named?
  rw [Option.isSome_map]
  induction es with
  | nil => rfl
  | cons e es ih =>
    rw [List.mapM_cons,Entries.keys_cons,List.all_cons,← ih]
    cases e.1.readText? with
    | none => rfl
    | some key => cases es.mapM (fun (e : Value × Value) => e.1.readText?.map (fun key => (key,e.2))) <;> rfl

theorem fares_typedPairs (hb : s.Binds) {es : Entries} (ht : typed (d.view s) v = typedPairs es) :
    Fares d (simple s v) ((((Test.pairLists (d.view s) v).findSome? Value.excess?).map .misuse).or (keyFlaw? es.keys))
      (fun _ => True) := by
  unfold keyFlaw? Test.pairLists
  refine .view ?_
  rw [ht,← isSome_named?]
  unfold typedPairs
  cases hes : es.isEmpty with
  | true =>
    rw [List.isEmpty_iff.mp hes]
    exact .pure trivial
  | false =>
    cases es.named? with
    | none => exact .fail _
    | some named => exact .congr (fares_pairs hb) Option.or_none

/-- What is wrong with a condition that has no operands. -/
theorem fares_simple (hb : s.Binds) (hv : Bare v) (hx : ∀ sql params, v ≠ .expression sql params) :
    Fares d (simple s v) ((excess? (d.view s) v).or (flaw? (d.view s) v)) (fun _ => True) := by
  cases v with
  | list items => exact hv.elim
  | tuple items => exact hv.elim
  | operation op operands => exact hv.elim
  | expression sql params => exact absurd rfl (hx sql params)
  | mapping entries => exact .congr (fares_typedPairs hb rfl) (by simp [flaw?,excess?,listedBy,operation?,shapeFlaw?])
  | shared home => exact .congr (fares_typedPairs hb rfl) (by simp [flaw?,excess?,listedBy,operation?,shapeFlaw?])
  | pairs columns =>
    refine .view (.congr (fares_pairs hb) ?_)
    exact Option.or_none
  | null => exact .view (.pure trivial)
  | raw sql => exact .view (.pure trivial)
  | text sql => exact .view (.pure trivial)
  | operator op => exact .view (.pure trivial)
  | direction direction => exact .view (.pure trivial)
  | _ => exact .view (.fail _)

def operationFlaw? (m : Memory) (op : Operator) (operands : List Value) : Option Fault :=
  ((((Test.operation op operands).lists m).findSome? Value.excess?).map .misuse).or
    ((countFlaw? op operands).or (rowsFlaw? m op operands))

/-- With a wrong number of operands nothing is listed and nothing else is wrong. -/
theorem operationFlaw?_of_count {n : Nat} (ha : op.arity? = some n) (hl : operands.length ≠ n) :
    operationFlaw? m op operands = some (.operandCount op n operands.length) := by
  have hlists : (Test.operation op operands).lists m = [] := by
    unfold Test.lists
    split
    · next h =>
      cases h
      cases ha
      exact absurd rfl hl
    · next h =>
      cases h
      cases ha
      exact absurd rfl hl
    · next h => cases h
    · rfl
  simp [operationFlaw?,hlists,countFlaw?,ha,hl]

theorem fares_test (hb : s.Binds) {inner : Build (List Sql)} (hop : op.connects = false)
    (hc : ∀ c ∈ (Test.operation op operands).columns, c.text?.isSome) :
    Fares d (operate s op operands inner) (operationFlaw? (d.view s) op operands) (fun _ => True) := by
  unfold operate
  split
  · cases hop
  · cases hop
  · exact fares_between hb (hc _ (.head _))
  · next negated operands h =>
    rw [operationFlaw?_of_count (n := 3) rfl]
    · exact .fail _
    · intro hl
      obtain ⟨column,low,high,rfl⟩ := List.length_eq_three.mp hl
      exact h _ _ _ rfl
  · exact .congr (fares_member hb hc) (by simp [operationFlaw?,Test.lists,countFlaw?,Operator.arity?])
  · exact .congr (fares_like hb (hc _ (.head _))) (by simp [operationFlaw?,Test.lists,countFlaw?,Operator.arity?,rowsFlaw?])
  · exact fares_comparison hb (hc _ (.head _))
  · next hbetween hthree hmember hlike hcompare =>
    have ha : op.arity? = some 2 := by
      cases op with
      | between negated => exact (hbetween negated rfl).elim
      | _ => first | rfl | cases hop
    rw [operationFlaw?_of_count ha]
    · exact .fail _
    · intro hl
      obtain ⟨column,value,rfl⟩ := List.length_eq_two.mp hl
      cases op with
      | member negated => exact hmember _ _ _ rfl rfl
      | like any negated => exact hlike _ _ _ _ rfl rfl
      | compare c => exact hcompare _ _ _ rfl rfl
      | _ => cases ha

/-! ## Trees -/

theorem ofValue_error {head : Value} {x : Fault} (h : Operator.ofValue head = .error x) : x = .unknownOperator head := by
  unfold Operator.ofValue at h
  split at h
  · cases h
  · split at h
    · cases h
    · cases h
      rfl

theorem nodeFault?_of_operation? (h : operation? v = some (op,operands)) :
    nodeFault? s (v,d) = operationFlaw? (d.view s) op operands := by
  have hshape : shapeFlaw? (d.view s) v = none := by
    rcases operation?_eq_some h with rfl | ⟨head,rfl | rfl,hop⟩
    · rfl
    · simp only [shapeFlaw?,hop]
    · simp only [shapeFlaw?,hop]
  simp only [nodeFault?,excess?,flaw?,listedBy,h,hshape,operationFlaw?,Option.bind_some,Option.none_or]

theorem nodeFault?_of_unread {x : Fault} (h : Unread v x) : nodeFault? s (v,d) = some x := by
  obtain ⟨head,operands,rfl | rfl,hop⟩ := h <;>
    simp [nodeFault?,excess?,flaw?,listedBy,operation?,shapeFlaw?,Test.pairLists,typed,typedForm,hop,Except.map,
      ofValue_error hop]

/-- A node comes before the nodes below it. -/
theorem findSome?_node {γ : Type} {b : Bool} {x : α} {l : List α} {g : α → Option γ} :
    (x :: if b then l else []).findSome? g = (g x).or (if b then l.findSome? g else none) := by
  rw [List.findSome?_cons]
  cases g x <;> cases b <;> rfl

theorem fares_operate (hb : s.Binds) {inner : Build (List Sql)} {ts : List Test} {o : Option Fault}
    (hc : ∀ t ∈ testsOf op operands ts, ∀ c ∈ t.columns, c.text?.isSome)
    (hi : (∀ t ∈ ts, ∀ c ∈ t.columns, c.text?.isSome) → Fares d inner o (fun _ => True)) :
    Fares d (operate s op operands inner)
      ((operationFlaw? (d.view s) op operands).or (if op.connects then o else none)) (fun _ => True) := by
  cases hop : op.connects with
  | false =>
    rw [testsOf_test hop] at hc
    exact .congr (fares_test hb hop (hc _ (.head _))) Option.or_none
  | true =>
    rw [testsOf_connective hop] at hc
    rw [operate_of_connects hop]
    refine .congr (.andThen (hi hc) (fun _ _ _ => .pure trivial)) ?_
    cases op <;> first | rfl | cases hop

/-- A symbol is well-formed, and neither it nor the SQL that it stands for changes the draft. -/
theorem visits_symbol {sql : Sql} (h : symbol? v = some sql) :
    (visits s v d).findSome? (nodeFault? s) = none ∧ ((compile s v).runOn d).2 = d := by
  cases v with
  | operator op | direction direction => exact ⟨rfl,rfl⟩
  | _ => cases h

theorem fares_operands (hc : ∀ t ∈ testsOfAll operands, ∀ c ∈ t.columns, c.text?.isSome)
    (ih : ∀ o ∈ operands, ∀ e, (∀ t ∈ tests o, ∀ c ∈ t.columns, c.text?.isSome) →
      Fares e (compile s o) ((visits s o e).findSome? (nodeFault? s)) (fun _ => True)) :
    Fares d (compileAll s operands) ((visitsAll s operands d).findSome? (nodeFault? s)) (fun _ => True) := by
  induction operands generalizing d with
  | nil =>
    rw [compileAll,visitsAll]
    exact .pure trivial
  | cons v vs ihs =>
    rw [testsOfAll,List.forall_mem_append] at hc
    rw [compileAll,visitsAll,List.findSome?_append]
    have hhead := ih v (.head _) d hc.1
    have htail := fun e => ihs (d := e) hc.2 (fun o ho => ih o (.tail _ ho))
    cases hs : symbol? v with
    | some symbol =>
      -- written here without `compile`, which would leave the same draft
      obtain ⟨hnone,hstay⟩ := visits_symbol (s := s) (d := d) hs
      rw [hnone,hstay]
      refine Fares.bind (R := fun _ => True) (.pure trivial) (fun _ e he _ => ?_)
      cases he
      exact .andThen (htail d) (fun _ _ _ => .pure trivial)
    | none =>
      refine hhead.bind (fun sql e he _ => ?_)
      rw [he]
      exact .andThen (htail e) (fun _ _ _ => .pure trivial)

theorem fares_compile (hb : s.Binds) (v : Value) (d : Draft)
    (hc : ∀ t ∈ tests v, ∀ c ∈ t.columns, c.text?.isSome) :
    Fares d (compile s v) ((visits s v d).findSome? (nodeFault? s)) (fun _ => True) := by
  induction v using induct generalizing d with
  | expression text params =>
    rw [compile]
    exact fares_rendered hb
  | operation v op operands h ih =>
    rw [tests_of_operation? h] at hc
    rw [compile_of_operation? h,visits_of_operation? h,findSome?_node,nodeFault?_of_operation? h]
    exact fares_operate hb hc (fun hc => fares_operands hc ih)
  | empty v h => rcases h with rfl | rfl <;> exact .pure trivial
  | unread v x h =>
    rw [compile_of_unread h,visits_of_unread h,List.findSome?_singleton,nodeFault?_of_unread h]
    exact .fail x
  | bare v hbare hx =>
    have hvisits : visits s v d = [(v,d)] := by
      cases v <;> first | rfl | exact hbare.elim
    rw [compile_of_bare hbare hx,hvisits,List.findSome?_singleton]
    exact fares_simple hb hbare hx

/-! ## The first flaw -/

theorem visitsAll_fst (ih : ∀ o ∈ operands, ∀ e, (visits s o e).map (·.1) = nodes o) :
    (visitsAll s operands d).map (·.1) = nodesOfAll operands := by
  induction operands generalizing d with
  | nil => rfl
  | cons v vs ihs =>
    rw [visitsAll,nodesOfAll,List.map_append,ih v (.head _),ihs (fun o ho => ih o (.tail _ ho))]

/-- With whatever drafts they are come upon, the nodes of a condition are the same. -/
theorem visits_fst (v : Value) (d : Draft) : (visits s v d).map (·.1) = nodes v := by
  induction v using induct generalizing d with
  | operation v op operands h ih =>
    rw [visits_of_operation? h,nodes_of_operation? h,List.map_cons,apply_ite (List.map _),visitsAll_fst ih,List.map_nil]
  | unread v x h => rw [visits_of_unread h,nodes_of_unread h,List.map_singleton]
  | empty v h => rcases h with rfl | rfl <;> rfl
  | expression sql params => rfl
  | bare v hb hx => cases v <;> first | rfl | exact hb.elim

/-- A condition whose columns are named by texts is written if and only if each of its nodes is well-formed and lists no
more than can be held. Else it fails for the first node that is not or does not, depth first: for what that node lists,
if this is too much, and otherwise for what is wrong with it. -/
theorem first_flaw_reported (hb : s.Binds) (hc : ∀ t ∈ tests v, ∀ c ∈ t.columns, c.text?.isSome) (f : Fault) :
    (visits s v d).map (·.1) = nodes v ∧
    ((∃ sql, ((compile s v).runOn d).1 = .ok sql) ↔
      ∀ n ∈ visits s v d, flaw? (n.2.view s) n.1 = none ∧ excess? (n.2.view s) n.1 = none) ∧
    (((compile s v).runOn d).1 = .error f ↔
      (visits s v d).findSome? (fun n => (excess? (n.2.view s) n.1).or (flaw? (n.2.view s) n.1)) = some f) ∧
    ((∀ n ∈ visits s v d, excess? (n.2.view s) n.1 = none) →
      (((compile s v).runOn d).1 = .error f ↔ (visits s v d).findSome? (fun n => flaw? (n.2.view s) n.1) = some f)) := by
  have hfares := fares_compile (s := s) hb v d hc
  refine ⟨visits_fst v d,?_,hfares.error_iff,fun hfew => ?_⟩
  · rw [hfares.ok_iff,List.findSome?_eq_none_iff]
    refine forall₂_congr (fun n _ => ?_)
    rw [nodeFault?,Option.or_eq_none_iff,and_comm]
  · have hnodes : (visits s v d).filterMap (nodeFault? s) =
        (visits s v d).filterMap (fun n => flaw? (n.2.view s) n.1) := by
      refine List.filterMap_congr (fun n hn => ?_)
      rw [nodeFault?,hfew n hn,Option.none_or]
    rw [hfares.error_iff,← List.head?_filterMap,hnodes,List.head?_filterMap]

def twiceMalformed : Value :=
  .list [.text "and",.list [.text "in",.list [.text "a",.text "b"],.list [.mapping [(.text "a",.int 1)],.int 5]],
    .list [.text "foo",.text "c"]]

theorem first_flaw_reported_row :
    ((compile (Options.setting {} .sqlite) twiceMalformed).runOn { bindings := [],memory := {} }).1 =
      .error (.rowNotMapping (.member false) (.int 5)) := by
  have htests : tests twiceMalformed = [.operation (.member false)
      [.list [.text "a",.text "b"],.list [.mapping [(.text "a",.int 1)],.int 5]]] := rfl
  have hcolumns : ∀ t ∈ tests twiceMalformed, ∀ c ∈ t.columns, c.text?.isSome := by
    rw [htests]
    simp [Test.columns,columns?,Value.text?]
  exact (first_flaw_reported (.inl rfl) hcolumns _).2.2.1.mpr rfl

/-- A range that has a number begins with its first one. -/
theorem rangeItems_of_pos {start stop step : Int} (h : 0 < Value.rangeLength start stop step) :
    ∃ rest, Value.rangeItems start stop step = .int start :: rest := by
  obtain ⟨n,hn⟩ := Nat.exists_eq_add_one_of_ne_zero (Nat.ne_of_gt h)
  unfold Value.rangeItems
  rw [hn,List.range_succ_eq_map,List.map_cons]
  refine ⟨_,congrArg (· :: _) ?_⟩
  simp

def numberedRows (stop : Int) : Value := .list [.text "in",.list [.text "a",.text "b"],.range 0 stop 1]

theorem columns_numberedRows (stop : Int) : ∀ t ∈ tests (numberedRows stop), ∀ c ∈ t.columns, c.text?.isSome := by
  have htests : tests (numberedRows stop) = [.operation (.member false) [.list [.text "a",.text "b"],.range 0 stop 1]] :=
    rfl
  rw [htests]
  simp [Test.columns,columns?,Value.text?]

theorem flaw?_numberedRows {stop : Int} (h : 0 < Value.rangeLength 0 stop 1) :
    flaw? m (numberedRows stop) = some (.rowNotMapping (.member false) (.int 0)) := by
  obtain ⟨rest,hrest⟩ := rangeItems_of_pos h
  have hflaw : flaw? m (numberedRows stop) = (Value.rangeItems 0 stop 1).findSome? (rowFlaw? false) := rfl
  rw [hflaw,hrest]
  rfl

theorem compile_numberedRows {stop : Int} (hb : s.Binds) (h : Value.maxLength < Value.rangeLength 0 stop 1) :
    ((compile s (numberedRows stop)).runOn d).1 = .error (.misuse .unbounded) := by
  have hexcess : (Value.range 0 stop 1).excess? = some .unbounded := if_pos h
  have hnode : excess? (d.view s) (numberedRows stop) = some (.misuse .unbounded) := by
    have hlisted : excess? (d.view s) (numberedRows stop) =
      ([Value.range 0 stop 1].findSome? Value.excess?).map .misuse := rfl
    rw [hlisted,List.findSome?_singleton,hexcess]
    rfl
  have hvisits : visits s (numberedRows stop) d = [(numberedRows stop,d)] := rfl
  refine (fares_compile hb _ d (columns_numberedRows stop)).error_iff.mpr ?_
  rw [hvisits,List.findSome?_singleton,nodeFault?,hnode]
  rfl

def tooManyRows : Value := numberedRows 9223372036854775808

/-- What lists too much fails for that reason, though its rows are malformed too. -/
theorem range_hides_flaw :
    (Options.setting {} .sqlite).Binds ∧ (∀ t ∈ tests tooManyRows, ∀ c ∈ t.columns, c.text?.isSome) ∧
      flaw? {} tooManyRows = some (.rowNotMapping (.member false) (.int 0)) ∧
      ((compile (Options.setting {} .sqlite) tooManyRows).runOn { bindings := [],memory := {} }).1 =
        .error (.misuse .unbounded) := by
  have hlong : Value.maxLength < Value.rangeLength 0 9223372036854775808 1 := by decide +kernel
  exact ⟨.inl rfl,columns_numberedRows _,flaw?_numberedRows (Nat.zero_lt_of_lt hlong),
    compile_numberedRows (.inl rfl) hlong⟩

end Condition

end SqlCompose
