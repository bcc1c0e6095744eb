import SqlCompose.Proofs.MirroredCondition

/-! # Conditions that say nothing

A condition is vacuous if none of its tests says anything. A vacuous operand may be deleted, and a connective over one
operand is that operand. What a vacuous test lists is used up nevertheless, so a run of the shorter condition is a run
whose memory differs in some streams.
-/
namespace SqlCompose
open Relation Build

variable {d e : Draft} {s : Setting} {m : Memory} {v : Value} {n : Nat}

namespace Condition

namespace Test

/-- Whether a test says nothing: there is no condition, or it excludes what is in an empty list. -/
def vacuous (m : Memory) : Test → Bool
  | .simple .null => true
  | .simple (.raw sql) => sql == ""
  | .simple (.text sql) => sql == ""
  | .simple (.mapping entries) => entries.isEmpty
  | .simple (.shared home) => (m.mapping home).isEmpty
  | .operation (.member true) [column, values] =>
    (columns? column).elim false List.isEmpty || (values.listed m).isEmpty
  | .operation (.like _ true) [_, values] => (values.listed m).isEmpty
  | _ => false

end Test

def vacuousOf (m : Memory) (op : Operator) (operands : List Value) (inner : Bool) : Bool :=
  if op.connects then inner else (Test.operation op operands).vacuous m

theorem vacuousOf_connective {op : Operator} {operands : List Value} {inner : Bool} (h : op.connects) :
    vacuousOf m op operands inner = inner := if_pos h

theorem vacuousOf_test {op : Operator} {operands : List Value} {inner : Bool} (h : op.connects = false) :
    vacuousOf m op operands inner = (Test.operation op operands).vacuous m := if_neg (by simp [h])

mutual
/-- Whether a condition says nothing: it is a test that does, or a connective over operands that do. -/
def vacuous (m : Memory) : Value → Bool
  | .operation op operands => vacuousOf m op operands (allVacuous m operands)
  | .list items => vacuousForm m items
  | .tuple items => vacuousForm m items
  | v => (Test.simple v).vacuous m

def vacuousForm (m : Memory) : List Value → Bool
  | [] => true
  | head :: operands =>
    match Operator.ofValue head with
    | .error _ => false
    | .ok op => vacuousOf m op operands (allVacuous m operands)

def allVacuous (m : Memory) : List Value → Bool
  | [] => true
  | v :: vs => vacuous m v && allVacuous m vs
end

theorem vacuous_of_operation? {op : Operator} {operands : List Value} (h : operation? v = some (op,operands)) :
    vacuous m v = vacuousOf m op operands (allVacuous m operands) := by
  rcases operation?_eq_some h with rfl | ⟨head,rfl | rfl,hop⟩
  · rw [vacuous]
  · rw [vacuous,vacuousForm,hop]
  · rw [vacuous,vacuousForm,hop]

theorem vacuous_of_unread {x : Fault} (h : Unread v x) : vacuous m v = false := by
  obtain ⟨head,operands,rfl | rfl,hop⟩ := h
  · rw [vacuous,vacuousForm,hop]
  · rw [vacuous,vacuousForm,hop]

theorem vacuous_of_bare (h : Bare v) : vacuous m v = (Test.simple v).vacuous m := by
  cases v <;> first | rfl | exact h.elim

def lone (node : List Value → Value) : List Value → Value
  | [v] => v
  | operands => node operands

def prunedOf (node : List Value → Value) (op : Operator) (operands kept : List Value) : Value :=
  if op.connects then lone node kept else node operands

mutual
/-- A condition without its vacuous operands, and without connectives over one operand, at any depth. -/
def pruned (m : Memory) : Value → Value
  | .operation op operands => prunedOf (.operation op) op operands (prunedAll m operands)
  | .list items => prunedForm m .list items
  | .tuple items => prunedForm m .tuple items
  | v => v

def prunedForm (m : Memory) (form : List Value → Value) : List Value → Value
  | [] => form []
  | head :: operands =>
    match Operator.ofValue head with
    | .error _ => form (head :: operands)
    | .ok op => prunedOf (fun operands => form (head :: operands)) op operands (prunedAll m operands)

def prunedAll (m : Memory) : List Value → List Value
  | [] => []
  | v :: vs => if vacuous m v then prunedAll m vs else pruned m v :: prunedAll m vs
end

theorem pruned_of_operation? {op : Operator} {operands : List Value} (h : operation? v = some (op,operands)) :
    pruned m v = prunedOf (withOperands v) op operands (prunedAll m operands) := by
  rcases operation?_eq_some h with rfl | ⟨head,rfl | rfl,hop⟩
  · rw [pruned]
    rfl
  · rw [pruned,prunedForm,hop]
    rfl
  · rw [pruned,prunedForm,hop]
    rfl

theorem pruned_of_empty (h : Empty v) : pruned m v = v := by
  rcases h with rfl | rfl <;> rw [pruned,prunedForm]

theorem pruned_of_unread {x : Fault} (h : Unread v x) : pruned m v = v := by
  obtain ⟨head,operands,rfl | rfl,hop⟩ := h <;> rw [pruned,prunedForm,hop]

theorem pruned_of_bare (h : Bare v) : pruned m v = v := by
  cases v <;> first | rfl | exact h.elim

end Condition

/-! ## What is written -/

def Token.written : Token → Option Token
  | .text t => if t = "" then none else some (.text t)
  | .symbol t _ => some (.text t)
  | t => some t

namespace Sql
variable {a b : Sql} {parts parts' : List Sql}

def written (sql : Sql) : Sql := sql.filterMap Token.written

theorem written_append (a b : Sql) : (a ++ b).written = a.written ++ b.written := List.filterMap_append

theorem isEmpty_iff_written : a.isEmpty ↔ a.written = [] := by
  unfold isEmpty written
  rw [List.all_eq_true,List.filterMap_eq_nil_iff]
  refine forall_congr' (fun t => forall_congr' (fun _ => ?_))
  cases t <;> simp [Token.isEmpty,Token.written]

theorem render_written (dialect : Dialect) (a : Sql) : dialect.render a.written = dialect.render a := by
  induction a with
  | nil => rfl
  | cons t a ih =>
    unfold written at ih ⊢
    rw [dialect.render_cons,List.filterMap_cons]
    split
    · next h =>
      have ht : dialect.renderToken t = "" := by
        cases t <;> simp only [Token.written,reduceCtorEq,ite_eq_left_iff] at h
        simpa [Dialect.renderToken] using h
      rw [ih,ht,String.empty_append]
    · next t' h =>
      have ht : dialect.renderToken t' = dialect.renderToken t := by
        cases t with
        | text t =>
          simp only [Token.written] at h
          split at h <;> cases h
          rfl
        | _ => cases h; rfl
      rw [dialect.render_cons,ih,ht]

/-- SQL that writes the same reads the same in every dialect. -/
theorem render_eq_of_written (h : a.written = b.written) (dialect : Dialect) : dialect.render a = dialect.render b := by
  rw [← render_written,h,render_written]

theorem written_join (separator : String) (h : parts.map written = parts'.map written) :
    (join separator parts).written = (join separator parts').written := by
  unfold join
  induction parts generalizing parts' with
  | nil =>
    rw [List.map_nil,eq_comm,List.map_eq_nil_iff] at h
    rw [h]
  | cons a parts ih =>
    rcases parts' with _ | ⟨a',parts'⟩
    · cases h
    · rw [List.map_cons,List.map_cons] at h
      obtain ⟨ha,hparts⟩ := List.cons.inj h
      rcases parts with _ | ⟨b,parts⟩ <;> rcases parts' with _ | ⟨b',parts'⟩
      · exact ha
      · cases hparts
      · cases hparts
      · simp only [Text.between,written_append] at ih ⊢
        rw [ha,ih hparts]

def said (parts : List Sql) : List Sql := (parts.filter (fun part => !part.isEmpty)).map written

theorem said_cons (a : Sql) (parts : List Sql) : said (a :: parts) = if a.isEmpty then said parts else a.written :: said parts := by
  unfold said
  rw [List.filter_cons]
  cases a.isEmpty <;> rfl

end Sql

namespace Condition
open Sql

theorem written_connected (word : String) {parts parts' : List Sql} (h : said parts = said parts') :
    (connected word parts).written = (connected word parts').written := by
  unfold said at h
  unfold connected
  generalize parts.filter (fun part => !part.isEmpty) = speaking at h ⊢
  generalize parts'.filter (fun part => !part.isEmpty) = speaking' at h ⊢
  have hlength := congrArg List.length h
  rw [List.length_map,List.length_map] at hlength
  rcases speaking with _ | ⟨one,_ | ⟨two,more⟩⟩ <;> rcases speaking' with _ | ⟨one',_ | ⟨two',more'⟩⟩ <;>
    simp only [List.length_cons,List.length_nil] at hlength
  · rfl
  · omega
  · omega
  · omega
  · exact (List.cons.inj h).1
  · omega
  · omega
  · omega
  · simp only [grouped,written_append,written_join _ h]

end Condition

/-! ## Memories that differ in what streams have left -/

def Memory.without (m : Memory) (cells : List Nat) : Memory :=
  { m with streams := m.streams.mapIdx (fun n items => if n ∈ cells then [] else items) }

namespace Memory
variable {cells : List Nat} {items : List Value}

theorem stream_without (m : Memory) (cells : List Nat) (n : Nat) :
    (m.without cells).stream n = if n ∈ cells then [] else m.stream n := by
  unfold without stream
  simp only [Array.getD_eq_getD_getElem?,Array.getElem?_mapIdx]
  cases m.streams[n]? <;> simp

theorem setStream_without (h : n ∉ cells) :
    (m.without cells).setStream n items = (m.setStream n items).without cells := by
  unfold without setStream
  simp only [Array.mapIdx_setIfInBounds,if_neg h]

/-- What has nothing left may be used up. -/
theorem without_setStream (h : n ∈ cells) : (m.setStream n []).without cells = m.without cells := by
  unfold without setStream
  congr 1
  apply Array.ext_getElem?
  intro k
  simp only [Array.getElem?_mapIdx,Array.getElem?_setIfInBounds]
  by_cases hk : n = k
  · subst hk
    by_cases hs : n < m.streams.size
    · simp [hs,h]
    · simp [hs]
  · rw [if_neg hk]

end Memory

def Draft.without (d : Draft) (cells : List Nat) : Draft := { d with memory := d.memory.without cells }

theorem Draft.view_without (s : Setting) (d : Draft) (cells : List Nat) :
    (d.without cells).view s = (d.view s).without cells := by
  unfold view
  split
  · next home hc =>
    rcases home with n | n <;> rfl
  · rfl

def Extent.values : Extent := ⟨fun _ => True,fun _ => False,fun _ => False,trivial,fun _ => trivial,fun _ => trivial⟩

theorem Extent.covers_values : Extent.values.Covers s d :=
  ⟨fun _ _ _ _ => trivial,fun _ _ _ _ _ => ⟨trivial,trivial⟩,nofun,nofun,nofun⟩

/-- What a condition leaves in memory: streams may have been used up, and all else is as it was. -/
structure Memory.Used (m m' : Memory) : Prop where
  mappings : m'.mappings = m.mappings
  queries : m'.queries = m.queries
  streams : ∀ n, ∀ v ∈ m'.stream n, v ∈ m.stream n

theorem Extent.Step.used (st : Extent.values.Step s d e) (h : m.Used d.memory) : m.Used e.memory := by
  refine ⟨?_,?_,fun n v hv => h.streams n v (st.stream n v hv)⟩
  · cases st with
    | hand hc => exact hc.elim
    | _ => exact h.mappings
  · cases st with
    | hand hc => exact hc.elim
    | _ => exact h.queries

def Mirror.without (s : Setting) (m : Memory) (cells : List Nat) : Mirror where
  extent := Extent.values
  left := s
  right := s
  name := id
  image d := d.without cells
  Fits d := m.Used d.memory
  home _ := True
  cell n := n ∉ cells
  names _ := False
  collection := .inl rfl
  separator := rfl
  covers _ := Extent.covers_values
  keeps hd st := st.used hd
  nextName _ := rfl
  bound _ _ := rfl
  adopted _ _ := rfl
  taken _ hc := hc.elim
  handed _ hc := hc.elim
  drained items _ hn := by
    simp only [Draft.drained,Draft.without,Memory.setStream_without hn]
  stream _ hn := by simp only [Draft.without,Memory.stream_without,if_neg hn]
  own _ _ _ := rfl
  mapping {d h} _ _ := by
    rw [Draft.view_without]
    cases h <;> rfl
  query _ _ _ := ⟨_,rfl⟩
  quote h := h.elim
  looked _ h := h.elim
  display _ h := h.elim

end SqlCompose
