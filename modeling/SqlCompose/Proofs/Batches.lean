import SqlCompose.Proofs.Mirror
import Mathlib.Data.List.TakeWhile

/-! # Batches

A batch of rows is inserted as inserts of the single rows would do it one after the other: with the same tuples, the
same placeholders and the same bindings. A row that does not fit the columns ends the batch; what the rows before it
have bound stays.
-/
namespace SqlCompose
open Build

variable {s : Setting} {d e : Draft} {m : Memory} {v p : Value} {es : Entries} {α β : Type}

/-! ## Steps that only bind -/

def EndsIn (d : Draft) (step : Build α) (r : Except Fault α) (es : Entries) : Prop :=
  ∃ e, step.runOn d = (r,e) ∧ e.bindings = es ∧ e.memory = d.memory

namespace EndsIn
variable {step : Build α} {f : α → Build β} {a : α} {r : Except Fault β} {x : Fault} {es' : Entries}

theorem pure (h : d.bindings = es) : EndsIn d (Pure.pure a) (.ok a) es := ⟨d,rfl,h,rfl⟩

theorem fail (h : d.bindings = es) : EndsIn d (Build.fail x : Build α) (.error x) es := ⟨d,rfl,h,rfl⟩

theorem bind_memory (h : EndsIn d step (.ok a) es)
    (hf : ∀ e : Draft, e.bindings = es → e.memory = d.memory → EndsIn e (f a) r es') : EndsIn d (step >>= f) r es' := by
  obtain ⟨e,he,hb,hm⟩ := h
  obtain ⟨e',he',hb',hm'⟩ := hf e hb hm
  refine ⟨e',?_,hb',hm'.trans hm⟩
  rw [runOn_bind,he]
  exact he'

theorem bind (h : EndsIn d step (.ok a) es) (hf : ∀ e : Draft, e.bindings = es → EndsIn e (f a) r es') :
    EndsIn d (step >>= f) r es' := h.bind_memory (fun e he _ => hf e he)

theorem bind_error (h : EndsIn d step (.error x) es) : EndsIn d (step >>= f) (.error x) es := by
  obtain ⟨e,he,hb,hm⟩ := h
  refine ⟨e,?_,hb,hm⟩
  rw [runOn_bind,he]

/-- A step that looks at the memory first. -/
theorem view {f : Memory → Build β} (h : EndsIn d (f (d.view s)) r es) : EndsIn d (Build.view s >>= f) r es := by
  obtain ⟨e,he,hb,hm⟩ := h
  refine ⟨e,?_,hb,hm⟩
  rw [runOn_bind,runOn_view]
  exact he

/-- A traversal whose items change nothing. -/
theorem map {l : List α} {f : α → Build β} {g : α → β} (h : ∀ a ∈ l, f a = Pure.pure (g a)) :
    EndsIn d (l.mapM f) (.ok (l.map g)) d.bindings := by
  induction l generalizing d with
  | nil => exact .pure rfl
  | cons a l ih =>
    rw [List.mapM_cons,h a (.head _)]
    refine .bind (.pure rfl) (fun e he => .bind (ih (fun a ha => h a (.tail _ ha))) (fun e' he' => .pure (he'.trans he)))

end EndsIn

/-! ## Tuples -/

def accumulate (f : α → Entries → Sql × Entries) : List α → Entries → List Sql × Entries
  | [],es => ([],es)
  | a :: as,es =>
    let (sql,es) := f a es
    let (sqls,es) := accumulate f as es
    (sql :: sqls,es)

theorem accumulate_map (f : β → Entries → Sql × Entries) (g : α → β) (l : List α) (es : Entries) :
    accumulate f (l.map g) es = accumulate (fun a => f (g a)) l es := by
  induction l generalizing es with
  | nil => rfl
  | cons a l ih => simp only [List.map_cons,accumulate,ih]

theorem length_accumulate (f : α → Entries → Sql × Entries) (l : List α) (es : Entries) :
    (accumulate f l es).1.length = l.length := by
  induction l generalizing es with
  | nil => rfl
  | cons a l ih => simp only [accumulate,List.length_cons,ih]

def Value.placed (stem : String) : Value → Entries → Sql × Entries
  | .expression sql params,es => ([.text sql],Entries.merge es params)
  | v,es => ([.placeholder (stem ++ Number.writeInt es.length)],Entries.put (.text (stem ++ Number.writeInt es.length)) v es)

def rowTuple (stem : String) (cells : List Value) (es : Entries) : Sql × Entries :=
  (accumulate (Value.placed stem) cells es).map Condition.tupled id

theorem ends_rendered (hb : s.Binds) :
    EndsIn d (rendered s v) (.ok (v.placed s.stem d.bindings).1) (v.placed s.stem d.bindings).2 := by
  unfold rendered
  split
  · next sql params => exact .bind ⟨_,runOn_adopt hb params,rfl,rfl⟩ (fun _ he => .pure he)
  · next hv =>
    have hplaced : v.placed s.stem d.bindings = ([.placeholder (d.nextName s)],(d.bound s v).bindings) := by
      cases v with
      | expression sql params => exact absurd rfl (hv sql params)
      | _ => rfl
    rw [hplaced]
    exact .bind ⟨_,runOn_bindValue hb,rfl,rfl⟩ (fun _ he => .pure he)

/-- A traversal whose items are known as long as the memory stays and `J` holds of the bindings. -/
theorem ends_traversed {J : Entries → Prop} {f : α → Build Sql} {g : α → Entries → Sql × Entries} {l : List α}
    (h : ∀ a ∈ l, ∀ e : Draft, e.memory = m → J e.bindings →
      EndsIn e (f a) (.ok (g a e.bindings).1) (g a e.bindings).2)
    (hkeep : ∀ a ∈ l, ∀ es, J es → J (g a es).2) (hm : d.memory = m) (hj : J d.bindings) :
    EndsIn d (l.mapM f) (.ok (accumulate g l d.bindings).1) (accumulate g l d.bindings).2 := by
  induction l generalizing d with
  | nil => exact .pure rfl
  | cons a l ih =>
    rw [List.mapM_cons]
    refine .bind_memory (h a (.head _) d hm hj) (fun e he hme => ?_)
    have hje : J e.bindings := he ▸ hkeep a (.head _) _ hj
    have hrest := ih (fun a ha => h a (.tail _ ha)) (fun a ha => hkeep a (.tail _ ha)) (hme.trans hm) hje
    rw [he] at hrest
    exact .bind hrest (fun _ he' => .pure he')

theorem ends_accumulate {f : α → Build Sql} {g : α → Entries → Sql × Entries} {l : List α}
    (h : ∀ a ∈ l, ∀ e, EndsIn e (f a) (.ok (g a e.bindings).1) (g a e.bindings).2) :
    EndsIn d (l.mapM f) (.ok (accumulate g l d.bindings).1) (accumulate g l d.bindings).2 :=
  ends_traversed (J := fun _ => True) (fun a ha e _ _ => h a ha e) (fun _ _ _ _ => trivial) rfl trivial

/-! ## Statements -/

namespace Statement

def insertHead (table : String) (names : List String) : Sql :=
  [.text "INSERT INTO "] ++ Sql.table table ++ [.text " "] ++ Condition.parenthesized (Sql.commas (names.map Sql.column)) ++
    [.text " VALUES "]

def rowOf (names : List String) (cells : List Value) : Value := .mapping (Entries.ofList ((names.map .text).zip cells))

/-- Inserts the rows one after the other, each with the collection that the insert before it leaves. The texts of the
inserts, and the collection in the end. -/
def insertEach (s : Setting) (table : Value) (names : List String) :
    List (List Value) → Value → Memory → Except Fault (List String × Value) × Memory
  | [],params,m => (.ok ([],params),m)
  | cells :: rows,params,m =>
    match compose s params (insert table (rowOf names cells)) m with
    | (.error f,m) => (.error f,m)
    | (.ok t,m) =>
      let (result,m) := insertEach s table names rows t.params m
      (result.map (fun (texts,params) => (t.text :: texts,params)),m)

variable {table : Value} {name : String} {names : List String} {cells : List Value}

theorem ends_names (names : List String) : EndsIn d ((names.map Value.text).mapM (listedColumn s))
    (.ok ((names.map Sql.column).map some)) d.bindings := by
  have hcolumns : ∀ v ∈ names.map Value.text, listedColumn s v = Pure.pure (some (Sql.column (v.text?.getD ""))) := by
    intro v hv
    obtain ⟨n,-,rfl⟩ := List.mem_map.mp hv
    rfl
  have h := EndsIn.map (d := d) hcolumns
  rw [List.map_map] at h ⊢
  exact h

theorem tableName_eq (h : table.text? = some name) : tableName s table = pure (Sql.table name) := by
  unfold tableName
  rw [h]

/-- Distinct columns stay as they are written. -/
theorem merge_zip (hn : names.Nodup) (hes : ∀ n ∈ names, n ∉ es.names) :
    Entries.merge es ((names.map Value.text).zip cells) = es ++ (names.map Value.text).zip cells := by
  induction names generalizing es cells with
  | nil => simp
  | cons n names ih =>
    cases cells with
    | nil => simp
    | cons v cells =>
      obtain ⟨hnot,hrest⟩ := List.nodup_cons.mp hn
      rw [List.map_cons,List.zip_cons_cons,Entries.merge_cons,Entries.put_of_not_mem (hes n (.head _)),ih hrest]
      · simp
      · intro n' hn' hmem
        obtain ⟨e,he,ht⟩ := Entries.mem_names.mp hmem
        rcases List.mem_append.mp he with he | he
        · exact hes n' (.tail _ hn') (Entries.mem_names.mpr ⟨e,he,ht⟩)
        · rw [List.mem_singleton.mp he] at ht
          cases ht
          exact hnot hn'

theorem rowOf_eq (hn : names.Nodup) : rowOf names cells = .mapping ((names.map Value.text).zip cells) :=
  congrArg Value.mapping (merge_zip hn (fun _ _ => by simp [Entries.names]))

theorem each_mapping (f : Value → Build α) (es : Entries) :
    each s (.mapping es) f = (do let _ ← view s; (Entries.keys es).mapM f) := rfl

theorem eachEntry_mapping (f : Value × Value → Build α) (es : Entries) :
    eachEntry s (.mapping es) f = (do let _ ← view s; es.mapM f) := rfl

theorem ends_insert (hb : s.Binds) (ht : table.text? = some name) (hn : names.Nodup) (hl : cells.length = names.length) :
    EndsIn d (insert table (rowOf names cells) s) (.ok (insertHead name names ++ (rowTuple s.stem cells d.bindings).1))
      (rowTuple s.stem cells d.bindings).2 := by
  have hkeys : Entries.keys ((names.map Value.text).zip cells) = names.map Value.text :=
    List.map_fst_zip (by simp [hl])
  have hcells : ((names.map Value.text).zip cells).map (·.2) = cells := List.map_snd_zip (by simp [hl])
  have hvalues : ∀ e : Draft, EndsIn e (((names.map Value.text).zip cells).mapM (fun c => rendered s c.2))
      (.ok (accumulate (Value.placed s.stem) cells e.bindings).1) (accumulate (Value.placed s.stem) cells e.bindings).2 := by
    intro e
    have hzip := accumulate_map (Value.placed s.stem) (·.2) ((names.map Value.text).zip cells) e.bindings
    rw [hcells] at hzip
    rw [hzip]
    exact ends_accumulate (fun _ _ _ => ends_rendered hb)
  unfold insert
  rw [rowOf_eq hn,each_mapping,eachEntry_mapping,hkeys,tableName_eq ht]
  refine .bind (.view (ends_names names)) (fun e he => .bind (.view (hvalues e)) (fun e' he' => ?_))
  refine .bind (.pure he') (fun e'' he'' => ?_)
  rw [nameList_some]
  refine .bind (.pure he'') (fun e₃ he₃ => ?_)
  rw [he] at he₃ ⊢
  exact .pure he₃

/-! ## Rows -/

def IsRow (row : Value) (cells : List Value) : Prop := row = .list cells ∨ row = .tuple cells

theorem length_row {row : Value} (h : IsRow row cells) : row.length m = .ok cells.length := by
  rcases h with rfl | rfl <;> rfl

theorem each_row {row : Value} (h : IsRow row cells) (f : Value → Build α) :
    each s row f = (do let _ ← view s; cells.mapM f) := by
  rcases h with rfl | rfl <;> rfl

theorem ends_batchRow (hb : s.Binds) {row : Value} (h : IsRow row cells) :
    EndsIn d (batchRow s cells.length row) (.ok (rowTuple s.stem cells d.bindings).1) (rowTuple s.stem cells d.bindings).2 := by
  refine .view ?_
  rw [length_row h,each_row h]
  dsimp only
  rw [if_pos (beq_self_eq_true _)]
  exact .bind (.view (ends_accumulate (fun _ _ _ => ends_rendered hb))) (fun _ he => .pure he)

theorem ends_misfit {row : Value} (h : IsRow row cells) {width : Nat} (hw : cells.length ≠ width) :
    EndsIn d (batchRow s width row) (.error (.rowWidth cells.length width)) d.bindings := by
  refine .view ?_
  rw [length_row h]
  dsimp only
  rw [if_neg (by simpa using hw)]
  exact .fail rfl

def misfit? (width : Nat) (batch : List (List Value)) : Option (List Value) :=
  batch.find? (fun cells => cells.length != width)

/-- The rows before the first that is not as wide as the columns. -/
def fitting (width : Nat) (batch : List (List Value)) : List (List Value) :=
  batch.takeWhile (fun cells => cells.length == width)

variable {rows : List Value} {batch : List (List Value)} {width : Nat}

/-- The rows are written up to the first one that does not fit, and that one ends the batch. -/
theorem ends_rows (hb : s.Binds) (h : List.Forall₂ IsRow rows batch) (width : Nat) :
    EndsIn d (rows.mapM (batchRow s width))
      (match misfit? width batch with
        | none => .ok (accumulate (rowTuple s.stem) batch d.bindings).1
        | some bad => .error (.rowWidth bad.length width))
      (accumulate (rowTuple s.stem) (fitting width batch) d.bindings).2 := by
  unfold misfit? fitting
  induction h generalizing d with
  | nil => exact .pure rfl
  | @cons row cells rows batch hrow _ ih =>
    rw [List.mapM_cons]
    -- the first row is written and the rest decides, or it ends the batch
    by_cases hw : cells.length = width
    · rw [List.find?_cons_of_neg (by simpa using hw),List.takeWhile_cons_of_pos (by simpa using hw)]
      subst hw
      refine .bind (ends_batchRow hb hrow) (fun e he => ?_)
      have hrest := ih (d := e)
      rw [he] at hrest
      cases hbad : batch.find? (fun row => row.length != cells.length) with
      | none =>
        rw [hbad] at hrest
        exact .bind hrest (fun _ he' => .pure he')
      | some bad =>
        rw [hbad] at hrest
        exact .bind_error hrest
    · rw [List.find?_cons_of_pos (by simpa using hw),List.takeWhile_cons_of_neg (by simpa using hw)]
      exact .bind_error (ends_misfit hrow hw)

def batchFault? (width : Nat) (batch : List (List Value)) : Option Fault :=
  if batch.isEmpty then some .noRows else (misfit? width batch).map (fun bad => .rowWidth bad.length width)

theorem each_list (f : Value → Build α) (items : List Value) :
    each s (.list items) f = (do let _ ← view s; items.mapM f) := rfl

theorem ends_batchInsert (hb : s.Binds) (hd : s.dialect.batchInsert) (ht : table.text? = some name)
    (h : List.Forall₂ IsRow rows batch) :
    EndsIn d (batchInsert table (.list (names.map .text)) (.list rows) s)
      (match batchFault? names.length batch with
        | none => .ok (insertHead name names ++ Sql.commas (accumulate (rowTuple s.stem) batch d.bindings).1)
        | some f => .error f)
      (accumulate (rowTuple s.stem) (fitting names.length batch) d.bindings).2 := by
  unfold batchInsert batchFault?
  refine .view ?_
  cases h with
  | nil => exact .fail rfl
  | @cons row cells rows batch hrow hrows =>
    have hall := List.Forall₂.cons hrow hrows
    rw [tableName_eq ht,each_list]
    refine .bind (.pure rfl) (fun e he => .bind (.view (ends_names names)) (fun e' he' => ?_))
    rw [if_neg (by simp [hd]),List.length_map,List.length_map,each_list]
    have hbatch := ends_rows (d := e') hb hall names.length
    rw [he',he] at hbatch
    cases hbad : misfit? names.length (cells :: batch) with
    | none =>
      rw [hbad] at hbatch
      refine .bind (.view hbatch) (fun e₃ he₃ => ?_)
      rw [nameList_some]
      exact .bind (.pure he₃) (fun _ he₄ => .pure he₄)
    | some bad =>
      rw [hbad] at hbatch
      exact .bind_error (.view hbatch)

end Statement

/-! ## Collections -/

def Collecting (p : Value) (m : Memory) : Prop :=
  (∃ entries, p = .mapping entries) ∨ ∃ home, p = .shared home ∧ m.Holds home

def Value.bindings (m : Memory) (p : Value) : Entries := (p.entries? m).getD []

def rebound (p : Value) (es : Entries) (m : Memory) : Value × Memory := closing p { bindings := es,memory := m }

namespace Collecting

theorem opening_eq (h : Collecting p m) (hs : s.collection = .own) :
    ∃ c, Build.opening s p m = ({ s with collection := c },{ bindings := p.bindings m,memory := m }) ∧
      Setting.Binds { s with collection := c } := by
  rcases h with ⟨entries,rfl⟩ | ⟨home,rfl,-⟩
  · refine ⟨s.collection,rfl,.inl hs⟩
  · exact ⟨.shared home,rfl,.inr ⟨home,rfl⟩⟩

theorem still (h : Collecting p m) (es : Entries) : Collecting (rebound p es m).1 (rebound p es m).2 := by
  rcases h with ⟨entries,rfl⟩ | ⟨home,rfl,hh⟩
  · exact .inl ⟨es,rfl⟩
  · exact .inr ⟨home,rfl,(Memory.holds_setMapping m home es home).mpr hh⟩

theorem bindings_rebound (h : Collecting p m) (es : Entries) :
    (rebound p es m).1.bindings (rebound p es m).2 = es := by
  rcases h with ⟨entries,rfl⟩ | ⟨home,rfl,hh⟩
  · rfl
  · exact Memory.mapping_setMapping_self hh

theorem rebound_rebound (h : Collecting p m) (es es' : Entries) :
    rebound (rebound p es m).1 es' (rebound p es m).2 = rebound p es' m := by
  rcases h with ⟨entries,rfl⟩ | ⟨home,rfl,-⟩
  · rfl
  · exact congrArg (Prod.mk _) (Memory.setMapping_setMapping m home es es')

theorem rebound_bindings (h : Collecting p m) : rebound p (p.bindings m) m = (p,m) := by
  rcases h with ⟨entries,rfl⟩ | ⟨home,rfl,-⟩
  · rfl
  · exact congrArg (Prod.mk _) (Memory.setMapping_self m home)

/-- A step over a collection gives its result, and leaves the collection with the bindings that it ends in. -/
theorem over_eq (h : Collecting p m) {body : Setting → Build α} {r : Except Fault α}
    (hbody : EndsIn (Build.opening s p m).2 (body (Build.opening s p m).1) r es) :
    Build.over s p body m = (r.map (fun a => (a,(rebound p es m).1)),(rebound p es m).2) := by
  obtain ⟨e,he,hes,hm⟩ := hbody
  have hclosing : closing p e = rebound p es m := by
    subst hes
    rcases h with ⟨entries,rfl⟩ | ⟨home,rfl,-⟩
    · exact congrArg (Prod.mk _) hm
    · exact congrArg (fun m => (Value.shared home,m.setMapping home e.bindings)) hm
  simp only [Build.over,he,hclosing]

end Collecting

namespace Statement
variable {table : Value} {name : String} {names : List String} {cells : List Value} {batch : List (List Value)}

theorem compose_collectionOf (params : Value) (body : Setting → Build Sql) (m : Memory) :
    compose s (collectionOf params) body m = compose s params body m := by
  cases params <;> rfl

/-- A statement over a collection gives the SQL of its body, and leaves the collection with the bindings of its body. -/
theorem compose_eq (hs : s.collection = .own) (h : Collecting p m) {body : Setting → Build Sql} {r : Except Fault Sql}
    (hbody : ∀ c, Setting.Binds { s with collection := c } →
      EndsIn { bindings := p.bindings m,memory := m } (body { s with collection := c }) r es) :
    compose s p body m =
      (r.map (fun sql => { sql,params := (rebound p es m).1,dialect := s.dialect }),(rebound p es m).2) := by
  have hover : Build.over s p body m = (r.map (fun sql => (sql,(rebound p es m).1)),(rebound p es m).2) := by
    obtain ⟨c,hopen,hb⟩ := h.opening_eq hs
    refine h.over_eq ?_
    rw [hopen]
    exact hbody c hb
  have hcollection : collectionOf p = p := by
    rcases h with ⟨entries,rfl⟩ | ⟨home,rfl,-⟩ <;> rfl
  unfold compose
  rw [hcollection,hover]
  rcases h with ⟨entries,rfl⟩ | ⟨home,rfl,-⟩
  · cases r <;> rfl
  · cases r <;> rfl

theorem compose_insert (hs : s.collection = .own) (h : Collecting p m) (ht : table.text? = some name) (hn : names.Nodup)
    (hl : cells.length = names.length) :
    compose s p (insert table (rowOf names cells)) m =
      let (sql,es) := rowTuple s.stem cells (p.bindings m)
      (.ok { sql := insertHead name names ++ sql,params := (rebound p es m).1,dialect := s.dialect },(rebound p es m).2) := by
  have hbody : ∀ c, Setting.Binds { s with collection := c } → EndsIn { bindings := p.bindings m,memory := m }
      (insert table (rowOf names cells) { s with collection := c })
      (.ok (insertHead name names ++ (rowTuple s.stem cells (p.bindings m)).1)) (rowTuple s.stem cells (p.bindings m)).2 :=
    fun _ hb => ends_insert hb ht hn hl
  rw [compose_eq hs h hbody]
  rfl

theorem compose_batchInsert (names : List String) (hs : s.collection = .own) (h : Collecting p m) (hd : s.dialect.batchInsert)
    (ht : table.text? = some name) {rows : List Value} (hr : List.Forall₂ IsRow rows batch) :
    compose s p (batchInsert table (.list (names.map .text)) (.list rows)) m =
      let es := (accumulate (rowTuple s.stem) (fitting names.length batch) (p.bindings m)).2
      (match batchFault? names.length batch with
        | none =>
          .ok { sql := insertHead name names ++ Sql.commas (accumulate (rowTuple s.stem) batch (p.bindings m)).1
                params := (rebound p es m).1,dialect := s.dialect }
        | some f => .error f,(rebound p es m).2) := by
  have hbody : ∀ c, Setting.Binds { s with collection := c } → EndsIn { bindings := p.bindings m,memory := m }
      (batchInsert table (.list (names.map .text)) (.list rows) { s with collection := c })
      (match batchFault? names.length batch with
        | none => .ok (insertHead name names ++ Sql.commas (accumulate (rowTuple s.stem) batch (p.bindings m)).1)
        | some f => .error f)
      (accumulate (rowTuple s.stem) (fitting names.length batch) (p.bindings m)).2 :=
    fun _ hb => ends_batchInsert hb hd ht hr
  rw [compose_eq hs h hbody]
  cases batchFault? names.length batch <;> rfl

/-- Inserts of fitting rows write one tuple each, among the bindings that the inserts before them leave. -/
theorem insertEach_eq (hs : s.collection = .own) (ht : table.text? = some name) (hn : names.Nodup)
    (hw : ∀ cells ∈ batch, cells.length = names.length) (h : Collecting p m) :
    insertEach s table names batch p m =
      let (sqls,es) := accumulate (rowTuple s.stem) batch (p.bindings m)
      (.ok (sqls.map (fun sql => s.dialect.render (insertHead name names ++ sql)),(rebound p es m).1),(rebound p es m).2) := by
  induction batch generalizing p m with
  | nil =>
    simp only [insertEach,accumulate,h.rebound_bindings]
    rfl
  | cons cells batch ih =>
    have hrest := fun es => ih (fun cells hc => hw cells (.tail _ hc)) (h.still es)
    simp only [h.bindings_rebound,h.rebound_rebound] at hrest
    simp only [insertEach,compose_insert hs h ht hn (hw cells (.head _)),accumulate,hrest]
    rfl

theorem insertEach_collectionOf (hne : batch ≠ []) (params : Value) (m : Memory) :
    insertEach s table names batch (collectionOf params) m = insertEach s table names batch params m := by
  cases batch with
  | nil => exact absurd rfl hne
  | cons cells batch => simp only [insertEach,compose_collectionOf]

/-! ## Batches and single inserts -/

theorem batchFault?_eq_none {width : Nat} :
    batchFault? width batch = none ↔ batch ≠ [] ∧ ∀ cells ∈ batch, cells.length = width := by
  unfold batchFault? misfit?
  cases batch with
  | nil => simp
  | cons cells batch => simp

theorem clause?_batchFault? {width : Nat} {f : Fault} (h : batchFault? width batch = some f) :
    f.clause? = some "VALUES" := by
  unfold batchFault? at h
  split at h
  · cases h
    rfl
  · obtain ⟨bad,-,rfl⟩ := Option.map_eq_some_iff.mp h
    rfl

def insertText (dialect : Dialect) (table : String) (names : List String) : String :=
  "INSERT INTO " ++ dialect.render (Sql.table table) ++ " (" ++
    ", ".intercalate (names.map (fun n => dialect.render (Sql.column n))) ++ ") VALUES "

theorem render_insertHead (dialect : Dialect) (table : String) (names : List String) :
    dialect.render (insertHead table names) = insertText dialect table names := by
  have htext : ∀ t : String, dialect.render [.text t] = t := by
    intro t
    simp [Dialect.render,Dialect.renderToken]
  have hopening : ∀ t : String, " " ++ ("(" ++ t) = " (" ++ t := by
    intro t
    rw [← String.append_assoc]
    rfl
  have hclosing : ")" ++ " VALUES " = ") VALUES " := by decide
  unfold insertHead insertText Condition.parenthesized Sql.commas
  simp only [dialect.render_append,dialect.render_join,htext,List.map_map,String.append_assoc,hopening,hclosing]
  rfl

theorem fitting_of_none {width : Nat} (h : batchFault? width batch = none) : fitting width batch = batch :=
  List.takeWhile_eq_self_iff.mpr (by simpa using (batchFault?_eq_none.mp h).2)

section Agreement
variable {rows : List Value} {params : Value}

/-- A batch without a fault has the tuples of the single inserts, and binds as they do. -/
theorem compose_batch_of_none (hs : s.collection = .own) (hp : Collecting (collectionOf params) m)
    (hd : s.dialect.batchInsert) (ht : table.text? = some name) (hn : names.Nodup) (hr : List.Forall₂ IsRow rows batch)
    (hf : batchFault? names.length batch = none) : ∃ (sqls : List Sql) (p : Value) (m' : Memory),
      compose s params (batchInsert table (.list (names.map .text)) (.list rows)) m =
        (.ok { sql := insertHead name names ++ Sql.commas sqls,params := p,dialect := s.dialect },m') ∧
      insertEach s table names batch params m =
        (.ok (sqls.map (fun sql => s.dialect.render (insertHead name names ++ sql)),p),m') ∧
      sqls.length = batch.length := by
  obtain ⟨hne,hw⟩ := batchFault?_eq_none.mp hf
  have hbatch := compose_batchInsert names hs hp hd ht hr
  have hsingly := insertEach_eq hs ht hn hw hp
  rw [compose_collectionOf,hf,fitting_of_none hf] at hbatch
  rw [insertEach_collectionOf hne] at hsingly
  exact ⟨_,_,_,hbatch,hsingly,length_accumulate _ _ _⟩

/-- A batch with a fault leaves the memory as inserts of the rows before the unfit one do. -/
theorem compose_batch_of_some (hs : s.collection = .own) (hp : Collecting (collectionOf params) m)
    (hd : s.dialect.batchInsert) (ht : table.text? = some name) (hn : names.Nodup) (hr : List.Forall₂ IsRow rows batch)
    {f : Fault} (hf : batchFault? names.length batch = some f) : ∃ (texts : List String) (p : Value) (m' : Memory),
      compose s params (batchInsert table (.list (names.map .text)) (.list rows)) m = (.error f,m') ∧
      insertEach s table names (fitting names.length batch) params m = (.ok (texts,p),m') := by
  have hfit : ∀ cells ∈ fitting names.length batch, cells.length = names.length := by
    intro cells hc
    simpa using List.mem_takeWhile_imp hc
  have hbatch := compose_batchInsert names hs hp hd ht hr
  have hsingly := insertEach_eq hs ht hn hfit hp
  rw [compose_collectionOf,hf] at hbatch
  cases hfirst : fitting names.length batch with
  | nil =>
    -- without any insert no collection has been started
    simp only [hfirst,accumulate,hp.rebound_bindings] at hbatch
    exact ⟨[],params,m,hbatch,rfl⟩
  | cons cells more =>
    rw [hfirst] at hbatch hsingly
    rw [insertEach_collectionOf (List.cons_ne_nil _ _)] at hsingly
    exact ⟨_,_,_,hbatch,hsingly⟩

/-- A batch insert does what inserts of its rows would do one after the other over the same collection. If all rows are
as wide as the columns, its text is the head of an insert followed by the tuples that the single inserts write, and it
leaves the collection and the memory as they do; one row is written by either in the same words. Otherwise it fails in
its `VALUES`, and what it leaves is what inserts of the rows before the first unfit one leave. -/
theorem batch_agrees (o : Options) {dialect : Dialect} (hd : dialect ∈ [Dialect.sqlite,.postgres,.mysql])
    (ht : table.text? = some name) (hn : names.Nodup) (hr : List.Forall₂ IsRow rows batch)
    (hp : Collecting (collectionOf params) m) :
    let outcome := compose (o.setting dialect) params (batchInsert table (.list (names.map .text)) (.list rows)) m
    let singly := fun batch => insertEach (o.setting dialect) table names batch params m
    (batch ≠ [] → (∀ cells ∈ batch, cells.length = names.length) → ∃ statement tuples m',
      outcome = (.ok statement,m') ∧
      statement.text = insertText dialect name names ++ ", ".intercalate tuples ∧
      singly batch = (.ok (tuples.map (insertText dialect name names ++ ·),statement.params),m') ∧
      (batch.length = 1 → singly batch = (.ok ([statement.text],statement.params),m'))) ∧
    ((∃ f, outcome.1 = .error f ∧ f.clause? = some "VALUES") ↔
      batch = [] ∨ ∃ cells ∈ batch, cells.length ≠ names.length) ∧
    (batch = [] ∨ (∃ cells ∈ batch, cells.length ≠ names.length) → ∃ texts params',
      singly (fitting names.length batch) = (.ok (texts,params'),outcome.2)) := by
  intro outcome singly
  have hbatch : (o.setting dialect).dialect.batchInsert := by
    have hall : ∀ d ∈ [Dialect.sqlite,.postgres,.mysql], d.batchInsert = true := by decide
    exact hall dialect hd
  have hfits := compose_batch_of_none (s := o.setting dialect) rfl hp hbatch ht hn hr
  have hfails := fun f => compose_batch_of_some (s := o.setting dialect) (f := f) rfl hp hbatch ht hn hr
  have hfault : (batch = [] ∨ ∃ cells ∈ batch, cells.length ≠ names.length) ↔
      ∃ f, batchFault? names.length batch = some f := by
    rw [← Option.ne_none_iff_exists',Ne,batchFault?_eq_none]
    push Not
    exact or_iff_not_imp_left
  refine ⟨fun hne hw => ?_,?_,fun hbad => ?_⟩
  · obtain ⟨sqls,p,m',hok,hsingly,hlength⟩ := hfits (batchFault?_eq_none.mpr ⟨hne,hw⟩)
    refine ⟨_,sqls.map dialect.render,m',hok,?_,?_,fun hone => ?_⟩
    · rw [← render_insertHead,← dialect.render_join,← dialect.render_append]
      rfl
    · refine hsingly.trans ?_
      simp only [List.map_map,Function.comp_def,← render_insertHead,← dialect.render_append]
      rfl
    · obtain ⟨sql,rfl⟩ := List.length_eq_one_iff.mp (hlength.trans hone)
      exact hsingly
  · rw [hfault]
    constructor
    · rintro ⟨f,hf,-⟩
      by_contra hnone
      obtain ⟨sqls,p,m',hok,-,-⟩ := hfits (Option.eq_none_iff_forall_ne_some.mpr (not_exists.mp hnone))
      rw [show outcome = _ from hok] at hf
      cases hf
    · rintro ⟨f,hf⟩
      obtain ⟨texts,p,m',herror,-⟩ := hfails f hf
      exact ⟨f,congrArg Prod.fst herror,clause?_batchFault? hf⟩
  · obtain ⟨f,hf⟩ := hfault.mp hbad
    obtain ⟨texts,p,m',herror,hsingly⟩ := hfails f hf
    exact ⟨texts,p,hsingly.trans (congrArg (Prod.mk _) (congrArg Prod.snd herror).symm)⟩

/-- Two rows over a collection that has the next placeholder's name already. -/
theorem batch_agrees_seeded :
    let rows : List Value := [.list [.int 1,.expression "now()" [(.text "zone",.null)]],.tuple [.int 2,.null]]
    let batch : List (List Value) := [[.int 1,.expression "now()" [(.text "zone",.null)]],[.int 2,.null]]
    let m : Memory := { mappings := #[[(.text "qp1",.int 5)]] }
    ∃ statement tuples m',
      compose (Options.setting {} .postgres) (.shared (.cell 0))
        (batchInsert (.text "t") (.list (["a","b"].map .text)) (.list rows)) m = (.ok statement,m') ∧
      statement.text = "INSERT INTO \x22t\x22 (\x22a\x22, \x22b\x22) VALUES (%(qp1)s, now()), (%(qp2)s, %(qp3)s)" ∧
      statement.text = insertText .postgres "t" ["a","b"] ++ ", ".intercalate tuples ∧
      insertEach (Options.setting {} .postgres) (.text "t") ["a","b"] batch (.shared (.cell 0)) m =
        (.ok (tuples.map (insertText .postgres "t" ["a","b"] ++ ·),statement.params),m') := by
  intro rows batch m
  have hrows : List.Forall₂ IsRow rows batch := .cons (.inl rfl) (.cons (.inr rfl) .nil)
  have hcollects : Collecting (collectionOf (.shared (.cell 0))) m := .inr ⟨.cell 0,rfl,Nat.zero_lt_one⟩
  have hagrees := batch_agrees {} (by simp : Dialect.postgres ∈ _) (rfl : (Value.text "t").text? = some "t")
    (by decide : ["a","b"].Nodup) hrows hcollects
  obtain ⟨statement,tuples,m',hok,htext,hsingly,-⟩ := hagrees.1 (by simp [batch]) (by simp [batch])
  refine ⟨statement,tuples,m',hok,?_,htext,hsingly⟩
  cases hok
  decide

end Agreement

end Statement

end SqlCompose
