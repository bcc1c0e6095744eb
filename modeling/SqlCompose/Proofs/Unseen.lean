import SqlCompose.Proofs.RequestAnswers
import SqlCompose.Proofs.TiedQueries

/-! # No literal is seen in the text

Requests that differ in literals are answered by the same SQL and by collections with the same names, or they fail alike.
-/
namespace SqlCompose
open List Build

variable {t : Ties} {s : Setting} {m m' : Memory} {v w : Value}

/-! ## Columns and rows -/

namespace Value

def Assigned (t : Ties) (e e' : Value × Value) : Prop := Same t e.1 e'.1 ∧ e.2.Bound t e'.2

theorem same_of_keys {xs ys : List Value} (hk : xs = ys) (h : ∀ v ∈ xs, v.Fixed t) : Forall₂ (Same t) xs ys :=
  hk ▸ same_of_fixed h

theorem assigned_of_fixed {es : Entries} (h : ∀ e ∈ es, e.1.Fixed t ∧ e.2.Fixed t) : Forall₂ (Assigned t) es es :=
  forall₂_same.mpr (fun e he => ⟨⟨rfl,(h e he).1⟩,.alike (.fixed (h e he).2)⟩)

theorem assigned_of_tied {es es' : Entries} (h : Entries.Tied t True es es') : Forall₂ (Assigned t) es es' :=
  Forall₂.imp (fun _ _ he => ⟨⟨he.1,(he.2 trivial).1⟩,.alike (he.2 trivial).2⟩) h

theorem Columns.lists (h : v.Columns t w) : Lists t (Same t) v w := by
  cases h with
  | mapping hk h hv => exact .items rfl rfl (fun _ => rfl) (fun _ => rfl) (same_of_keys hk h)
  | shared h => exact .shared h (fun es es' hes => same_keys hes)
  | fixed h => exact h.lists

theorem Columns.maps (h : v.Columns t w) : Maps t (Assigned t) v w := by
  cases h with
  | mapping hk h hv =>
    apply Maps.mapping
    have hp := paired hk hv
    clear hk hv
    induction hp with
    | nil => exact .nil
    | @cons e e' es es' he _ ih =>
      exact .cons ⟨⟨he.1,h e.1 (.head _)⟩,he.2⟩ (ih (fun k hk => h k (.tail _ hk)))
  | shared h => exact .shared h (fun es es' hes => assigned_of_tied hes)
  | fixed h =>
    cases h with
    | @atom v h => cases v <;> first | exact .none (fun _ => rfl) (fun _ => rfl) | cases h
    | mapping hk hv => exact .mapping (assigned_of_fixed (fun e he => ⟨hk e he,hv e he⟩))
    | shared h => exact .shared (.inr (t.apart _ h)) (fun es es' hes => assigned_of_tied hes)
    | _ => exact .none (fun _ => rfl) (fun _ => rfl)

theorem bound_of_same {a b : Value} (h : Same t a b) : a.Bound t b := h.1 ▸ .alike (.fixed h.2)

/-- A row has the same length on both sides. -/
theorem Row.length (h : v.Row t w) (hm : m.Tied t m') : v.length m = w.length m' := by
  cases h with
  | list h => exact congrArg Except.ok h.length_eq
  | tuple h => exact congrArg Except.ok h.length_eq
  | set h => exact congrArg Except.ok h.length_eq
  | mapping hk h => exact congrArg Except.ok (congrArg List.length hk)
  | @shared home h => exact congrArg Except.ok (congrArg List.length (hm.mappings home).keys)
  | fixed h =>
    cases h with
    | @shared home h => exact congrArg Except.ok (congrArg List.length (congrArg Entries.keys (hm.frozen home h).1))
    | @atom v h => cases v <;> first | rfl | cases h
    | _ => rfl
  | unsized h => rw [h,h]

/-- A row that has a length lists values that are bound alike. -/
theorem Row.lists (h : v.Row t w) : Lists t (Bound t) v w ∨ ∀ m, v.length m = .error .wrongType := by
  cases h with
  | list h => exact .inl (.items rfl rfl (fun _ => rfl) (fun _ => rfl) h)
  | tuple h => exact .inl (.items rfl rfl (fun _ => rfl) (fun _ => rfl) h)
  | set h => exact .inl (.items rfl rfl (fun _ => rfl) (fun _ => rfl) h)
  | mapping hk h =>
    exact .inl (.items rfl rfl (fun _ => rfl) (fun _ => rfl) ((same_of_keys hk h).imp (fun _ _ => bound_of_same)))
  | shared h => exact .inl (.shared h (fun es es' hes => (same_keys hes).imp (fun _ _ => bound_of_same)))
  | fixed h => exact .inl (h.lists.mono (fun _ _ => bound_of_same))
  | unsized h => exact .inr h

theorem Rows.lists (h : v.Rows t w) : Lists t (Row t) v w := by
  have hrow : ∀ a b, Same t a b → Row t a b := fun a b hab => hab.1 ▸ .fixed hab.2
  cases h with
  | list h => exact .items rfl rfl (fun _ => rfl) (fun _ => rfl) h
  | tuple h => exact .items rfl rfl (fun _ => rfl) (fun _ => rfl) h
  | set h => exact .items rfl rfl (fun _ => rfl) (fun _ => rfl) h
  | stream h => exact .stream (fun xs ys hs => hs.rows h)
  | shared h => exact .shared h (fun es es' hes => (same_keys hes).imp hrow)
  | fixed h => exact h.lists.mono hrow

/-- Rows are present on both sides or on neither. -/
theorem Rows.isTruthy (h : v.Rows t w) (hm : m.Tied t m') : v.isTruthy m = w.isTruthy m' := by
  cases h with
  | list h => exact congrArg not (isEmpty_of_related h)
  | tuple h => exact congrArg not (isEmpty_of_related h)
  | set h => exact congrArg not (isEmpty_of_related h)
  | stream h => rfl
  | @shared home h => exact congrArg not (isEmpty_of_related (hm.mappings home))
  | fixed h =>
    cases h with
    | @shared home h => exact congrArg not (congrArg List.isEmpty (hm.frozen home h).1)
    | @atom v h => cases v <;> first | rfl | cases h
    | _ => rfl

end Value

/-! ## Statements -/

namespace Statement
variable {table columns columns' condition condition' rows rows' : Value}

/-- The names of the columns of a statement. -/
theorem match_names (h : columns.Columns t columns') :
    Matches t s (each s columns (listedColumn s)) (each s columns' (listedColumn s)) Eq := by
  refine (match_each h.lists (fun a b hab => ?_)).weaken (fun _ _ h => forall₂_eq_eq_eq ▸ h)
  cases hab.1
  exact match_listedColumn hab.2

theorem match_insert (ht : table.Fixed t) (hc : columns.Columns t columns') :
    Matches t s (insert table columns s) (insert table columns' s) Eq := by
  unfold insert
  refine .bind (match_names hc) (fun names _ hn => ?_)
  cases hn
  refine .bind (R := Eq) ((match_eachEntry hc.maps (fun _ _ he => match_rendered he.2)).weaken
    (fun _ _ h => forall₂_eq_eq_eq ▸ h)) (fun values _ hv => ?_)
  cases hv
  refine .bind (match_tableName ht) (fun target _ ht => ?_)
  cases ht
  exact .map (match_nameList names) (fun _ _ h => by rw [h])

theorem match_batchRow (width : Nat) (h : v.Row t w) : Matches t s (batchRow s width v) (batchRow s width w) Eq := by
  unfold batchRow
  refine .view (fun m m' hm => ?_)
  have hl := h.length hm
  rw [← hl]
  rcases h.lists with hlists | hnone
  · cases v.length m with
    | error x => exact .misuse x
    | ok n =>
      dsimp only
      split
      · exact .map ((match_each hlists (fun _ _ h => match_rendered h)).weaken (fun _ _ h => forall₂_eq_eq_eq ▸ h))
          (fun _ _ h => by rw [h])
      · exact .fail rfl
  · rw [hnone]
    exact .misuse _

theorem match_batchInsert (ht : table.Fixed t) (hc : columns.Columns t columns') (hr : rows.Rows t rows') :
    Matches t s (batchInsert table columns rows s) (batchInsert table columns' rows' s) Eq := by
  unfold batchInsert
  refine .view (fun m m' hm => ?_)
  rw [hr.isTruthy hm]
  split
  · exact .fail rfl
  · refine .bind (match_tableName ht) (fun target _ ht => ?_)
    cases ht
    refine .bind (match_names hc) (fun names _ hn => ?_)
    cases hn
    split
    · exact .fail rfl
    · refine .bind (R := Eq) ((match_each hr.lists (fun _ _ h => match_batchRow names.length h)).weaken
        (fun _ _ h => forall₂_eq_eq_eq ▸ h)) (fun tuples _ ht => ?_)
      cases ht
      exact .map (match_nameList names) (fun _ _ h => by rw [h])

theorem match_filtered (sql : Sql) (h : Condition.Tied t condition condition') :
    Matches t s (filtered s sql condition) (filtered s sql condition') Eq :=
  .map (Query.match_filterClause "WHERE" h) (fun _ _ h => by rw [h])

theorem match_assignment {e e' : Value × Value} (h : Value.Assigned t e e') :
    Matches t s (assignment s e) (assignment s e') Eq := by
  unfold assignment
  rw [← h.1.1]
  refine .bind (match_columnName h.1.2) (fun name _ hn => ?_)
  cases hn
  exact .map (match_rendered h.2) (fun _ _ h => by rw [h])

theorem match_update (ht : table.Fixed t) (hc : columns.Columns t columns')
    (hw : Condition.Tied t condition condition') :
    Matches t s (update table columns condition s) (update table columns' condition' s) Eq := by
  unfold update
  refine .bind (R := Eq) ((match_eachEntry hc.maps (fun _ _ he => match_assignment he)).weaken
    (fun _ _ h => forall₂_eq_eq_eq ▸ h)) (fun lines _ hl => ?_)
  cases hl
  refine .bind (match_tableName ht) (fun target _ ht => ?_)
  cases ht
  exact match_filtered _ hw

theorem match_delete (ht : table.Fixed t) (hw : Condition.Tied t condition condition') :
    Matches t s (delete table condition s) (delete table condition' s) Eq := by
  unfold delete
  refine .bind (match_tableName ht) (fun target _ ht => ?_)
  cases ht
  exact match_filtered _ hw

end Statement

/-! ## Parameter collections -/

theorem Entries.Tied.of_keys {P : Prop} {es es' : Entries} (hk : es.keys = es'.keys) (hp : ¬ P) :
    Entries.Tied t P es es' := by
  have hkeys : Forall₂ Eq es.keys es'.keys := by rw [hk,forall₂_eq_eq_eq]
  have he := forall₂_map_left_iff.mp (forall₂_map_right_iff.mp hkeys)
  exact he.imp (fun _ _ he => ⟨he,fun p => absurd p hp⟩)

namespace Value.Params

theorem length (h : v.Params t w) (hm : m.Tied t m') : v.length m = w.length m' := by
  cases h with
  | mapping hk => exact congrArg Except.ok (congrArg List.length hk)
  | @shared home h => exact congrArg Except.ok (congrArg List.length (hm.mappings home).keys)
  | other _ hs => cases v <;> first | rfl | exact absurd rfl (hs _)

/-- Collections have the same names in the same order, or they are no mappings. -/
theorem keys (h : v.Params t w) (hm : m.Tied t m') :
    (v.entries? m).map Entries.keys = (w.entries? m').map Entries.keys := by
  cases h with
  | mapping hk => exact congrArg some hk
  | @shared home h => exact congrArg some (hm.mappings home).keys
  | other _ hs => cases v <;> first | rfl | exact absurd rfl (hs _)

theorem collectionOf (h : v.Params t w) : (Statement.collectionOf v).Params t (Statement.collectionOf w) := by
  cases h with
  | mapping hk => exact .mapping hk
  | shared h => exact .shared h
  | other hm hs => cases v <;> first | exact .mapping rfl | exact .other hm hs

/-- Steps over tied collections start with tied drafts. -/
theorem opening (hs : s.collection = .own) (h : v.Params t w) (hm : m.Tied t m') :
    (Build.opening s v m).1 = (Build.opening s w m').1 ∧
      (Build.opening s v m).2.Tied t (Build.opening s v m).1 (Build.opening s w m').2 := by
  have hown : ∀ {c : Collection}, (∀ home, c ≠ .shared home) → ∀ home, c = .shared home → t.growing home :=
    fun hc home h => absurd h (hc home)
  have hunshared : ∀ {c : Collection}, (∀ home, c ≠ .shared home) → ¬ Setting.Shares { s with collection := c } := by
    rintro c hc ⟨home,h⟩
    exact hc home h
  cases h with
  | mapping hk =>
    have hc : ∀ home, s.collection ≠ .shared home := by simp [hs]
    exact ⟨rfl,hm,.of_keys hk (fun hr => hunshared hc hr.2),hown hc⟩
  | @shared home h =>
    refine ⟨rfl,hm,(hm.mappings home).mono (fun hr => .inl hr.1),fun other ho => ?_⟩
    cases ho
    exact h
  | other hmap hshared =>
    have hset : (Build.opening s v m).1 = (Build.opening s v m').1 := by cases v <;> rfl
    have hdraft : ∀ m, (Build.opening s v m).2 = { bindings := [],memory := m } := by
      intro m
      cases v <;> first | rfl | exact absurd rfl (hmap _) | exact absurd rfl (hshared _)
    have hfixed : ∀ home, (Build.opening s v m).1.collection ≠ .shared home := by
      intro home hc
      cases v <;> first | exact absurd rfl (hmap _) | exact absurd rfl (hshared _) | cases hc
    rw [hdraft,hdraft]
    exact ⟨hset,hm,.nil,hown hfixed⟩

theorem closing {d d' : Draft} (h : v.Params t w) (hd : d.Tied t (Build.opening s v m).1 d') :
    (Build.closing v d).1.Params t (Build.closing w d').1 ∧ (Build.closing v d).2.Tied t (Build.closing w d').2 := by
  cases h with
  | mapping hk => exact ⟨.mapping hd.bindings.keys,hd.memory⟩
  | @shared home h => exact ⟨.shared h,hd.memory.setMapping h (hd.bindings.mono (fun hr => ⟨hr,home,rfl⟩))⟩
  | other hmap hshared =>
    have hclosing : ∀ d, Build.closing v d = (v,d.memory) := by
      intro d
      cases v <;> first | rfl | exact absurd rfl (hmap _) | exact absurd rfl (hshared _)
    rw [hclosing,hclosing]
    exact ⟨.other hmap hshared,hd.memory⟩

end Value.Params

/-! ## Answers -/

/-- Answers that show no difference: the same SQL and the same names, or faults that differ in what they report only.
The memories after them are tied again. -/
inductive Request.Agree (t : Ties) : Except Fault (Sql × Value) × Memory → Except Fault (Sql × Value) × Memory → Prop where
  | ok {sql : Sql} {params params' : Value} {m m' : Memory}
    (hn : (params.entries? m).map Entries.keys = (params'.entries? m').map Entries.keys) (hm : m.Tied t m') :
    Agree t (.ok (sql,params),m) (.ok (sql,params'),m')
  | error {x y : Fault} {m m' : Memory} (h : x.bare = y.bare) (hm : m.Tied t m') : Agree t (.error x,m) (.error y,m')

namespace Build
variable {b b' : Setting → Build Sql}

/-- Steps that match end over tied collections and memories. -/
theorem over_tied (hs : s.collection = .own) (hp : v.Params t w) (hm : m.Tied t m')
    (hb : ∀ s, Matches t s (b s) (b' s) Eq) :
    (∃ sql u u' n n', Build.over s v b m = (.ok (sql,u),n) ∧ Build.over s w b' m' = (.ok (sql,u'),n') ∧ u.Params t u' ∧ n.Tied t n') ∨
      ∃ x y n n', Build.over s v b m = (.error x,n) ∧ Build.over s w b' m' = (.error y,n') ∧ x.bare = y.bare ∧ n.Tied t n' := by
  obtain ⟨hset,hdraft⟩ := hp.opening hs hm
  have hover : ∀ (v : Value) (b : Setting → Build Sql) (m : Memory) (s' : Setting), (opening s v m).1 = s' →
      Build.over s v b m =
        (((b s').runOn (opening s v m).2).1.map (fun a => (a,(closing v ((b s').runOn (opening s v m).2).2).1)),
          (closing v ((b s').runOn (opening s v m).2).2).2) := by
    rintro v b m _ rfl
    rfl
  have hmeet := hb _ _ _ hdraft
  rw [hover v b m _ rfl,hover w b' m' _ hset.symm]
  generalize (b (opening s v m).1).runOn (opening s v m).2 = o,(b' (opening s v m).1).runOn (opening s w m').2 = o'
    at hmeet ⊢
  cases hmeet with
  | error h hd => exact .inr ⟨_,_,_,_,rfl,rfl,h,(hp.closing hd).2⟩
  | ok h hd =>
    cases h
    exact .inl ⟨_,_,_,_,_,rfl,rfl,(hp.closing hd).1,(hp.closing hd).2⟩

end Build

namespace Statement

theorem agree_compose (b b' : Setting → Build Sql) (hs : s.collection = .own) (hp : v.Params t w) (hm : m.Tied t m')
    (hb : ∀ s, Matches t s (b s) (b' s) Eq) :
    Request.Agree t ((compose s v b m).map (·.map parts) id) ((compose s w b' m').map (·.map parts) id) := by
  unfold compose ofOutcome
  rcases over_tied hs hp.collectionOf hm hb with ⟨sql,u,u',n,n',ho,ho',hu,hn⟩ | ⟨x,y,n,n',ho,ho',hx,hn⟩
  · rw [ho,ho']
    simp only [Except.bind]
    rw [hu.length hn]
    cases u'.length n' with
    | error x => exact .error rfl hn
    | ok _ => exact .ok (hu.keys hn) hn
  · rw [ho,ho']
    exact .error hx hn

end Statement

namespace Request

theorem agree_query {cell : Nat} (hs : s.collection = .own) (h : t.written cell) (hm : m.Tied t m') :
    Agree t (perform s m (.query cell)) (perform s m' (.query cell)) := by
  have hp : (Value.shared (m.home cell)).Params t (.shared (m.home cell)) := .shared (hm.growing cell h)
  have hmeet : Meets t { s with collection := .shared (m.home cell) } Eq (outcome s m (.query cell))
      (outcome s m' (.query cell)) := by
    have hstart := (hp.opening hs hm).2
    have hparams : (Request.query cell).params m' = .shared (m.home cell) := congrArg Value.shared (hm.home h).symm
    unfold outcome setting start
    rw [hparams]
    exact Query.match_compile ⟨_,rfl⟩ h _ _ hstart
  rw [perform_query,perform_query,← hm.home h]
  unfold final
  generalize outcome s m (.query cell) = o,outcome s m' (.query cell) = o' at hmeet ⊢
  cases hmeet with
  | error hx he => exact .error hx (hp.closing (s := s) (m := m) he).2
  | ok hsql he =>
    cases hsql
    exact .ok (congrArg some he.bindings.keys) (hp.closing (s := s) (m := m) he).2

theorem agree_filter {spec spec' : Value} (hs : s.collection = .own) (hp : v.Params t w) (hm : m.Tied t m')
    (hw : Condition.Tied t spec spec') : Agree t (perform s m (.filter spec v)) (perform s m' (.filter spec' w)) := by
  show Agree t (Build.over s v (fun s => Condition.compile s spec) m) (Build.over s w (fun s => Condition.compile s spec') m')
  rcases Build.over_tied hs hp hm (fun _ => Condition.match_compile hw) with
    ⟨sql,u,u',n,n',ho,ho',hu,hn⟩ | ⟨x,y,n,n',ho,ho',hx,hn⟩
  · rw [ho,ho']
    exact .ok (hu.keys hn) hn
  · rw [ho,ho']
    exact .error hx hn

end Request

/-! ## One value in several places -/

def Ties.collecting : Ties where
  growing _ := True
  readable := False
  frozen _ := False
  apart _ h := h.elim
  written _ := True
  settled _ := False
  data _ := False
  values _ := False
  names _ := False
  rows _ := False

def Memory.keeping (v : Value) : Memory := { mappings := #[[(.text "p",v)]] }

theorem Memory.tied_keeping (v w : Value) : (Memory.keeping v).Tied .collecting (Memory.keeping w) where
  size := rfl
  holds home := by cases home <;> exact Iff.rfl
  streams cell := ⟨nofun,nofun,nofun⟩
  mappings home := by
    have hreads : ¬ Ties.collecting.Reads home := by simp [Ties.Reads,Ties.collecting]
    cases home with
    | cell n =>
      cases n with
      | zero => exact .cons ⟨rfl,fun hr => absurd hr hreads⟩ .nil
      | succ n => exact .nil
    | query n => exact .nil
  queries cell _ := ⟨rfl,rfl,rfl,rfl,.nil,.same rfl,rfl,.same rfl,rfl,nofun,rfl,rfl,rfl,rfl,nofun,nofun⟩
  growing _ _ := trivial
  data _ h := h.elim
  frozen _ h := h.elim
  settled _ h := h.elim

def Request.repeating (v : Value) : Request :=
  .update (.text "t") (.mapping [(.text "a",v),(.text "b",.null)])
    (.list [.operator .or,
      .list [.operator (.member false),.tuple [.text "x",.text "y"],.list [.mapping [(.text "x",v)]]],
      .mapping [(.text "c",.list [v,.int 0])]]) (.shared (.cell 0))

theorem Request.tied_repeating {v w : Value} (hv : v.isLiteral) (hw : w.isLiteral) :
    Request.Tied .collecting (repeating v) (repeating w) := by
  have hvalue : v.Alike .collecting w := .literal hv hw
  have htext : ∀ text : String, (Value.text text).Fixed .collecting := fun _ => .atom rfl
  have hcolumns : ∀ x y : String, ∀ u ∈ [Value.text x,Value.text y], u.Fixed .collecting := by
    intro x y u hu
    simp only [mem_cons,not_mem_nil,or_false] at hu
    rcases hu with rfl | rfl <;> exact htext _
  have hmember : Condition.Operands .collecting (.member false) [.tuple [.text "x",.text "y"],.list [.mapping [(.text "x",v)]]]
      [.tuple [.text "x",.text "y"],.list [.mapping [(.text "x",w)]]] :=
    .test (by decide) (.tuple (hcolumns "x" "y")) (.cons (.list (.cons (.mapping rfl (.cons hvalue .nil)) .nil)) .nil)
  refine .update (htext "t") (.mapping rfl (hcolumns "a" "b") ?_) (.list (.cons (fun op hop => ?_))) (.shared trivial)
  · exact .cons (.alike hvalue) (.cons (.alike (.fixed (.atom rfl))) .nil)
  · obtain rfl : Operator.or = op := Except.ok.inj hop
    refine .or (.cons (.list (.cons (fun op hop => ?_))) (.cons (.mapping rfl (.cons ?_ .nil)) .nil))
    · obtain rfl : Operator.member false = op := Except.ok.inj hop
      exact hmember
    · exact .list (.cons hvalue (.cons (.fixed (.atom rfl)) .nil))

/-! ## All requests -/

/-- Requests that differ in literals are answered alike, whatever they ask for. -/
theorem literals_unseen (o : Options) (d : Dialect) {r r' : Request} (hm : m.Tied t m') (hr : Request.Tied t r r') :
    Request.Agree t (r.perform (o.setting d) m) (r'.perform (o.setting d) m') := by
  have hs : (o.setting d).collection = .own := rfl
  generalize o.setting d = s at hs ⊢
  cases hr with
  | query h => exact Request.agree_query hs h hm
  | @insert table columns columns' params params' ht hc hp =>
    exact Statement.agree_compose (Statement.insert table columns) (Statement.insert table columns') hs hp hm
      (fun _ => Statement.match_insert ht hc)
  | @batchInsert table columns columns' rows rows' params params' ht hc hr hp =>
    exact Statement.agree_compose (Statement.batchInsert table columns rows) (Statement.batchInsert table columns' rows')
      hs hp hm (fun _ => Statement.match_batchInsert ht hc hr)
  | @update table columns columns' condition condition' params params' ht hc hw hp =>
    exact Statement.agree_compose (Statement.update table columns condition) (Statement.update table columns' condition')
      hs hp hm (fun _ => Statement.match_update ht hc hw)
  | @delete table condition condition' params params' ht hw hp =>
    exact Statement.agree_compose (Statement.delete table condition) (Statement.delete table condition') hs hp hm
      (fun _ => Statement.match_delete ht hw)
  | filter hw hp => exact Request.agree_filter hs hp hm hw

theorem literals_unseen_repeating :
    (Memory.keeping (.bool true)).Tied .collecting (Memory.keeping .null) ∧
      Request.Tied .collecting (.repeating (.int 5)) (.repeating (.text "x")) ∧
      Request.Agree .collecting
        ((Request.repeating (.int 5)).perform (({} : Options).setting .sqlite) (Memory.keeping (.bool true)))
        ((Request.repeating (.text "x")).perform (({} : Options).setting .sqlite) (Memory.keeping .null)) := by
  have hm := Memory.tied_keeping (.bool true) .null
  have hr := Request.tied_repeating (v := .int 5) (w := .text "x") rfl rfl
  exact ⟨hm,hr,literals_unseen {} .sqlite hm hr⟩

def Request.naming (v : Value) : Request :=
  .update (.text "t") (.mapping [(.text "a",v)]) (.list [.text "=",.shared (.cell 0),.int 1]) (.shared (.cell 0))

/-- A collection that holds an opening parenthesis and stands for a column is shown whole, and with it what the
statement has bound so far. -/
theorem literal_shown :
    ((Request.naming (.int 5)).perform (({} : Options).setting .sqlite) { mappings := #[[(.text "(",.int 0)]] }).1.toOption.map
        (fun a => Dialect.sqlite.render a.1) =
      some "UPDATE \x22t\x22 SET \x22a\x22=:qp1 WHERE \x7b\x27(\x27: 0, \x27qp1\x27: 5\x7d=:qp2" ∧
    ((Request.naming (.int 6)).perform (({} : Options).setting .sqlite) { mappings := #[[(.text "(",.int 0)]] }).1.toOption.map
        (fun a => Dialect.sqlite.render a.1) =
      some "UPDATE \x22t\x22 SET \x22a\x22=:qp1 WHERE \x7b\x27(\x27: 0, \x27qp1\x27: 6\x7d=:qp2" := by
  decide +kernel

end SqlCompose
