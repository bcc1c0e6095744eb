import SqlCompose.Proofs.Cells
import SqlCompose.Proofs.TiedInputs

/-! # Matching runs

Two steps match if from tied drafts they go to tied drafts, with results that are related or with the same fault. Here
are the steps that bind values and those that go through what a value lists.
-/
namespace SqlCompose
open List Build

variable {t : Ties} {s : Setting} {d d' : Draft} {m m' : Memory} {α β γ δ : Type} {v w : Value}

def Setting.Shares (s : Setting) : Prop := ∃ home, s.collection = .shared home

structure Draft.Tied (t : Ties) (s : Setting) (d d' : Draft) : Prop where
  memory : d.memory.Tied t d'.memory
  bindings : Entries.Tied t (t.readable ∧ s.Shares) d.bindings d'.bindings
  /-- What receives bindings is not read for its text. -/
  growing : ∀ home, s.collection = .shared home → t.growing home

namespace Entries.Tied
variable {P Q : Prop} {es es' more more' : Entries}

theorem mono (h : Entries.Tied t P es es') (hq : Q → P) : Entries.Tied t Q es es' :=
  Forall₂.imp (fun _ _ he => ⟨he.1,fun q => he.2 (hq q)⟩) h

theorem keys (h : Entries.Tied t P es es') : es.keys = es'.keys := by
  induction h with
  | nil => rfl
  | cons h _ ih => exact congrArg₂ List.cons h.1 ih

theorem put {k : Value} (h : Entries.Tied t P es es') (hv : P → k.Fixed t ∧ v.Alike t w) :
    Entries.Tied t P (Entries.put k v es) (Entries.put k w es') := by
  induction h with
  | nil => exact .cons ⟨rfl,hv⟩ .nil
  | @cons e e' es es' he hes ih =>
    obtain ⟨k',a⟩ := e
    obtain ⟨k'',b⟩ := e'
    obtain ⟨rfl,hp⟩ := he
    unfold Entries.put
    by_cases hk : k'.same k
    · rw [if_pos hk,if_pos hk]
      exact .cons ⟨rfl,fun p => ⟨(hp p).1,(hv p).2⟩⟩ hes
    · rw [if_neg hk,if_neg hk]
      exact .cons ⟨rfl,hp⟩ ih

theorem merge (h : Entries.Tied t P es es') (hm : Entries.Tied t P more more') :
    Entries.Tied t P (Entries.merge es more) (Entries.merge es' more') := by
  induction hm generalizing es es' with
  | nil => exact h
  | @cons e e' more more' he _ ih =>
    obtain ⟨k,a⟩ := e
    obtain ⟨k',b⟩ := e'
    obtain ⟨rfl,hp⟩ := he
    exact ih (h.put hp)

/-- Entries that are the same on both sides. -/
theorem refl (hk : P → ∀ e ∈ es, e.1.Fixed t) (hv : P → ∀ e ∈ es, e.2.Alike t e.2) : Entries.Tied t P es es :=
  forall₂_same.mpr (fun e he => ⟨rfl,fun p => ⟨hk p e he,hv p e he⟩⟩)

end Entries.Tied

theorem Query.Tied.params {q q' : Query} (h : q.Tied t q') (es es' : Entries) :
    Query.Tied t { q with params := es } { q' with params := es' } :=
  ⟨h.columns,h.distinct,h.selectOption,h.tables,h.joins,h.filter,h.groups,h.groupFilter,h.members,h.written,h.order,h.limit,
    h.offset,h.home,h.items,h.sortKeys⟩

/-- A mapping that takes bindings is read as data only if all of them may be. -/
theorem Ties.readable_of_reads {home : Home} (hg : t.growing home) (h : t.Reads home) : t.readable :=
  h.resolve_right (fun hn => hn hg)

namespace Memory.Tied

theorem mapping_setMapping {es es' : Entries} (h : m.Tied t m') (home other : Home)
    (hes : Entries.Tied t (t.Reads home) es es') :
    Entries.Tied t (t.Reads other) ((m.setMapping home es).mapping other) ((m'.setMapping home es').mapping other) := by
  by_cases hn : other = home
  · subst hn
    by_cases hh : m.Holds other
    · rw [mapping_setMapping_self hh,mapping_setMapping_self ((h.holds other).mp hh)]
      exact hes
    · rw [mapping_setMapping_of_not_holds hh,mapping_setMapping_of_not_holds (fun hh' => hh ((h.holds other).mpr hh'))]
      exact h.mappings other
  · rw [mapping_setMapping_of_ne hn,mapping_setMapping_of_ne hn]
    exact h.mappings other

theorem query_setMapping {es es' : Entries} {cell : Nat} (h : m.Tied t m') (home : Home)
    (hc : t.written cell) :
    ((m.setMapping home es).query cell).Tied t ((m'.setMapping home es').query cell) := by
  obtain ⟨params,hq⟩ := Memory.query_setMapping m home cell es
  obtain ⟨params',hq'⟩ := Memory.query_setMapping m' home cell es'
  rw [hq,hq']
  exact (h.queries cell hc).params params params'

/-- Queries that are written keep their parameters in the same place. -/
theorem home {cell : Nat} (h : m.Tied t m') (hc : t.written cell) : m.home cell = m'.home cell := by
  rw [Memory.home,Memory.home,(h.queries cell hc).home]

theorem params {cell : Nat} (h : m.Tied t m') (hc : t.written cell) :
    Entries.Tied t (t.Reads (m.home cell)) (m.params cell) (m'.params cell) := by
  rw [Memory.params,Memory.params,← h.home hc]
  exact h.mappings (m.home cell)

theorem setMapping {es es' : Entries} {home : Home} (h : m.Tied t m') (hg : t.growing home)
    (hes : Entries.Tied t t.readable es es') : (m.setMapping home es).Tied t (m'.setMapping home es') where
  size := by
    cases home <;> exact h.size
  holds other := by rw [holds_setMapping,holds_setMapping,h.holds]
  streams cell := by
    rw [stream_setMapping,stream_setMapping]
    exact h.streams cell
  mappings other := h.mapping_setMapping home other (hes.mono (Ties.readable_of_reads hg))
  queries cell hc := h.query_setMapping home hc
  growing cell hc := by
    rw [home_setMapping]
    exact h.growing cell hc
  data cell hd := by
    rw [fields_setMapping,fields_setMapping]
    exact h.data cell hd
  frozen other hf := by
    have hn : other ≠ home := by
      rintro rfl
      exact t.apart _ hf hg
    rw [mapping_setMapping_of_ne hn,mapping_setMapping_of_ne hn]
    exact h.frozen other hf
  settled cell hf := by
    rw [fields_setMapping,fields_setMapping]
    exact h.settled cell hf

theorem setStream {xs ys : List Value} {cell : Nat} (h : m.Tied t m') (hs : t.Streams cell xs ys) :
    (m.setStream cell xs).Tied t (m'.setStream cell ys) where
  size := by simp [Memory.setStream,h.size]
  holds home := by
    have hm : ∀ n : Memory, ∀ items, (n.setStream cell items).Holds home ↔ n.Holds home := by
      intro n items
      cases home <;> rfl
    rw [hm,hm,h.holds]
  streams n := by
    rw [stream_setStream,stream_setStream,h.size]
    split
    · next hn => exact hn.1 ▸ hs
    · exact h.streams n
  mappings home := by
    cases home with
    | cell n => exact h.mappings (.cell n)
    | query n => exact h.mappings (.query n)
  queries := h.queries
  growing := h.growing
  data := h.data
  frozen home hf := by
    cases home with
    | cell n => exact h.frozen (.cell n) hf
    | query n => exact h.frozen (.query n) hf
  settled := h.settled

end Memory.Tied

namespace Draft.Tied

theorem view (h : d.Tied t s d') : (d.view s).Tied t (d'.view s) := by
  unfold Draft.view
  split
  · next home hc => exact h.memory.setMapping (h.growing home hc) (h.bindings.mono (fun hr => ⟨hr,home,hc⟩))
  · exact h.memory

theorem length (h : d.Tied t s d') : d.bindings.length = d'.bindings.length := h.bindings.length_eq

theorem nextName (h : d.Tied t s d') : d.nextName s = d'.nextName s := by
  unfold Draft.nextName
  rw [h.length]

theorem bound (h : d.Tied t s d') (hv : t.readable → v.Alike t w) : (d.bound s v).Tied t s (d'.bound s w) where
  memory := h.memory
  bindings := by
    unfold Draft.bound
    rw [h.nextName]
    exact h.bindings.put (fun hr => ⟨.atom rfl,hv hr.1⟩)
  growing := h.growing

theorem adopted {more more' : Entries} (h : d.Tied t s d') (hm : Entries.Tied t (t.readable ∧ s.Shares) more more') :
    (d.adopted more).Tied t s (d'.adopted more') := ⟨h.memory,h.bindings.merge hm,h.growing⟩

theorem drained {cell : Nat} {xs ys : List Value} (h : d.Tied t s d') (hs : t.Streams cell xs ys) :
    (d.drained cell xs).Tied t s (d'.drained cell ys) := ⟨h.memory.setStream hs,h.bindings,h.growing⟩

end Draft.Tied

theorem Ties.Streams.tail {cell : Nat} {x y : Value} {xs ys : List Value} (h : t.Streams cell (x :: xs) (y :: ys)) :
    t.Streams cell xs ys where
  values hv := (forall₂_cons.mp (h.values hv)).2
  names hn := ⟨(cons.inj (h.names hn).1).2,fun v hm => (h.names hn).2 v (.tail _ hm)⟩
  rows hr := (forall₂_cons.mp (h.rows hr)).2

theorem Ties.Streams.nil {cell : Nat} : t.Streams cell [] [] := ⟨fun _ => .nil,fun _ => ⟨rfl,by simp⟩,fun _ => .nil⟩

/-! ## Matching steps -/

inductive Meets (t : Ties) (s : Setting) (R : α → β → Prop) : Except Fault α × Draft → Except Fault β × Draft → Prop where
  | ok {a : α} {b : β} {d d' : Draft} (h : R a b) (hd : d.Tied t s d') : Meets t s R (.ok a,d) (.ok b,d')
  | error {x y : Fault} {d d' : Draft} (h : x.bare = y.bare) (hd : d.Tied t s d') : Meets t s R (.error x,d) (.error y,d')

def Matches (t : Ties) (s : Setting) (p : Build α) (q : Build β) (R : α → β → Prop) : Prop :=
  ∀ d d', d.Tied t s d' → Meets t s R (p.runOn d) (q.runOn d')

namespace Matches
variable {p : Build α} {q : Build β} {R R' : α → β → Prop} {Q : γ → δ → Prop}

theorem pure {a : α} {b : β} (h : R a b) : Matches t s (Pure.pure a) (Pure.pure b) R := fun _ _ hd => .ok h hd

theorem fail {x y : Fault} (h : x.bare = y.bare) : Matches t s (Build.fail x) (Build.fail y) R := fun _ _ hd => .error h hd

theorem misuse (x : Misuse) : Matches t s (Build.misuse x) (Build.misuse x) R := fun _ _ hd => .error rfl hd

theorem weaken (h : Matches t s p q R) (hr : ∀ a b, R a b → R' a b) : Matches t s p q R' := by
  intro d d' hd
  have hm := h d d' hd
  generalize p.runOn d = r,q.runOn d' = r' at hm ⊢
  cases hm with
  | ok h hd => exact .ok (hr _ _ h) hd
  | error h hd => exact .error h hd

theorem bind {f : α → Build γ} {g : β → Build δ} (h : Matches t s p q R)
    (hf : ∀ a b, R a b → Matches t s (f a) (g b) Q) : Matches t s (p >>= f) (q >>= g) Q := by
  intro d d' hd
  have hm := h d d' hd
  rw [runOn_bind,runOn_bind]
  generalize p.runOn d = r,q.runOn d' = r' at hm ⊢
  cases hm with
  | ok h hd => exact hf _ _ h _ _ hd
  | error h hd => exact .error h hd

theorem map {f : α → γ} {g : β → δ} (h : Matches t s p q R) (hf : ∀ a b, R a b → Q (f a) (g b)) :
    Matches t s (p >>= fun a => Pure.pure (f a)) (q >>= fun b => Pure.pure (g b)) Q :=
  bind h (fun a b hab => pure (hf a b hab))

theorem get {f : Draft → Build γ} {g : Draft → Build δ}
    (h : ∀ d d', d.Tied t s d' → Meets t s Q ((f d).runOn d) ((g d').runOn d')) :
    Matches t s (MonadState.get >>= f) (MonadState.get >>= g) Q := by
  intro d d' hd
  rw [runOn_bind,runOn_bind,runOn_get,runOn_get]
  exact h d d' hd

theorem view {f : Memory → Build γ} {g : Memory → Build δ} (h : ∀ m m', m.Tied t m' → Matches t s (f m) (g m') Q) :
    Matches t s (Build.view s >>= f) (Build.view s >>= g) Q := by
  intro d d' hd
  rw [runOn_bind,runOn_bind,runOn_view,runOn_view]
  exact h _ _ hd.view d d' hd

theorem mapM {f : α → Build γ} {g : β → Build δ} {xs : List α} {ys : List β} (h : Forall₂ R xs ys)
    (hf : ∀ a b, R a b → Matches t s (f a) (g b) Q) : Matches t s (xs.mapM f) (ys.mapM g) (Forall₂ Q) := by
  induction h with
  | nil =>
    rw [List.mapM_nil,List.mapM_nil]
    exact pure .nil
  | @cons a b xs ys hab _ ih =>
    rw [List.mapM_cons,List.mapM_cons]
    refine bind (hf a b hab) (fun c c' hc => ?_)
    exact map ih (fun cs cs' hcs => .cons hc hcs)

end Matches

namespace Value

def isStill : Value → Bool
  | .stream _ | .shared _ | .range .. => false
  | _ => true

theorem int_of_range {a b c : Int} {items : List Value} (h : (range a b c).held m = .ok items) (hv : v ∈ items) :
    ∃ k, v = .int k := by
  unfold held at h
  dsimp only at h
  split at h
  · cases h
  · split at h
    · cases h
    · cases h
      obtain ⟨k,_,rfl⟩ := List.mem_map.mp hv
      exact ⟨_,rfl⟩

/-- The parameters of an expression that stands on both sides. -/
theorem Alike.params {sql : String} {params : Entries} {P : Prop}
    (h : (Value.expression sql params).Alike t (.expression sql params)) :
    Entries.Tied t (t.readable ∧ P) params params := by
  cases h with
  | literal hv _ => cases hv
  | fixed h =>
    cases h with
    | atom h => cases h
    | expression hk hv => exact .refl (fun _ => hk) (fun _ e he => .fixed (hv e he))
  | expression hk hv => exact .refl (fun hr => hk hr.1) (fun hr => hv hr.1)

/-- An expression stands on both sides, or on neither. -/
theorem Alike.expression_or_not (h : v.Alike t w) :
    (∃ sql params, v = .expression sql params ∧ w = .expression sql params) ∨
      v.isExpression = false ∧ w.isExpression = false := by
  cases h with
  | literal hv hw =>
    right
    constructor
    · cases v <;> first | rfl | cases hv
    · cases w <;> first | rfl | cases hw
  | fixed h =>
    cases v with
    | expression sql params => exact .inl ⟨sql,params,rfl,rfl⟩
    | _ => exact .inr ⟨rfl,rfl⟩
  | expression hk hv => exact .inl ⟨_,_,rfl,rfl⟩
  | _ => exact .inr ⟨rfl,rfl⟩

end Value

namespace Build
variable {R : Value → Value → Prop} {Q : α → β → Prop}

theorem match_bindValue (h : t.readable → v.Alike t w) : Matches t s (bindValue s v) (bindValue s w) Eq := by
  intro d d' hd
  by_cases hb : s.Binds
  · rw [runOn_bindValue hb,runOn_bindValue hb]
    exact .ok hd.nextName (hd.bound h)
  · obtain ⟨x,hx⟩ := bindValue_of_not_binds hb
    rw [hx s rfl,hx s rfl]
    exact .error rfl hd

theorem match_adopt {more more' : Entries} (h : Entries.Tied t (t.readable ∧ s.Shares) more more') :
    Matches t s (adopt s more) (adopt s more') (fun _ _ => True) := by
  intro d d' hd
  by_cases hb : s.Binds
  · rw [runOn_adopt hb,runOn_adopt hb]
    exact .ok trivial (hd.adopted h)
  · rw [adopt_of_not_binds hb,adopt_of_not_binds hb]
    exact .error rfl hd

theorem match_rendered (h : v.Bound t w) : Matches t s (rendered s v) (rendered s w) Eq := by
  have hplain : ∀ {v w : Value}, v.isExpression = false → w.isExpression = false → (t.readable → v.Alike t w) →
      Matches t s (rendered s v) (rendered s w) Eq := by
    intro v w hv hw h
    have hb : ∀ {u : Value}, u.isExpression = false → rendered s u = (do return [.placeholder (← bindValue s u)]) := by
      intro u hu
      cases u <;> first | rfl | cases hu
    rw [hb hv,hb hw]
    exact .map (match_bindValue h) (fun _ _ h => by rw [h])
  cases h with
  | plain hv hw h => exact hplain hv hw h
  | alike h =>
    rcases h.expression_or_not with ⟨sql,params,rfl,rfl⟩ | ⟨hv,hw⟩
    · exact .map (match_adopt h.params) (fun _ _ _ => rfl)
    · exact hplain hv hw (fun _ => h)

/-! ## What values list -/

inductive Lists (t : Ties) (R : Value → Value → Prop) : Value → Value → Prop where
  | stream {cell : Nat} (h : ∀ xs ys, t.Streams cell xs ys → Forall₂ R xs ys) : Lists t R (.stream cell) (.stream cell)
  | shared {home : Home} (hr : t.Reads home)
    (h : ∀ es es', Entries.Tied t True es es' → Forall₂ R es.keys es'.keys) : Lists t R (.shared home) (.shared home)
  | range {a b c : Int} (h : ∀ k, R (.int k) (.int k)) : Lists t R (.range a b c) (.range a b c)
  | still {v w : Value} (hv : v.isStill) (hw : w.isStill)
    (h : ∀ m m', m.Tied t m' → Option.Rel (Forall₂ R) (v.elements? m) (w.elements? m')) : Lists t R v w

theorem match_next? {cell : Nat} (h : ∀ xs ys, t.Streams cell xs ys → Forall₂ R xs ys) :
    Matches t s (next? cell) (next? cell) (Option.Rel R) := by
  unfold next?
  refine .get (fun d d' hd => ?_)
  have hs := hd.memory.streams cell
  have hxs := h _ _ hs
  unfold Memory.next?
  cases hm : d.memory.stream cell with
  | nil =>
    cases hm' : d'.memory.stream cell with
    | nil => exact .ok .none hd
    | cons y ys =>
      rw [hm,hm'] at hxs
      cases hxs
  | cons x xs =>
    cases hm' : d'.memory.stream cell with
    | nil =>
      rw [hm,hm'] at hxs
      cases hxs
    | cons y ys =>
      rw [hm,hm'] at hxs hs
      cases hxs with
      | cons hxy _ => exact .ok (.some hxy) (hd.drained hs.tail)

theorem elements?_shared (m : Memory) (home : Home) : (Value.shared home).elements? m = some (m.mapping home).keys := rfl

theorem held_of_isStill (m : Memory) (h : v.isStill) : v.held m = (v.elements? m).elim (.error .wrongType) .ok := by
  cases v <;> first | rfl | cases h

theorem elements_of_isStill (h : v.isStill) : elements s v = (do
    match v.held (← view s) with
    | .error m => misuse m
    | .ok items => return items) := by
  unfold elements
  congr 1
  funext m
  cases v.held m with
  | error x => rfl
  | ok items => cases v <;> first | rfl | cases h

theorem each_of_isStill (h : v.isStill) (f : Value → Build α) : each s v f = (do
    match v.elements? (← view s) with
    | none => misuse .wrongType
    | some items => items.mapM f) := by
  cases v <;> first | rfl | cases h

theorem match_elements (h : Lists t R v w) : Matches t s (elements s v) (elements s w) (Forall₂ R) := by
  cases h with
  | stream h =>
    refine .view (fun m m' hm => ?_)
    refine .bind (R := fun _ _ => True) (fun d d' hd => .ok trivial (hd.drained .nil)) (fun _ _ _ => ?_)
    exact .pure (h _ _ (hm.streams _))
  | shared hr h => exact .view (fun m m' hm => .pure (h _ _ ((hm.mappings _).mono (fun _ => hr))))
  | @range a b c h =>
    refine .view (fun m m' hm => ?_)
    cases hr : (Value.range a b c).held m with
    | error x =>
      have hr' : (Value.range a b c).held m' = .error x := hr
      rw [hr']
      exact .misuse x
    | ok items =>
      have hr' : (Value.range a b c).held m' = .ok items := hr
      rw [hr']
      refine .pure (forall₂_same.mpr (fun item hi => ?_))
      obtain ⟨k,rfl⟩ := Value.int_of_range hr hi
      exact h k
  | still hv hw h =>
    rw [elements_of_isStill hv,elements_of_isStill hw]
    refine .view (fun m m' hm => ?_)
    rw [held_of_isStill m hv,held_of_isStill m' hw]
    have hrel := h m m' hm
    generalize v.elements? m = o,w.elements? m' = o' at hrel ⊢
    cases hrel with
    | none => exact .misuse _
    | some hrel => exact .pure hrel

section Each
variable {f : Value → Build α} {g : Value → Build β}

theorem match_eachOfStream {cell : Nat} (h : ∀ xs ys, t.Streams cell xs ys → Forall₂ R xs ys)
    (hf : ∀ a b, R a b → Matches t s (f a) (g b) Q) (limit : Nat) :
    Matches t s (eachOfStream f cell limit) (eachOfStream g cell limit) (Forall₂ Q) := by
  induction limit with
  | zero => exact .pure .nil
  | succ limit ih =>
    unfold eachOfStream
    refine .bind (match_next? h) (fun o o' ho => ?_)
    cases ho with
    | none => exact .pure .nil
    | some hab =>
      refine .bind (hf _ _ hab) (fun a b hq => ?_)
      exact .map ih (fun as bs has => .cons hq has)

theorem match_eachOfRange (hf : ∀ k, Matches t s (f (.int k)) (g (.int k)) Q) (first step : Int) (left : Nat) :
    Matches t s (eachOfRange f first step left) (eachOfRange g first step left) (Forall₂ Q) := by
  induction left generalizing first with
  | zero => exact .pure .nil
  | succ left ih =>
    unfold eachOfRange
    refine .bind (hf first) (fun a b hq => ?_)
    exact .map (ih _) (fun as bs has => .cons hq has)

theorem getElem?_rel {S : α → β → Prop} {xs : List α} {ys : List β} (h : Forall₂ S xs ys) (i : Nat) :
    Option.Rel S xs[i]? ys[i]? := by
  induction h generalizing i with
  | nil => exact .none
  | cons hab _ ih =>
    cases i with
    | zero => exact .some hab
    | succ i => exact ih i

theorem match_eachBinding {f : Value × Value → Build α} {g : Value × Value → Build β} {S : Value × Value → Value × Value → Prop}
    (h : ∀ es es', Entries.Tied t (t.readable ∧ s.Shares) es es' → Forall₂ S es es')
    (hf : ∀ e e', S e e' → Matches t s (f e) (g e') Q) (size left : Nat) :
    Matches t s (eachBinding f size left) (eachBinding g size left) (Forall₂ Q) := by
  induction left with
  | zero => exact .pure .nil
  | succ left ih =>
    unfold eachBinding
    refine .get (fun d d' hd => ?_)
    have hrel := getElem?_rel (h _ _ hd.bindings) (size - (left + 1))
    generalize d.bindings[size - (left + 1)]? = o,d'.bindings[size - (left + 1)]? = o' at hrel ⊢
    cases hrel with
    | none => exact .ok .nil hd
    | some hrel =>
      refine Matches.bind (hf _ _ hrel) (fun a b hq => ?_) d d' hd
      refine .get (fun c c' hc => ?_)
      rw [hc.length]
      split
      · exact .error rfl hc
      · exact Matches.map ih (fun as bs has => .cons hq has) c c' hc

/-- What receives the bindings and is read as data has data for its bindings. -/
theorem bindings_of_receives {home : Home} {es es' : Entries} (hd : d.Tied t s d') (hr : t.Reads home)
    (hs : s.receives (.shared home)) (h : Entries.Tied t (t.readable ∧ s.Shares) es es') : Entries.Tied t True es es' := by
  have hc : s.collection = .shared home := by simpa [Setting.receives] using hs
  exact h.mono (fun _ => ⟨Ties.readable_of_reads (hd.growing home hc) hr,home,hc⟩)

theorem match_each (h : Lists t R v w) (hf : ∀ a b, R a b → Matches t s (f a) (g b) Q) :
    Matches t s (each s v f) (each s w g) (Forall₂ Q) := by
  cases h with
  | @stream cell h =>
    refine .get (fun d d' hd => ?_)
    rw [(h _ _ (hd.memory.streams cell)).length_eq]
    exact match_eachOfStream h hf _ d d' hd
  | @shared home hreads h =>
    intro d d' hd
    refine Matches.view (fun m m' hm => ?_) d d' hd
    rw [elements?_shared,elements?_shared]
    have hkeys := h _ _ ((hm.mappings home).mono (fun _ => hreads))
    dsimp only
    by_cases hr : s.receives (.shared home)
    · rw [if_pos hr,if_pos hr,hkeys.length_eq]
      refine match_eachBinding (S := fun e e' => R e.1 e'.1) (fun es es' hes => ?_) (fun e e' => hf e.1 e'.1) _ _
      exact forall₂_map_left_iff.mp (forall₂_map_right_iff.mp (h es es' (bindings_of_receives hd hreads hr hes)))
    · rw [if_neg hr,if_neg hr]
      exact .mapM hkeys hf
  | range h => exact match_eachOfRange (fun k => hf _ _ (h k)) _ _ _
  | still hv hw h =>
    rw [each_of_isStill hv,each_of_isStill hw]
    refine .view (fun m m' hm => ?_)
    have hrel := h m m' hm
    generalize v.elements? m = o,w.elements? m' = o' at hrel ⊢
    cases hrel with
    | none => exact .misuse _
    | some hrel => exact .mapM hrel hf

end Each

inductive Maps (t : Ties) (S : Value × Value → Value × Value → Prop) : Value → Value → Prop where
  | mapping {es es' : Entries} (h : Forall₂ S es es') : Maps t S (.mapping es) (.mapping es')
  | shared {home : Home} (hr : t.Reads home) (h : ∀ es es', Entries.Tied t True es es' → Forall₂ S es es') :
    Maps t S (.shared home) (.shared home)
  | none {v w : Value} (hv : ∀ m, v.entries? m = none) (hw : ∀ m, w.entries? m = none) : Maps t S v w

theorem match_eachEntry {f : Value × Value → Build α} {g : Value × Value → Build β}
    {S : Value × Value → Value × Value → Prop} (h : Maps t S v w) (hf : ∀ e e', S e e' → Matches t s (f e) (g e') Q) :
    Matches t s (eachEntry s v f) (eachEntry s w g) (Forall₂ Q) := by
  unfold eachEntry
  intro d d' hd
  refine Matches.view (fun m m' hm => ?_) d d' hd
  cases h with
  | mapping h => exact .mapM h hf
  | @shared home hreads h =>
    have hes := h _ _ ((hm.mappings home).mono (fun _ => hreads))
    show Matches t s (if s.receives (.shared home) then _ else _) (if s.receives (.shared home) then _ else _) _
    by_cases hr : s.receives (.shared home)
    · rw [if_pos hr,if_pos hr,hes.length_eq]
      exact match_eachBinding (fun es es' hes => h es es' (bindings_of_receives hd hreads hr hes)) hf _ _
    · rw [if_neg hr,if_neg hr]
      exact .mapM hes hf
  | none hv hw =>
    rw [hv,hw]
    exact .misuse _

end Build

end SqlCompose
