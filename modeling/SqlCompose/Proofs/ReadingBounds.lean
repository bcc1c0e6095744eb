import SqlCompose.Compose
import SqlCompose.Proofs.StatementSteps

/-! # What a reading comes upon

A query is read from a mapping of its clauses. Reading looks into values, uses up streams and adds queries to the memory.
A realm bounds the values that are come upon and the memories in which that happens; from inside a realm no reading leads
out of it. Queries that are read are in normal form: the columns that they sort by are distinct, and so are the names of
their parameters.
-/
namespace SqlCompose

variable {m : Memory} {v p : Value} {es : Entries} {α β : Type}

/-! ## Readings -/

namespace Reading

@[simp] theorem runOn_pure (a : α) (m : Memory) : (pure a : Reading α).runOn m = (.ok a,m) := rfl

@[simp] theorem runOn_get (m : Memory) : (get : Reading Memory).runOn m = (.ok m,m) := rfl

@[simp] theorem runOn_set (m m' : Memory) : (set m' : Reading PUnit).runOn m = (.ok ⟨⟩,m') := rfl

theorem runOn_bind (p : Reading α) (f : α → Reading β) (m : Memory) :
    (p >>= f).runOn m = match p.runOn m with
      | (.ok a,m') => (f a).runOn m'
      | (.error x,m') => (.error x,m') := by
  unfold runOn
  simp only [ExceptT.run_bind,StateT.run_bind,Id.run_bind]
  rcases Id.run (StateT.run p.run m) with ⟨x | a,m'⟩ <;> rfl

end Reading

/-! ## Normal forms -/

def Entries.Normal (es : Entries) : Prop := ∃ named, (named.map (·.1)).Nodup ∧ es = ofNames named

/-- A query in normal form. -/
structure Query.Normal (q : Query) : Prop where
  order : (q.order.map (·.1)).Nodup
  params : q.params.Normal

structure Query.IsNew (q : Query) : Prop extends q.Normal where
  home : q.home = none

/-! ## Realms -/

theorem Memory.query_addQuery (m : Memory) (q : Query) (c : Nat) :
    (m.addQuery q).2.query c = if c = m.queries.size then q else m.query c := by
  simp only [addQuery,query,Array.getD_eq_getD_getElem?,Array.getElem?_push]
  split <;> rfl

structure Query.Made (P : Value → Prop) (q : Query) : Prop where
  fields : ∀ f ∈ q.fields .null, P f.2
  params : ∀ e ∈ q.params, P e.1 ∧ P e.2

/-- The values that a reading may come upon while there are so many queries, and the memories in which it may do so. -/
structure Realm where
  value : Nat → Value → Prop
  memory : Memory → Prop
  more : ∀ {n n' v}, n ≤ n' → value n v → value n' v
  null : ∀ n, value n .null
  bool : ∀ n b, value n (.bool b)
  int : ∀ n i, value n (.int i)
  text : ∀ n t, value n (.text t)
  direction : ∀ n d, value n (.direction d)
  list : ∀ {n items}, (∀ v ∈ items, value n v) → value n (.list items)
  mapping : ∀ {n} {es : Entries}, (∀ e ∈ es, value n e.1 ∧ value n e.2) → value n (.mapping es)
  expression : ∀ {n sql} {params : Entries}, (∀ e ∈ params, value n e.1 ∧ value n e.2) → value n (.expression sql params)
  part : ∀ {m v p}, memory m → value m.queries.size v → p ∈ v.parts m → value m.queries.size p
  drain : ∀ {m c items}, memory m → value m.queries.size (.stream c) → (∀ v ∈ items, v ∈ m.stream c) →
    memory (m.setStream c items)
  add : ∀ {m q}, memory m → q.Made (value m.queries.size) → q.IsNew →
    memory (m.addQuery q).2 ∧ value (m.queries.size + 1) (.query m.queries.size)

variable {R : Realm} {n n' : Nat}

namespace Realm

def Has (R : Realm) (n : Nat) (es : Entries) : Prop := ∀ e ∈ es, R.value n e.1 ∧ R.value n e.2

theorem Has.more (h : R.Has n es) (hn : n ≤ n') : R.Has n' es := fun e he => ⟨R.more hn (h e he).1,R.more hn (h e he).2⟩

theorem entries (hm : R.memory m) (hv : R.value m.queries.size v) (he : v.entries? m = some es) :
    R.Has m.queries.size es := by
  intro e hmem
  have hp := Value.mem_parts_of_entries he hmem
  exact ⟨R.part hm hv hp.1,R.part hm hv hp.2⟩

theorem field {name : String} (hes : R.Has n es) (h : es.field? name = some v) : R.value n v := by
  obtain ⟨e,he,-,rfl⟩ := Entries.mem_of_field? h
  exact (hes e he).2

end Realm

def Brings (R : Realm) (n : Nat) (p : Reading α) (P : Nat → α → Prop) : Prop :=
  ∀ m, R.memory m → m.queries.size = n → R.memory (p.runOn m).2 ∧ n ≤ (p.runOn m).2.queries.size ∧
    ∀ a, (p.runOn m).1 = .ok a → P (p.runOn m).2.queries.size a

namespace Brings
variable {p : Reading α} {f : α → Reading β} {P : Nat → α → Prop} {Q : Nat → β → Prop}

theorem pure {a : α} (h : P n a) : Brings R n (Pure.pure a) P := by
  rintro m hm rfl
  refine ⟨hm,Nat.le_refl _,?_⟩
  rintro b ⟨⟩
  exact h

theorem throw (x : Fault) : Brings R n (MonadExcept.throw x : Reading α) P :=
  fun _ hm hn => ⟨hm,hn ▸ Nat.le_refl _,nofun⟩

theorem bind (hp : Brings R n p P) (hf : ∀ n' a, n ≤ n' → P n' a → Brings R n' (f a) Q) : Brings R n (p >>= f) Q := by
  intro m hm hn
  obtain ⟨hmemory,hsize,hr⟩ := hp m hm hn
  rw [Reading.runOn_bind]
  revert hmemory hsize hr
  rcases p.runOn m with ⟨x | a,m'⟩
  · intro hmemory hsize _
    exact ⟨hmemory,hsize,nofun⟩
  · intro hmemory hsize hr
    obtain ⟨hmemory',hsize',hr'⟩ := hf _ a hsize (hr a rfl) m' hmemory rfl
    exact ⟨hmemory',Nat.le_trans hsize hsize',hr'⟩

theorem map {g : α → β} (hp : Brings R n p P) (hg : ∀ n' a, n ≤ n' → P n' a → Q n' (g a)) :
    Brings R n (do return g (← p)) Q :=
  hp.bind (fun n' a hn ha => pure (hg n' a hn ha))

theorem weaken {P' : Nat → α → Prop} (hp : Brings R n p P) (h : ∀ n' a, P n' a → P' n' a) : Brings R n p P' :=
  fun m hm hn => ⟨(hp m hm hn).1,(hp m hm hn).2.1,fun a ha => h _ a ((hp m hm hn).2.2 a ha)⟩

/-- A reading that looks at the memory first. -/
theorem get {f : Memory → Reading β} (h : ∀ m, R.memory m → m.queries.size = n → Brings R n (f m) Q) :
    Brings R n (MonadState.get >>= f) Q := by
  intro m hm hn
  rw [Reading.runOn_bind,Reading.runOn_get]
  exact h m hm hn m hm hn

theorem ofMemory {read : Memory → Except Fault α}
    (h : ∀ m, R.memory m → m.queries.size = n → ∀ a, read m = .ok a → P n a) : Brings R n (Reading.ofMemory read) P := by
  unfold Reading.ofMemory
  refine get (fun m hm hn => ?_)
  cases hr : read m with
  | ok a => exact pure (h m hm hn a hr)
  | error x => exact throw x

theorem mapM {l : List α} {f : α → Reading β} (hmore : ∀ n n' b, n ≤ n' → Q n b → Q n' b)
    (h : ∀ a ∈ l, ∀ n', n ≤ n' → Brings R n' (f a) Q) : Brings R n (l.mapM f) (fun n' bs => ∀ b ∈ bs, Q n' b) := by
  induction l generalizing n with
  | nil =>
    rw [List.mapM_nil]
    exact pure (by simp)
  | cons a l ih =>
    rw [List.mapM_cons]
    refine bind (h a (.head _) n (Nat.le_refl _)) (fun n₁ b hn₁ hb => ?_)
    refine map (ih (fun a ha n' hn' => h a (.tail _ ha) n' (Nat.le_trans hn₁ hn'))) (fun n₂ bs hn₂ hbs => ?_)
    simpa [hmore _ _ _ hn₂ hb] using hbs

end Brings

/-! ## Sequences -/

namespace Reading
variable {f : Value → Reading α} {P : Nat → α → Prop}

/-- What a sequence or a record gives are its elements. -/
theorem elements_of_listed {items : List Value}
    (h : (v.sequence? m).or ((v.fields? m).map (List.map Value.ofField)) = some items) : v.elements? m = some items := by
  cases v <;> simp_all [Value.elements?,Value.text?,Value.sequence?,Value.entries?,Value.fields?]

theorem brings_eachOfStream {c limit : Nat} (hmore : ∀ n n' a, n ≤ n' → P n a → P n' a)
    (hv : R.value n (.stream c)) (hf : ∀ w n', n ≤ n' → R.value n' w → Brings R n' (f w) P) :
    Brings R n (eachOfStream f c limit) (fun n' l => ∀ a ∈ l, P n' a) := by
  induction limit generalizing n with
  | zero => exact .pure (by simp)
  | succ limit ih =>
    unfold eachOfStream
    refine .get (fun m hm hn => ?_)
    unfold Memory.next?
    cases hs : m.stream c with
    | nil => exact .pure (by simp)
    | cons w rest =>
      have hw : R.value n w := by
        subst hn
        exact R.part hm hv (by rw [Value.parts_stream,hs]; exact .head _)
      have hset : Brings R n (MonadStateOf.set (m.setStream c rest) : Reading PUnit) (fun _ _ => True) := by
        rintro m' - rfl
        exact ⟨R.drain hm (hn ▸ hv) (fun u hu => hs ▸ .tail _ hu),hn ▸ Nat.le_refl _,fun _ _ => trivial⟩
      refine .bind hset (fun n₁ _ hn₁ _ => ?_)
      refine .bind (hf w n₁ hn₁ (R.more hn₁ hw)) (fun n₂ a hn₂ ha => ?_)
      have hn : n ≤ n₂ := Nat.le_trans hn₁ hn₂
      refine .map (ih (R.more hn hv) (fun w n' hn' => hf w n' (Nat.le_trans hn hn'))) (fun n₃ l hn₃ hl => ?_)
      simpa [hmore _ _ _ hn₃ ha] using hl

theorem brings_each (hmore : ∀ n n' a, n ≤ n' → P n a → P n' a) (hv : R.value n v)
    (hf : ∀ w n', n ≤ n' → R.value n' w → Brings R n' (f w) P) :
    Brings R n (each f v) (fun n' o => ∀ l, o = some l → ∀ a ∈ l, P n' a) := by
  unfold each
  refine .get (fun m hm hn => ?_)
  split
  · refine .map (brings_eachOfStream hmore hv hf) (fun n' l _ hl => ?_)
    rintro _ ⟨⟩
    exact hl
  · split
    · exact .pure nofun
    · next items hi =>
      have hitems : ∀ w ∈ items, R.value n w := by
        subst hn
        exact fun w hw => R.part hm hv (Value.mem_parts_of_elements (elements_of_listed hi) hw)
      refine .map (.mapM hmore (fun w hw n' hn' => hf w n' hn' (R.more hn' (hitems w hw)))) (fun n' l _ hl => ?_)
      rintro _ ⟨⟩
      exact hl

theorem brings_listed (hv : R.value n v) :
    Brings R n (listed v) (fun n' o => ∀ l, o = some l → R.value n' (.list l)) := by
  refine (brings_each (P := R.value) (fun _ _ _ => R.more) hv (fun _ _ _ hw => .pure hw)).weaken (fun n' o ho l hl => ?_)
  exact R.list (ho l hl)

end Reading

/-- All of the items that could be read. -/
theorem forall_of_sequence {P : α → Prop} {l : List (Option α)} {as : List α} (h : l.mapM id = some as)
    (hl : ∀ o ∈ l, ∀ a, o = some a → P a) : ∀ a ∈ as, P a := by
  induction l generalizing as with
  | nil =>
    cases h
    simp
  | cons o l ih =>
    rw [List.mapM_cons] at h
    simp only [id,bind,Option.bind_eq_some_iff,pure,Option.some.injEq] at h
    obtain ⟨a,ho,as',has,rfl⟩ := h
    have hrest := ih has (fun o ho => hl o (.tail _ ho))
    simpa using ⟨hl o (.head _) a ho,hrest⟩

/-- A list of values that come from items, if all of the items could be read. -/
theorem Realm.list_of_sequence {toValue : α → Value} {l : List (Option α)} {as : List α}
    (hl : ∀ o ∈ l, ∀ a, o = some a → R.value n (toValue a)) (h : l.mapM id = some as) :
    R.value n (.list (as.map toValue)) := by
  refine R.list (fun w hw => ?_)
  obtain ⟨a,ha,rfl⟩ := List.mem_map.mp hw
  exact forall_of_sequence h hl a ha

/-! ## Records -/

namespace Value

theorem normal_readParams {params : Entries} (h : v.readParams? m = some params) : params.Normal := by
  obtain ⟨named,hn,rfl⟩ := Option.map_eq_some_iff.mp h
  obtain ⟨es,-,hn⟩ := Option.bind_eq_some_iff.mp hn
  obtain ⟨more,-,rfl⟩ := Option.map_eq_some_iff.mp hn
  exact ⟨_,Text.nodup_putAll (by simp),rfl⟩

theorem has_readParams {params : Entries} (hm : R.memory m) (hv : R.value m.queries.size v)
    (h : v.readParams? m = some params) : R.Has m.queries.size params := by
  obtain ⟨named,hn,rfl⟩ := Option.map_eq_some_iff.mp h
  obtain ⟨es,he,hn⟩ := Option.bind_eq_some_iff.mp hn
  have hes := Realm.entries hm hv he
  have hall := Condition.forall_named? (P := fun c => R.value m.queries.size c.2) hn (fun e he _ _ => (hes e he).2)
  intro e he
  obtain ⟨c,hc,rfl⟩ := List.mem_map.mp he
  exact ⟨R.text _ _,hall c hc⟩

end Value

namespace Record

theorem value_expression {text params : Value} {unknown : List String} {e : String × Entries} (hm : R.memory m)
    (hp : R.value m.queries.size params) (h : expression m text params unknown = .ok e) :
    R.value m.queries.size (.expression e.1 e.2) := by
  have hfields := Checked.eq_of_ofFields h
  simp only [bind,Option.bind_eq_some_iff,pure,Option.some.injEq] at hfields
  obtain ⟨sql,-,es,hes,rfl⟩ := hfields
  refine R.expression ?_
  split at hes
  · exact Value.has_readParams hm hp hes
  · cases hes
    simp

/-- An expression that is written as a mapping. -/
theorem value_expressionOfEntries {e : String × Entries} (hm : R.memory m) (hes : R.Has m.queries.size es)
    (h : expressionOfEntries m es = .ok (some e)) : R.value m.queries.size (.expression e.1 e.2) := by
  unfold expressionOfEntries at h
  split at h
  · next text _ _ =>
    have hparams : R.value m.queries.size ((es.field? "params").getD .null) := by
      cases hf : es.field? "params" with
      | none => exact R.null _
      | some v => exact Realm.field hes hf
    rw [Except.ok.injEq] at h
    cases hx : expression m text ((es.field? "params").getD .null) (es.unknown m ["text","params"]) with
    | error names =>
      rw [hx] at h
      cases h
    | ok e' =>
      rw [hx] at h
      cases h
      exact value_expression hm hparams hx
  · cases h

theorem value_of_map {f : String × Entries → γ} {a : γ} (hm : R.memory m) (hv : R.value m.queries.size v)
    (he : v.entries? m = some es) (h : (expressionOfEntries m es).map (Option.map f) = .ok (some a)) :
    ∃ e, a = f e ∧ R.value m.queries.size (.expression e.1 e.2) := by
  cases hx : expressionOfEntries m es with
  | error x =>
    rw [hx] at h
    cases h
  | ok o =>
    rw [hx] at h
    obtain ⟨e,rfl,rfl⟩ := Option.map_eq_some_iff.mp (Except.ok.inj h)
    exact ⟨e,rfl,value_expressionOfEntries hm (Realm.entries hm hv he) hx⟩

end Record

/-! ## Clauses -/

namespace Item

theorem value_read {i : Item} (hm : R.memory m) (hv : R.value m.queries.size v) (h : read m v = .ok (some i)) :
    R.value m.queries.size i.toValue := by
  unfold read at h
  split at h
  · cases h
    exact hv
  · split at h
    · cases h
      exact R.text _ _
    · next he =>
      obtain ⟨e,rfl,he⟩ := Record.value_of_map hm hv he h
      exact he
    · cases h

theorem value_ofText (t : String) : ∀ v ∈ ofText t, R.value n v := by
  unfold ofText
  split
  · simpa using R.text n t
  · intro v hv
    obtain ⟨name,-,rfl⟩ := List.mem_map.mp hv
    exact R.text n name

theorem brings_readAll (hv : R.value n v) :
    Brings R n (readAll v) (fun n' o => ∀ l, o = some l → R.value n' (.list (l.map toValue))) := by
  have hmore : ∀ (n n' : Nat) (o : Option Item), n ≤ n' → (∀ i, o = some i → R.value n i.toValue) →
      ∀ i, o = some i → R.value n' i.toValue := fun _ _ _ hn ho i hi => R.more hn (ho i hi)
  have hitem : ∀ w n', n ≤ n' → R.value n' w →
      Brings R n' (Reading.ofMemory (fun m => read m w)) (fun n' o => ∀ i, o = some i → R.value n' i.toValue) := by
    refine fun w n' _ hw => .ofMemory (fun m hm hn o ho i hi => ?_)
    subst hn
    exact value_read hm hw (hi ▸ ho)
  unfold readAll
  dsimp only
  split
  · exact .map (.mapM hmore (fun w hw n' hn' => hitem w n' hn' (value_ofText _ w hw)))
      (fun _ l _ hl => fun l' => Realm.list_of_sequence hl)
  · refine .map (.mapM hmore (fun w hw n' hn' => hitem w n' hn' ?_)) (fun _ l _ hl => fun l' => Realm.list_of_sequence hl)
    rw [List.mem_singleton.mp hw]
    exact R.more hn' hv
  · refine .map (Reading.brings_each hmore hv hitem) (fun _ o _ ho l' hl' => ?_)
    obtain ⟨l,hl,hl'⟩ := Option.bind_eq_some_iff.mp hl'
    exact Realm.list_of_sequence (ho l hl) hl'

end Item

namespace SortKey

theorem value_read {k : SortKey} (hm : R.memory m) (hv : R.value m.queries.size v) (h : read m v = .ok (some k)) :
    R.value m.queries.size k.toValue := by
  unfold read at h
  split at h
  · obtain ⟨d,-,rfl⟩ := Option.map_eq_some_iff.mp (Except.ok.inj h)
    exact R.direction _ d
  · obtain ⟨d,-,rfl⟩ := Option.map_eq_some_iff.mp (Except.ok.inj h)
    exact R.direction _ d
  · cases h
    exact hv
  · split at h
    · cases h
    · next he =>
      obtain ⟨e,rfl,he⟩ := Record.value_of_map hm hv he h
      exact he

theorem value_ofText (t : String) : ∀ e ∈ ofText t, R.value n e.2.toValue := by
  refine Condition.forall_putAll (by simp) (fun e he => ?_)
  obtain ⟨item,-,rfl⟩ := List.mem_map.mp he
  unfold ofItem
  split <;> exact R.direction n _

/-- The value of a sort order. -/
theorem value_order {l : List (String × SortKey)} (h : ∀ e ∈ l, R.value n e.2.toValue) :
    R.value n (.mapping (l.map (fun e => (.text e.1,e.2.toValue)))) := by
  refine R.mapping (fun e he => ?_)
  obtain ⟨k,hk,rfl⟩ := List.mem_map.mp he
  exact ⟨R.text n _,h k hk⟩

theorem mem_of_mapM {f : α → Except Fault β} {l : List α} {bs : List β} (h : l.mapM f = .ok bs) :
    ∀ b ∈ bs, ∃ a ∈ l, f a = .ok b := by
  induction l generalizing bs with
  | nil =>
    cases h
    simp
  | cons a l ih =>
    rw [List.mapM_cons] at h
    obtain ⟨b,hb,h⟩ := bind_eq_ok.mp h
    obtain ⟨bs',hbs,h⟩ := bind_eq_ok.mp h
    cases h
    intro c hc
    rcases List.mem_cons.mp hc with rfl | hc
    · exact ⟨a,.head _,hb⟩
    · obtain ⟨a',ha,hc⟩ := ih hbs c hc
      exact ⟨a',.tail _ ha,hc⟩

theorem value_readEntry {e : Value × Value} {o : Option (String × SortKey)} (hm : R.memory m)
    (hv : R.value m.queries.size e.2) (h : readEntry m e = .ok o) :
    ∀ k, o = some k → R.value m.queries.size k.2.toValue := by
  rintro k rfl
  unfold readEntry at h
  cases hr : read m e.2 with
  | error x =>
    rw [hr] at h
    cases h
  | ok key =>
    rw [hr] at h
    have hk := Except.ok.inj h
    simp only [bind,Option.bind_eq_some_iff,pure,Option.some.injEq] at hk
    obtain ⟨name,-,key',rfl,rfl⟩ := hk
    exact value_read hm hv hr

theorem value_readAll {l : List (String × SortKey)} (hm : R.memory m) (hv : R.value m.queries.size v)
    (h : readAll m v = .ok (some l)) : ∀ e ∈ l, R.value m.queries.size e.2.toValue := by
  unfold readAll at h
  split at h
  · cases h
    simp
  · cases h
    exact value_ofText _
  · cases h
  · next es _ he =>
    obtain ⟨keys,hk,h⟩ := bind_eq_ok.mp h
    obtain ⟨l',hl',rfl⟩ := Option.map_eq_some_iff.mp (Except.ok.inj h)
    refine Condition.forall_putAll (by simp) ?_
    refine forall_of_sequence hl' (fun o ho => ?_)
    obtain ⟨e,he',hr⟩ := mem_of_mapM hk o ho
    exact value_readEntry hm (Realm.entries hm hv he e he').2 hr

/-- The columns that are sorted by are distinct. -/
theorem nodup_readAll {l : List (String × SortKey)} (h : readAll m v = .ok (some l)) : (l.map (·.1)).Nodup := by
  unfold readAll at h
  split at h
  · cases h
    simp
  · cases h
    exact Text.nodup_putAll (by simp)
  · cases h
  · obtain ⟨keys,-,h⟩ := bind_eq_ok.mp h
    obtain ⟨l',-,rfl⟩ := Option.map_eq_some_iff.mp (Except.ok.inj h)
    exact Text.nodup_putAll (by simp)

end SortKey

def Realm.Nests (R : Realm) (nested : Entries → Reading (Option Nat)) : Prop :=
  ∀ (n : Nat) (es : Entries), R.Has n es → Brings R n (nested es) (fun n' o => ∀ c, o = some c → R.value n' (.query c))

namespace Member
variable {nested : Entries → Reading (Option Nat)}

theorem brings_read (hnested : R.Nests nested) (hv : R.value n v) :
    Brings R n (read nested v) (fun n' o => ∀ u, o = some u → R.value n' u.toValue) := by
  unfold read
  split
  · exact .pure (by rintro _ ⟨⟩; exact hv)
  · refine .get (fun m hm hn => ?_)
    subst hn
    split
    · exact .pure (by rintro _ ⟨⟩; exact R.text _ _)
    · next es _ he =>
      refine .map (hnested _ es (Realm.entries hm hv he)) (fun n' o _ ho u hu => ?_)
      obtain ⟨c,rfl,rfl⟩ := Option.map_eq_some_iff.mp hu
      exact ho c rfl
    · exact .pure nofun

theorem brings_readAll (hnested : R.Nests nested) (hv : R.value n v) :
    Brings R n (readAll nested v) (fun n' o => ∀ l, o = some l → R.value n' (.list (l.map toValue))) := by
  have hmore : ∀ (n n' : Nat) (o : Option Member), n ≤ n' → (∀ u, o = some u → R.value n u.toValue) →
      ∀ u, o = some u → R.value n' u.toValue := fun _ _ _ hn ho u hu => R.more hn (ho u hu)
  have hone : Brings R n (do return (← [v].mapM (read nested)).mapM id)
      (fun n' o => ∀ l, o = some l → R.value n' (.list (l.map toValue))) := by
    refine .map (.mapM hmore (fun w hw n' hn' => brings_read hnested ?_))
      (fun _ l _ hl => fun l' => Realm.list_of_sequence hl)
    rw [List.mem_singleton.mp hw]
    exact R.more hn' hv
  unfold readAll
  refine .get (fun m hm hn => ?_)
  split
  · exact hone
  · exact hone
  · exact hone
  · refine .map (Reading.brings_each hmore hv (fun w n' _ hw => brings_read hnested hw)) (fun _ o _ ho l' hl' => ?_)
    obtain ⟨l,hl,hl'⟩ := Option.bind_eq_some_iff.mp hl'
    exact Realm.list_of_sequence (ho l hl) hl'

end Member

/-! ## Whole queries -/

namespace Query

theorem brings_readClause {γ : Type} {name : String} {absent : γ} {read : Value → Reading (Option γ)} {P : Nat → γ → Prop}
    (hes : R.Has n es) (ha : P n absent)
    (hr : ∀ v, R.value n v → Brings R n (read v) (fun n' o => ∀ a, o = some a → P n' a)) :
    Brings R n (readClause es name absent read) (fun n' o => ∀ a, o = some a → P n' a) := by
  unfold readClause
  split
  · exact .pure (by rintro _ ⟨⟩; exact ha)
  · next v hv => exact hr v (Realm.field hes hv)

/-- A query that is put together from its clauses has them all. -/
theorem clauses_of_some {columns tables groups : Option (List Item)} {distinct : Option Bool}
    {selectOption : Option (Option String)} {joins : Option (List Value)} {filter groupFilter : Option Value}
    {members : Option (List Member)} {order : Option (List (String × SortKey))} {limit offset : Option (Option Int)}
    {params : Option Entries} {q : Query}
    (h : (do
      return { columns := ← columns, distinct := ← distinct, selectOption := ← selectOption
               tables := ← tables, joins := ← joins, filter := ← filter, groups := ← groups
               groupFilter := ← groupFilter, members := ← members, order := ← order
               limit := ← limit, offset := ← offset, params := ← params }) = some q) :
    columns = some q.columns ∧ distinct = some q.distinct ∧ selectOption = some q.selectOption ∧
      tables = some q.tables ∧ joins = some q.joins ∧ filter = some q.filter ∧ groups = some q.groups ∧
      groupFilter = some q.groupFilter ∧ members = some q.members ∧ order = some q.order ∧
      limit = some q.limit ∧ offset = some q.offset ∧ params = some q.params ∧ q.home = none := by
  -- one clause after the other: with all of them at once the search for their values does not end
  obtain ⟨columns,rfl,h₁⟩ := Option.bind_eq_some_iff.mp h
  obtain ⟨distinct,rfl,h₂⟩ := Option.bind_eq_some_iff.mp h₁
  obtain ⟨selectOption,rfl,h₃⟩ := Option.bind_eq_some_iff.mp h₂
  obtain ⟨tables,rfl,h₄⟩ := Option.bind_eq_some_iff.mp h₃
  obtain ⟨joins,rfl,h₅⟩ := Option.bind_eq_some_iff.mp h₄
  obtain ⟨filter,rfl,h₆⟩ := Option.bind_eq_some_iff.mp h₅
  obtain ⟨groups,rfl,h₇⟩ := Option.bind_eq_some_iff.mp h₆
  obtain ⟨groupFilter,rfl,h₈⟩ := Option.bind_eq_some_iff.mp h₇
  obtain ⟨members,rfl,h₉⟩ := Option.bind_eq_some_iff.mp h₈
  obtain ⟨order,rfl,h₁₀⟩ := Option.bind_eq_some_iff.mp h₉
  obtain ⟨limit,rfl,h₁₁⟩ := Option.bind_eq_some_iff.mp h₁₀
  obtain ⟨offset,rfl,h₁₂⟩ := Option.bind_eq_some_iff.mp h₁₁
  obtain ⟨params,rfl,h₁₃⟩ := Option.bind_eq_some_iff.mp h₁₂
  cases h₁₃
  simp

/-- A query holds values of the realm if all its clauses and parameters do. -/
theorem made_of_clauses {q : Query} (hcolumns : R.value n (.list (q.columns.map Item.toValue)))
    (htables : R.value n (.list (q.tables.map Item.toValue))) (hjoins : R.value n (.list q.joins))
    (hfilter : R.value n q.filter) (hgroups : R.value n (.list (q.groups.map Item.toValue)))
    (hgroupFilter : R.value n q.groupFilter) (hmembers : R.value n (.list (q.members.map Member.toValue)))
    (horder : ∀ e ∈ q.order, R.value n e.2.toValue) (hparams : R.Has n q.params) : q.Made (R.value n) := by
  have hoption : ∀ {γ : Type} {f : γ → Value} (o : Option γ), (∀ a, R.value n (f a)) →
      R.value n ((o.map f).getD .null) := by
    intro γ f o hf
    cases o with
    | none => exact R.null _
    | some a => exact hf a
  refine ⟨fun f hf => ?_,hparams⟩
  simp only [fields,List.mem_cons,List.not_mem_nil,or_false] at hf
  rcases hf with rfl | rfl | rfl | rfl | rfl | rfl | rfl | rfl | rfl | rfl | rfl | rfl | rfl
  · exact hcolumns
  · exact R.bool _ _
  · exact hoption q.selectOption (R.text _)
  · exact htables
  · exact hjoins
  · exact hfilter
  · exact hgroups
  · exact hgroupFilter
  · exact hmembers
  · exact SortKey.value_order horder
  · exact hoption q.limit (R.int _)
  · exact hoption q.offset (R.int _)
  · exact R.null _

/-- A query that is read holds values of the realm, in normal form. -/
theorem brings_ofEntries {nested : Entries → Reading (Option Nat)} (hnested : R.Nests nested) (hes : R.Has n es) :
    Brings R n (ofEntries nested es) (fun n' r => ∀ q, r = .ok q → q.Made (R.value n') ∧ q.IsNew) := by
  have hitems : ∀ name n', n ≤ n' → Brings R n' (readClause es name [] Item.readAll)
      (fun n' o => ∀ l, o = some l → R.value n' (.list (l.map Item.toValue))) :=
    fun name n' hn => brings_readClause (hes.more hn) (R.list (by simp)) (fun _ hv => Item.brings_readAll hv)
  have hvalue : ∀ name n', n ≤ n' → Brings R n' (readClause es name .null (fun v => pure (some v)))
      (fun n' o => ∀ v, o = some v → R.value n' v) :=
    fun name n' hn => brings_readClause (hes.more hn) (R.null n') (fun v hv => .pure (by rintro _ ⟨⟩; exact hv))
  have hplain : ∀ {γ : Type} {name : String} {absent : γ} {read : Value → Option γ} {n' : Nat},
      Brings R n' (readClause es name absent (fun v => pure (read v))) (fun _ _ => True) := by
    intro γ name absent read n'
    unfold readClause
    split <;> exact .pure trivial
  unfold ofEntries
  refine .bind (hitems _ n (Nat.le_refl n)) (fun n₁ columns h₁ hcolumns => ?_)
  refine .bind hplain (fun n₂ distinct h₂ _ => ?_)
  refine .bind hplain (fun n₃ selectOption h₃ _ => ?_)
  refine .bind (hitems _ n₃ (by omega)) (fun n₄ tables h₄ htables => ?_)
  refine .bind (brings_readClause (P := fun n' l => R.value n' (.list l)) (hes.more (by omega)) (R.list (by simp))
    (fun v hv => Reading.brings_listed hv)) (fun n₅ joins h₅ hjoins => ?_)
  refine .bind (hvalue _ n₅ (by omega)) (fun n₆ filter h₆ hfilter => ?_)
  refine .bind (hitems _ n₆ (by omega)) (fun n₇ groups h₇ hgroups => ?_)
  refine .bind (hvalue _ n₇ (by omega)) (fun n₈ groupFilter h₈ hgroupFilter => ?_)
  refine .bind (brings_readClause (P := fun n' l => R.value n' (.list (l.map Member.toValue))) (hes.more (by omega))
    (R.list (by simp)) (fun v hv => Member.brings_readAll hnested hv)) (fun n₉ members h₉ hmembers => ?_)
  refine .bind (brings_readClause (P := fun n' l => (∀ e ∈ l, R.value n' e.2.toValue) ∧ (l.map (·.1)).Nodup)
    (hes.more (by omega)) (by simp) (fun v hv => ?_)) (fun n₁₀ order h₁₀ horder => ?_)
  · refine .ofMemory (fun m hm hn o ho => ?_)
    subst hn
    rintro l rfl
    exact ⟨SortKey.value_readAll hm hv ho,SortKey.nodup_readAll ho⟩
  refine .bind hplain (fun n₁₁ limit h₁₁ _ => ?_)
  refine .bind hplain (fun n₁₂ offset h₁₂ _ => ?_)
  refine .bind (brings_readClause (P := fun n' l => R.Has n' l ∧ l.Normal) (hes.more (by omega))
    ⟨by simp [Realm.Has],[],by simp,rfl⟩ (fun v hv => ?_)) (fun n₁₃ params h₁₃ hparams => ?_)
  · refine .ofMemory (fun m hm hn o ho => ?_)
    subst hn
    cases ho
    exact fun l hl => ⟨Value.has_readParams hm hv hl,Value.normal_readParams hl⟩
  refine .get (fun m _ _ => .pure (fun q hq => ?_))
  obtain ⟨rfl,-,-,rfl,rfl,rfl,rfl,rfl,rfl,rfl,-,-,rfl,hhome⟩ := clauses_of_some (Checked.eq_of_ofFields hq)
  refine ⟨?_,⟨⟨(horder _ rfl).2,(hparams _ rfl).2⟩,hhome⟩⟩
  exact made_of_clauses (R.more (by omega) (hcolumns _ rfl)) (R.more (by omega) (htables _ rfl))
    (R.more (by omega) (hjoins _ rfl)) (R.more (by omega) (hfilter _ rfl)) (R.more (by omega) (hgroups _ rfl))
    (R.more (by omega) (hgroupFilter _ rfl)) (R.more (by omega) (hmembers _ rfl))
    (fun e he => R.more (by omega) ((horder _ rfl).1 e he)) (hparams _ rfl).1

theorem brings_allocate {q : Query} (hq : q.Made (R.value n) ∧ q.IsNew) :
    Brings R n (allocate q) (fun n' c => R.value n' (.query c)) := by
  rintro m hm rfl
  obtain ⟨hmemory,hvalue⟩ := R.add hm hq.1 hq.2
  have hsize : (m.addQuery q).2.queries.size = m.queries.size + 1 := Array.size_push _
  refine ⟨hmemory,hsize ▸ Nat.le_succ _,?_⟩
  rintro c ⟨⟩
  exact hsize ▸ hvalue

theorem brings_readNested (levels : Nat) : R.Nests (readNested levels) := by
  induction levels with
  | zero => exact fun n es _ => .pure nofun
  | succ levels ih =>
    intro n es hes
    unfold readNested
    refine .bind (brings_ofEntries ih hes) (fun n' r _ hr => ?_)
    cases r with
    | ok q => exact .map (brings_allocate (hr q rfl)) (by rintro _ c _ hc _ ⟨⟩; exact hc)
    | error names => exact .pure nofun

end Query

end SqlCompose
