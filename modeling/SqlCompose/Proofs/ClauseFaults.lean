import SqlCompose.Proofs.QueryFaults

/-! # Clauses that are read from plain data

An item of a clause may be a mapping that stands for an expression. A mapping that cannot stand for one is a misuse, and
no other fault comes of reading clauses from plain data: what cannot be read otherwise is reported by name.
-/
namespace SqlCompose

variable {m m' : Memory} {v : Value} {es : Entries} {α β : Type}

def Entries.NamesExpression (es : Entries) : Prop := es.field? "self" = none ∧ (es.field? "text").isSome

def Value.ReadsAsItem (v : Value) : Prop := ∀ es : Entries, v = .mapping es → es.NamesExpression

def Gathers (m : Memory) (p : Reading α) (W : Prop) (P : Memory → α → Prop) : Prop :=
  m.Later (p.runOn m).2 ∧ (∀ a, (p.runOn m).1 = .ok a → P (p.runOn m).2 a) ∧
    ∀ f, (p.runOn m).1 = .error f → f = .misuse .wrongType ∧ ¬ W

namespace Gathers
variable {p : Reading α} {f : α → Reading β} {W W' : Prop} {P : Memory → α → Prop} {Q : Memory → β → Prop}

theorem pure {a : α} (h : P m a) : Gathers m (Pure.pure a) W P := by
  refine ⟨.refl _,?_,nofun⟩
  rintro b ⟨⟩
  exact h

theorem bind (hp : Gathers m p W P) (hf : ∀ m' a, m.Later m' → P m' a → Gathers m' (f a) W Q) :
    Gathers m (p >>= f) W Q := by
  obtain ⟨hl,hr,he⟩ := hp
  unfold Gathers
  rw [Reading.runOn_bind]
  revert hl hr he
  rcases p.runOn m with ⟨x | a,m'⟩
  · intro hl _ he
    exact ⟨hl,nofun,fun g hg => he g (by simpa using hg)⟩
  · intro hl hr _
    obtain ⟨hl',hr',he'⟩ := hf m' a hl (hr a rfl)
    exact ⟨hl.trans hl',hr',he'⟩

theorem map {g : α → β} (hp : Gathers m p W P) (hg : ∀ m' a, P m' a → Q m' (g a)) : Gathers m (do return g (← p)) W Q :=
  hp.bind (fun m' a _ h => pure (hg m' a h))

theorem weaken {P' : Memory → α → Prop} (hp : Gathers m p W P) (h : ∀ m a, P m a → P' m a) : Gathers m p W P' :=
  ⟨hp.1,fun a ha => h _ a (hp.2.1 a ha),hp.2.2⟩

theorem of_imp (hp : Gathers m p W P) (h : W' → W) : Gathers m p W' P :=
  ⟨hp.1,hp.2.1,fun f hf => ⟨(hp.2.2 f hf).1,fun hw => (hp.2.2 f hf).2 (h hw)⟩⟩

theorem get {f : Memory → Reading β} (h : Gathers m (f m) W Q) : Gathers m (MonadState.get >>= f) W Q := by
  unfold Gathers
  rw [Reading.runOn_bind,Reading.runOn_get]
  exact h

theorem ofMemory {read : Memory → Except Fault α} (hr : ∀ a, read m = .ok a → P m a)
    (he : ∀ f, read m = .error f → f = .misuse .wrongType ∧ ¬ W) : Gathers m (Reading.ofMemory read) W P := by
  unfold Reading.ofMemory
  refine get ?_
  cases h : read m with
  | ok a => exact pure (hr a h)
  | error f =>
    refine ⟨.refl _,nofun,?_⟩
    rintro _ ⟨⟩
    exact he f h

/-- What has been read stays as it is while the rest is read. -/
theorem mapM {R : Memory → α → β → Prop} {l : List α} {f : α → Reading β}
    (hk : ∀ {m m' a b}, m.Later m' → R m a b → R m' a b)
    (h : ∀ a ∈ l, ∀ m', m.Later m' → Gathers m' (f a) W (fun m b => R m a b)) :
    Gathers m (l.mapM f) W (fun m => List.Forall₂ (R m) l) := by
  induction l generalizing m with
  | nil =>
    rw [List.mapM_nil]
    exact pure .nil
  | cons a l ih =>
    rw [List.mapM_cons]
    refine (h a (.head _) m (.refl _)).bind (fun m' b hm hb => ?_)
    refine (ih (fun a ha m'' hm' => h a (.tail _ ha) m'' (hm.trans hm'))).bind (fun m'' bs hm' hbs => ?_)
    exact pure (.cons (hk hm' hb) hbs)

end Gathers

namespace Reading

/-- Of plain data only a list has items that are gone through. -/
theorem gathers_each {W : Prop} {f : Value → Reading α} {R : Memory → Value → α → Prop} (hv : v.IsJson)
    (hk : ∀ {m m' w a}, m.Later m' → R m w a → R m' w a)
    (h : ∀ l, v = .list l → ∀ w ∈ l, ∀ m', m.Later m' → Gathers m' (f w) W (fun m a => R m w a)) :
    Gathers m (each f v) W (fun m o => (∀ as, o = some as → ∃ l, v = .list l ∧ List.Forall₂ (R m) l as) ∧
      ∀ l, v = .list l → ∃ as, o = some as ∧ List.Forall₂ (R m) l as) := by
  unfold each
  refine .get ?_
  cases hv with
  | @list items hi =>
    refine (Gathers.mapM (R := R) hk (h items rfl)).map (fun m' as has => ⟨?_,?_⟩)
    · rintro _ ⟨⟩
      exact ⟨items,rfl,has⟩
    · rintro _ ⟨⟩
      exact ⟨as,rfl,has⟩
  | _ => exact .pure ⟨nofun,nofun⟩

end Reading

namespace Record

theorem areArguments_of_isJson (hv : (Value.mapping es).IsJson) : es.areArguments := by
  cases hv with
  | mapping hk _ =>
    refine List.all_eq_true.mpr (fun k hk' => ?_)
    obtain ⟨e,he,rfl⟩ := List.mem_map.mp hk'
    obtain ⟨t,ht⟩ := hk e he
    rw [ht]
    rfl

/-- A mapping that cannot stand for an expression is misused where an expression can stand. -/
theorem expressionOfEntries_error (hv : (Value.mapping es).IsJson) {x : Fault}
    (h : expressionOfEntries m es = .error x) :
    x = .misuse .wrongType ∧ ¬ es.NamesExpression := by
  unfold expressionOfEntries at h
  rw [areArguments_of_isJson hv] at h
  split at h
  · cases h
  · next hno =>
    cases h
    refine ⟨rfl,?_⟩
    rintro ⟨hself,htext⟩
    obtain ⟨t,ht⟩ := Option.isSome_iff_exists.mp htext
    exact hno t (by simp [hself]) ht

theorem namesExpression_of_ok {o : Option (String × Entries)} (h : expressionOfEntries m es = .ok o) :
    es.NamesExpression := by
  unfold expressionOfEntries at h
  split at h
  · next text hno ht =>
    have hself : (es.field? "self").isNone := by
      have hboth := hno
      simp only [Bool.and_eq_true] at hboth
      exact hboth.2
    exact ⟨Option.isNone_iff_eq_none.mp hself,by rw [ht]; rfl⟩
  · cases h

variable {γ : Type} {g : String × Entries → γ}

theorem misuse_of_map (hv : (Value.mapping es).IsJson) {x : Fault}
    (h : (expressionOfEntries m es).map (Option.map g) = .error x) : x = .misuse .wrongType ∧ ¬ es.NamesExpression := by
  cases hx : expressionOfEntries m es with
  | ok o =>
    rw [hx] at h
    cases h
  | error y =>
    rw [hx] at h
    cases h
    exact expressionOfEntries_error hv hx

theorem namesExpression_of_map {o : Option γ} (h : (expressionOfEntries m es).map (Option.map g) = .ok o) :
    es.NamesExpression := by
  cases hx : expressionOfEntries m es with
  | ok o => exact namesExpression_of_ok hx
  | error y =>
    rw [hx] at h
    cases h

end Record

namespace Item

theorem read_error (hv : v.IsJson) {x : Fault} (h : read m v = .error x) :
    x = .misuse .wrongType ∧ ¬ v.ReadsAsItem := by
  cases hv with
  | null | bool | int | float | text | list => cases h
  | @mapping es hk hv =>
    obtain ⟨hx,hno⟩ := Record.misuse_of_map (g := fun e => Item.expression e.1 e.2) (.mapping hk hv) h
    exact ⟨hx,fun hr => hno (hr es rfl)⟩

theorem readsAsItem_of_ok {o : Option Item} (h : read m v = .ok o) : v.ReadsAsItem := by
  rintro es rfl
  exact Record.namesExpression_of_map (g := fun e => Item.expression e.1 e.2) h

theorem gathers_read {W : Prop} (hv : v.IsJson) (hW : W → v.ReadsAsItem) :
    Gathers m (Reading.ofMemory (fun m => read m v)) W (fun _ _ => v.ReadsAsItem) :=
  .ofMemory (fun _ h => readsAsItem_of_ok h) (fun _ h => ⟨(read_error hv h).1,fun hw => (read_error hv h).2 (hW hw)⟩)

theorem isText_of_mem_ofText {t : String} (h : v ∈ ofText t) : v.IsText := by
  unfold ofText at h
  split at h
  · exact ⟨t,List.mem_singleton.mp h⟩
  · obtain ⟨name,-,rfl⟩ := List.mem_map.mp h
    exact ⟨name,rfl⟩

theorem gathers_readAll {W : Prop} (hv : v.IsJson) (hW : W → ∀ l, v = .list l → ∀ w ∈ l, w.ReadsAsItem) :
    Gathers m (readAll v) W (fun _ _ => ∀ l, v = .list l → ∀ w ∈ l, w.ReadsAsItem) := by
  by_cases ht : v.IsText
  · obtain ⟨t,rfl⟩ := ht
    have hitems : Gathers m ((ofText t).mapM (fun v => Reading.ofMemory (fun m => read m v))) W
        (fun _ => List.Forall₂ (fun _ _ => True) (ofText t)) := by
      refine .mapM (R := fun _ _ _ => True) (fun _ _ => trivial) (fun w hw m' _ => ?_)
      obtain ⟨name,rfl⟩ := isText_of_mem_ofText hw
      exact (gathers_read (.text name) (fun _ => by rintro es ⟨⟩)).weaken (fun _ _ _ => trivial)
    exact hitems.map (fun _ _ _ => by rintro l ⟨⟩)
  have heach : readAll v =
      (do return (← Reading.each (fun v => Reading.ofMemory (fun m => read m v)) v).bind (List.mapM id)) := by
    cases hv with
    | text t => exact absurd ⟨t,rfl⟩ ht
    | _ => rfl
  rw [heach]
  have hread : ∀ l, v = .list l → ∀ w ∈ l, ∀ m', m.Later m' →
      Gathers m' (Reading.ofMemory (fun m => read m w)) W (fun _ _ => w.ReadsAsItem) := by
    rintro l rfl w hw m' -
    cases hv with
    | list h => exact gathers_read (h w hw) (fun hw' => hW hw' l rfl w hw)
  refine (Reading.gathers_each (R := fun _ w _ => w.ReadsAsItem) hv (fun _ h => h) hread).map (fun m' o ho l hl => ?_)
  obtain ⟨bs,-,hbs⟩ := ho.2 l hl
  intro w hw
  obtain ⟨_,-,hw⟩ := exists_right hbs hw
  exact hw

end Item

namespace SortKey

theorem read_error (hv : v.IsJson) {x : Fault} (h : read m v = .error x) :
    x = .misuse .wrongType ∧ ¬ v.ReadsAsItem := by
  cases hv with
  | null | bool | int | float | text | list => cases h
  | @mapping es hk hv =>
    obtain ⟨hx,hno⟩ := Record.misuse_of_map (g := fun e => SortKey.expression e.1 e.2) (.mapping hk hv) h
    exact ⟨hx,fun hr => hno (hr es rfl)⟩

theorem readsAsItem_of_ok {o : Option SortKey} (h : read m v = .ok o) : v.ReadsAsItem := by
  rintro es rfl
  exact Record.namesExpression_of_map (g := fun e => SortKey.expression e.1 e.2) h

theorem mapM_cases {f : α → Except Fault β} {l : List α} :
    (∃ bs, l.mapM f = .ok bs ∧ ∀ a ∈ l, ∃ b, f a = .ok b) ∨ ∃ x, l.mapM f = .error x ∧ ∃ a ∈ l, f a = .error x := by
  induction l with
  | nil => exact .inl ⟨[],rfl,by simp⟩
  | cons a l ih =>
    rw [List.mapM_cons]
    cases ha : f a with
    | error x => exact .inr ⟨x,rfl,a,.head _,ha⟩
    | ok b =>
      rcases ih with ⟨bs,hbs,hall⟩ | ⟨x,hx,a',ha',hfa⟩
      · refine .inl ⟨b :: bs,by rw [hbs]; rfl,List.forall_mem_cons.mpr ⟨⟨b,ha⟩,hall⟩⟩
      · exact .inr ⟨x,by rw [hx]; rfl,a',.tail _ ha',hfa⟩

theorem gathers_readAll {W : Prop} (hv : v.IsJson) (hW : W → ∀ l, v = .mapping l → ∀ e ∈ l, e.2.ReadsAsItem) :
    Gathers m (Reading.ofMemory (fun m => readAll m v)) W
      (fun _ _ => ∀ l, v = .mapping l → ∀ e ∈ l, e.2.ReadsAsItem) := by
  cases hv with
  | null | bool | int | float | text | list => exact .ofMemory (fun _ _ => by rintro l ⟨⟩) nofun
  | @mapping es hk hv =>
    have hread : readAll m (.mapping es) = (do return ((← es.mapM (readEntry m)).mapM id).map (Text.putAll [])) := rfl
    have hentry : ∀ {e x}, readEntry m e = .error x → read m e.2 = .error x := by
      intro e x h
      unfold readEntry at h
      cases hr : read m e.2 with
      | ok k =>
        rw [hr] at h
        cases h
      | error y =>
        rw [hr] at h
        cases h
        rfl
    have hentry' : ∀ {e o}, readEntry m e = .ok o → e.2.ReadsAsItem := by
      intro e o h
      unfold readEntry at h
      cases hr : read m e.2 with
      | ok k => exact readsAsItem_of_ok hr
      | error y =>
        rw [hr] at h
        cases h
    rcases mapM_cases (f := readEntry m) (l := es) with ⟨keys,hkeys,hall⟩ | ⟨x,hx,e,he,hex⟩
    · refine .ofMemory (fun a _ => ?_) (fun f hf => ?_)
      · rintro _ ⟨⟩ e he
        obtain ⟨o,ho⟩ := hall e he
        exact hentry' ho
      · rw [hread,hkeys] at hf
        cases hf
    · refine .ofMemory (fun a ha => ?_) (fun f hf => ?_)
      · rw [hread,hx] at ha
        cases ha
      · rw [hread,hx] at hf
        cases hf
        obtain ⟨hf,hno⟩ := read_error (hv e he) (hentry hex)
        exact ⟨hf,fun hw => hno (hW hw es rfl e he)⟩

end SortKey

end SqlCompose
