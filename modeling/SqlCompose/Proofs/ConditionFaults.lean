import SqlCompose.Proofs.BuildFrame
import SqlCompose.Proofs.Mirror
import SqlCompose.Proofs.ReadingFrame
import SqlCompose.Proofs.Tests

/-! # Faults of plain data

A value of a JSON text can stand where it has no meaning: a number or a list as a column, a list as the key of a row.
What is asked of the values in such places is called order. A condition over plain data is written only if it is in
order, and if it is, then nothing but a fault of compilation can come of it.
-/
namespace SqlCompose
open Build Condition

variable {m m' m'' : Memory} {s : Setting} {d e : Draft} {v w : Value} {es : Entries} {α β : Type}

/-! ## Kinds of faults -/

namespace Fault

def isParsing : Fault → Bool
  | .badJson .. | .invalidQuery .. => true
  | _ => false

def isCompilation : Fault → Bool
  | .badJson .. | .invalidQuery .. | .invalidRecord .. | .misuse _ => false
  | _ => true

end Fault

/-! ## Order -/

def Value.members? : Value → Option (List Value)
  | .list items => some items
  | .mapping es => some (Entries.keys es)
  | _ => none

def Value.NamesColumn (dialect : Dialect) (v : Value) : Prop :=
  v.IsText ∨ ∃ items, v.members? = some items ∧
    (.text "(" ∈ items ∨ (dialect.quote = none ∧ .text "." ∉ items))

def Value.IsMapping (v : Value) : Prop := ∃ es, v = .mapping es

def Value.alternatives : Value → List Value
  | .list items => items
  | v => [v]

namespace Condition

def OrderlyColumns (dialect : Dialect) (columns values : List Value) : Prop :=
  values = [] ∨ ∀ c ∈ columns, c.NamesColumn dialect ∧
    ((1 < columns.length ∨ ∃ v ∈ values, v.IsMapping) → c.IsText)

def Test.Orderly (dialect : Dialect) : Test → Prop
  | .operation (.member _) [column, values] =>
    OrderlyColumns dialect ((columns? column).getD [column]) values.alternatives
  | .operation (.like _ _) [column, values] => values.alternatives = [] ∨ column.NamesColumn dialect
  | .operation (.compare _) [column, _] => column.NamesColumn dialect
  | .operation (.between _) [column, _, _] => column.NamesColumn dialect
  | _ => True

def Orderly (dialect : Dialect) (v : Value) : Prop := ∀ t ∈ tests v, t.Orderly dialect

end Condition

/-! ## Later memories -/

structure Memory.Later (m m' : Memory) : Prop where
  size : m.queries.size ≤ m'.queries.size
  query : ∀ c < m.queries.size, ∃ es, m'.query c = { m.query c with params := es }

namespace Memory.Later

theorem refl (m : Memory) : m.Later m := ⟨Nat.le_refl _,fun _ _ => ⟨_,rfl⟩⟩

theorem trans (h : m.Later m') (h' : m'.Later m'') : m.Later m'' := by
  refine ⟨h.size.trans h'.size,fun c hc => ?_⟩
  obtain ⟨es,he⟩ := h.query c hc
  obtain ⟨es',he'⟩ := h'.query c (Nat.lt_of_lt_of_le hc h.size)
  exact ⟨es',by rw [he',he]⟩

theorem setMapping (m : Memory) (home : Home) (es : Entries) : m.Later (m.setMapping home es) := by
  refine ⟨?_,fun c _ => m.query_setMapping home c es⟩
  cases home <;> simp [Memory.setMapping,Memory.setParams]

theorem addQuery (m : Memory) (q : Query) : m.Later (m.addQuery q).2 := by
  refine ⟨by simp [Memory.addQuery],fun c hc => ⟨(m.query c).params,?_⟩⟩
  simp only [Memory.addQuery,Memory.query,Array.getD_eq_getD_getElem?,Array.getElem?_push]
  rw [if_neg (Nat.ne_of_lt hc)]

end Memory.Later

/-! ## Steps that rest on a condition -/

def RestsOn (m : Memory) (p : Build α) (W : Prop) (R : α → Prop) : Prop :=
  ∀ d, m.Later d.memory → d.memory.Later (p.runOn d).2.memory ∧ (∀ a, (p.runOn d).1 = .ok a → W ∧ R a) ∧
    ∀ f, (p.runOn d).1 = .error f → W → f.isCompilation

namespace RestsOn
variable {p : Build α} {f : α → Build β} {W W' : Prop} {R R' : α → Prop} {Q : β → Prop}

theorem pure {a : α} (h : R a) : RestsOn m (Pure.pure a) True R := by
  intro d _
  refine ⟨.refl _,?_,nofun⟩
  rintro b ⟨⟩
  exact ⟨trivial,h⟩

theorem fail {x : Fault} (h : x.isCompilation) : RestsOn m (Build.fail x : Build α) W R := by
  intro d _
  refine ⟨.refl _,nofun,?_⟩
  rintro _ ⟨⟩ _
  exact h

/-- A step that fails where it is, since what it rests on does not hold. -/
theorem misused {x : Fault} (h : ∀ d, p.runOn d = (.error x,d)) (hW : ¬ W) : RestsOn m p W R := by
  intro d _
  rw [h d]
  exact ⟨.refl _,nofun,fun _ _ hw => absurd hw hW⟩

/-- A step that succeeds where the memory stays. -/
theorem done {a : α} (h : ∀ d, ∃ e, p.runOn d = (.ok a,e) ∧ e.memory = d.memory) (ha : R a) : RestsOn m p True R := by
  intro d _
  obtain ⟨e,he,hm⟩ := h d
  rw [he]
  refine ⟨hm ▸ .refl _,?_,nofun⟩
  rintro b ⟨⟩
  exact ⟨trivial,ha⟩

theorem bind (hp : RestsOn m p W R) (hf : W → ∀ a, R a → RestsOn m (f a) W' Q) :
    RestsOn m (p >>= f) (W ∧ W') Q := by
  intro d hd
  obtain ⟨hl,hr,he⟩ := hp d hd
  rw [runOn_bind]
  revert hl hr he
  rcases p.runOn d with ⟨x | a,d'⟩
  · intro hl _ he
    exact ⟨hl,nofun,fun g hg hw => he g (by simpa using hg) hw.1⟩
  · intro hl hr _
    obtain ⟨hw,ha⟩ := hr a rfl
    obtain ⟨hl',hr',he'⟩ := hf hw a ha d' (hd.trans hl)
    exact ⟨hl.trans hl',fun b hb => ⟨⟨hw,(hr' b hb).1⟩,(hr' b hb).2⟩,fun g hg hw => he' g hg hw.2⟩

theorem of_iff (hp : RestsOn m p W R) (h : W' ↔ W) : RestsOn m p W' R :=
  fun d hd => ⟨(hp d hd).1,fun a ha => ⟨h.mpr ((hp d hd).2.1 a ha).1,((hp d hd).2.1 a ha).2⟩,
    fun f hf hw => (hp d hd).2.2 f hf (h.mp hw)⟩

theorem weaken (hp : RestsOn m p W R) (h : ∀ a, R a → R' a) : RestsOn m p W R' :=
  fun d hd => ⟨(hp d hd).1,fun a ha => ⟨((hp d hd).2.1 a ha).1,h a ((hp d hd).2.1 a ha).2⟩,(hp d hd).2.2⟩

theorem later (hp : RestsOn m p W R) (h : m.Later m') : RestsOn m' p W R := fun d hd => hp d (h.trans hd)

/-- A step after which only something is put together. -/
theorem andThen (hp : RestsOn m p W R) (hf : W → ∀ a, R a → RestsOn m (f a) True Q) : RestsOn m (p >>= f) W Q :=
  (hp.bind hf).of_iff (by simp)

/-- A step before which nothing can go wrong. -/
theorem after (hp : RestsOn m p True R) (hf : ∀ a, R a → RestsOn m (f a) W Q) : RestsOn m (p >>= f) W Q :=
  (hp.bind (fun _ => hf)).of_iff (by simp)

theorem map {g : α → β} (hp : RestsOn m p W R) (hg : ∀ a, R a → Q (g a)) : RestsOn m (do return g (← p)) W Q :=
  hp.andThen (fun _ a ha => pure (hg a ha))

theorem view {f : Memory → Build β} (h : ∀ seen, RestsOn m (f seen) W Q) : RestsOn m (Build.view s >>= f) W Q := by
  intro d hd
  rw [runOn_bind,runOn_view]
  exact h _ d hd

theorem mapM {l : List α} {f : α → Build β} {W : α → Prop} {R : α → β → Prop}
    (h : ∀ a ∈ l, RestsOn m (f a) (W a) (R a)) :
    RestsOn m (l.mapM f) (∀ a ∈ l, W a) (List.Forall₂ R l) := by
  induction l with
  | nil =>
    rw [List.mapM_nil]
    exact (pure .nil).of_iff (by simp)
  | cons a l ih =>
    rw [List.mapM_cons]
    have hrest := ih (fun a ha => h a (.tail _ ha))
    refine ((h a (.head _)).bind (fun _ b hb => hrest.map (fun bs hbs => ?_))).of_iff List.forall_mem_cons
    exact .cons hb hbs

/-- Steps none of which can go wrong. -/
theorem each {l : List α} {f : α → Build β} (h : ∀ a ∈ l, RestsOn m (f a) True (fun _ => True)) :
    RestsOn m (l.mapM f) True (fun _ => True) :=
  ((mapM (R := fun _ _ => True) h).of_iff (by simp)).weaken (fun _ _ => trivial)

end RestsOn

theorem exists_right {R : α → β → Prop} {l : List α} {bs : List β} {a : α} (h : List.Forall₂ R l bs) (ha : a ∈ l) :
    ∃ b ∈ bs, R a b := by
  induction h with
  | nil => cases ha
  | cons hab _ ih =>
    rcases List.mem_cons.mp ha with rfl | ha
    · exact ⟨_,.head _,hab⟩
    · obtain ⟨b,hb,hr⟩ := ih ha
      exact ⟨b,.tail _ hb,hr⟩

theorem exists_left {R : α → β → Prop} {l : List α} {bs : List β} {b : β} (h : List.Forall₂ R l bs) (hb : b ∈ bs) :
    ∃ a ∈ l, R a b := by
  obtain ⟨a,ha,hr⟩ := exists_right h.flip hb
  exact ⟨a,ha,hr⟩

/-! ## Names -/

namespace Value.IsJson

theorem text?_eq (hv : v.IsJson) {t : String} : v.text? = some t ↔ v = .text t := by
  cases hv <;> simp [Value.text?]

theorem key_isText {k : Value} (hv : (Value.mapping es).IsJson) (hk : k ∈ es.keys) : k.IsText := by
  cases hv with
  | mapping hkeys _ =>
    obtain ⟨e,he,rfl⟩ := List.mem_map.mp hk
    exact hkeys e he

theorem members {items : List Value} (hv : v.IsJson) (hi : v.members? = some items) : ∀ w ∈ items, w.IsJson := by
  cases hv with
  | list h =>
    cases hi
    exact h
  | mapping hk h =>
    cases hi
    intro w hw
    obtain ⟨t,rfl⟩ := key_isText (.mapping hk h) hw
    exact .text t
  | _ => cases hi

/-- Whether one of the items is a certain text. -/
theorem any_text {items : List Value} (h : ∀ w ∈ items, w.IsJson) (t : String) :
    items.any (fun item => item.text? == some t) = true ↔ .text t ∈ items := by
  rw [List.any_eq_true]
  constructor
  · rintro ⟨w,hw,ht⟩
    rw [← (h w hw).text?_eq.mp (by simpa using ht)]
    exact hw
  · exact fun hm => ⟨_,hm,by simp [Value.text?]⟩

theorem isKey_of_isText (h : v.IsText) : v.isKey := by
  obtain ⟨t,rfl⟩ := h
  rfl

/-- What stands for a column and can be a key is a text. -/
theorem isText_of_isKey {dialect : Dialect} (hk : v.isKey) (hn : v.NamesColumn dialect) : v.IsText := by
  rcases hn with h | ⟨items,hi,-⟩
  · exact h
  · cases v with
    | list | mapping => cases hk
    | _ => cases hi

end Value.IsJson

namespace Build

theorem restsOn_rendered (hb : s.Binds) : RestsOn m (rendered s v) True (fun _ => True) := by
  unfold rendered
  split
  · next sql params =>
    refine .done (a := [.text sql]) (fun d => ⟨d.adopted params,?_,rfl⟩) trivial
    rw [runOn_bind,runOn_adopt hb]
    rfl
  · have hvalue : ∀ w, RestsOn m (bindValue s w) True (fun _ => True) := by
      intro w d _
      rw [runOn_bindValue hb]
      exact ⟨.refl _,fun _ _ => ⟨trivial,trivial⟩,nofun⟩
    exact (hvalue _).map (fun _ _ => trivial)

/-- What a list or a mapping holds is told without looking at the memory. -/
theorem runOn_holds {items : List Value} (hi : v.members? = some items) (c : Char) (d : Draft) :
    (holds s c v).runOn d = (.ok (items.any (fun item => item.text? == some (String.singleton c))),d) := by
  cases v with
  | list | mapping =>
    cases hi
    rfl
  | _ => cases hi

theorem runOn_holds_none (hv : v.IsJson) (ht : ¬ v.IsText) (hi : v.members? = none) (c : Char) (d : Draft) :
    (holds s c v).runOn d = (.error (.misuse .wrongType),d) := by
  cases hv with
  | text t => exact absurd ⟨t,rfl⟩ ht
  | list | mapping => cases hi
  | _ => rfl

/-- A column in a place of its own, if it is not a text. -/
theorem columnName_eq (ht : ¬ v.IsText) : columnName s v = (do
    if ← holds s '(' v then shown s v
    else if ← holds s '.' v then misuse .noSuchOperation
    else
      match s.dialect.quote, v.text? with
      | none, _ => shown s v
      | some _, some name => return Sql.column name
      | some _, none => misuse .noSuchOperation) := by
  cases v with
  | text t => exact absurd ⟨t,rfl⟩ ht
  | _ => rfl

theorem restsOn_shown : RestsOn m (shown s v) True (fun _ => True) :=
  .view (fun _ => .pure trivial)

theorem not_namesColumn (ht : ¬ v.IsText) (hi : v.members? = none) {dialect : Dialect} : ¬ v.NamesColumn dialect := by
  rintro (h | ⟨items,h,-⟩)
  · exact ht h
  · rw [hi] at h
    cases h

theorem restsOn_holds {items : List Value} (hv : v.IsJson) (hi : v.members? = some items) (c : Char) :
    RestsOn m (holds s c v) True (fun b => b = true ↔ Value.text (String.singleton c) ∈ items) :=
  .done (fun d => ⟨d,runOn_holds hi c d,rfl⟩) (Value.IsJson.any_text (hv.members hi) _)

/-- What is no text is looked through for a parenthesis first; that fails if it has no members. -/
theorem restsOn_parenthesis {f : Bool → Build α} (hv : v.IsJson) (ht : ¬ v.IsText)
    (h : ∀ items, v.members? = some items → ∀ b, (b = true ↔ .text "(" ∈ items) →
      RestsOn m (f b) (v.NamesColumn s.dialect) R) : RestsOn m (holds s '(' v >>= f) (v.NamesColumn s.dialect) R := by
  cases hi : v.members? with
  | none =>
    refine .misused (x := .misuse .wrongType) (fun d => ?_) (not_namesColumn ht hi)
    rw [runOn_bind,runOn_holds_none hv ht hi]
  | some items => exact (restsOn_holds hv hi '(').after (h items hi)

theorem restsOn_columnName (hv : v.IsJson) : RestsOn m (columnName s v) (v.NamesColumn s.dialect) (fun _ => True) := by
  by_cases ht : v.IsText
  · obtain ⟨t,rfl⟩ := ht
    exact (RestsOn.pure trivial).of_iff (iff_of_true (.inl ⟨t,rfl⟩) trivial)
  rw [columnName_eq ht]
  refine restsOn_parenthesis hv ht (fun items hi b hb => ?_)
  have hnames : v.NamesColumn s.dialect ↔ .text "(" ∈ items ∨ (s.dialect.quote = none ∧ .text "." ∉ items) := by
    constructor
    · rintro (h | ⟨_,h,hc⟩)
      · exact absurd h ht
      · rw [hi] at h
        cases h
        exact hc
    · exact fun h => .inr ⟨items,hi,h⟩
  refine RestsOn.of_iff ?_ hnames
  cases b with
  | true =>
    have hm := hb.mp rfl
    exact restsOn_shown.of_iff (iff_of_true (.inl hm) trivial)
  | false =>
    have hm : .text "(" ∉ items := fun h => by cases hb.mpr h
    refine (restsOn_holds hv hi '.').after (fun b hb => ?_)
    cases b with
    | true =>
      refine .misused (x := .misuse .noSuchOperation) (fun _ => rfl) ?_
      rintro (h | ⟨-,h⟩)
      · exact hm h
      · exact h (hb.mp rfl)
    | false =>
      have hdot : .text "." ∉ items := fun h => by cases hb.mpr h
      cases hq : s.dialect.quote with
      | none => exact restsOn_shown.of_iff (iff_of_true (.inr ⟨rfl,hdot⟩) trivial)
      | some q =>
        have hnone : v.text? = none := by
          cases hv with
          | text t => exact absurd ⟨t,rfl⟩ ht
          | _ => rfl
        rw [hnone]
        refine .misused (x := .misuse .noSuchOperation) (fun _ => rfl) ?_
        rintro (h | ⟨⟨⟩,-⟩)
        exact hm h

/-- In a list of names a text gives a name. -/
theorem restsOn_listedColumn (hv : v.IsJson) :
    RestsOn m (listedColumn s v) (v.NamesColumn s.dialect) (fun o => v.IsText → o.isSome) := by
  by_cases ht : v.IsText
  · obtain ⟨t,rfl⟩ := ht
    exact (RestsOn.pure (fun _ => rfl)).of_iff (iff_of_true (.inl ⟨t,rfl⟩) trivial)
  have heq : listedColumn s v = (do if ← holds s '(' v then return none else return some (← columnName s v)) := by
    cases v with
    | text t => exact absurd ⟨t,rfl⟩ ht
    | _ => rfl
  rw [heq]
  refine restsOn_parenthesis hv ht (fun items hi b hb => ?_)
  cases b with
  | true =>
    have hn : v.NamesColumn s.dialect := .inr ⟨items,hi,.inl (hb.mp rfl)⟩
    exact (RestsOn.pure (fun h => absurd h ht)).of_iff (iff_of_true hn trivial)
  | false => exact (restsOn_columnName hv).map (fun _ _ h => absurd h ht)

theorem restsOn_nameList {names : List (Option Sql)} (h : ∀ o ∈ names, o.isSome) :
    RestsOn m (nameList names) True (fun _ => True) := by
  have hall : ∃ l, names.mapM id = some l := by
    induction names with
    | nil => exact ⟨[],rfl⟩
    | cons o names ih =>
      obtain ⟨a,rfl⟩ := Option.isSome_iff_exists.mp (h o (.head _))
      obtain ⟨l,hl⟩ := ih (fun o ho => h o (.tail _ ho))
      exact ⟨a :: l,by rw [List.mapM_cons,hl]; rfl⟩
  obtain ⟨l,hl⟩ := hall
  unfold nameList
  rw [hl]
  exact .pure trivial

end Build

/-! ## Conditions -/

namespace Condition
variable {column : Value} {columns values : List Value} {negated : Bool}

theorem alternatives_isJson (hv : v.IsJson) : ∀ w ∈ v.alternatives, w.IsJson := by
  cases hv with
  | list h => exact h
  | mapping hk h => exact List.forall_mem_singleton.mpr (.mapping hk h)
  | _ => exact List.forall_mem_singleton.mpr (by constructor)

theorem restsOn_valuesOf (hv : v.IsJson) : RestsOn m (valuesOf s v) True (fun l => l = v.alternatives) := by
  cases hv with
  | list h => exact .done (fun d => ⟨d,rfl,rfl⟩) rfl
  | _ => exact .pure rfl

theorem restsOn_field (hv : v.IsJson) :
    RestsOn m (field s column v) (v.IsMapping → column.isKey) (fun _ => True) := by
  unfold field
  refine .view (fun seen => ?_)
  cases hv with
  | @mapping es hk h =>
    dsimp only [Value.entries?]
    split
    · next hkey => exact (RestsOn.pure trivial).of_iff (iff_of_true (fun _ => hkey) trivial)
    · next hkey => exact .misused (fun _ => rfl) (fun hW => hkey (hW ⟨es,rfl⟩))
  | _ => exact (RestsOn.pure trivial).of_iff (iff_of_true (by rintro ⟨_,⟨⟩⟩) trivial)

theorem restsOn_entry (hb : s.Binds) : RestsOn m (entry s v) True (fun _ => True) := by
  unfold entry
  split
  · exact .pure trivial
  · exact restsOn_rendered hb

theorem restsOn_singleMember (hb : s.Binds) (hc : column.IsJson) (hv : ∀ v ∈ values, v.IsJson) :
    RestsOn m (singleMember s negated column values)
      ((∀ v ∈ values, v.IsMapping → column.isKey) ∧ column.NamesColumn s.dialect) (fun _ => True) := by
  unfold singleMember
  refine RestsOn.bind (.mapM (R := fun _ _ => True) (fun v h => ?_)) (fun _ entries _ => ?_)
  · exact (restsOn_field (hv v h)).andThen (fun _ _ _ => restsOn_entry hb)
  · refine (restsOn_columnName hc).andThen (fun _ name _ => ?_)
    split <;> exact .pure trivial

theorem restsOn_memberRow (hb : s.Binds) (hv : v.IsJson) :
    RestsOn m (memberRow s negated columns v) (∀ c ∈ columns, c.isKey) (fun _ => True) := by
  unfold memberRow
  refine .view (fun seen => ?_)
  split
  · exact .fail rfl
  · next es he =>
    have hm : v.IsMapping := by
      cases hv with
      | mapping => exact ⟨_,rfl⟩
      | _ => cases he
    have hcolumn : ∀ c ∈ columns, RestsOn m (do entry s (← field s c v)) (c.isKey) (fun _ => True) :=
      fun c _ => ((restsOn_field hv).of_iff (by simp [hm])).andThen (fun _ _ _ => restsOn_entry hb)
    exact (RestsOn.mapM hcolumn).map (fun _ _ => trivial)

theorem restsOn_compositeMember (hb : s.Binds) (hc : ∀ c ∈ columns, c.IsJson) (hv : ∀ v ∈ values, v.IsJson)
    (hne : values ≠ []) :
    RestsOn m (compositeMember s negated columns values) (∀ c ∈ columns, c.IsText) (fun _ => True) := by
  unfold compositeMember
  have htext : ((∀ v ∈ values, ∀ c ∈ columns, c.isKey) ∧ ∀ c ∈ columns, c.NamesColumn s.dialect) →
      ∀ c ∈ columns, c.IsText := by
    rintro ⟨hk,hn⟩ c h
    obtain ⟨v,hv⟩ := List.exists_mem_of_ne_nil values hne
    exact Value.IsJson.isText_of_isKey (hk v hv c h) (hn c h)
  refine RestsOn.of_iff (W := (∀ v ∈ values, ∀ c ∈ columns, c.isKey) ∧ ∀ c ∈ columns, c.NamesColumn s.dialect) ?_
    ⟨fun h => ⟨fun _ _ c hc => Value.IsJson.isKey_of_isText (h c hc),fun c hc => .inl (h c hc)⟩,htext⟩
  refine RestsOn.bind (.mapM (R := fun _ _ => True) (fun v h => restsOn_memberRow hb (hv v h))) (fun hk rows _ => ?_)
  refine RestsOn.andThen (.mapM (fun c h => restsOn_listedColumn (hc c h))) (fun hn names hnames => ?_)
  have hall := htext ⟨hk,hn⟩
  have hsome : ∀ o ∈ names, o.isSome := by
    intro o ho
    obtain ⟨c,hc,hsome⟩ := exists_left hnames ho
    exact hsome (hall c hc)
  exact (restsOn_nameList hsome).map (fun _ _ => trivial)

theorem columns_isJson (hc : column.IsJson) : ∀ c ∈ (columns? column).getD [column], c.IsJson := by
  cases hc with
  | list h => exact h
  | mapping hk h => exact List.forall_mem_singleton.mpr (.mapping hk h)
  | _ => exact List.forall_mem_singleton.mpr (by constructor)

/-- Under a single column values are looked up in rows. -/
theorem orderlyColumns_single {dialect : Dialect} (hne : values ≠ []) : OrderlyColumns dialect [column] values ↔
    (∀ v ∈ values, v.IsMapping → column.isKey) ∧ column.NamesColumn dialect := by
  unfold OrderlyColumns
  simp only [hne,false_or,List.mem_singleton,forall_eq,List.length_singleton,Nat.lt_irrefl]
  constructor
  · rintro ⟨hn,hrow⟩
    exact ⟨fun v hv hm => Value.IsJson.isKey_of_isText (hrow ⟨v,hv,hm⟩),hn⟩
  · rintro ⟨hk,hn⟩
    exact ⟨hn,fun ⟨v,hv,hm⟩ => Value.IsJson.isText_of_isKey (hk v hv hm) hn⟩

/-- Several columns are all looked up. -/
theorem orderlyColumns_several {dialect : Dialect} (hne : values ≠ []) (hlen : 1 < columns.length) :
    OrderlyColumns dialect columns values ↔ ∀ c ∈ columns, c.IsText := by
  unfold OrderlyColumns
  simp only [hne,hlen,false_or,true_or,true_imp_iff]
  exact ⟨fun h c hc => (h c hc).2,fun h c hc => ⟨.inl (h c hc),h c hc⟩⟩

theorem restsOn_member (hb : s.Binds) (hc : column.IsJson) (hv : v.IsJson) : RestsOn m (member s negated column v)
    (OrderlyColumns s.dialect ((columns? column).getD [column]) v.alternatives) (fun _ => True) := by
  have hcolumns := columns_isJson hc
  have hvalues := alternatives_isJson hv
  unfold member
  refine (restsOn_valuesOf hv).after (fun l hl => ?_)
  subst hl
  by_cases hempty : v.alternatives = []
  · rw [if_pos (by simpa using hempty)]
    exact (RestsOn.pure trivial).of_iff (iff_of_true (.inl hempty) trivial)
  rw [if_neg (by simpa using hempty)]
  revert hcolumns
  cases columns? column with
  | none =>
    intro hcolumns
    exact (restsOn_singleMember hb hc hvalues).of_iff (orderlyColumns_single hempty)
  | some columns =>
    intro hcolumns
    match columns with
    | [] => exact (RestsOn.pure trivial).of_iff (iff_of_true (.inr (by simp)) trivial)
    | [single] =>
      exact (restsOn_singleMember hb (hcolumns single (.head _)) hvalues).of_iff (orderlyColumns_single hempty)
    | a :: b :: rest =>
      exact (restsOn_compositeMember hb hcolumns hvalues hempty).of_iff (orderlyColumns_several hempty (by simp))

theorem restsOn_like {any : Bool} (hb : s.Binds) (hc : column.IsJson) (hv : v.IsJson) :
    RestsOn m (like s any negated column v) (v.alternatives = [] ∨ column.NamesColumn s.dialect) (fun _ => True) := by
  unfold like
  refine (restsOn_valuesOf hv).after (fun l hl => ?_)
  subst hl
  by_cases hempty : v.alternatives = []
  · rw [if_pos (by simpa using hempty)]
    exact (RestsOn.pure trivial).of_iff (iff_of_true (.inl hempty) trivial)
  rw [if_neg (by simpa using hempty)]
  refine ((restsOn_columnName hc).of_iff (or_iff_right hempty)).andThen (fun _ name _ => ?_)
  refine (RestsOn.each (fun w _ => ?_)).map (fun _ _ => trivial)
  exact (restsOn_rendered hb).map (fun _ _ => trivial)

theorem restsOn_between {low high : Value} (hb : s.Binds) (hc : column.IsJson) :
    RestsOn m (between s negated column low high) (column.NamesColumn s.dialect) (fun _ => True) := by
  unfold between
  refine (restsOn_columnName hc).andThen (fun _ _ _ => ?_)
  refine (restsOn_rendered hb).andThen (fun _ _ _ => ?_)
  exact (restsOn_rendered hb).map (fun _ _ => trivial)

theorem restsOn_comparison {c : Comparison} (hb : s.Binds) (hc : column.IsJson) :
    RestsOn m (comparison s c column v) (column.NamesColumn s.dialect) (fun _ => True) := by
  unfold comparison
  refine (restsOn_columnName hc).andThen (fun _ _ _ => ?_)
  exact (restsOn_rendered hb).map (fun _ _ => trivial)

/-- The columns of a mapping are texts. -/
theorem restsOn_pair {name : String} (hb : s.Binds) (hv : v.IsJson) :
    RestsOn m (pair s name v) True (fun _ => True) := by
  unfold pair
  split
  · have horder : OrderlyColumns s.dialect [.text name] v.alternatives :=
      .inr (List.forall_mem_singleton.mpr ⟨.inl ⟨name,rfl⟩,fun _ => ⟨name,rfl⟩⟩)
    exact (restsOn_member hb (.text name) hv).of_iff (iff_of_true trivial horder)
  · split
    · exact .pure trivial
    · exact (restsOn_rendered hb).map (fun _ _ => trivial)

theorem restsOn_pairs {named : List (String × Value)} (hb : s.Binds) (h : ∀ c ∈ named, c.2.IsJson) :
    RestsOn m (pairs s named) True (fun _ => True) := by
  unfold pairs
  refine (RestsOn.each (fun c hc => restsOn_pair hb (h c hc))).andThen (fun _ parts _ => ?_)
  split <;> exact .pure trivial

theorem isCompilation_of_ofValue {x : Fault} (h : Operator.ofValue v = .error x) : x.isCompilation := by
  unfold Operator.ofValue at h
  split at h
  · cases h
  · split at h
    · cases h
    · cases h
      rfl

theorem isCompilation_of_typed {x : Fault} (h : typed m v = .error x) : x.isCompilation := by
  unfold typed at h
  have hform : ∀ items, typedForm items = .error x → x.isCompilation := by
    intro items h
    cases items with
    | nil => cases h
    | cons head operands =>
      cases ho : Operator.ofValue head with
      | error y =>
        simp only [typedForm,ho] at h
        cases h
        exact isCompilation_of_ofValue ho
      | ok op =>
        simp only [typedForm,ho] at h
        cases h
  split at h
  iterate 4 cases h
  · exact hform _ h
  · exact hform _ h
  · split at h
    · cases h
    · unfold typedPairs at h
      split at h
      · cases h
      · split at h
        · cases h
        · cases h
          rfl
    · cases h
      rfl

theorem isJson_of_typed {named : List (String × Value)} (hv : v.IsJson) (h : typed m v = .ok (.pairs named)) :
    ∀ c ∈ named, c.2.IsJson := by
  cases hv with
  | null | bool | int | float | text => cases h
  | list => exact absurd h typedForm_ne_pairs
  | mapping _ hv => exact forall_named? (typedPairs_eq_pairs h) (fun e he _ _ => hv e he)

theorem restsOn_simple (hb : s.Binds) (hv : v.IsJson) : RestsOn m (simple s v) True (fun _ => True) := by
  unfold simple
  refine .view (fun seen => ?_)
  split
  · next hx => exact .fail (isCompilation_of_typed hx)
  · exact .pure trivial
  · next hn => exact restsOn_pairs hb (isJson_of_typed hv hn)
  · exact .pure trivial

/-- An operator over its operands rests on the tests that it is made of. -/
theorem restsOn_operate {op : Operator} {operands : List Value} {inner : Build (List Sql)} (hb : s.Binds)
    (ho : ∀ v ∈ operands, v.IsJson)
    (hi : RestsOn m inner (∀ t ∈ testsOfAll operands, t.Orderly s.dialect) (fun _ => True)) :
    RestsOn m (operate s op operands inner) (∀ t ∈ testsOf op operands (testsOfAll operands), t.Orderly s.dialect)
      (fun _ => True) := by
  have hone : ∀ {op : Operator}, op.connects = false →
      ((∀ t ∈ testsOf op operands (testsOfAll operands), t.Orderly s.dialect) ↔
        (Test.operation op operands).Orderly s.dialect) := by
    intro op hop
    simp [testsOf,hop]
  unfold operate
  split
  · exact hi.map (fun _ _ => trivial)
  · exact hi.map (fun _ _ => trivial)
  · next negated column low high =>
    exact (restsOn_between hb (ho column (by simp))).of_iff (hone rfl)
  · exact .fail rfl
  · next negated column values =>
    exact (restsOn_member hb (ho column (by simp)) (ho values (by simp))).of_iff (hone rfl)
  · next any negated column values =>
    exact (restsOn_like hb (ho column (by simp)) (ho values (by simp))).of_iff (hone rfl)
  · next c column value => exact (restsOn_comparison hb (ho column (by simp))).of_iff (hone rfl)
  · exact .fail rfl

theorem restsOn_compileAll {operands : List Value} (hj : ∀ v ∈ operands, v.IsJson)
    (h : ∀ v ∈ operands, RestsOn m (compile s v) (Orderly s.dialect v) (fun _ => True)) :
    RestsOn m (compileAll s operands) (∀ t ∈ testsOfAll operands, t.Orderly s.dialect) (fun _ => True) := by
  induction operands with
  | nil =>
    rw [compileAll]
    exact (RestsOn.pure trivial).of_iff (by simp [testsOfAll])
  | cons v vs ih =>
    rw [compileAll]
    have hsymbol : symbol? v = none := by
      cases hj v (.head _) <;> rfl
    rw [hsymbol]
    have hrest := ih (fun v h => hj v (.tail _ h)) (fun v hv => h v (.tail _ hv))
    refine ((h v (.head _)).bind (fun _ sql _ => hrest.map (fun _ _ => trivial))).of_iff ?_
    simp only [testsOfAll,List.forall_mem_append,Orderly]

theorem restsOn_compile (hb : s.Binds) (hv : v.IsJson) :
    RestsOn m (compile s v) (Orderly s.dialect v) (fun _ => True) := by
  induction hv with
  | @list items h ih =>
    rw [compile]
    cases items with
    | nil =>
      rw [compileForm]
      exact (RestsOn.pure trivial).of_iff (by simp [Orderly,tests,testsOfForm])
    | cons head operands =>
      have ho : ∀ v ∈ operands, v.IsJson := fun v hv => h v (.tail _ hv)
      rw [compileForm]
      cases hop : Operator.ofValue head with
      | error x => exact .fail (isCompilation_of_ofValue hop)
      | ok op =>
        have htests : tests (.list (head :: operands)) = testsOf op operands (testsOfAll operands) := by
          rw [tests,testsOfForm,hop]
        unfold Orderly
        rw [htests]
        exact restsOn_operate hb ho (restsOn_compileAll ho (fun v hv => ih v (.tail _ hv)))
  | _ =>
    rw [compile] <;> try simp
    refine (restsOn_simple hb (by constructor <;> assumption)).of_iff ?_
    simp [Orderly,tests,Test.Orderly]

end Condition

end SqlCompose
