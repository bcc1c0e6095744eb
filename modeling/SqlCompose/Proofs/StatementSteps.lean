import SqlCompose.Proofs.ConditionShapes
import SqlCompose.Proofs.Request

/-! # The steps of a statement

Whatever part of a statement is composed, and whether it fails or not, the draft has gone from where it was by the
steps of an extent that covers it. One fact for each part says so, together with where the part's result lies.
-/
namespace SqlCompose
open Relation Build

variable {x : Extent} {s : Setting} {d : Draft} {α β : Type} {v : Value}

def Goes (x : Extent) (s : Setting) (d : Draft) (p : Build α) (P : α → Prop) : Prop :=
  x.Covers s d → ReflTransGen (x.Step s) d (p.runOn d).2 ∧ (∀ a, (p.runOn d).1 = .ok a → P a) ∧
    ∀ n, ¬ x.value (.stream n) → (p.runOn d).2.memory.stream n = d.memory.stream n

namespace Goes
variable {p : Build α} {f : α → Build β} {P : α → Prop} {Q : β → Prop}

theorem pure {a : α} (h : x.Covers s d → P a) : Goes x s d (Pure.pure a) P := by
  intro hd
  refine ⟨.refl,?_,fun _ _ => rfl⟩
  rintro b ⟨⟩
  exact h hd

/-- A part that fails where it is. -/
theorem error {e : Fault} (h : p.runOn d = (.error e,d)) : Goes x s d p P := by
  intro _
  rw [h]
  exact ⟨.refl,nofun,fun _ _ => rfl⟩

theorem fail (e : Fault) : Goes x s d (Build.fail e) P := .error rfl

theorem misuse (e : Misuse) : Goes x s d (Build.misuse e) P := .error rfl

theorem bind (hp : Goes x s d p P) (hf : ∀ a e, P a → Goes x s e (f a) Q) :
    Goes x s d (p >>= f) Q := by
  intro hd
  obtain ⟨hs,hr,hn⟩ := hp hd
  have he := Extent.covers_of_steps hs hd
  rw [runOn_bind]
  revert hs hr hn he
  rcases p.runOn d with ⟨e | a,e'⟩
  · intro hs _ hn _
    exact ⟨hs,nofun,hn⟩
  · intro hs hr hn he
    obtain ⟨hs',hr',hn'⟩ := hf a e' (hr a rfl) he
    exact ⟨hs.trans hs',hr',fun n h => (hn' n h).trans (hn n h)⟩

theorem weaken {P' : α → Prop} (hp : Goes x s d p P) (h : ∀ a, P a → P' a) : Goes x s d p P' :=
  fun hd => ⟨(hp hd).1,fun a ha => h a ((hp hd).2.1 a ha),(hp hd).2.2⟩

theorem covered (h : x.Covers s d → Goes x s d p P) : Goes x s d p P := fun hd => h hd hd

/-- A part that looks at the draft first. -/
theorem get {f : Draft → Build β} (h : x.Covers s d → Goes x s d (f d) Q) :
    Goes x s d (MonadState.get >>= f) Q := by
  intro hd
  rw [runOn_bind,runOn_get]
  exact h hd hd

/-- A part that looks at the memory first. -/
theorem view {f : Memory → Build β} (h : x.Covers s d → Goes x s d (f (d.view s)) Q) :
    Goes x s d (Build.view s >>= f) Q := by
  intro hd
  rw [runOn_bind,runOn_view]
  exact h hd hd

theorem step {e : Draft} {a : α} (h : p.runOn d = (.ok a,e)) (hs : x.Covers s d → x.Step s d e)
    (hn : ∀ n, ¬ x.value (.stream n) → e.memory.stream n = d.memory.stream n) (ha : x.Covers s d → P a) :
    Goes x s d p P := by
  intro hd
  rw [h]
  refine ⟨.single (hs hd),?_,hn⟩
  rintro b ⟨⟩
  exact ha hd

theorem mapM {l : List α} {f : α → Build β} (h : ∀ a ∈ l, ∀ e, Goes x s e (f a) Q) :
    Goes x s d (l.mapM f) (fun bs => ∀ b ∈ bs, Q b) := by
  induction l generalizing d with
  | nil =>
    rw [List.mapM_nil]
    exact pure (by simp)
  | cons a l ih =>
    rw [List.mapM_cons]
    refine bind (h a (.head _) d) (fun b e hb => ?_)
    refine bind (ih (fun a ha => h a (.tail _ ha))) (fun bs e' hbs => ?_)
    exact pure (fun _ => by simpa [hb] using hbs)

end Goes

namespace Build
variable {f : Value → Build α}

theorem goes_bindValue (h : x.value v) : Goes x s d (bindValue s v) (fun _ => True) := by
  by_cases hb : s.Binds
  · exact .step (runOn_bindValue hb) (fun _ => .bind d h) (fun _ _ => rfl) (fun _ => trivial)
  · obtain ⟨e,he⟩ := (runOn_of_not_binds (d := d) (v := v) hb []).1
    exact .error he

theorem goes_adopt {more : Entries} (h : x.Covers s d → x.Step s d (d.adopted more)) :
    Goes x s d (adopt s more) (fun _ => True) := by
  by_cases hb : s.Binds
  · exact .step (runOn_adopt hb more) h (fun _ _ => rfl) (fun _ => trivial)
  · obtain ⟨e,he⟩ := (runOn_of_not_binds (d := d) (v := .null) hb more).2
    exact .error he

/-- Using up a stream of the extent leaves all others. -/
theorem stream_drained {cell : Nat} {items : List Value} (h : x.value (.stream cell)) :
    ∀ n, ¬ x.value (.stream n) → (d.drained cell items).memory.stream n = d.memory.stream n := by
  intro n hn
  have hne : ¬ (n = cell ∧ cell < d.memory.streams.size) := by
    rintro ⟨rfl,-⟩
    exact hn h
  simp only [Draft.drained,Memory.stream_setStream,if_neg hne]

theorem goes_next? {cell : Nat} (h : x.value (.stream cell)) :
    Goes x s d (next? cell) (fun o => ∀ v, o = some v → x.value v) := by
  unfold next?
  refine .get (fun hd => ?_)
  unfold Memory.next?
  cases hc : d.memory.stream cell with
  | nil => exact .pure (by simp)
  | cons v rest =>
    have hv : x.value v := by
      apply hd.parts _ h v
      rw [Value.parts_stream,Draft.view_stream,hc]
      exact .head _
    refine .step (e := d.drained cell rest) (a := some v) rfl (fun _ => .drain d ?_) (stream_drained h) (fun _ => ?_)
    · intro w hw
      rw [hc]
      exact .tail _ hw
    · rintro w ⟨⟩
      exact hv

theorem value_of_held {items : List Value} (hd : x.Covers s d) (hv : x.value v)
    (h : v.held (d.view s) = .ok items) : ∀ w ∈ items, x.value w := by
  have hg : ∀ v, x.value v → ∀ items, v.elements? (d.view s) = some items → ∀ w ∈ items, x.value w :=
    fun v hv items he w hw => hd.parts v hv w (Value.mem_parts_of_elements he hw)
  unfold Value.held at h
  split at h
  · next start stop step =>
    dsimp only at h
    split at h
    · cases h
    · split at h
      · cases h
      · cases h
        exact hg _ hv _ rfl
  · cases he : v.elements? (d.view s) with
    | none =>
      rw [he] at h
      cases h
    | some items' =>
      rw [he] at h
      cases h
      exact hg v hv _ he

theorem goes_elements (hv : x.value v) : Goes x s d (elements s v) (fun items => ∀ w ∈ items, x.value w) := by
  unfold elements
  refine .view (fun hd => ?_)
  cases hh : v.held (d.view s) with
  | error e => exact .misuse e
  | ok items =>
    have hi := value_of_held hd hv hh
    cases v with
    | stream cell =>
      refine Goes.bind (P := fun _ => True) ?_ (fun _ _ _ => .pure (fun _ => hi))
      exact .step rfl (fun _ => .drain d (by simp)) (stream_drained hv) (fun _ => trivial)
    | _ => exact .pure (fun _ => hi)

theorem goes_eachOfStream {cell : Nat} {P : α → Prop} (h : x.value (.stream cell)) {limit : Nat}
    (hf : ∀ v, x.value v → ∀ e, Goes x s e (f v) P) :
    Goes x s d (eachOfStream f cell limit) (fun as => ∀ a ∈ as, P a) := by
  induction limit generalizing d with
  | zero => exact .pure (by simp)
  | succ limit ih =>
    unfold eachOfStream
    refine .bind (goes_next? h) (fun o e ho => ?_)
    cases o with
    | none => exact .pure (by simp)
    | some v =>
      refine .bind (hf v (ho v rfl) e) (fun a e' ha => ?_)
      refine .bind ih (fun as e'' has => ?_)
      exact .pure (fun _ => by simpa [ha] using has)

theorem goes_eachOfRange {first step : Int} {left : Nat} {P : α → Prop}
    (hf : ∀ v, x.value v → ∀ e, Goes x s e (f v) P) :
    Goes x s d (eachOfRange f first step left) (fun as => ∀ a ∈ as, P a) := by
  induction left generalizing d first with
  | zero => exact .pure (by simp)
  | succ left ih =>
    unfold eachOfRange
    refine .bind (hf _ (x.int first) d) (fun a e ha => ?_)
    refine .bind ih (fun as e' has => ?_)
    exact .pure (fun _ => by simpa [ha] using has)

theorem goes_eachBinding {f : Value × Value → Build α} {size left : Nat} {P : α → Prop} {home : Home}
    (hc : s.collection = .shared home) (hx : x.value (.shared home))
    (hf : ∀ e', x.value e'.1 → x.value e'.2 → ∀ e, Goes x s e (f e') P) :
    Goes x s d (eachBinding f size left) (fun as => ∀ a ∈ as, P a) := by
  induction left generalizing d with
  | zero => exact .pure (by simp)
  | succ left ih =>
    unfold eachBinding
    refine .get (fun hd => ?_)
    cases hb : d.bindings[size - (left + 1)]? with
    | none => exact .pure (by simp)
    | some b =>
      have hm := hd.own home hc hx b (List.mem_of_getElem? hb)
      refine .bind (hf b hm.1 hm.2 d) (fun a e ha => ?_)
      refine .get (fun _ => ?_)
      split
      · exact .misuse _
      · refine .bind ih (fun as e' has => ?_)
        exact .pure (fun _ => by simpa [ha] using has)

theorem receives_iff : s.receives v = true ↔ ∃ home, v = .shared home ∧ s.collection = .shared home := by
  cases v <;> simp [Setting.receives]

theorem goes_eachEntry {f : Value × Value → Build α} {P : α → Prop} (hv : x.value v)
    (hf : ∀ e', x.value e'.1 → x.value e'.2 → ∀ e, Goes x s e (f e') P) :
    Goes x s d (eachEntry s v f) (fun as => ∀ a ∈ as, P a) := by
  unfold eachEntry
  refine .view (fun hd => ?_)
  cases he : v.entries? (d.view s) with
  | none => exact .misuse _
  | some es =>
    by_cases hr : s.receives v
    · obtain ⟨home,rfl,hc⟩ := receives_iff.mp hr
      simp only [hr,if_true]
      exact goes_eachBinding hc hv hf
    · simp only [hr]
      have hes := hd.entries hv he
      exact .mapM (fun e' hm e => hf e' (hes e' hm).1 (hes e' hm).2 e)

theorem goes_each {P : α → Prop} (hv : x.value v) (hf : ∀ w, x.value w → ∀ e, Goes x s e (f w) P) :
    Goes x s d (each s v f) (fun as => ∀ a ∈ as, P a) := by
  unfold each
  split
  · exact .get (fun _ => goes_eachOfStream hv hf)
  · exact goes_eachOfRange hf
  · refine .view (fun hd => ?_)
    cases he : v.elements? (d.view s) with
    | none => exact .misuse _
    | some items =>
      by_cases hr : s.receives v
      · obtain ⟨home,rfl,hc⟩ := receives_iff.mp hr
        simp only [hr,if_true]
        exact goes_eachBinding hc hv (fun e' hk _ e => hf e'.1 hk e)
      · simp only [hr]
        exact .mapM (fun w hw e => hf w (hd.elements hv he w hw) e)

theorem goes_rendered (hv : x.value v) : Goes x s d (rendered s v) (fun _ => True) := by
  unfold rendered
  split
  · next sql params => exact .bind (goes_adopt (fun _ => .adopt d hv)) (fun _ _ _ => .pure (fun _ => trivial))
  · exact .bind (goes_bindValue hv) (fun _ _ _ => .pure (fun _ => trivial))

/-! ## Names -/

theorem goes_soughtInStream {wanted : String} {cell limit : Nat} (h : x.value (.stream cell)) :
    Goes x s d (soughtInStream wanted cell limit) (fun _ => True) := by
  induction limit generalizing d with
  | zero => exact .pure (fun _ => trivial)
  | succ limit ih =>
    unfold soughtInStream
    refine .bind (goes_next? h) (fun o e _ => ?_)
    cases o with
    | none => exact .pure (fun _ => trivial)
    | some v =>
      dsimp only
      split
      · exact .pure (fun _ => trivial)
      · exact ih

theorem goes_holds {needle : Char} (hv : x.value v) : Goes x s d (holds s needle v) (fun _ => True) := by
  unfold holds
  dsimp only
  split
  · exact .pure (fun _ => trivial)
  · split
    · exact .pure (fun _ => trivial)
    · exact .pure (fun _ => trivial)
    · exact .pure (fun _ => trivial)
    · exact .pure (fun _ => trivial)
    · exact .pure (fun _ => trivial)
    · exact .pure (fun _ => trivial)
    · exact .misuse _
    · exact .get (fun _ => goes_soughtInStream hv)
    · exact .bind (goes_elements hv) (fun _ _ _ => .pure (fun _ => trivial))

theorem goes_shown : Goes x s d (shown s v) (fun _ => True) := .view (fun _ => .pure (fun _ => trivial))

theorem goes_columnName (hv : x.value v) : Goes x s d (columnName s v) (fun _ => True) := by
  unfold columnName
  split
  · exact .pure (fun _ => trivial)
  · refine .bind (goes_holds hv) (fun open? e _ => ?_)
    split
    · exact goes_shown
    · refine .bind (goes_holds hv) (fun point? e _ => ?_)
      split
      · exact .misuse _
      · split
        · exact goes_shown
        · exact .pure (fun _ => trivial)
        · exact .misuse _

theorem goes_listedColumn (hv : x.value v) : Goes x s d (listedColumn s v) (fun _ => True) := by
  unfold listedColumn
  split
  · exact .pure (fun _ => trivial)
  · refine .bind (goes_holds hv) (fun open? e _ => ?_)
    split
    · exact .pure (fun _ => trivial)
    · exact .bind (goes_columnName hv) (fun _ _ _ => .pure (fun _ => trivial))

theorem goes_nameList {names : List (Option Sql)} : Goes x s d (nameList names) (fun _ => True) := by
  unfold nameList
  split
  · exact .pure (fun _ => trivial)
  · exact .misuse _

theorem goes_tableName (hv : x.value v) : Goes x s d (tableName s v) (fun _ => True) := by
  unfold tableName
  split
  · exact .pure (fun _ => trivial)
  · refine .bind (goes_holds hv) (fun open? e _ => ?_)
    split
    · exact goes_shown
    · exact .misuse _

end Build

/-! ## Conditions -/

namespace Condition
variable {column : Value} {columns values operands : List Value} {negated any : Bool}

theorem goes_entry (hv : x.value v) : Goes x s d (entry s v) (fun _ => True) := by
  unfold entry
  split
  · exact .pure (fun _ => trivial)
  · exact goes_rendered hv

theorem value_of_get? {es : Entries} {k : Value} (h : x.Has es) (hv : es.get? k = some v) : x.value v := by
  obtain ⟨e,he,rfl⟩ := Option.map_eq_some_iff.mp hv
  exact (h e (List.mem_of_find?_eq_some he)).2

theorem goes_field (hv : x.value v) : Goes x s d (field s column v) x.value := by
  unfold field
  refine .view (fun hd => ?_)
  cases he : v.entries? (d.view s) with
  | none => exact .pure (fun _ => hv)
  | some es =>
    have hes := hd.entries hv he
    dsimp only
    split
    · refine .pure (fun _ => ?_)
      cases hg : es.get? column with
      | none => exact x.null
      | some w => exact value_of_get? hes hg
    · exact .misuse _

theorem goes_valuesOf (hv : x.value v) : Goes x s d (valuesOf s v) (fun vs => ∀ w ∈ vs, x.value w) := by
  unfold valuesOf
  split
  · exact goes_elements hv
  · exact .pure (fun _ => by simpa using hv)

theorem goes_singleMember (hc : x.value column) (hv : ∀ w ∈ values, x.value w) :
    Goes x s d (singleMember s negated column values) (fun _ => True) := by
  unfold singleMember
  refine .bind (P := fun _ => True) ?_ (fun entries e _ => ?_)
  · refine (Goes.mapM (Q := fun _ => True) (fun w hw e => ?_)).weaken (fun _ _ => trivial)
    exact .bind (goes_field (hv w hw)) (fun w' e' hw' => goes_entry hw')
  · refine .bind (goes_columnName hc) (fun name e' _ => ?_)
    split
    · exact .pure (fun _ => trivial)
    · exact .pure (fun _ => trivial)

theorem goes_memberRow (hv : x.value v) : Goes x s d (memberRow s negated columns v) (fun _ => True) := by
  unfold memberRow
  refine .view (fun _ => ?_)
  split
  · exact .fail _
  · refine .bind (P := fun _ => True) ?_ (fun _ _ _ => .pure (fun _ => trivial))
    refine (Goes.mapM (Q := fun _ => True) (fun c _ e => ?_)).weaken (fun _ _ => trivial)
    exact .bind (goes_field hv) (fun w' e' hw' => goes_entry hw')

theorem goes_compositeMember (hc : ∀ c ∈ columns, x.value c) (hv : ∀ w ∈ values, x.value w) :
    Goes x s d (compositeMember s negated columns values) (fun _ => True) := by
  unfold compositeMember
  refine .bind (Goes.mapM (Q := fun _ => True) (fun w hw e => goes_memberRow (hv w hw))) (fun rows e _ => ?_)
  refine .bind (Goes.mapM (Q := fun _ => True) (fun c hc' e => goes_listedColumn (hc c hc'))) (fun names e _ => ?_)
  exact .bind goes_nameList (fun _ _ _ => .pure (fun _ => trivial))

theorem value_of_columns? (hd : x.Covers s d) (hc : x.value column) (h : columns? column = some columns) :
    ∀ c ∈ columns, x.value c := by
  intro c hm
  cases column <;> simp only [columns?,reduceCtorEq,Option.some.injEq] at h <;> subst h <;>
    exact hd.elements hc rfl c hm

theorem goes_member (hc : x.value column) (hv : x.value v) :
    Goes x s d (member s negated column v) (fun _ => True) := by
  unfold member
  refine .bind (goes_valuesOf hv) (fun values e hvs => ?_)
  split
  · exact .pure (fun _ => trivial)
  · refine .covered (fun he => ?_)
    split
    · exact .pure (fun _ => trivial)
    · next single hs => exact goes_singleMember (value_of_columns? he hc hs single (.head _)) hvs
    · next columns _ _ hs => exact goes_compositeMember (value_of_columns? he hc hs) hvs
    · exact goes_singleMember hc hvs

theorem goes_like (hc : x.value column) (hv : x.value v) :
    Goes x s d (like s any negated column v) (fun _ => True) := by
  unfold like
  refine .bind (goes_valuesOf hv) (fun values e hvs => ?_)
  split
  · exact .pure (fun _ => trivial)
  · refine .bind (goes_columnName hc) (fun name e' _ => ?_)
    refine .bind (Goes.mapM (Q := fun _ => True) (fun w hw e => ?_)) (fun _ _ _ => .pure (fun _ => trivial))
    exact .bind (goes_rendered (hvs w hw)) (fun _ _ _ => .pure (fun _ => trivial))

theorem goes_between {low high : Value} (hc : x.value column) (hl : x.value low) (hh : x.value high) :
    Goes x s d (between s negated column low high) (fun _ => True) := by
  unfold between
  refine .bind (goes_columnName hc) (fun _ _ _ => ?_)
  refine .bind (goes_rendered hl) (fun _ _ _ => ?_)
  exact .bind (goes_rendered hh) (fun _ _ _ => .pure (fun _ => trivial))

theorem goes_comparison {c : Comparison} (hc : x.value column) (hv : x.value v) :
    Goes x s d (comparison s c column v) (fun _ => True) := by
  unfold comparison
  refine .bind (goes_columnName hc) (fun _ _ _ => ?_)
  exact .bind (goes_rendered hv) (fun _ _ _ => .pure (fun _ => trivial))

theorem goes_pair {name : String} (hv : x.value v) : Goes x s d (pair s name v) (fun _ => True) := by
  unfold pair
  split
  · exact goes_member (x.text name) hv
  · split
    · exact .pure (fun _ => trivial)
    · exact .bind (goes_rendered hv) (fun _ _ _ => .pure (fun _ => trivial))

theorem goes_pairs {named : List (String × Value)} (h : ∀ c ∈ named, x.value c.2) :
    Goes x s d (pairs s named) (fun _ => True) := by
  unfold pairs
  refine .bind (Goes.mapM (Q := fun _ => True) (fun c hc e => goes_pair (h c hc))) (fun parts e _ => ?_)
  split
  · exact .pure (fun _ => trivial)
  · exact .pure (fun _ => trivial)

theorem goes_operate {op : Operator} {inner : Build (List Sql)} (h : ∀ o ∈ operands, x.value o)
    (hi : Goes x s d inner (fun _ => True)) : Goes x s d (operate s op operands inner) (fun _ => True) := by
  unfold operate
  split
  · exact .bind hi (fun _ _ _ => .pure (fun _ => trivial))
  · exact .bind hi (fun _ _ _ => .pure (fun _ => trivial))
  · exact goes_between (h _ (by simp)) (h _ (by simp)) (h _ (by simp))
  · exact .fail _
  · exact goes_member (h _ (by simp)) (h _ (by simp))
  · exact goes_like (h _ (by simp)) (h _ (by simp))
  · exact goes_comparison (h _ (by simp)) (h _ (by simp))
  · exact .fail _

theorem forall_put {P : String × α → Prop} {named : List (String × α)} {name : String} {a : α}
    (h : ∀ c ∈ named, P c) (ha : P (name,a)) : ∀ c ∈ Text.put name a named, P c := by
  induction named with
  | nil =>
    intro c hc
    rw [List.mem_singleton.mp hc]
    exact ha
  | cons f named ih =>
    intro c hc
    unfold Text.put at hc
    split at hc
    · rcases List.mem_cons.mp hc with rfl | hc
      · exact ha
      · exact h c (.tail _ hc)
    · rcases List.mem_cons.mp hc with rfl | hc
      · exact h _ (.head _)
      · exact ih (fun c hc => h c (.tail _ hc)) c hc

theorem forall_putAll {P : String × α → Prop} {named more : List (String × α)} (h : ∀ c ∈ named, P c)
    (hm : ∀ c ∈ more, P c) : ∀ c ∈ Text.putAll named more, P c := by
  induction more generalizing named with
  | nil => exact h
  | cons f more ih => exact ih (forall_put h (hm f (.head _))) (fun c hc => hm c (.tail _ hc))

theorem forall_of_mapM {P : String × Value → Prop} {es : Entries} {named : List (String × Value)}
    (h : es.mapM (fun (e : Value × Value) => e.1.readText?.map (fun key => (key,e.2))) = some named)
    (hes : ∀ e ∈ es, ∀ key, e.1.readText? = some key → P (key,e.2)) : ∀ c ∈ named, P c := by
  induction es generalizing named with
  | nil =>
    cases h
    intro c hc
    cases hc
  | cons e es ih =>
    rw [List.mapM_cons] at h
    simp only [bind,Option.bind_eq_some_iff,Option.map_eq_some_iff] at h
    obtain ⟨f,⟨key,hkey,rfl⟩,rest,hr,hn⟩ := h
    cases hn
    intro c hc
    rcases List.mem_cons.mp hc with rfl | hc
    · exact hes e (.head _) key hkey
    · exact ih hr (fun e he => hes e (.tail _ he)) c hc

theorem forall_named? {P : String × Value → Prop} {es : Entries} {named : List (String × Value)}
    (h : es.named? = some named) (hes : ∀ e ∈ es, ∀ key, e.1.readText? = some key → P (key,e.2)) :
    ∀ c ∈ named, P c := by
  obtain ⟨l,hl,rfl⟩ := Option.map_eq_some_iff.mp h
  exact forall_putAll (by simp) (forall_of_mapM hl hes)

theorem typedForm_ne_pairs {items : List Value} {named : List (String × Value)} :
    typedForm items ≠ .ok (.pairs named) := by
  intro h
  cases items with
  | nil => cases h
  | cons head operands =>
    unfold typedForm at h
    dsimp only at h
    cases ho : Operator.ofValue head with
    | error e =>
      rw [ho] at h
      cases h
    | ok op =>
      rw [ho] at h
      cases h

theorem typedPairs_eq_pairs {es : Entries} {named : List (String × Value)} (h : typedPairs es = .ok (.pairs named)) :
    es.named? = some named := by
  unfold typedPairs at h
  split at h
  · cases h
  · split at h
    · next columns hc =>
      cases h
      exact hc
    · cases h

/-- What stands under the columns of a condition is what it holds. -/
theorem value_of_typed {named : List (String × Value)} (hd : x.Covers s d) (hv : x.value v)
    (h : typed (d.view s) v = .ok (.pairs named)) : ∀ c ∈ named, x.value c.2 := by
  unfold typed at h
  split at h
  · cases h
  · cases h
  · next columns =>
    cases h
    have hp : x.value (.mapping (Entries.ofNames named)) :=
      hd.fields hv rfl ("pairs",.mapping (Entries.ofNames named)) (by simp)
    intro c hc
    exact (hd.entries hp rfl (.text c.1,c.2) (List.mem_map_of_mem hc)).2
  · cases h
  · exact absurd h typedForm_ne_pairs
  · exact absurd h typedForm_ne_pairs
  · split at h
    · cases h
    · next es _ he => exact forall_named? (typedPairs_eq_pairs h) (fun e hm _ _ => (hd.entries hv he e hm).2)
    · cases h

theorem goes_simple (hv : x.value v) : Goes x s d (simple s v) (fun _ => True) := by
  unfold simple
  refine .view (fun hd => ?_)
  split
  · exact .fail _
  · exact .pure (fun _ => trivial)
  · next named hn => exact goes_pairs (value_of_typed hd hv hn)
  · exact .pure (fun _ => trivial)

theorem goes_operands (h : ∀ o ∈ operands, ∀ e, Goes x s e (compile s o) (fun _ => True)) :
    Goes x s d (compileAll s operands) (fun _ => True) := by
  rw [compileAll_eq_mapM]
  refine .weaken (.mapM (Q := fun _ => True) (fun o hm e => ?_)) (fun _ _ => trivial)
  unfold asOperand
  split
  · exact .pure (fun _ => trivial)
  · exact h o hm e

theorem goes_compile (v : Value) (d : Draft) (hv : x.value v) : Goes x s d (compile s v) (fun _ => True) := by
  induction v using induct generalizing d with
  | expression sql params =>
    rw [compile]
    exact goes_rendered hv
  | operation v op operands h ih =>
    rw [compile_of_operation? h]
    refine .covered (fun hd => ?_)
    have ho := hd.operands hv h
    exact goes_operate ho (goes_operands (fun o hm e => ih o hm e (ho o hm)))
  | empty v h =>
    rw [compile_of_empty h]
    exact .pure (fun _ => trivial)
  | unread v e h =>
    rw [compile_of_unread h]
    exact .fail e
  | bare v hb he =>
    rw [compile_of_bare hb he]
    exact goes_simple hv

end Condition

/-! ## Queries -/

theorem Checked.eq_of_ofFields {result : Option α} {fields : List (String × Bool)} {unknown : List String} {a : α}
    (h : Checked.ofFields result fields unknown = .ok a) : result = some a := by
  unfold ofFields at h
  split at h
  · cases h
    rfl
  · cases h

namespace Join
variable {j : Join}

theorem value_of_ofList? {items : List Value} (hi : ∀ w ∈ items, x.value w) (h : ofList? items = some j) :
    x.value j.on := by
  unfold ofList? at h
  split at h
  · next keyword table rest =>
    simp only [bind,Option.bind_eq_some_iff,pure,Option.some.injEq] at h
    obtain ⟨k,-,t,-,rfl⟩ := h
    cases rest with
    | nil => exact x.null
    | cons on _ => exact hi on (.tail _ (.tail _ (.head _)))
  · cases h

theorem value_of_record {m : Memory} {es : Entries} {keyword table : String} {on : Value} (he : x.Has es)
    (h : Record.join m es = .ok (.join keyword table on)) : x.value on := by
  have hon : x.value ((es.field? "on").getD .null) := by
    cases hf : es.field? "on" with
    | none => exact x.null
    | some v => exact Condition.value_of_get? he hf
  have hr := Checked.eq_of_ofFields h
  simp only [bind,Option.bind_eq_some_iff,pure,Option.some.injEq,Value.join.injEq] at hr
  obtain ⟨k,-,t,-,-,-,rfl⟩ := hr
  exact hon

theorem value_of_ofValue? (hd : x.Covers s d) (hv : x.value v) (h : ofValue? (d.view s) v = some j) :
    x.value j.on := by
  unfold ofValue? at h
  split at h
  · next keyword table on =>
    cases h
    exact hd.fields hv rfl ("on",on) (by simp)
  · exact value_of_ofList? (hd.elements hv rfl) h
  · exact value_of_ofList? (hd.elements hv rfl) h
  · split at h
    · next keyword table on hr =>
      cases h
      obtain ⟨es,he,hj⟩ := Option.map_eq_some_iff.mp hr
      exact value_of_record (hd.entries hv he) hj
    · cases h

theorem goes_compile (h : x.value j.on) : Goes x s d (compile s j) (fun _ => True) := by
  unfold compile
  refine .bind (Condition.goes_compile j.on d h) (fun condition e _ => ?_)
  split
  · exact .pure (fun _ => trivial)
  · exact .pure (fun _ => trivial)

theorem goes_compileEntry (hv : x.value v) : Goes x s d (compileEntry s v) (fun _ => True) := by
  unfold compileEntry
  split
  · exact goes_rendered hv
  · refine .view (fun hd => ?_)
    split
    · next j hj => exact goes_compile (value_of_ofValue? hd hv hj)
    · exact .fail _

end Join

namespace Query
variable {q : Query} {compile : Nat → Build Sql}

theorem goes_item {name : String → Sql} {i : Item} (h : x.value i.toValue) :
    Goes x s d (item s name i) (fun _ => True) := by
  cases i with
  | name text => exact .pure (fun _ => trivial)
  | expression sql params =>
    exact .bind (goes_adopt (fun _ => .adopt d h)) (fun _ _ _ => .pure (fun _ => trivial))

theorem goes_items {name : String → Sql} {l : List Item} (h : x.value (.list (l.map Item.toValue))) :
    Goes x s d (items s name l) (fun _ => True) := by
  refine .covered (fun hd => ?_)
  have hi : ∀ i ∈ l, x.value i.toValue := fun i hi => hd.elements h rfl _ (List.mem_map_of_mem hi)
  refine .bind (Goes.mapM (Q := fun _ => True) (fun i hm e => ?_)) (fun _ _ _ => .pure (fun _ => trivial))
  exact goes_item (hi i hm)

theorem goes_selectClause (h : x.value (.list (q.columns.map Item.toValue))) :
    Goes x s d (selectClause s q) (fun _ => True) := by
  unfold selectClause
  dsimp only
  split
  · exact .pure (fun _ => trivial)
  · exact .bind (goes_items h) (fun _ _ _ => .pure (fun _ => trivial))

theorem goes_fromClause (h : x.value (.list (q.tables.map Item.toValue))) :
    Goes x s d (fromClause s q) (fun _ => True) := by
  unfold fromClause
  split
  · exact .pure (fun _ => trivial)
  · exact .bind (goes_items h) (fun _ _ _ => .pure (fun _ => trivial))

theorem goes_joinClause (h : x.value (.list q.joins)) : Goes x s d (joinClause s q) (fun _ => True) := by
  refine .covered (fun hd => ?_)
  have hj : ∀ j ∈ q.joins, x.value j := hd.elements h rfl
  exact .bind (Goes.mapM (Q := fun _ => True) (fun j hm e => Join.goes_compileEntry (hj j hm)))
    (fun _ _ _ => .pure (fun _ => trivial))

theorem goes_filterClause {keyword : String} (hv : x.value v) :
    Goes x s d (filterClause s keyword v) (fun _ => True) := by
  unfold filterClause
  exact .bind (Condition.goes_compile v d hv) (fun _ _ _ => .pure (fun _ => trivial))

theorem goes_groupClause (h : x.value (.list (q.groups.map Item.toValue))) :
    Goes x s d (groupClause s q) (fun _ => True) := by
  unfold groupClause
  split
  · exact .pure (fun _ => trivial)
  · exact .bind (goes_items h) (fun _ _ _ => .pure (fun _ => trivial))

theorem goes_orderClause (h : x.value (.mapping (q.order.map (fun e => (.text e.1,e.2.toValue))))) :
    Goes x s d (orderClause s q) (fun _ => True) := by
  unfold orderClause
  split
  · exact .pure (fun _ => trivial)
  · refine .covered (fun hd => ?_)
    have ho : ∀ e ∈ q.order, x.value e.2.toValue :=
      fun e he => (hd.entries h rfl (.text e.1,e.2.toValue) (List.mem_map_of_mem he)).2
    refine .bind (Goes.mapM (Q := fun _ => True) (fun e hm e' => ?_)) (fun _ _ _ => .pure (fun _ => trivial))
    have hk := ho e hm
    unfold sortKey
    split
    · next sql params he =>
      rw [he] at hk
      exact goes_item hk
    · exact .pure (fun _ => trivial)
    · exact .pure (fun _ => trivial)

theorem goes_member {c : Member} (hm : ∀ cell, c = .query cell → x.member cell)
    (hc : ∀ cell, c = .query cell → ∀ e, Goes x s e (compile cell) (fun _ => True)) :
    Goes x s d (member s compile c) (fun _ => True) := by
  cases c with
  | sql sql => exact .pure (fun _ => trivial)
  | query cell =>
    unfold member
    refine .view (fun _ => ?_)
    refine .bind (goes_adopt (fun _ => .take d (hm cell rfl))) (fun _ e _ => ?_)
    refine .bind (hc cell rfl e) (fun sql e' _ => ?_)
    refine .bind (P := fun _ => True) ?_ (fun _ _ _ => .pure (fun _ => trivial))
    exact .step rfl (fun _ => .hand e' (hm cell rfl)) (fun _ _ => stream_handed s cell _ e') (fun _ => trivial)

theorem goes_unionClause (hm : ∀ cell, .query cell ∈ q.members → x.member cell)
    (hc : ∀ cell, .query cell ∈ q.members → ∀ e, Goes x s e (compile cell) (fun _ => True)) :
    Goes x s d (unionClause s compile q) (fun _ => True) := by
  unfold unionClause
  split
  · exact .pure (fun _ => trivial)
  · refine .bind (Goes.mapM (Q := fun _ => True) (fun c h e => ?_)) (fun _ _ _ => .pure (fun _ => trivial))
    refine goes_member ?_ ?_
    · rintro cell rfl
      exact hm cell h
    · rintro cell rfl
      exact hc cell h

def leading (s : Setting) (q : Query) : Build (List Sql) := do
  let select ← selectClause s q
  let tables ← fromClause s q
  let joins ← joinClause s q
  let filter ← filterClause s "WHERE" q.filter
  let groups ← groupClause s q
  let groupFilter ← filterClause s "HAVING" q.groupFilter
  return [select,tables,joins,filter,groups,groupFilter]

theorem compileWith_eq (s : Setting) (compile : Nat → Build Sql) (q : Query) : compileWith s compile q = (do
    let parts ← leading s q
    let union ← unionClause s compile q
    let order ← orderClause s q
    return clauses s (parts ++ [union,order,limitClause q])) := by
  simp only [compileWith,leading,bind_assoc,pure_bind,List.cons_append,List.nil_append]

theorem goes_leading (hq : ∀ f ∈ q.fields .null, x.value f.2) : Goes x s d (leading s q) (fun _ => True) := by
  have hf : ∀ name v, (name,v) ∈ q.fields .null → x.value v := fun name v h => hq (name,v) h
  unfold leading
  refine .bind (goes_selectClause (hf "SELECT" _ (by simp [fields]))) (fun _ _ _ => ?_)
  refine .bind (goes_fromClause (hf "FROM" _ (by simp [fields]))) (fun _ _ _ => ?_)
  refine .bind (goes_joinClause (hf "JOIN" _ (by simp [fields]))) (fun _ _ _ => ?_)
  refine .bind (goes_filterClause (hf "WHERE" _ (by simp [fields]))) (fun _ _ _ => ?_)
  refine .bind (goes_groupClause (hf "GROUP_BY" _ (by simp [fields]))) (fun _ _ _ => ?_)
  refine .bind (goes_filterClause (hf "HAVING" _ (by simp [fields]))) (fun _ _ _ => ?_)
  exact .pure (fun _ => trivial)

theorem goes_compileWith (hq : ∀ f ∈ q.fields .null, x.value f.2)
    (hm : ∀ cell, .query cell ∈ q.members → x.member cell)
    (hc : ∀ cell, .query cell ∈ q.members → ∀ e, Goes x s e (compile cell) (fun _ => True)) :
    Goes x s d (compileWith s compile q) (fun _ => True) := by
  rw [compileWith_eq]
  refine .bind (goes_leading hq) (fun _ _ _ => ?_)
  refine .bind (goes_unionClause hm hc) (fun _ _ _ => ?_)
  refine .bind (goes_orderClause (hq ("ORDER_BY",_) (by simp [fields]))) (fun _ _ _ => ?_)
  exact .pure (fun _ => trivial)

theorem goes_compile (cell : Nat) (d : Draft) (h : x.query cell) : Goes x s d (Query.compile s cell) (fun _ => True) := by
  induction cell using Nat.strongRecOn generalizing d with
  | _ cell ih =>
    rw [Query.compile]
    refine .get (fun hd => ?_)
    refine goes_compileWith (hd.clauses cell h) (fun c hc => (hd.members cell h c hc).2) (fun c hc e => ?_)
    split
    · next hlt => exact ih c hlt e (hd.members cell h c hc).1
    · exact .misuse _

end Query

/-! ## Statements -/

namespace Statement
variable {table columns rows condition : Value}

theorem goes_insert (ht : x.value table) (hc : x.value columns) :
    Goes x s d (insert table columns s) (fun _ => True) := by
  unfold insert
  refine .bind (goes_each (P := fun _ => True) hc (fun w hw e => goes_listedColumn hw)) (fun _ _ _ => ?_)
  refine .bind (goes_eachEntry (P := fun _ => True) hc (fun e' _ hv e => goes_rendered hv)) (fun _ _ _ => ?_)
  refine .bind (goes_tableName ht) (fun _ _ _ => ?_)
  exact .bind goes_nameList (fun _ _ _ => .pure (fun _ => trivial))

theorem goes_batchRow {width : Nat} (hv : x.value v) : Goes x s d (batchRow s width v) (fun _ => True) := by
  unfold batchRow
  refine .view (fun _ => ?_)
  split
  · exact .misuse _
  · split
    · exact .bind (goes_each (P := fun _ => True) hv (fun w hw e => goes_rendered hw))
        (fun _ _ _ => .pure (fun _ => trivial))
    · exact .fail _

theorem goes_batchInsert (ht : x.value table) (hc : x.value columns) (hr : x.value rows) :
    Goes x s d (batchInsert table columns rows s) (fun _ => True) := by
  unfold batchInsert
  refine .view (fun _ => ?_)
  split
  · exact .fail _
  · refine .bind (goes_tableName ht) (fun _ _ _ => ?_)
    refine .bind (goes_each (P := fun _ => True) hc (fun w hw e => goes_listedColumn hw)) (fun _ _ _ => ?_)
    split
    · exact .fail _
    · refine .bind (goes_each (P := fun _ => True) hr (fun w hw e => goes_batchRow hw)) (fun _ _ _ => ?_)
      exact .bind goes_nameList (fun _ _ _ => .pure (fun _ => trivial))

theorem goes_filtered {sql : Sql} (h : x.value condition) :
    Goes x s d (filtered s sql condition) (fun _ => True) := by
  unfold filtered
  exact .bind (Query.goes_filterClause h) (fun _ _ _ => .pure (fun _ => trivial))

theorem goes_assignment {e : Value × Value} (hk : x.value e.1) (hv : x.value e.2) :
    Goes x s d (assignment s e) (fun _ => True) := by
  unfold assignment
  refine .bind (goes_columnName hk) (fun _ _ _ => ?_)
  exact .bind (goes_rendered hv) (fun _ _ _ => .pure (fun _ => trivial))

theorem goes_update (ht : x.value table) (hc : x.value columns) (h : x.value condition) :
    Goes x s d (update table columns condition s) (fun _ => True) := by
  unfold update
  refine .bind (goes_eachEntry (P := fun _ => True) hc (fun e' hk hv e => goes_assignment hk hv)) (fun _ _ _ => ?_)
  exact .bind (goes_tableName ht) (fun _ _ _ => goes_filtered h)

theorem goes_delete (ht : x.value table) (h : x.value condition) :
    Goes x s d (delete table condition s) (fun _ => True) := by
  unfold delete
  exact .bind (goes_tableName ht) (fun _ _ _ => goes_filtered h)

end Statement

/-! ## Requests -/

namespace Request
variable {m : Memory} {r : Request}

def operands (m : Memory) : Request → List Value
  | .query cell => ((m.query cell).fields .null).map (·.2)
  | .insert table columns _ => [table,columns]
  | .batchInsert table columns rows _ => [table,columns,rows]
  | .update table columns condition _ => [table,columns,condition]
  | .delete table condition _ => [table,condition]
  | .filter spec _ => [spec]

def Within (x : Extent) : Request → Prop
  | .query cell => x.query cell
  | .insert table columns _ => x.value table ∧ x.value columns
  | .batchInsert table columns rows _ => x.value table ∧ x.value columns ∧ x.value rows
  | .update table columns condition _ => x.value table ∧ x.value columns ∧ x.value condition
  | .delete table condition _ => x.value table ∧ x.value condition
  | .filter spec _ => x.value spec

/-- Whatever becomes of a request, the draft goes by steps of any extent that has what the request names. -/
theorem steps (hd : x.Covers (r.setting s m) (r.start s m)) (hr : r.Within x) :
    ReflTransGen (x.Step (r.setting s m)) (r.start s m) (r.final s m) := by
  have hg : Goes x (r.setting s m) (r.start s m) (r.body (r.setting s m)) (fun _ => True) := by
    cases r with
    | query cell => exact Query.goes_compile cell _ hr
    | insert table columns params => exact Statement.goes_insert hr.1 hr.2
    | batchInsert table columns rows params => exact Statement.goes_batchInsert hr.1 hr.2.1 hr.2.2
    | update table columns condition params => exact Statement.goes_update hr.1 hr.2.1 hr.2.2
    | delete table condition params => exact Statement.goes_delete hr.1 hr.2
    | filter spec params => exact Condition.goes_compile spec _ hr
  exact (hg hd).1

end Request

end SqlCompose
