import SqlCompose.Name
import SqlCompose.Proofs.ShownValues
import SqlCompose.Proofs.TiedRuns

/-! # What reads the same

What is fixed is written by the same text on both sides, and lists the same items. So the names in a statement are the
same on both sides too.
-/
namespace SqlCompose
open List Build

variable {t : Ties} {s : Setting} {m m' : Memory} {v w : Value} {c c' : CellTexts}

structure CellTexts.Agree (t : Ties) (c c' : CellTexts) : Prop where
  mapping : ∀ home, t.frozen home → c.mapping home = c'.mapping home
  query : ∀ cell, t.settled cell → c.query cell = c'.query cell

namespace Value

theorem Fixed.written (h : v.Fixed t) (hw : w ∈ v.written) : w.Fixed t := by
  have hentries : ∀ {es : Entries}, (∀ e ∈ es, e.1.Fixed t) → (∀ e ∈ es, e.2.Fixed t) →
      w ∈ Entries.keys es ++ Entries.values es → w.Fixed t := by
    intro es hk hv hw
    rcases mem_append.mp hw with hw | hw <;> obtain ⟨e,he,rfl⟩ := mem_map.mp hw
    · exact hk e he
    · exact hv e he
  cases h with
  | list h | tuple h | set h | operation h => exact h w hw
  | mapping hk hv | expression hk hv => exact hentries hk hv hw
  | pairs h =>
    obtain ⟨e,he,rfl⟩ := mem_map.mp hw
    exact h e he
  | join h => exact mem_singleton.mp hw ▸ h
  | scope hp hn =>
    simp only [written,mem_cons,not_mem_nil,or_false] at hw
    rcases hw with rfl | rfl
    · exact hp
    · exact hn
  | @atom v h =>
    cases v with
    | null | bool _ | int _ | float _ | text _ | bytes _ | operator _ | direction _ | range _ _ _ | raw _ => cases hw
    | _ => cases h
  | _ => cases hw

theorem Fixed.spell (hc : c.Agree t c') {v : Value} (h : v.Fixed t) : v.spell c = v.spell c' := by
  refine spell_congr ?_ ?_ (fun w hw => (h.written hw).spell hc)
  · rintro home rfl
    cases h with
    | atom h => cases h
    | shared h => exact hc.mapping home h
  · rintro cell rfl
    cases h with
    | atom h => cases h
    | query h => exact hc.query cell h
termination_by sizeOf v
decreasing_by exact sizeOf_written hw

theorem Fixed.display (hc : c.Agree t c') (h : v.Fixed t) : v.display c = v.display c' := by
  refine display_congr (h.spell hc) ?_ (fun w hw => (h.written hw).spell hc)
  rintro cell rfl
  cases h with
  | atom h => cases h
  | query h => exact hc.query cell h

end Value

namespace Memory.Tied

theorem cellTexts (h : m.Tied t m') (depth : Nat) : (m.cellTexts depth).Agree t (m'.cellTexts depth) := by
  induction depth with
  | zero => exact ⟨fun _ _ => rfl,fun _ _ => rfl⟩
  | succ depth ih =>
    constructor
    · intro home hf
      obtain ⟨he,hes⟩ := h.frozen home hf
      have hm : (Value.mapping (m.mapping home)).Fixed t :=
        .mapping (fun e he => (hes e he).1) (fun e he => (hes e he).2)
      simp only [Memory.cellTexts]
      rw [← he,hm.spell ih]
    · intro cell hf
      obtain ⟨he,hfs⟩ := h.settled cell hf
      simp only [Memory.cellTexts]
      rw [← he]
      exact map_congr_left (fun f hf => by rw [(hfs f hf).spell ih])

theorem sizes (h : m.Tied t m') : m.mappings.size = m'.mappings.size ∧ m.queries.size = m'.queries.size := by
  have hc : ∀ n, n < m.mappings.size ↔ n < m'.mappings.size := fun n => h.holds (.cell n)
  have hq : ∀ n, n < m.queries.size ↔ n < m'.queries.size := fun n => h.holds (.query n)
  have hc₁ := hc m.mappings.size
  have hc₂ := hc m'.mappings.size
  have hq₁ := hq m.queries.size
  have hq₂ := hq m'.queries.size
  omega

/-- What the cells refer to is followed equally far on both sides. -/
theorem texts (h : m.Tied t m') : m.texts.Agree t m'.texts := by
  unfold Memory.texts
  rw [h.sizes.1,h.sizes.2]
  exact h.cellTexts _

end Memory.Tied

/-! ## Lists of what is fixed -/

def Value.Same (t : Ties) (v w : Value) : Prop := v = w ∧ v.Fixed t

theorem same_items {xs ys : List Value} (h : Forall₂ (Value.Same t) xs ys) : xs = ys ∧ ∀ v ∈ xs, v.Fixed t := by
  induction h with
  | nil => exact ⟨rfl,by simp⟩
  | cons hab _ ih =>
    obtain ⟨rfl,hv⟩ := hab
    obtain ⟨rfl,hvs⟩ := ih
    exact ⟨rfl,forall_mem_cons.mpr ⟨hv,hvs⟩⟩

theorem same_of_fixed {xs : List Value} (h : ∀ v ∈ xs, v.Fixed t) : Forall₂ (Value.Same t) xs xs :=
  forall₂_same.mpr (fun v hv => ⟨rfl,h v hv⟩)

/-- The keys of mappings that may be read as data. -/
theorem same_keys {es es' : Entries} (h : Entries.Tied t True es es') : Forall₂ (Value.Same t) es.keys es'.keys :=
  forall₂_map_left_iff.mpr (forall₂_map_right_iff.mpr (Forall₂.imp (fun _ _ he => ⟨he.1,(he.2 trivial).1⟩) h))

theorem fixed_ofChars (text : String) : ∀ v ∈ Value.ofChars text, v.Fixed t := by
  intro v hv
  obtain ⟨_,_,rfl⟩ := mem_map.mp hv
  exact .atom rfl

theorem fixed_ofField {f : String × Value} (h : f.2.Fixed t) : (Value.ofField f).Fixed t := by
  refine .tuple (fun v hv => ?_)
  simp only [mem_cons,not_mem_nil,or_false] at hv
  rcases hv with rfl | rfl
  · exact .atom rfl
  · exact h

namespace Build.Lists
variable {R R' : Value → Value → Prop}

theorem mono (h : Lists t R v w) (hr : ∀ a b, R a b → R' a b) : Lists t R' v w := by
  cases h with
  | stream h => exact .stream (fun xs ys hs => (h xs ys hs).imp hr)
  | shared hreads h => exact .shared hreads (fun es es' hs => (h es es' hs).imp hr)
  | range h => exact .range (fun k => hr _ _ (h k))
  | still hv hw h =>
    refine .still hv hw (fun m m' hm => ?_)
    have ho := h m m' hm
    generalize v.elements? m = o,w.elements? m' = o' at ho ⊢
    cases ho with
    | none => exact .none
    | some ho => exact .some (ho.imp hr)

/-- Values that list the same items in any memory. -/
theorem items {xs ys : List Value} (hv : v.isStill) (hw : w.isStill) (hx : ∀ m, v.elements? m = some xs)
    (hy : ∀ m, w.elements? m = some ys) (h : Forall₂ R xs ys) : Lists t R v w := by
  refine .still hv hw (fun m m' _ => ?_)
  rw [hx,hy]
  exact .some h

theorem nothing (hv : v.isStill) (hw : w.isStill) (hx : ∀ m, v.elements? m = none) (hy : ∀ m, w.elements? m = none) :
    Lists t R v w := by
  refine .still hv hw (fun m m' _ => ?_)
  rw [hx,hy]
  exact .none

/-- What is fixed and lists the same items in any memory. -/
theorem ofFixed {xs : List Value} (hv : v.isStill) (hx : ∀ m, v.elements? m = some xs) (h : ∀ v ∈ xs, v.Fixed t) :
    Lists t (Value.Same t) v v := items hv hv hx hx (same_of_fixed h)

/-- A record of fields that are fixed. -/
theorem ofRecord {fields : List (String × Value)} (hv : v.isStill)
    (hx : ∀ m, v.elements? m = some (fields.map Value.ofField)) (h : ∀ f ∈ fields, f.2.Fixed t) :
    Lists t (Value.Same t) v v := by
  refine .ofFixed hv hx (fun w hw => ?_)
  obtain ⟨f,hf,rfl⟩ := mem_map.mp hw
  exact fixed_ofField (h f hf)

end Build.Lists

theorem Value.Fixed.lists (h : v.Fixed t) : Lists t (Value.Same t) v v := by
  cases h with
  | @atom v h =>
    cases v with
    | null | bool _ | int _ | float _ => exact .nothing rfl rfl (fun _ => rfl) (fun _ => rfl)
    | text _ | operator _ | direction _ => exact .ofFixed rfl (fun _ => rfl) (fixed_ofChars _)
    | bytes b =>
      refine .ofFixed rfl (fun _ => rfl) (fun v hv => ?_)
      obtain ⟨_,_,rfl⟩ := mem_map.mp hv
      exact .atom rfl
    | range a b c => exact .range (fun k => ⟨rfl,.atom rfl⟩)
    | raw sql => exact .ofRecord rfl (fun _ => rfl) (forall_mem_singleton.mpr (.atom rfl))
    | _ => cases h
  | stream h => exact .stream (fun xs ys hs => (hs.names h).1 ▸ same_of_fixed (hs.names h).2)
  | list h => exact .ofFixed rfl (fun _ => rfl) h
  | tuple h => exact .ofFixed rfl (fun _ => rfl) h
  | set h => exact .ofFixed rfl (fun _ => rfl) h
  | mapping hk hv => exact .ofFixed rfl (fun _ => rfl) (by simpa [Entries.keys] using hk)
  | expression hk hv =>
    exact .ofRecord rfl (fun _ => rfl) (forall_mem_cons.mpr ⟨.atom rfl,forall_mem_singleton.mpr (.mapping hk hv)⟩)
  | @pairs columns h =>
    have hfixed : ∀ e ∈ Entries.ofNames columns, e.1.Fixed t ∧ e.2.Fixed t := by
      intro e he
      obtain ⟨f,hf,rfl⟩ := mem_map.mp he
      exact ⟨.atom rfl,h f hf⟩
    exact .ofRecord rfl (fun _ => rfl)
      (forall_mem_singleton.mpr (.mapping (fun e he => (hfixed e he).1) (fun e he => (hfixed e he).2)))
  | operation h =>
    exact .ofRecord rfl (fun _ => rfl) (forall_mem_cons.mpr ⟨.atom rfl,forall_mem_singleton.mpr (.list h)⟩)
  | join h =>
    exact .ofRecord rfl (fun _ => rfl)
      (forall_mem_cons.mpr ⟨.atom rfl,forall_mem_cons.mpr ⟨.atom rfl,forall_mem_singleton.mpr h⟩⟩)
  | scope hp hn => exact .nothing rfl rfl (fun _ => rfl) (fun _ => rfl)
  | shared h => exact .shared (.inr (t.apart _ h)) (fun es es' hes => same_keys hes)
  | @query cell h =>
    refine .still rfl rfl (fun m m' hm => ?_)
    obtain ⟨he,hfs⟩ := hm.settled cell h
    show Option.Rel _ (some ((m.fields cell).map Value.ofField)) (some ((m'.fields cell).map Value.ofField))
    rw [← he]
    refine .some (same_of_fixed (fun v hv => ?_))
    obtain ⟨f,hf,rfl⟩ := mem_map.mp hv
    exact fixed_ofField (hfs f hf)

/-! ## Names -/

namespace Build

theorem match_soughtInStream {wanted : String} {cell : Nat} (h : t.names cell) (limit : Nat) :
    Matches t s (soughtInStream wanted cell limit) (soughtInStream wanted cell limit) Eq := by
  induction limit with
  | zero => exact .pure rfl
  | succ limit ih =>
    unfold soughtInStream
    have hs : ∀ xs ys, t.Streams cell xs ys → Forall₂ Eq xs ys := by
      intro xs ys hs
      rw [(hs.names h).1,forall₂_eq_eq_eq]
    refine .bind (match_next? hs) (fun o o' ho => ?_)
    cases ho with
    | none => exact .pure rfl
    | @some v w hvw =>
      cases hvw
      dsimp only
      split
      · exact .pure rfl
      · exact ih

theorem match_holds (h : v.Fixed t) (needle : Char) : Matches t s (holds s needle v) (holds s needle v) Eq := by
  unfold holds
  dsimp only
  cases v.text? with
  | some text => exact .pure rfl
  | none =>
    have hlisted : Matches t s (do return (← elements s v).any (fun item => item.text? == some (String.singleton needle)))
        (do return (← elements s v).any (fun item => item.text? == some (String.singleton needle))) Eq :=
      .map (match_elements h.lists) (fun xs ys hxy => by rw [(same_items hxy).1])
    dsimp only
    split
    · exact .pure rfl
    · exact .pure rfl
    · exact .pure rfl
    · exact .pure rfl
    · exact .pure rfl
    · exact .pure rfl
    · exact .misuse _
    · next cell =>
      have hc : t.names cell := by
        cases h with
        | atom h => cases h
        | stream h => exact h
      refine .get (fun d d' hd => ?_)
      rw [((hd.memory.streams cell).names hc).1]
      exact match_soughtInStream hc _ d d' hd
    · exact hlisted

theorem match_shown (h : v.Fixed t) : Matches t s (shown s v) (shown s v) Eq := by
  unfold shown
  refine .view (fun m m' hm => .pure ?_)
  unfold Memory.display
  rw [h.display hm.texts]

theorem match_columnName (h : v.Fixed t) : Matches t s (columnName s v) (columnName s v) Eq := by
  unfold columnName
  split
  · exact .pure rfl
  · refine .bind (match_holds h '(') (fun b b' hb => ?_)
    cases hb
    split
    · exact match_shown h
    · refine .bind (match_holds h '.') (fun b b' hb => ?_)
      cases hb
      split
      · exact .misuse _
      · split
        · exact match_shown h
        · exact .pure rfl
        · exact .misuse _

theorem match_listedColumn (h : v.Fixed t) : Matches t s (listedColumn s v) (listedColumn s v) Eq := by
  unfold listedColumn
  split
  · exact .pure rfl
  · refine .bind (match_holds h '(') (fun b b' hb => ?_)
    cases hb
    split
    · exact .pure rfl
    · exact .map (match_columnName h) (fun _ _ hn => by rw [hn])

theorem match_nameList (names : List (Option Sql)) : Matches t s (nameList names) (nameList names) Eq := by
  unfold nameList
  split
  · exact .pure rfl
  · exact .misuse _

theorem match_tableName (h : v.Fixed t) : Matches t s (tableName s v) (tableName s v) Eq := by
  unfold tableName
  split
  · exact .pure rfl
  · refine .bind (match_holds h '(') (fun b b' hb => ?_)
    cases hb
    split
    · exact match_shown h
    · exact .misuse _

end Build

end SqlCompose
