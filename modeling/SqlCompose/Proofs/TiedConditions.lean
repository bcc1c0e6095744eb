import SqlCompose.Condition
import SqlCompose.Proofs.TiedTexts

/-! # Conditions that differ in literals

What is alike lists and holds alike values, and is bound or written out alike. So conditions that differ in literals are
written by the same SQL.
-/
namespace SqlCompose
open List Build

variable {t : Ties} {s : Setting} {m m' : Memory} {v w : Value} {α : Type}

/-! ## Values that are alike -/

def Paired (R : Value → Value → Prop) (e e' : α × Value) : Prop := e.1 = e'.1 ∧ R e.2 e'.2

/-- Names in the same order, and related values. -/
theorem paired {R : Value → Value → Prop} {es es' : List (α × Value)} (hk : es.map (·.1) = es'.map (·.1))
    (hv : Forall₂ R (es.map (·.2)) (es'.map (·.2))) : Forall₂ (Paired R) es es' := by
  induction es generalizing es' with
  | nil =>
    cases es' with
    | nil => exact .nil
    | cons e' es' => cases hk
  | cons e es ih =>
    cases es' with
    | nil => cases hk
    | cons e' es' =>
      obtain ⟨hk,hks⟩ := cons.inj hk
      obtain ⟨hv,hvs⟩ := forall₂_cons.mp hv
      exact .cons ⟨hk,hv⟩ (ih hks hvs)

theorem isEmpty_of_related {β : Type} {R : α → β → Prop} {xs : List α} {ys : List β} (h : Forall₂ R xs ys) :
    xs.isEmpty = ys.isEmpty := by
  cases h <;> rfl

theorem Entries.Tied.paired {P : Prop} {es es' : Entries} (h : Entries.Tied t P es es') (hp : P) :
    Forall₂ (Paired (Value.Alike t)) es es' := Forall₂.imp (fun _ _ he => ⟨he.1,(he.2 hp).2⟩) h

/-- The entries of a shared mapping that may be read as data. -/
theorem Memory.Tied.paired {home : Home} (hm : m.Tied t m') (h : t.Reads home) :
    Forall₂ (Paired (Value.Alike t)) (m.mapping home) (m'.mapping home) := (hm.mappings home).paired h

namespace Value

theorem alike_ofField {f f' : String × Value} (h : Paired (Alike t) f f') : (ofField f).Alike t (ofField f') := by
  refine .tuple (.cons ?_ (.cons h.2 .nil))
  rw [h.1]
  exact .fixed (.atom rfl)

theorem keys_ofNames (columns : List (String × Value)) :
    (Entries.ofNames columns).keys = (columns.map (·.1)).map .text := by
  simp [Entries.keys,Entries.ofNames]

theorem values_ofNames (columns : List (String × Value)) : (Entries.ofNames columns).values = columns.map (·.2) := by
  simp [Entries.values,Entries.ofNames]

theorem listsValues_of_isLiteral (h : v.isLiteral) : v.listsValues = false := by
  cases v <;> first | rfl | cases h

namespace Alike

theorem listsValues (h : v.Alike t w) : v.listsValues = w.listsValues := by
  cases h with
  | literal hv hw => rw [listsValues_of_isLiteral hv,listsValues_of_isLiteral hw]
  | _ => rfl

/-- What is alike lists values that are alike. -/
theorem lists (h : v.Alike t w) (hl : v.listsValues) : Lists t (Alike t) v w := by
  cases h with
  | literal hv hw =>
    rw [listsValues_of_isLiteral hv] at hl
    cases hl
  | fixed h => exact h.lists.mono (fun a b hab => hab.1 ▸ .fixed hab.2)
  | list h => exact .items rfl rfl (fun _ => rfl) (fun _ => rfl) h
  | tuple h => exact .items rfl rfl (fun _ => rfl) (fun _ => rfl) h
  | set h => exact .items rfl rfl (fun _ => rfl) (fun _ => rfl) h
  | pairs hn hv =>
    refine .items rfl rfl (fun _ => rfl) (fun _ => rfl) (.cons (alike_ofField ⟨rfl,?_⟩) .nil)
    refine .mapping ?_ ?_
    · rw [keys_ofNames,keys_ofNames,hn]
    · rwa [values_ofNames,values_ofNames]
  | operation h =>
    exact .items rfl rfl (fun _ => rfl) (fun _ => rfl)
      (.cons (alike_ofField ⟨rfl,.fixed (.atom rfl)⟩) (.cons (alike_ofField ⟨rfl,.list h⟩) .nil))
  | join h =>
    exact .items rfl rfl (fun _ => rfl) (fun _ => rfl) (.cons (alike_ofField ⟨rfl,.fixed (.atom rfl)⟩)
      (.cons (alike_ofField ⟨rfl,.fixed (.atom rfl)⟩) (.cons (alike_ofField ⟨rfl,h⟩) .nil)))
  | stream h => exact .stream (fun xs ys hs => hs.values h)
  | @query cell h =>
    refine .still rfl rfl (fun m m' hm => .some ?_)
    exact forall₂_map_left_iff.mpr (forall₂_map_right_iff.mpr ((hm.data cell h).imp (fun _ _ hf => alike_ofField hf)))
  | _ => cases hl

/-- Nothing is alike to nothing only. -/
theorem null_iff (h : v.Alike t w) : v = .null ↔ w = .null := by
  cases h with
  | literal hv hw =>
    constructor
    · rintro rfl
      cases hv
    · rintro rfl
      cases hw
  | fixed h => rfl
  | _ => constructor <;> intro he <;> cases he

/-- What is alike holds alike values under the same keys. -/
theorem entries (h : v.Alike t w) (hm : m.Tied t m') :
    Option.Rel (Forall₂ (Paired (Alike t))) (v.entries? m) (w.entries? m') := by
  have hliteral : ∀ {u : Value}, u.isLiteral → ∀ m, u.entries? m = none := by
    intro u hu m
    cases u <;> first | rfl | cases hu
  have hsame : ∀ {es : Entries}, (∀ e ∈ es, e.2.Fixed t) → Forall₂ (Paired (Alike t)) es es :=
    fun he => forall₂_same.mpr (fun e hm => ⟨rfl,.fixed (he e hm)⟩)
  cases h with
  | literal hv hw =>
    rw [hliteral hv,hliteral hw]
    exact .none
  | fixed h =>
    cases h with
    | @atom v h => cases v <;> first | exact .none | cases h
    | mapping hk hv => exact .some (hsame hv)
    | shared h => exact .some (hm.paired (.inr (t.apart _ h)))
    | _ => exact .none
  | mapping hk hv => exact .some (paired hk hv)
  | shared h => exact .some (hm.paired h)
  | _ => exact .none

end Alike

end Value

namespace Entries
variable {es es' : Entries}

theorem get?_paired (key : Value) (h : Forall₂ (Paired (Value.Alike t)) es es') :
    Option.Rel (Value.Alike t) (es.get? key) (es'.get? key) := by
  unfold get?
  induction h with
  | nil => exact .none
  | @cons e e' es es' he _ ih =>
    simp only [find?_cons,← he.1]
    split
    · exact .some he.2
    · exact ih

end Entries

/-! ## Membership and pattern tests -/

namespace Condition
variable {column : Value}

theorem match_field (h : v.Alike t w) : Matches t s (field s column v) (field s column w) (Value.Alike t) := by
  refine .view (fun m m' hm => ?_)
  have he := h.entries hm
  generalize v.entries? m = o,w.entries? m' = o' at he ⊢
  cases he with
  | none => exact .pure h
  | @some es es' he =>
    dsimp only
    split
    · apply Matches.pure
      have hv := Entries.get?_paired column he
      generalize es.get? column = x,es'.get? column = y at hv ⊢
      cases hv with
      | none => exact .fixed (.atom rfl)
      | some hv => exact hv
    · exact .misuse _

theorem match_entry (h : v.Alike t w) : Matches t s (entry s v) (entry s w) Eq := by
  have hentry : ∀ {u : Value}, u ≠ .null → entry s u = rendered s u := by
    intro u hu
    cases u <;> first | rfl | exact absurd rfl hu
  by_cases hn : v = .null
  · rw [hn,h.null_iff.mp hn]
    exact .pure rfl
  · rw [hentry hn,hentry (fun hw => hn (h.null_iff.mpr hw))]
    exact match_rendered (.alike h)

theorem match_entryOfField (h : v.Alike t w) :
    Matches t s (do entry s (← field s column v)) (do entry s (← field s column w)) Eq :=
  .bind (match_field h) (fun _ _ h => match_entry h)

theorem match_valuesOf (h : v.Alike t w) : Matches t s (valuesOf s v) (valuesOf s w) (Forall₂ (Value.Alike t)) := by
  unfold valuesOf
  rw [← h.listsValues]
  split
  · next hl => exact match_elements (h.lists hl)
  · exact .pure (.cons h .nil)

/-- Parts that are written by the same SQL. -/
theorem match_parts {β γ : Type} {f : β → Build α} {g : γ → Build α} {R : β → γ → Prop} {xs : List β} {ys : List γ}
    (h : Forall₂ R xs ys) (hf : ∀ a b, R a b → Matches t s (f a) (g b) Eq) : Matches t s (xs.mapM f) (ys.mapM g) Eq :=
  (Matches.mapM h hf).weaken (fun _ _ h => forall₂_eq_eq_eq ▸ h)

/-- Parts that stand on both sides. -/
theorem match_shared {β : Type} {f g : β → Build α} {l : List β} (h : ∀ a ∈ l, Matches t s (f a) (g a) Eq) :
    Matches t s (l.mapM f) (l.mapM g) Eq := by
  refine match_parts (R := fun a b => a = b ∧ a ∈ l) (forall₂_same.mpr (fun a ha => ⟨rfl,ha⟩)) (fun a b hab => ?_)
  obtain ⟨rfl,ha⟩ := hab
  exact h a ha

variable {values values' : List Value}

theorem match_singleMember (negated : Bool) (hc : column.Fixed t) (h : Forall₂ (Value.Alike t) values values') :
    Matches t s (singleMember s negated column values) (singleMember s negated column values') Eq := by
  unfold singleMember
  refine .bind (match_parts h (fun _ _ h => match_entryOfField h)) (fun entries _ he => ?_)
  cases he
  refine .bind (match_columnName hc) (fun name _ hn => ?_)
  cases hn
  split <;> exact .pure rfl

theorem match_memberRow {columns : List Value} (negated : Bool) (h : v.Alike t w) :
    Matches t s (memberRow s negated columns v) (memberRow s negated columns w) Eq := by
  refine .view (fun m m' hm => ?_)
  have he := h.entries hm
  generalize v.entries? m = o,w.entries? m' = o' at he ⊢
  cases he with
  | none => exact .fail rfl
  | some _ => exact .map (match_shared (fun _ _ => match_entryOfField h)) (fun _ _ h => by rw [h])

theorem match_compositeMember {columns : List Value} (negated : Bool) (hc : ∀ column ∈ columns, column.Fixed t)
    (h : Forall₂ (Value.Alike t) values values') :
    Matches t s (compositeMember s negated columns values) (compositeMember s negated columns values') Eq := by
  unfold compositeMember
  refine .bind (match_parts h (fun _ _ h => match_memberRow negated h)) (fun rows _ hr => ?_)
  cases hr
  refine .bind (match_shared (fun column hm => match_listedColumn (hc column hm))) (fun names _ hn => ?_)
  cases hn
  exact .map (match_nameList names) (fun _ _ h => by rw [h])

theorem fixed_columns {columns : List Value} (hc : column.Fixed t) (h : columns? column = some columns) :
    ∀ v ∈ columns, v.Fixed t := by
  cases hc with
  | list hs =>
    cases h
    exact hs
  | tuple hs =>
    cases h
    exact hs
  | atom hv =>
    cases column with
    | list _ | tuple _ => cases hv
    | _ => cases h
  | _ => cases h

theorem match_member (negated : Bool) (hc : column.Fixed t) (h : v.Alike t w) :
    Matches t s (member s negated column v) (member s negated column w) Eq := by
  unfold member
  refine .bind (match_valuesOf h) (fun values values' hv => ?_)
  rw [isEmpty_of_related hv]
  split
  · exact .pure rfl
  · split
    · exact .pure rfl
    · next hs => exact match_singleMember negated (fixed_columns hc hs _ (.head _)) hv
    · next hs => exact match_compositeMember negated (fixed_columns hc hs) hv
    · exact match_singleMember negated hc hv

theorem match_like (any negated : Bool) (hc : column.Fixed t) (h : v.Alike t w) :
    Matches t s (like s any negated column v) (like s any negated column w) Eq := by
  unfold like
  refine .bind (match_valuesOf h) (fun values values' hv => ?_)
  rw [isEmpty_of_related hv]
  split
  · exact .pure rfl
  · refine .bind (match_columnName hc) (fun name _ hn => ?_)
    cases hn
    refine .map (match_parts hv (fun v w h => ?_)) (fun _ _ h => by rw [h])
    exact .map (match_rendered (.alike h)) (fun _ _ h => by rw [h])

theorem match_between (negated : Bool) {low low' high high' : Value} (hc : column.Fixed t) (hl : low.Bound t low')
    (hh : high.Bound t high') :
    Matches t s (between s negated column low high) (between s negated column low' high') Eq := by
  unfold between
  refine .bind (match_columnName hc) (fun name _ hn => ?_)
  cases hn
  refine .bind (match_rendered hl) (fun first _ hf => ?_)
  cases hf
  exact .map (match_rendered hh) (fun _ _ h => by rw [h])

theorem match_comparison (c : Comparison) (hc : column.Fixed t) (h : v.Bound t w) :
    Matches t s (comparison s c column v) (comparison s c column w) Eq := by
  unfold comparison
  refine .bind (match_columnName hc) (fun name _ hn => ?_)
  cases hn
  exact .map (match_rendered h) (fun _ _ h => by rw [h])

/-! ## Conditions -/

theorem match_pair (name : String) (h : v.Alike t w) : Matches t s (pair s name v) (pair s name w) Eq := by
  have hpair : ∀ {u : Value}, u.listsValues = false → u ≠ .null →
      pair s name u = (do return Sql.column name ++ [.text "="] ++ (← rendered s u)) := by
    intro u hl hn
    cases u <;> first | rfl | exact absurd rfl hn | cases hl
  by_cases hl : v.listsValues
  · have hl' : w.listsValues := h.listsValues ▸ hl
    unfold pair
    rw [if_pos hl,if_pos hl']
    exact match_member false (.atom rfl) h
  · have hv := Bool.eq_false_iff.mpr hl
    have hw : w.listsValues = false := h.listsValues ▸ hv
    by_cases hn : v = .null
    · rw [hn,h.null_iff.mp hn]
      exact .pure rfl
    · rw [hpair hv hn,hpair hw (fun he => hn (h.null_iff.mpr he))]
      exact .map (match_rendered (.alike h)) (fun _ _ h => by rw [h])

theorem match_pairs {columns columns' : List (String × Value)} (h : Forall₂ (Paired (Value.Alike t)) columns columns') :
    Matches t s (pairs s columns) (pairs s columns') Eq := by
  refine .bind (match_parts h (fun c c' hc => ?_)) (fun parts _ hp => ?_)
  · rw [hc.1]
    exact match_pair c'.1 hc.2
  · cases hp
    split <;> exact .pure rfl

/-- Operands that differ in literals, behind the same column. -/
theorem match_operate {op : Operator} {xs ys : List Value} {inner inner' : Build (List Sql)} (h : Operands t op xs ys)
    (hi : Forall₂ (Tied t) xs ys → Matches t s inner inner' Eq) :
    Matches t s (operate s op xs inner) (operate s op ys inner') Eq := by
  cases h with
  | and h => exact .map (hi h) (fun _ _ h => by rw [h])
  | or h => exact .map (hi h) (fun _ _ h => by rw [h])
  | none =>
    cases op with
    | and | or => exact .map (hi .nil) (fun _ _ h => by rw [h])
    | between _ | member _ | like _ _ | compare _ => exact .fail rfl
  | @test op column xs ys hop hc h =>
    cases op with
    | and => exact absurd rfl hop.1
    | or => exact absurd rfl hop.2
    | between negated =>
      rcases h with _ | ⟨hl,_ | ⟨hh,_ | ⟨_,hrest⟩⟩⟩
      · exact .fail rfl
      · exact .fail rfl
      · exact match_between negated hc hl hh
      · exact .fail (by rw [length_cons,length_cons,length_cons,length_cons,hrest.length_eq]; rfl)
    | member negated =>
      rcases h with _ | ⟨hv,_ | ⟨_,hrest⟩⟩
      · exact .fail rfl
      · exact match_member negated hc hv
      · exact .fail (by rw [length_cons,length_cons,length_cons,hrest.length_eq]; rfl)
    | like any negated =>
      rcases h with _ | ⟨hv,_ | ⟨_,hrest⟩⟩
      · exact .fail rfl
      · exact match_like any negated hc hv
      · exact .fail (by rw [length_cons,length_cons,length_cons,hrest.length_eq]; rfl)
    | compare c =>
      rcases h with _ | ⟨hv,_ | ⟨_,hrest⟩⟩
      · exact .fail rfl
      · exact match_comparison c hc hv
      · exact .fail (by rw [length_cons,length_cons,length_cons,hrest.length_eq]; rfl)

end Condition

namespace Text
variable {R : Value → Value → Prop} {named named' more more' : List (String × Value)}

theorem put_paired {name : String} (h : Forall₂ (Paired R) named named') (hv : R v w) :
    Forall₂ (Paired R) (put name v named) (put name w named') := by
  induction h with
  | nil => exact .cons ⟨rfl,hv⟩ .nil
  | @cons e e' named named' he hes ih =>
    obtain ⟨n,a⟩ := e
    obtain ⟨n',b⟩ := e'
    obtain ⟨rfl,hab⟩ := he
    unfold put
    by_cases hn : n == name
    · rw [if_pos hn,if_pos hn]
      exact .cons ⟨rfl,hv⟩ hes
    · rw [if_neg hn,if_neg hn]
      exact .cons ⟨rfl,hab⟩ ih

theorem putAll_paired (h : Forall₂ (Paired R) named named') (hm : Forall₂ (Paired R) more more') :
    Forall₂ (Paired R) (putAll named more) (putAll named' more') := by
  induction hm generalizing named named' with
  | nil => exact h
  | @cons e e' more more' he _ ih =>
    obtain ⟨n,a⟩ := e
    obtain ⟨n',b⟩ := e'
    obtain ⟨rfl,hab⟩ := he
    exact ih (put_paired h hab)

end Text

namespace Condition
variable {es es' : Entries}

/-- Mappings with the same keys are conditions over the same columns, or none on either side. -/
theorem named_paired {R : Value → Value → Prop} (h : Forall₂ (Paired R) es es') :
    Option.Rel (Forall₂ (Paired R)) es.named? es'.named? := by
  have hread : Option.Rel (Forall₂ (Paired R)) (es.mapM (fun e => e.1.readText?.map (fun key => (key,e.2))))
      (es'.mapM (fun e => e.1.readText?.map (fun key => (key,e.2)))) := by
    induction h with
    | nil => exact .some .nil
    | @cons e e' es es' he _ ih =>
      rw [mapM_cons,mapM_cons,he.1]
      cases e'.1.readText? with
      | none => exact .none
      | some name =>
        simp only [Option.map_some,Option.pure_def,Option.bind_eq_bind,Option.bind_some]
        generalize (es.mapM _ : Option _) = o,(es'.mapM _ : Option _) = o' at ih ⊢
        cases ih with
        | none => exact .none
        | some ih => exact .some (.cons ⟨rfl,he.2⟩ ih)
  unfold Entries.named?
  generalize (es.mapM _ : Option _) = o,(es'.mapM _ : Option _) = o' at hread ⊢
  cases hread with
  | none => exact .none
  | some hread => exact .some (Text.putAll_paired .nil hread)

/-- A mapping as a condition, in either memory. -/
theorem match_mapping (hv : ∀ m m', m.Tied t m' →
      ∃ es es', typed m v = typedPairs es ∧ typed m' w = typedPairs es' ∧ Forall₂ (Paired (Value.Alike t)) es es') :
    Matches t s (simple s v) (simple s w) Eq := by
  refine .view (fun m m' hm => ?_)
  obtain ⟨es,es',he,he',h⟩ := hv m m' hm
  rw [he,he']
  unfold typedPairs
  rw [isEmpty_of_related h]
  by_cases hnone : es'.isEmpty
  · rw [if_pos hnone,if_pos hnone]
    exact .pure rfl
  · rw [if_neg hnone,if_neg hnone]
    have hn := named_paired h
    generalize es.named? = o,es'.named? = o' at hn ⊢
    cases hn with
    | none => exact .fail rfl
    | some hn => exact match_pairs hn

theorem match_simple (h : isSimple v) : Matches t s (simple s v) (simple s v) Eq := by
  cases v with
  | null | text _ | operator _ | direction _ | raw _ => exact .view (fun _ _ _ => .pure rfl)
  | bool _ | int _ | float _ | bytes _ | set _ | range _ _ _ | stream _ | join _ _ _ | query _ | scope _ _ =>
    exact .view (fun _ _ _ => .fail rfl)
  | _ => cases h

theorem compile_of_isSimple (h : isSimple v) : compile s v = simple s v := by
  cases v <;> first | rfl | cases h

theorem symbol?_of_tied (h : Tied t v w) : symbol? v = symbol? w := by
  cases h <;> rfl

theorem match_compileAll {xs ys : List Value} (h : Forall₂ (Tied t) xs ys)
    (hc : ∀ v ∈ xs, ∀ w, Tied t v w → Matches t s (compile s v) (compile s w) Eq) :
    Matches t s (compileAll s xs) (compileAll s ys) Eq := by
  induction h with
  | nil => exact .pure rfl
  | @cons v w xs ys h hs ih =>
    rw [compileAll,compileAll,symbol?_of_tied h]
    have htail : ∀ sql sql' : Sql, sql = sql' → Matches t s (do return sql :: (← compileAll s xs))
        (do return sql' :: (← compileAll s ys)) Eq := by
      intro sql _ hsql
      cases hsql
      exact .map (ih (fun v hv => hc v (.tail _ hv))) (fun _ _ h => by rw [h])
    cases symbol? w with
    | some sql => exact .bind (R := Eq) (.pure rfl) htail
    | none => exact .bind (hc v (.head _) w h) htail

theorem match_compileForm {xs ys : List Value} (h : Form t xs ys)
    (hc : ∀ v ∈ xs, ∀ w, Tied t v w → Matches t s (compile s v) (compile s w) Eq) :
    Matches t s (compileForm s xs) (compileForm s ys) Eq := by
  cases h with
  | nil => exact .pure rfl
  | @cons head xs ys h =>
    rw [compileForm,compileForm]
    cases ho : Operator.ofValue head with
    | error x => exact .fail rfl
    | ok op => exact match_operate (h op ho) (fun hall => match_compileAll hall (fun v hv => hc v (.tail _ hv)))

/-- Conditions that differ in literals are written by the same SQL. -/
theorem match_compile {v w : Value} (h : Tied t v w) : Matches t s (compile s v) (compile s w) Eq := by
  cases v with
  | expression sql params =>
    cases h with
    | same h => cases h
    | expression h => exact match_rendered (.alike h)
  | operation op operands =>
    cases h with
    | same h => cases h
    | operation h => exact match_operate h (fun hall => match_compileAll hall (fun v hv w hw => match_compile hw))
  | list items =>
    cases h with
    | same h => cases h
    | list h => exact match_compileForm h (fun v hv w hw => match_compile hw)
  | tuple items =>
    cases h with
    | same h => cases h
    | tuple h => exact match_compileForm h (fun v hv w hw => match_compile hw)
  | pairs columns =>
    cases h with
    | same h => cases h
    | pairs hn hv => exact .view (fun _ _ _ => match_pairs (paired hn hv))
  | mapping es =>
    cases h with
    | same h => cases h
    | mapping hk hv => exact match_mapping (fun _ _ _ => ⟨_,_,rfl,rfl,paired hk hv⟩)
  | shared home =>
    cases h with
    | same h => cases h
    | shared h => exact match_mapping (fun _ _ hm => ⟨_,_,rfl,rfl,hm.paired h⟩)
  | _ =>
    cases h with
    | same h =>
      rw [compile_of_isSimple h]
      exact match_simple h
termination_by sizeOf v

end Condition

end SqlCompose
