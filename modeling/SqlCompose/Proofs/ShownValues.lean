import SqlCompose.Proofs.Cells

/-! # What the text of a value shows

The text of a value is put together from the texts of other values, and from these it comes to the contents of cells.
Two memories give a value the same text if they differ in mappings only which the value does not show.
-/
namespace SqlCompose
open Relation

namespace Value

def written : Value → List Value
  | .list items | .tuple items | .set items | .operation _ items => items
  | .mapping entries | .expression _ entries => Entries.keys entries ++ Entries.values entries
  | .pairs columns => columns.map (·.2)
  | .join _ _ on => [on]
  | .scope params namePrefix => [params,namePrefix]
  | _ => []

def shown (m : Memory) : Value → List Value
  | .list items | .tuple items | .set items | .operation _ items => items
  | .mapping entries | .expression _ entries => Entries.keys entries ++ Entries.values entries
  | .pairs columns => columns.map (·.2)
  | .join _ _ on => [on]
  | .scope params namePrefix => [params,namePrefix]
  | .shared home => (m.mapping home).keys ++ (m.mapping home).values
  | .query cell => (m.fields cell).map (·.2)
  | _ => []

def Shows (m : Memory) : Value → Value → Prop := ReflTransGen (fun v w => w ∈ v.shown m)

variable {m : Memory} {v w : Value} {c c' : CellTexts}

theorem mem_shown_of_written (h : w ∈ v.written) : w ∈ v.shown m := by
  cases v with
  | list _ | tuple _ | set _ | operation _ _ | mapping _ | expression _ _ | pairs _ | join _ _ _ | scope _ _ => exact h
  | _ => cases h

theorem sizeOf_entry {entries : Entries} (h : w ∈ Entries.keys entries ++ Entries.values entries) :
    sizeOf w < sizeOf entries := by
  rcases List.mem_append.mp h with h | h <;> obtain ⟨e,he,rfl⟩ := List.mem_map.mp h
  all_goals
    have hlt := List.sizeOf_lt_of_mem he
    obtain ⟨k,v⟩ := e
    simp only [Prod.mk.sizeOf_spec] at hlt ⊢
    omega

theorem sizeOf_written (h : w ∈ v.written) : sizeOf w < sizeOf v := by
  cases v with
  | list _ | tuple _ | set _ | operation _ _ =>
    have hlt := List.sizeOf_lt_of_mem h
    simp only [written,list.sizeOf_spec,tuple.sizeOf_spec,set.sizeOf_spec,operation.sizeOf_spec] at hlt ⊢
    omega
  | mapping _ | expression _ _ =>
    have hlt := sizeOf_entry h
    simp only [mapping.sizeOf_spec,expression.sizeOf_spec]
    omega
  | pairs columns =>
    obtain ⟨⟨name,v⟩,he,rfl⟩ := List.mem_map.mp h
    have hlt := List.sizeOf_lt_of_mem he
    simp only [pairs.sizeOf_spec,Prod.mk.sizeOf_spec] at hlt ⊢
    omega
  | join keyword table on =>
    rw [List.mem_singleton.mp h,join.sizeOf_spec]
    omega
  | scope params namePrefix =>
    rw [scope.sizeOf_spec]
    simp only [written,List.mem_cons,List.not_mem_nil,or_false] at h
    rcases h with rfl | rfl <;> omega
  | _ => cases h

theorem spellAll_congr {items : List Value} (h : ∀ v ∈ items, v.spell c = v.spell c') :
    spellAll c items = spellAll c' items := by
  induction items with
  | nil => rfl
  | cons v items ih => rw [spellAll,spellAll,h v (.head _),ih (fun v hv => h v (.tail _ hv))]

theorem spellEntries_congr {entries : Entries}
    (h : ∀ w ∈ Entries.keys entries ++ Entries.values entries, w.spell c = w.spell c') :
    spellEntries c entries = spellEntries c' entries := by
  induction entries with
  | nil => rfl
  | cons e entries ih =>
    simp only [Entries.keys,Entries.values,List.map_cons,List.cons_append,List.mem_cons,List.mem_append] at h
    rw [spellEntries,spellEntries,h e.1 (.inl rfl),h e.2 (.inr (.inr (.inl rfl)))]
    refine congrArg _ (ih (fun w hw => h w ?_))
    exact .inr ((List.mem_append.mp hw).imp id .inr)

theorem spellNamed_congr {columns : List (String × Value)} (h : ∀ w ∈ columns.map (·.2), w.spell c = w.spell c') :
    spellNamed c columns = spellNamed c' columns := by
  induction columns with
  | nil => rfl
  | cons e columns ih => rw [spellNamed,spellNamed,h e.2 (.head _),ih (fun w hw => h w (.tail _ hw))]

/-- A text depends on the texts of the values written out in it, and on that of the cell it stands for. -/
theorem spell_congr (hm : ∀ home, v = .shared home → c.mapping home = c'.mapping home)
    (hq : ∀ cell, v = .query cell → c.query cell = c'.query cell) (h : ∀ w ∈ v.written, w.spell c = w.spell c') :
    v.spell c = v.spell c' := by
  cases v with
  | null | bool _ | int _ | float _ | text _ | bytes _ | operator _ | direction _ | range _ _ _ | stream _ | raw _ => rfl
  | list items => exact congrArg (fun l => "[" ++ ", ".intercalate l ++ "]") (spellAll_congr h)
  | tuple items => exact congrArg spellTuple (spellAll_congr h)
  | set items =>
    cases items with
    | nil => rfl
    | cons v items => exact congrArg (fun l => "frozenset(\x7b" ++ ", ".intercalate l ++ "\x7d)") (spellAll_congr h)
  | mapping entries => exact congrArg spellMapping (spellEntries_congr h)
  | expression sql params =>
    exact congrArg (fun l => "Expression(" ++ spellFields ", " [("text",Text.quoted sql),("params",spellMapping l)] ++ ")")
      (spellEntries_congr h)
  | pairs columns =>
    exact congrArg (fun l => "HashCondition(" ++ spellFields ", " [("pairs",spellMapping l)] ++ ")") (spellNamed_congr h)
  | operation op operands =>
    exact congrArg (fun l => "OperatorCondition(" ++ spellFields ", "
      [("op",spellOperator op),("operands","[" ++ ", ".intercalate l ++ "]")] ++ ")") (spellAll_congr h)
  | join keyword table on =>
    exact congrArg (fun text => "JoinClause(" ++ spellFields ", "
      [("type",Text.quoted keyword),("table",Text.quoted table),("on",text)] ++ ")") (h on (.head _))
  | scope params namePrefix =>
    exact congrArg₂ (fun a b => "RuntimeContext(" ++ spellFields ", " [("params",a),("prefix",b)] ++ ")")
      (h params (.head _)) (h namePrefix (.tail _ (.head _)))
  | shared home => exact hm home rfl
  | query cell => exact congrArg (fun l => "QuerySpec(" ++ spellFields ", " l ++ ")") (hq cell rfl)

theorem display_congr (hs : v.spell c = v.spell c') (hq : ∀ cell, v = .query cell → c.query cell = c'.query cell)
    (h : ∀ w ∈ v.written, w.spell c = w.spell c') : v.display c = v.display c' := by
  cases v with
  | text _ | operator _ | direction _ | expression _ _ | raw _ => rfl
  | pairs columns => exact congrArg (fun l => spellFields " " [("pairs",spellMapping l)]) (spellNamed_congr h)
  | operation op operands =>
    exact congrArg (fun l => spellFields " " [("op",spellOperator op),("operands","[" ++ ", ".intercalate l ++ "]")])
      (spellAll_congr h)
  | join keyword table on =>
    exact congrArg (fun text => spellFields " " [("type",Text.quoted keyword),("table",Text.quoted table),("on",text)])
      (h on (.head _))
  | query cell => exact congrArg (spellFields " ") (hq cell rfl)
  | _ => exact hs

end Value

structure Memory.Agrees (hidden : Home → Prop) (m m' : Memory) : Prop where
  mappings : m'.mappings.size = m.mappings.size
  queries : m'.queries.size = m.queries.size
  mapping : ∀ home, ¬ hidden home → m'.mapping home = m.mapping home
  fields : ∀ cell, ¬ hidden (m.home cell) → m'.fields cell = m.fields cell

variable {hidden : Home → Prop} {m m' : Memory} {v w : Value} {c c' : CellTexts} {cell : Nat} {home : Home}

def Value.Clear (hidden : Home → Prop) (m : Memory) (v : Value) : Prop :=
  ∀ home, hidden home → ¬ v.Shows m (.shared home)

namespace Value.Clear

theorem part (h : v.Clear hidden m) (hw : w ∈ v.shown m) : w.Clear hidden m :=
  fun home hh hs => h home hh (.head hw hs)

theorem not_hidden (h : (Value.shared home).Clear hidden m) : ¬ hidden home := fun hh => h home hh .refl

/-- A query shows its parameters. -/
theorem not_hidden_query (h : (Value.query cell).Clear hidden m) : ¬ hidden (m.home cell) := by
  refine fun hh => h _ hh (.single ?_)
  exact List.mem_map.mpr ⟨("params",.shared (m.home cell)),by simp [Memory.fields,Query.fields],rfl⟩

theorem mapping (h : (Value.shared home).Clear hidden m) : (Value.mapping (m.mapping home)).Clear hidden m := by
  intro other hh hs
  obtain heq | ⟨w,hw,hs⟩ := hs.cases_head
  · cases heq
  · exact h other hh (.head hw hs)

end Value.Clear

structure CellTexts.AgreeOn (hidden : Home → Prop) (m : Memory) (c c' : CellTexts) : Prop where
  mapping : ∀ home, (Value.shared home).Clear hidden m → c'.mapping home = c.mapping home
  query : ∀ cell, (Value.query cell).Clear hidden m → c'.query cell = c.query cell

namespace Value

/-- A value that shows no hidden mapping has the same text in both. -/
theorem spell_clear (hc : c.AgreeOn hidden m c') (v : Value) (h : v.Clear hidden m) : v.spell c' = v.spell c :=
  spell_congr (fun home e => hc.mapping home (e ▸ h)) (fun cell e => hc.query cell (e ▸ h))
    (fun w hw => spell_clear hc w (h.part (mem_shown_of_written hw)))
termination_by sizeOf v
decreasing_by exact sizeOf_written hw

theorem display_clear (hc : c.AgreeOn hidden m c') (h : v.Clear hidden m) : v.display c' = v.display c :=
  display_congr (spell_clear hc v h) (fun cell e => hc.query cell (e ▸ h))
    (fun w hw => spell_clear hc w (h.part (mem_shown_of_written hw)))

end Value

namespace Memory.Agrees

theorem cellTexts (h : m.Agrees hidden m') (depth : Nat) : (m.cellTexts depth).AgreeOn hidden m (m'.cellTexts depth) := by
  induction depth with
  | zero => exact ⟨fun _ _ => rfl,fun _ _ => rfl⟩
  | succ depth ih =>
    constructor
    · intro home hc
      simp only [Memory.cellTexts]
      rw [h.mapping home hc.not_hidden,Value.spell_clear ih _ hc.mapping]
    · intro cell hc
      simp only [Memory.cellTexts]
      rw [h.fields cell hc.not_hidden_query]
      exact List.map_congr_left (fun f hf => by
        rw [Value.spell_clear ih f.2 (hc.part (List.mem_map_of_mem hf))])

/-- What shows no hidden mapping has the same text in both memories. -/
theorem display (h : m.Agrees hidden m') (hv : v.Clear hidden m) : m'.display v = m.display v := by
  unfold Memory.display Memory.texts
  rw [h.mappings,h.queries]
  exact Value.display_clear (h.cellTexts _) hv

end Memory.Agrees

end SqlCompose
