import SqlCompose.Proofs.ReadingBounds
import SqlCompose.Proofs.Shorthand
import SqlCompose.Proofs.SortOrders

/-! # Queries that are read again

The fields of a query are values of the types that they have, so each of them is read as what it is. A query in normal
form is read from its own fields, into a new cell.
-/
namespace SqlCompose

variable {m : Memory} {es : Entries} {c : Nat}

/-! ## Fields -/

namespace SortKey

theorem readEntry_toValue (e : String × SortKey) : readEntry m (.text e.1,e.2.toValue) = .ok (some e) := by
  have hread : read m e.2.toValue = .ok (some e.2) := by
    cases e.2 with
    | direction d => cases d <;> rfl
    | expression sql params => rfl
  rw [readEntry,hread]
  rfl

theorem readAll_toValue {l : List (String × SortKey)} (h : (l.map (·.1)).Nodup) :
    readAll m (.mapping (l.map (fun e => (.text e.1,e.2.toValue)))) = .ok (some l) := by
  refine readAll_of_keys ?_ h
  rw [List.mapM_map]
  simp only [Function.comp_def,readEntry_toValue]
  exact List.mapM_pure

end SortKey

theorem Member.readAll_toValue (nested : Entries → Reading (Option Nat)) (l : List Member) :
    readAll nested (.list (l.map toValue)) = pure (some l) := by
  have hmember : ∀ u : Member, read nested u.toValue = pure (some u) := by
    intro u
    cases u <;> rfl
  have hall : (l.map toValue).mapM (read nested) = pure (l.map some) := by
    rw [List.mapM_map]
    simp only [Function.comp_def,hmember]
    exact List.mapM_pure
  have hread : readAll nested (.list (l.map toValue)) = (do
      let _ ← get
      return (← Reading.each (read nested) (.list (l.map toValue))).bind (List.mapM id)) := rfl
  have heach : Reading.each (read nested) (.list (l.map toValue)) = (do
      let _ ← get
      return some (← (l.map toValue).mapM (read nested))) := rfl
  rw [hread,heach,hall]
  simp only [bind_assoc,pure_bind,Option.bind_some,sequence_some]
  rfl

theorem Reading.listed_list (l : List Value) : listed (.list l) = pure (some l) := by
  have hread : listed (.list l) = (do
      let _ ← get
      return some (← l.mapM (pure : Value → Reading Value))) := rfl
  have hall : l.mapM (pure : Value → Reading Value) = pure l := List.mapM_pure.trans (congrArg pure (List.map_id' l))
  rw [hread,hall]
  rfl

namespace Entries

theorem named?_ofNames {named : List (String × Value)} (h : (named.map (·.1)).Nodup) :
    (ofNames named).named? = some named := by
  have hall : (ofNames named).mapM (fun (e : Value × Value) => e.1.readText?.map (fun key => (key,e.2))) = some named := by
    rw [ofNames,List.mapM_map]
    exact List.mapM_pure.trans (congrArg some (List.map_id named))
  rw [named?,hall,Option.map_some,Text.putAll_of_nodup h,List.nil_append]

theorem Normal.readParams? {home : Home} (h : (m.mapping home).Normal) :
    (Value.shared home).readParams? m = some (m.mapping home) := by
  obtain ⟨named,hnodup,hparams⟩ := h
  have hread : (Value.shared home).readParams? m = ((m.mapping home).named?).map ofNames := rfl
  rw [hread,hparams,named?_ofNames hnodup]
  rfl

end Entries

/-! ## Queries -/

namespace Query
variable {nested : Entries → Reading (Option Nat)}

theorem readOptional_text (o : Option String) :
    readOptional Value.readText? ((o.map Value.text).getD .null) = some o := by
  cases o <;> rfl

theorem readOptional_int (o : Option Int) : readOptional Value.readInt? ((o.map Value.int).getD .null) = some o := by
  cases o <;> rfl

theorem readClause_field {α : Type} {name : String} {v : Value} {absent : α} {read : Value → Reading (Option α)}
    (h : es.field? name = some v) : readClause es name absent read = read v := by
  rw [readClause,h]

/-- A query in normal form is read from its fields, with parameters of its own, and nothing changes. -/
theorem ofEntries_fields (h : (m.detached c).Normal) :
    (ofEntries nested (Entries.ofNames (m.fields c))).runOn m = (.ok (.ok (m.detached c)),m) := by
  let es := Entries.ofNames (m.fields c)
  have hitems : ∀ {name : String} (l : List Item), es.field? name = some (.list (l.map Item.toValue)) →
      readClause es name [] Item.readAll = pure (some l) :=
    fun l hf => (readClause_field hf).trans (Item.readAll_toValue l)
  have hplain : ∀ {γ : Type} {name : String} {absent a : γ} {v : Value} (read : Value → Option γ),
      es.field? name = some v → read v = some a → readClause es name absent (fun v => pure (read v)) = pure (some a) := by
    intro γ name absent a v read hf hr
    rw [readClause_field hf,hr]
  have hjoins : readClause es "JOIN" [] Reading.listed = pure (some (m.query c).joins) :=
    (readClause_field rfl).trans (Reading.listed_list _)
  have hmembers : readClause es "UNION" [] (Member.readAll nested) = pure (some (m.query c).members) :=
    (readClause_field rfl).trans (Member.readAll_toValue nested _)
  have horder : readClause es "ORDER_BY" [] (fun v => Reading.ofMemory (fun m => SortKey.readAll m v)) =
      pure (some (m.query c).order) := by
    have hdistinct : ((m.query c).order.map (·.1)).Nodup := h.order
    rw [readClause_field rfl]
    simp only [SortKey.readAll_toValue hdistinct]
    rfl
  have hparams : (readClause es "params" [] (fun v => Reading.ofMemory (fun m => .ok (v.readParams? m)))).runOn m =
      (.ok (some (m.params c)),m) := by
    have hread : (Value.shared (m.home c)).readParams? m = some (m.params c) := Entries.Normal.readParams? h.params
    rw [readClause_field rfl,← hread]
    rfl
  unfold ofEntries
  rw [hitems (m.query c).columns rfl,hplain Value.readBool? rfl rfl,hplain _ rfl (readOptional_text _),
    hitems (m.query c).tables rfl,hjoins,hplain some rfl rfl,hitems (m.query c).groups rfl,hplain some rfl rfl,hmembers,
    horder,hplain _ rfl (readOptional_int _),hplain _ rfl (readOptional_int _)]
  simp only [pure_bind]
  rw [Reading.runOn_bind,hparams]
  -- all fields have the name of a clause, so none is left over
  rfl

/-- From its fields comes a new query that is the same. -/
theorem ofValue_fields (h : (m.detached c).Normal) : (ofValue (.mapping (Entries.ofNames (m.fields c)))).runOn m =
    (.ok (.ok (.query m.queries.size)),(m.addQuery (m.detached c)).2) := by
  have hmapping : ofValue (.mapping (Entries.ofNames (m.fields c))) =
      (do let _ ← get; read (Entries.ofNames (m.fields c))) := rfl
  rw [hmapping,Reading.runOn_bind,Reading.runOn_get]
  dsimp only
  rw [read,Reading.runOn_bind,ofEntries_fields h]
  rfl

/-- What is read as a query is one, or else a mapping from which a new query has been read. -/
theorem ofValue_ok {v w : Value} {m₁ : Memory} (h : (ofValue v).runOn m = (.ok (.ok w),m₁)) :
    (∃ c, v = .query c ∧ w = .query c ∧ m₁ = m) ∨
      ∃ es q m', v.entries? m = some es ∧ (ofEntries (readNested greatestNesting) es).runOn m = (.ok (.ok q),m') ∧
        w = .query m'.queries.size ∧ m₁ = (m'.addQuery q).2 := by
  unfold ofValue at h
  rw [Reading.runOn_bind,Reading.runOn_get] at h
  dsimp only at h
  split at h
  · next c =>
    cases h
    exact .inl ⟨c,rfl,rfl,rfl⟩
  · next es _ he =>
    rw [read,Reading.runOn_bind] at h
    rcases hr : (ofEntries (readNested greatestNesting) es).runOn m with ⟨x | q | q,m'⟩
    · rw [hr] at h
      cases h
    · rw [hr] at h
      cases h
    · rw [hr] at h
      cases h
      exact .inr ⟨es,q,m',he,hr,rfl,rfl⟩
  · cases h

end Query

end SqlCompose
