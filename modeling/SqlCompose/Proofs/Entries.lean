import SqlCompose.Reading.Record
import Mathlib.Data.List.Basic
import Mathlib.Data.List.Nodup

/-! # Named entries of a mapping

A mapping that serves as a parameter collection is asked by names. Writing an entry changes what stands under
its own name and nothing else, whatever kinds of key the mapping has besides.
-/
namespace SqlCompose

namespace Text
variable {α : Type} {name t : String} {a : α} {named more : List (String × α)}

theorem mem_put {e : String × α} (h : e ∈ put name a named) : e = (name,a) ∨ e ∈ named := by
  induction named with
  | nil =>
    rw [put,List.mem_singleton] at h
    exact .inl h
  | cons f named ih =>
    rw [put] at h
    split at h
    · rcases List.mem_cons.mp h with h | h
      · exact .inl h
      · exact .inr (.tail _ h)
    · rcases List.mem_cons.mp h with h | h
      · exact .inr (h ▸ .head _)
      · exact (ih h).imp_right (.tail _)

theorem names_put : (put name a named).map (·.1) =
    if name ∈ named.map (·.1) then named.map (·.1) else named.map (·.1) ++ [name] := by
  induction named with
  | nil => rfl
  | cons e named ih =>
    unfold put
    by_cases he : e.1 = name
    · simp [he]
    · have hne : (e.1 == name) = false := by simpa using he
      simp only [hne,Bool.false_eq_true,if_false,List.map_cons,ih,List.mem_cons,Ne.symm he,false_or]
      split <;> rfl

theorem mem_names_put : t ∈ (put name a named).map (·.1) ↔ t = name ∨ t ∈ named.map (·.1) := by
  rw [names_put]
  split
  · next h => exact ⟨.inr,fun ht => ht.elim (fun he => he ▸ h) id⟩
  · rw [List.mem_append,List.mem_singleton,or_comm]

theorem put_of_not_mem (h : name ∉ named.map (·.1)) : put name a named = named ++ [(name,a)] := by
  induction named with
  | nil => rfl
  | cons e named ih =>
    rw [List.map_cons,List.mem_cons,not_or] at h
    have hne : (e.1 == name) = false := by simpa using Ne.symm h.1
    rw [put,hne,if_neg Bool.false_ne_true,ih h.2,List.cons_append]

theorem nodup_put (h : (named.map (·.1)).Nodup) : ((put name a named).map (·.1)).Nodup := by
  rw [names_put]
  split
  · exact h
  · next hnew => exact h.append (List.nodup_singleton name) (by simpa using hnew)

theorem nodup_putAll (h : (named.map (·.1)).Nodup) : ((putAll named more).map (·.1)).Nodup := by
  induction more generalizing named with
  | nil => exact h
  | cons e more ih => exact ih (nodup_put h)

/-- No name that is written is lost. -/
theorem mem_names_putAll (h : t ∈ named.map (·.1) ∨ t ∈ more.map (·.1)) : t ∈ (putAll named more).map (·.1) := by
  induction more generalizing named with
  | nil => simpa [putAll] using h
  | cons e more ih =>
    refine ih ?_
    rw [List.map_cons,List.mem_cons] at h
    rcases h with h | h | h
    · exact .inl (mem_names_put.mpr (.inr h))
    · exact .inl (mem_names_put.mpr (.inl h))
    · exact .inr h

end Text

namespace Value
variable {k l : Value} {t : String}

theorem same_of_text_left (h : k.text? = some t) : k.same l = (l.text? == some t) := by
  cases k <;> simp only [text?,reduceCtorEq] at h <;> cases h <;>
    cases l <;> simp [same,sameAtom,text?,Bool.beq_comm]

theorem same_of_text_right (h : l.text? = some t) : k.same l = (k.text? == some t) := by
  cases l <;> simp only [text?,reduceCtorEq] at h <;> cases h <;>
    cases k <;> simp [same,sameAtom,text?]

/-- Keys that are equal as values have the same name, if any. -/
theorem text?_of_same (h : k.same l) : k.text? = l.text? := by
  cases hk : k.text? with
  | some t =>
    rw [same_of_text_left hk] at h
    exact (eq_of_beq h).symm
  | none =>
    cases hl : l.text? with
    | none => rfl
    | some t =>
      rw [same_of_text_right hl,hk] at h
      cases h

end Value

namespace Entries
variable {k v w : Value} {es fs : Entries} {t : String}

def names (es : Entries) : List String := es.filterMap (fun e => e.1.text?)

theorem mem_names : t ∈ es.names ↔ ∃ e ∈ es, e.1.text? = some t := by simp [names]

theorem mem_names_cons {e : Value × Value} : t ∈ names (e :: es) ↔ e.1.text? = some t ∨ t ∈ es.names := by
  simp [mem_names]

theorem field?_eq (es : Entries) (t : String) :
    es.field? t = (es.find? (fun e => e.1.text? == some t)).map (·.2) := by
  simp only [field?,get?,Value.same_of_text_right (l := .text t) rfl]

@[simp] theorem field?_nil : field? [] t = none := rfl

theorem field?_cons (e : Value × Value) (es : Entries) :
    field? (e :: es) t = if e.1.text? = some t then some e.2 else es.field? t := by
  rw [field?_eq,field?_eq,List.find?_cons]
  by_cases h : e.1.text? = some t
  · simp [h]
  · have hb : (e.1.text? == some t) = false := by simp [h]
    rw [hb,if_neg h]

theorem isSome_field? : (es.field? t).isSome ↔ t ∈ es.names := by
  rw [field?_eq,mem_names]
  simp

theorem mem_of_field? (h : es.field? t = some v) : ∃ e ∈ es, e.1.text? = some t ∧ e.2 = v := by
  rw [field?_eq,Option.map_eq_some_iff] at h
  obtain ⟨e,he,hv⟩ := h
  exact ⟨e,List.mem_of_find?_eq_some he,by simpa using List.find?_some he,hv⟩

theorem field?_append : field? (es ++ fs) t = (es.field? t).or (fs.field? t) := by
  rw [field?_eq,field?_eq,field?_eq,List.find?_append]
  cases es.find? (fun e => e.1.text? == some t) <;> rfl

/-! ## Writing one entry -/

theorem put_cons (e : Value × Value) (es : Entries) :
    put k v (e :: es) = if e.1.same k then (e.1,v) :: es else e :: put k v es := rfl

theorem field?_put : (put k v es).field? t = if k.text? = some t then some v else es.field? t := by
  induction es with
  | nil => exact field?_cons (k,v) []
  | cons e es ih =>
    rw [put_cons]
    by_cases h : e.1.same k
    · rw [if_pos h,field?_cons,field?_cons,Value.text?_of_same h]
      by_cases hk : k.text? = some t
      · rw [if_pos hk,if_pos hk]
      · rw [if_neg hk,if_neg hk,if_neg hk]
    · rw [if_neg h,field?_cons,field?_cons,ih]
      by_cases he : e.1.text? = some t
      · have hk : ¬ k.text? = some t := by
          intro hk
          rw [Value.same_of_text_left he,hk] at h
          exact h (by simp)
        simp only [if_pos he,if_neg hk]
      · simp only [if_neg he]

theorem mem_names_put : t ∈ (put k v es).names ↔ k.text? = some t ∨ t ∈ es.names := by
  rw [← isSome_field?,← isSome_field?,field?_put]
  by_cases h : k.text? = some t
  · simp [h]
  · simp [h]

theorem put_of_not_mem (h : t ∉ es.names) : put (.text t) v es = es ++ [(.text t,v)] := by
  induction es with
  | nil => rfl
  | cons e es ih =>
    rw [mem_names_cons,not_or] at h
    obtain ⟨he,ht⟩ := h
    rw [put_cons,Value.same_of_text_right (l := .text t) rfl,ih ht]
    simp [he]

theorem length_le_put : es.length ≤ (put k v es).length := by
  induction es with
  | nil => simp
  | cons e es ih =>
    rw [put_cons]
    split
    · simp
    · simpa using ih

/-- What holds of all entries holds after one of them is written, if it does not depend on which of two equal keys
an entry has. -/
theorem forall_put {P : Value × Value → Prop} (hs : ∀ e f, P e → P f → e.1.same f.1 → P (e.1,f.2))
    (h : ∀ e ∈ es, P e) (hnew : P (k,v)) : ∀ e ∈ put k v es, P e := by
  induction es with
  | nil =>
    intro e he
    rw [List.mem_singleton.mp he]
    exact hnew
  | cons f es ih =>
    intro e he
    rw [put_cons] at he
    split at he
    · next hf =>
      rcases List.mem_cons.mp he with rfl | he
      · exact hs f (k,v) (h f (.head _)) hnew hf
      · exact h e (.tail _ he)
    · rcases List.mem_cons.mp he with rfl | he
      · exact h e (.head _)
      · exact ih (fun e he => h e (.tail _ he)) e he

theorem keys_cons (e : Value × Value) (es : Entries) : keys (e :: es) = e.1 :: es.keys := rfl

theorem keys_put : (put k v es).keys = if es.keys.any (·.same k) then es.keys else es.keys ++ [k] := by
  induction es with
  | nil => rfl
  | cons e es ih =>
    rw [put_cons,keys_cons,List.any_cons]
    cases he : e.1.same k with
    | true => simp [keys_cons]
    | false =>
      rw [if_neg (by decide),keys_cons,ih]
      by_cases h : (keys es).any (·.same k)
      · simp [h]
      · simp [h]

theorem mem_keys_put (h : w ∈ (put k v es).keys) : w ∈ es.keys ∨ w = k := by
  rw [keys_put] at h
  split at h
  · exact .inl h
  · exact (List.mem_append.mp h).imp_right List.mem_singleton.mp

theorem names_eq_keys (es : Entries) : es.names = es.keys.filterMap Value.text? := by
  simp [names,keys,List.filterMap_map]

theorem any_same_name (hk : k.text? = some t) : es.keys.any (·.same k) ↔ t ∈ es.names := by
  simp [names_eq_keys,Value.same_of_text_right hk]

theorem names_put (hk : k.text? = some t) :
    (put k v es).names = if t ∈ es.names then es.names else es.names ++ [t] := by
  rw [names_eq_keys,keys_put]
  simp only [any_same_name hk]
  split
  · exact (names_eq_keys es).symm
  · simp [names_eq_keys,hk]

theorem names_put_of_none (hk : k.text? = none) : (put k v es).names = es.names := by
  rw [names_eq_keys,names_eq_keys,keys_put]
  split
  · rfl
  · simp [hk]

theorem nodup_put (h : es.names.Nodup) : (put k v es).names.Nodup := by
  cases hk : k.text? with
  | none =>
    rw [names_put_of_none hk]
    exact h
  | some t =>
    rw [names_put hk]
    split
    · exact h
    · next ht => exact h.append (List.nodup_singleton t) (by simpa using ht)

/-- A key keeps its place. -/
theorem keys_prefix_put : es.keys <+: (put k v es).keys := by
  rw [keys_put]
  split
  · exact List.prefix_rfl
  · exact List.prefix_append _ _

/-! ## Writing several entries -/

variable {more : Entries}

theorem merge_cons (es : Entries) (e : Value × Value) (more : Entries) :
    merge es (e :: more) = merge (put e.1 e.2 es) more := rfl

@[simp] theorem merge_nil (es : Entries) : merge es [] = es := rfl

theorem mem_names_merge : t ∈ (merge es more).names ↔ t ∈ es.names ∨ t ∈ more.names := by
  induction more generalizing es with
  | nil => simp [names]
  | cons e more ih =>
    rw [merge_cons,ih,mem_names_put,mem_names_cons]
    constructor
    · rintro ((h | h) | h)
      · exact .inr (.inl h)
      · exact .inl h
      · exact .inr (.inr h)
    · rintro (h | h | h)
      · exact .inl (.inr h)
      · exact .inl (.inl h)
      · exact .inr h

theorem length_le_merge : es.length ≤ (merge es more).length := by
  induction more generalizing es with
  | nil => exact Nat.le_refl _
  | cons e more ih => exact Nat.le_trans length_le_put ih

theorem keys_prefix_merge : es.keys <+: (merge es more).keys := by
  induction more generalizing es with
  | nil => exact List.prefix_rfl
  | cons e more ih => exact keys_prefix_put.trans ih

theorem mem_keys_merge (h : k ∈ (es.merge more).keys) : k ∈ es.keys ∨ k ∈ more.keys := by
  unfold merge at h
  induction more generalizing es with
  | nil => exact .inl h
  | cons e more ih =>
    rcases ih h with h | h
    · rcases mem_keys_put h with h | rfl
      · exact .inl h
      · exact .inr (.head _)
    · exact .inr (.tail _ h)

theorem nodup_merge (h : es.names.Nodup) : (merge es more).names.Nodup := by
  induction more generalizing es with
  | nil => exact h
  | cons e more ih => exact ih (nodup_put h)

theorem nodup_names_cons {e : Value × Value} (h : (names (e :: more)).Nodup) :
    more.names.Nodup ∧ ∀ t, e.1.text? = some t → t ∉ more.names := by
  rw [names_eq_keys,keys_cons] at h
  rw [names_eq_keys more]
  cases he : e.1.text? with
  | none =>
    rw [List.filterMap_cons_none he] at h
    exact ⟨h,nofun⟩
  | some u =>
    rw [List.filterMap_cons_some he,List.nodup_cons] at h
    refine ⟨h.2,?_⟩
    rintro t ⟨⟩
    exact h.1

theorem field?_eq_none (h : t ∉ es.names) : es.field? t = none := by
  rw [← Option.not_isSome_iff_eq_none,isSome_field?]
  exact h

theorem forall_merge {P : Value × Value → Prop} (hs : ∀ e f, P e → P f → e.1.same f.1 → P (e.1,f.2))
    (h : ∀ e ∈ es, P e) (hm : ∀ e ∈ more, P e) : ∀ e ∈ merge es more, P e := by
  induction more generalizing es with
  | nil => exact h
  | cons f more ih => exact ih (forall_put hs h (hm f (.head _))) (fun e he => hm e (.tail _ he))

end Entries

end SqlCompose
