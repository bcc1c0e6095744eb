import SqlCompose.Json
import SqlCompose.Proofs.Entries
import SqlCompose.Proofs.Run

/-! # The values of JSON texts

What is read from a JSON text is plain data: numbers, texts, lists and mappings with texts for keys. It refers to no cell
of a memory, and no part of it is anything else.
-/
namespace SqlCompose

namespace Value

inductive IsJson : Value → Prop where
  | null : IsJson .null
  | bool (b : Bool) : IsJson (.bool b)
  | int (n : Int) : IsJson (.int n)
  | float (x : Number.Binary64) : IsJson (.float x)
  | text (t : String) : IsJson (.text t)
  | list {items : List Value} (h : ∀ v ∈ items, IsJson v) : IsJson (.list items)
  | mapping {entries : Entries} (hk : ∀ e ∈ entries, ∃ t, e.1 = .text t) (hv : ∀ e ∈ entries, IsJson e.2) :
    IsJson (.mapping entries)

end Value

namespace Json
open Value (IsJson)

variable {s rest : List Char} {v : Value}

theorem isJson_number (h : number s = .ok (v,rest)) : v.IsJson := by
  unfold number at h
  dsimp only at h
  split at h
  all_goals
    split at h
    · cases h
    · split at h
      · split at h
        · cases h
        · cases h
          exact .int _
      · split at h
        · cases h
          exact .float _
        · cases h

theorem isJson_atom (h : atom s = .ok (v,rest)) : v.IsJson := by
  unfold atom at h
  split at h
  · next word w hw =>
    cases h
    have hm := List.mem_of_find?_eq_some hw
    simp only [words,List.mem_cons,Prod.mk.injEq,List.not_mem_nil,or_false] at hm
    rcases hm with ⟨-,rfl⟩ | ⟨-,rfl⟩ | ⟨-,rfl⟩ | ⟨-,rfl⟩ | ⟨-,rfl⟩ | ⟨-,rfl⟩
    · exact .null
    · exact .bool _
    · exact .bool _
    · exact .float _
    · exact .float _
    · exact .float _
  · exact isJson_number h

def AreMembers (entries : Entries) : Prop := ∀ e ∈ entries, (∃ t, e.1 = .text t) ∧ e.2.IsJson

theorem isJson_mapping {entries : Entries} (h : AreMembers entries) : (Value.mapping (Entries.ofList entries)).IsJson := by
  have hall : AreMembers (Entries.ofList entries) :=
    Entries.forall_merge (fun _ _ he hf _ => ⟨he.1,hf.2⟩) (by simp) h
  exact .mapping (fun e he => (hall e he).1) (fun e he => (hall e he).2)

structure ReadsJson (fuel : Nat) : Prop where
  value : ∀ {levels s v rest}, value levels fuel s = .ok (v,rest) → v.IsJson
  elements : ∀ {levels s items rest}, elements levels fuel s = .ok (items,rest) → ∀ v ∈ items, v.IsJson
  members : ∀ {levels s entries rest}, members levels fuel s = .ok (entries,rest) → AreMembers entries

theorem readsJson_value {fuel levels : Nat} (ih : ReadsJson fuel) (h : value levels (fuel + 1) s = .ok (v,rest)) :
    v.IsJson := by
  unfold value at h
  split at h
  · obtain ⟨⟨cs,rest⟩,-,h⟩ := bind_eq_ok.mp h
    cases h
    exact .text _
  · cases h
  · cases h
  · split at h
    · cases h
      exact .list (by simp)
    · obtain ⟨⟨items,rest⟩,hi,h⟩ := bind_eq_ok.mp h
      cases h
      exact .list (ih.elements hi)
  · split at h
    · cases h
      exact .mapping (by simp) (by simp)
    · obtain ⟨⟨entries,rest⟩,he,h⟩ := bind_eq_ok.mp h
      cases h
      exact isJson_mapping (ih.members he)
  · exact isJson_atom h

theorem readsJson_elements {fuel levels : Nat} {items : List Value} (ih : ReadsJson fuel)
    (h : elements levels (fuel + 1) s = .ok (items,rest)) : ∀ v ∈ items, v.IsJson := by
  unfold elements at h
  obtain ⟨⟨v,rest⟩,hv,h⟩ := bind_eq_ok.mp h
  dsimp only at h
  split at h
  · cases h
    simpa using ih.value hv
  · obtain ⟨⟨vs,rest⟩,hvs,h⟩ := bind_eq_ok.mp h
    cases h
    simpa using ⟨ih.value hv,ih.elements hvs⟩
  · cases h

theorem readsJson_members {fuel levels : Nat} {entries : Entries} (ih : ReadsJson fuel)
    (h : members levels (fuel + 1) s = .ok (entries,rest)) : AreMembers entries := by
  unfold members at h
  split at h
  · obtain ⟨⟨key,rest⟩,-,h⟩ := bind_eq_ok.mp h
    dsimp only at h
    split at h
    · obtain ⟨⟨v,rest⟩,hv,h⟩ := bind_eq_ok.mp h
      dsimp only at h
      split at h
      · cases h
        simpa [AreMembers] using ih.value hv
      · obtain ⟨⟨more,rest⟩,hm,h⟩ := bind_eq_ok.mp h
        cases h
        exact List.forall_mem_cons.mpr ⟨⟨⟨_,rfl⟩,ih.value hv⟩,ih.members hm⟩
      · cases h
    · cases h
  · cases h

theorem readsJson (fuel : Nat) : ReadsJson fuel := by
  induction fuel with
  | zero =>
    constructor
    · intro _ _ _ _ h
      unfold Json.value at h
      cases h
    · intro _ _ _ _ h
      unfold Json.elements at h
      cases h
    · intro _ _ _ _ h
      unfold Json.members at h
      cases h
  | succ fuel ih => exact ⟨readsJson_value ih,readsJson_elements ih,readsJson_members ih⟩

/-- A text that can be read is plain data. -/
theorem isJson_read {text : String} {source : Value} (h : read text source = .ok v) : v.IsJson := by
  unfold read at h
  split at h
  · next w hw =>
    cases h
    unfold document at hw
    split at hw
    · cases hw
    · obtain ⟨⟨v,rest⟩,hv,hw⟩ := bind_eq_ok.mp hw
      dsimp only at hw
      split at hw
      · cases hw
        exact (readsJson _).value hv
      · cases hw
  · cases h
  · cases h
  · cases h

end Json

end SqlCompose
