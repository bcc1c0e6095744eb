import SqlCompose.Proofs.Members
import SqlCompose.Proofs.ReadingFrame

/-! # What a build leaves behind

A build writes to the mappings in which its query, and the members that it comes upon, keep their parameters, and to
nothing else of a query. Every member is left with all bindings that there are when it has been written, and brings its
names into the collection before that, so in the end no member has a name that the query itself has not. Whoever else
keeps parameters in one of these mappings finds them grown.
-/
namespace SqlCompose
open Relation Build
open Request (Joins)

variable {x : Extent} {s : Setting} {m : Memory} {d e : Draft} {es more : Entries} {k v : Value} {t : String} {c : Nat}

namespace Extent

/-- No name of the collection comes to stand twice. -/
theorem Step.nodup (st : x.Step s d e) (h : d.bindings.names.Nodup) : e.bindings.names.Nodup := by
  cases st with
  | bind _ => exact Entries.nodup_put h
  | adopt _ => exact Entries.nodup_merge h
  | take _ => exact Entries.nodup_merge h
  | hand _ => exact h
  | drain _ => exact h

end Extent

namespace Query
variable {sql : Sql} {root : Nat}

end Query

/-! ## One build -/

namespace Query
variable {root : Nat} {t : Statement} {m' : Memory}

def within (s : Setting) (home : Home) : Setting := { s with collection := .shared home }

def begun (m : Memory) (root : Nat) : Draft := { bindings := m.params root,memory := m }

theorem binds_within {home : Home} : (within s home).Binds := .inr ⟨home,rfl⟩

theorem build_query (s : Setting) (m : Memory) (root : Nat) : build s (.query root) m =
    match (compile (within s (m.home root)) root).runOn (begun m root) with
      | (.ok sql,e) =>
        (.ok { sql,params := .mapping e.bindings,dialect := s.dialect },e.memory.setMapping (m.home root) e.bindings)
      | (.error x,e) => (.error x,e.memory.setMapping (m.home root) e.bindings) := by
  simp only [build,within,begun]
  rcases (compile _ root).runOn _ with ⟨x | sql,e⟩ <;> rfl

/-- A build that succeeds, taken apart. -/
theorem build_ok (h : build s (.query root) m = (.ok t,m')) :
    ∃ sql e, (compile (within s (m.home root)) root).runOn (begun m root) = (.ok sql,e) ∧
      t = { sql,params := .mapping e.bindings,dialect := s.dialect } ∧ m' = e.view (within s (m.home root)) := by
  rw [build_query] at h
  split at h
  · next sql e hr =>
    cases h
    exact ⟨sql,e,hr,rfl,rfl⟩
  · cases h

section Run
variable {sql : Sql} (hs : s.collection = .own)

theorem writes_of_member (h : ((Request.query root).extent m).member c) : m.Writes root (m.home c) := by
  obtain ⟨_,⟨⟩,hc⟩ := h
  exact ⟨c,hc.to_reflTransGen,rfl⟩

include hs

theorem covers_extent : ((Request.query root).extent m).Covers (within s (m.home root)) (begun m root) := by
  have hclosed := Request.closed_extent (m := m) (r := .query root)
  exact hclosed.covers (r := .query root) hs (hclosed.params ⟨root,rfl,.refl⟩)

end Run

section View
variable (st : ReflTransGen (((Request.query root).extent m).Step (within s (m.home root))) (begun m root) e)
include st

theorem query_view : (e.view (within s (m.home root))).query c =
    { m.query c with params := ((e.view (within s (m.home root))).query c).params } := by
  obtain ⟨es,hes⟩ := Extent.query_of_steps st c
  obtain ⟨es',hview⟩ := e.query_view (within s (m.home root)) c
  rw [hview,hes]
  rfl

/-- What shows in the end is what there was, apart from the mappings in which the query and its members keep
parameters. -/
theorem mapping_view {home : Home} (hw : ¬ m.Writes root home) :
    (e.view (within s (m.home root))).mapping home = m.mapping home := by
  have hne : home ≠ m.home root := fun he => hw ⟨root,.refl,he.symm⟩
  have hview : (e.view (within s (m.home root))).mapping home = e.memory.mapping home := Memory.mapping_setMapping_of_ne hne
  rw [hview]
  refine Extent.mapping_of_steps (fun c hc he => hw ?_) st
  have hwrites : m.Writes root (m.home c) := writes_of_member hc
  exact he ▸ hwrites

end View

end Query

/-! ## Queries that are composed for a target -/

variable {m' : Memory}

end SqlCompose
