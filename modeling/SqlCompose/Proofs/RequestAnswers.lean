import SqlCompose.Proofs.StatementSteps

/-! # Answers

The answer to a request shows the draft that its step leaves: the SQL it gives, and the bindings as the parameter
collection, which a request that fails leaves in the memory too.
-/
namespace SqlCompose
open Relation

variable {s : Setting} {m : Memory} {r : Request} {d e : Draft}

namespace Request

/-- A request starts with the memory as it is, seen from inside and from outside. -/
theorem start_memory (s : Setting) (m : Memory) (r : Request) : (r.start s m).memory = m := by
  unfold start Build.opening
  split <;> rfl

theorem start_given (s : Setting) (m : Memory) (r : Request) : (r.start s m).given = [] := by
  unfold start Build.opening
  split <;> rfl

/-- What receives the bindings is the collection of the request and holds them at the start. -/
theorem start_of_shared {home : Home} (hs : s.collection = .own) (h : (r.setting s m).collection = .shared home) :
    r.params m = .shared home ∧ (r.start s m).bindings = m.mapping home := by
  unfold setting Build.opening at h
  unfold start Build.opening
  split at h
  · next other hp =>
    cases h
    simp only [hp]
    exact ⟨trivial,trivial⟩
  · simp only [hs] at h
    cases h
  · cases h

theorem start_bindings {home : Home} (h : r.params m = .shared home) : (r.start s m).bindings = m.mapping home := by
  unfold start Build.opening
  rw [h]

/-- A request's step differs from the request in what receives the bindings. -/
theorem setting_eq : r.setting s m = { s with collection := (r.setting s m).collection } := by
  unfold setting Build.opening
  split <;> rfl

theorem placeholderName_setting (n : Nat) : (r.setting s m).placeholderName n = s.placeholderName n := by
  rw [setting_eq]
  rfl

theorem start_view (hs : s.collection = .own) : (r.start s m).view (r.setting s m) = m := by
  unfold Draft.view
  split
  · next home h =>
    rw [(start_of_shared hs h).2,start_memory]
    exact Memory.setMapping_self m home
  · exact start_memory s m r

def Collects (m : Memory) (r : Request) : Prop :=
  (∃ entries, r.params m = .mapping entries) ∨ ∃ home, r.params m = .shared home ∧ m.Holds home

end Request

def Extent.all : Extent := ⟨fun _ => True,fun _ => True,fun _ => True,trivial,fun _ => trivial,fun _ => trivial⟩

theorem Extent.covers_all : Extent.all.Covers s d :=
  ⟨fun _ _ _ _ => trivial,fun _ _ _ _ _ => ⟨trivial,trivial⟩,fun _ _ _ _ => trivial,
    fun _ _ _ _ => ⟨trivial,trivial⟩,fun _ _ => ⟨fun _ _ => ⟨trivial,trivial⟩,fun _ _ => ⟨trivial,trivial⟩⟩⟩

namespace Request

theorem within_all : r.Within Extent.all := by
  cases r <;> simp [Within,Extent.all]

theorem final_holds (home : Home) : (r.final s m).memory.Holds home ↔ (r.start s m).memory.Holds home := by
  have hstep : ∀ d e, Extent.all.Step (r.setting s m) d e → (d.memory.Holds home ↔ (r.start s m).memory.Holds home) →
      (e.memory.Holds home ↔ (r.start s m).memory.Holds home) := fun _ _ st h => (st.holds home).trans h
  exact Extent.keep_steps hstep (steps Extent.covers_all within_all) Iff.rfl

end Request

namespace Statement
variable {p : Value} {b : Setting → Build Sql}

/-- A mapping has a length. -/
theorem compose_parts (h : (∃ entries, collectionOf p = .mapping entries) ∨ ∃ home, collectionOf p = .shared home) :
    (compose s p b m).map (·.map parts) id = Build.over s (collectionOf p) b m := by
  unfold compose ofOutcome Build.over
  rcases h with ⟨entries,h⟩ | ⟨home,h⟩
  · rw [h]
    simp only [Build.opening,Build.closing]
    rcases (b s).runOn _ with ⟨x | sql,d⟩ <;> rfl
  · rw [h]
    simp only [Build.opening,Build.closing]
    rcases (b _).runOn _ with ⟨x | sql,d⟩ <;> rfl

end Statement

namespace Request

theorem perform_eq_over (h : r.Collects m) (hq : ∀ cell, r ≠ .query cell) :
    r.perform s m = Build.over s (r.params m) (fun s => r.body s) m := by
  have hc : (∃ entries, r.params m = .mapping entries) ∨ ∃ home, r.params m = .shared home := by
    rcases h with h | ⟨home,h,_⟩
    · exact .inl h
    · exact .inr ⟨home,h⟩
  cases r with
  | query cell => exact absurd rfl (hq cell)
  | filter spec params => rfl
  | insert table columns params => exact Statement.compose_parts (b := Statement.insert table columns) hc
  | batchInsert table columns rows params =>
    exact Statement.compose_parts (b := Statement.batchInsert table columns rows) hc
  | update table columns condition params =>
    exact Statement.compose_parts (b := Statement.update table columns condition) hc
  | delete table condition params => exact Statement.compose_parts (b := Statement.delete table condition) hc

/-- What a query answers is what its step gives; its parameters are copied out. -/
theorem perform_query (cell : Nat) :
    Request.perform s m (.query cell) =
      ((outcome s m (.query cell)).1.map (fun sql => (sql,.mapping (final s m (.query cell)).bindings)),
        (final s m (.query cell)).memory.setMapping (m.home cell) (final s m (.query cell)).bindings) := by
  simp only [perform,Query.build,final,outcome,setting,start,params,Build.opening,body,Memory.params]
  rcases (Query.compile _ cell).runOn _ with ⟨x | sql,d⟩ <;> rfl

/-- What any other request answers is what its step gives, with the collection closed over. -/
theorem perform_other (h : r.Collects m) (hq : ∀ cell, r ≠ .query cell) :
    r.perform s m = ((r.outcome s m).1.map (fun sql => (sql,(Build.closing (r.params m) (r.final s m)).1)),
      (Build.closing (r.params m) (r.final s m)).2) := by
  rw [perform_eq_over h hq]
  rfl

/-- The mapping that receives the bindings has them in the end. -/
theorem closing_mapping {home : Home} (hh : m.Holds home) :
    ((r.final s m).memory.setMapping home (r.final s m).bindings).mapping home = (r.final s m).bindings := by
  refine Memory.mapping_setMapping_self ((final_holds home).mpr ?_)
  rwa [start_memory]

/-- A request that succeeds gives the SQL of its step and all bindings. -/
theorem perform_ok (h : r.Collects m) {sql : Sql} {params : Value} {m' : Memory}
    (hp : r.perform s m = (.ok (sql,params),m')) :
    (r.outcome s m).1 = .ok sql ∧ params.entries? m' = some (r.final s m).bindings := by
  by_cases hq : ∃ cell, r = .query cell
  · obtain ⟨cell,rfl⟩ := hq
    rw [perform_query] at hp
    obtain ⟨hr,-⟩ := Prod.mk.inj hp
    cases ho : (outcome s m (.query cell)).1 with
    | error x =>
      rw [ho] at hr
      cases hr
    | ok sql' =>
      rw [ho] at hr
      cases hr
      exact ⟨rfl,rfl⟩
  · have hq' : ∀ cell, r ≠ .query cell := fun cell hr => hq ⟨cell,hr⟩
    rw [perform_other h hq'] at hp
    obtain ⟨hr,rfl⟩ := Prod.mk.inj hp
    cases ho : (r.outcome s m).1 with
    | error x =>
      rw [ho] at hr
      cases hr
    | ok sql' =>
      rw [ho] at hr
      cases hr
      refine ⟨rfl,?_⟩
      rcases h with ⟨entries,hp⟩ | ⟨home,hp,hh⟩
      · rw [hp]
        rfl
      · rw [hp]
        exact congrArg some (closing_mapping hh)

/-- A request that fails leaves all bindings in the shared mapping that receives them. -/
theorem perform_error (h : r.Collects m) {x : Fault} {m' : Memory} (hp : r.perform s m = (.error x,m')) :
    (r.outcome s m).1 = .error x ∧ ∀ home, r.params m = .shared home → m'.mapping home = (r.final s m).bindings := by
  have hholds : ∀ home, r.params m = .shared home → m.Holds home := by
    intro home hs
    rcases h with ⟨entries,he⟩ | ⟨home',he,hh⟩
    · rw [he] at hs
      cases hs
    · rw [he] at hs
      cases hs
      exact hh
  have herror : ∀ {f : Sql → Sql × Value}, (r.outcome s m).1.map f = .error x → (r.outcome s m).1 = .error x := by
    intro f hr
    cases ho : (r.outcome s m).1 with
    | error y =>
      rw [ho] at hr
      cases hr
      rfl
    | ok sql =>
      rw [ho] at hr
      cases hr
  by_cases hq : ∃ cell, r = .query cell
  · obtain ⟨cell,rfl⟩ := hq
    rw [perform_query] at hp
    obtain ⟨hr,rfl⟩ := Prod.mk.inj hp
    refine ⟨herror hr,?_⟩
    rintro home ⟨⟩
    exact closing_mapping (hholds _ rfl)
  · have hq' : ∀ cell, r ≠ .query cell := fun cell hr => hq ⟨cell,hr⟩
    rw [perform_other h hq'] at hp
    obtain ⟨hr,rfl⟩ := Prod.mk.inj hp
    refine ⟨herror hr,?_⟩
    intro home hs
    rw [hs]
    exact closing_mapping (hholds home hs)

end Request

end SqlCompose
