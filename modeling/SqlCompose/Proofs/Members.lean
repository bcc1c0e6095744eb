import SqlCompose.Proofs.SharedMembers

/-! # Members of a union

A query is composed clause by clause; its members come between two of the clauses, one after the other, and each has
its own members inside. Here is from which drafts a member comes to be written, at whatever depth, and how its run lies
inside the run of the whole query.
-/
namespace SqlCompose
open Relation Build
open Request (Joins)

variable {x : Extent} {s : Setting} {m : Memory} {d e : Draft} {c cell : Nat} {sql : Sql} {u : Member}

/-- Whether all members are in earlier cells than the queries that they are members of. -/
def Memory.Layered (m : Memory) : Prop := ∀ c c', Joins m c c' → c' < c

theorem Memory.Layered.lt (h : m.Layered) (hj : TransGen (Joins m) cell c) : c < cell := by
  induction hj with
  | single hj => exact h _ _ hj
  | tail _ hj ih => exact (h _ _ hj).trans ih

theorem Memory.SameUnions.layered {m' : Memory} (h : m.SameUnions m') (hl : m.Layered) : m'.Layered := by
  intro c c' hj
  rw [h.joins] at hj
  exact hl c c' hj

namespace Build
variable {α β : Type} {f : α → Build β} {before after : List α} {a : α} {bs : List β}

/-- A traversal fails with the first of its items that does. -/
theorem runOn_mapM_error {bs₁ : List β} {d₁ : Draft} {y : Fault} (h : (before.mapM f).runOn d = (.ok bs₁,d₁))
    (ha : (f a).runOn d₁ = (.error y,e)) : ((before ++ a :: after).mapM f).runOn d = (.error y,e) := by
  rw [List.mapM_append,runOn_bind,h]
  dsimp only
  rw [List.mapM_cons,runOn_bind,runOn_bind,ha]

end Build

namespace Query
variable {q : Query}

theorem unionClause_congr {f g : Nat → Build Sql} (h : ∀ c, .query c ∈ q.members → f c = g c) :
    unionClause s f q = unionClause s g q := by
  have hall : ∀ l : List Member, (∀ u ∈ l, u ∈ q.members) → l.mapM (member s f) = l.mapM (member s g) := by
    intro l hl
    induction l with
    | nil => rfl
    | cons u l ih =>
      have hu : member s f u = member s g u := by
        cases u with
        | sql sql => rfl
        | query c => simp only [member,h c (hl _ (.head _))]
      rw [List.mapM_cons,List.mapM_cons,hu,ih (fun u hu => hl u (.tail _ hu))]
  unfold unionClause
  rw [hall q.members (fun _ hu => hu)]

/-- A query whose members are in earlier cells is composed of its clauses and of all of its members. -/
theorem runOn_compile (h : ∀ c, Joins d.memory cell c → c < cell) :
    (compile s cell).runOn d = (compileWith s (compile s) (d.memory.query cell)).runOn d := by
  conv_lhs => rw [compile,runOn_bind,runOn_get]
  dsimp only
  rw [compileWith_eq,compileWith_eq,unionClause_congr (g := compile s)]
  intro c hc
  rw [dif_pos (h c hc)]

/-- A member that is a query: its parameters are taken over, it is composed, and then it is given all bindings. -/
theorem runOn_member (hb : s.Binds) {f : Nat → Build Sql} : (member s f (.query c)).runOn d =
    match (f c).runOn (d.adopted ((d.view s).params c)) with
      | (.ok sql,e) => (.ok sql,handed s c e)
      | (.error y,e) => (.error y,e) := by
  unfold member
  rw [runOn_bind,runOn_view]
  dsimp only
  rw [runOn_bind,runOn_adopt hb]
  dsimp only
  rw [runOn_bind]
  rcases (f c).runOn (d.adopted ((d.view s).params c)) with ⟨y | sql,e⟩ <;> rfl

/-- While the query in a cell is composed from `d`, the member `u` comes to be written from `e`: it is a member of that
query, or of one of its members at any depth. -/
inductive Comes (s : Setting) : Nat → Draft → Member → Draft → Prop where
  | direct {cell : Nat} {d d₀ e : Draft} {lead parts : List Sql} {before after : List Member} {u : Member}
    (hl : (leading s (d.memory.query cell)).runOn d = (.ok lead,d₀))
    (hm : (d.memory.query cell).members = before ++ u :: after)
    (hb : (before.mapM (member s (compile s))).runOn d₀ = (.ok parts,e)) : Comes s cell d u e
  | inner {cell c : Nat} {d e e' : Draft} {u : Member} (h : Comes s cell d (.query c) e)
    (hu : Comes s c (e.adopted ((e.view s).params c)) u e') : Comes s cell d u e'

theorem goes_members {l : List Member} (hl : ∀ c, .query c ∈ l → x.query c ∧ x.member c) :
    Goes x s d (l.mapM (member s (compile s))) (fun _ => True) := by
  refine (Goes.mapM (Q := fun _ => True) (fun u hu e => goes_member ?_ ?_)).weaken (fun _ _ => trivial)
  · rintro c rfl
    exact (hl c hu).2
  · rintro c rfl e
    exact goes_compile c e (hl c hu).1

namespace Comes

/-- The way to a member is one of steps, and a member that is a query is come upon. -/
theorem steps (h : Comes s cell d u e) (hd : x.Covers s d) (hx : x.query cell) :
    ReflTransGen (x.Step s) d e ∧ ∀ c, u = .query c → x.query c ∧ x.member c := by
  induction h with
  | @direct cell d d₀ e lead parts before after u hl hm hb =>
    have hmember : ∀ c, .query c ∈ before ++ u :: after → x.query c ∧ x.member c :=
      fun c hc => hd.members cell hx c (by rw [hm]; exact hc)
    have hlead := (goes_leading (s := s) (hd.clauses cell hx) hd).1
    rw [hl] at hlead
    have hbefore : ∀ c, .query c ∈ before → x.query c ∧ x.member c :=
      fun c hc => hmember c (List.mem_append_left _ hc)
    have hmembers := (goes_members (s := s) hbefore (Extent.covers_of_steps hlead hd)).1
    rw [hb] at hmembers
    refine ⟨hlead.trans hmembers,?_⟩
    rintro c rfl
    exact hmember c (List.mem_append_right _ (.head _))
  | @inner cell c d e e' u h hu ih ih' =>
    obtain ⟨hsteps,hc⟩ := ih hd hx
    obtain ⟨hq,hm⟩ := hc c rfl
    have htake : ReflTransGen (x.Step s) d (e.adopted ((e.view s).params c)) := hsteps.tail (.take e hm)
    obtain ⟨hsteps',hu'⟩ := ih' (Extent.covers_of_steps htake hd) hq
    exact ⟨htake.trans hsteps',hu'⟩

end Comes

theorem runOn_unionClause {f : Nat → Build Sql} (hne : q.members ≠ []) :
    (unionClause s f q).runOn d = (do return unionText (← q.members.mapM (member s f))).runOn d := by
  unfold unionClause
  rw [if_neg (fun h => hne (List.isEmpty_iff.mp h))]

/-- A query fails with the first of its members that does. -/
theorem runOn_compile_error {d₀ e' : Draft} {lead parts : List Sql} {before after : List Member} {y : Fault}
    (hl : d.memory.Layered) (hlead : (leading s (d.memory.query cell)).runOn d = (.ok lead,d₀))
    (hm : (d.memory.query cell).members = before ++ u :: after)
    (hbefore : (before.mapM (member s (compile s))).runOn d₀ = (.ok parts,e))
    (hu : (member s (compile s) u).runOn e = (.error y,e')) : (compile s cell).runOn d = (.error y,e') := by
  have hunion : (unionClause s (compile s) (d.memory.query cell)).runOn d₀ = (.error y,e') := by
    rw [runOn_unionClause (by rw [hm]; simp),hm,runOn_bind,runOn_mapM_error hbefore hu]
  rw [runOn_compile (hl cell),compileWith_eq,runOn_bind,hlead]
  dsimp only
  rw [runOn_bind,hunion]

/-- If a member fails, all that it comes within does. -/
theorem Comes.fails (h : Comes s cell d u e) (hb : s.Binds) (hl : d.memory.Layered) {y : Fault} {e' : Draft}
    (hu : (member s (compile s) u).runOn e = (.error y,e')) : ((compile s cell).runOn d).1 = .error y := by
  induction h generalizing y e' with
  | direct hlead hm hbefore => rw [runOn_compile_error hl hlead hm hbefore hu]
  | @inner cell c d e e₁ u h hu' ih ih' =>
    have hunions : d.memory.SameUnions e.memory := Extent.sameUnions (h.steps Extent.covers_all trivial).1
    have hc := ih' (hunions.layered hl) hu
    have hmember : (member s (compile s) (.query c)).runOn e =
        (.error y,((compile s c).runOn (e.adopted ((e.view s).params c))).2) := by
      rw [runOn_member hb]
      revert hc
      rcases (compile s c).runOn (e.adopted ((e.view s).params c)) with ⟨y' | sql,e₂⟩
      · rintro ⟨⟩
        rfl
      · nofun
    exact ih hl hmember

end Query

end SqlCompose
