import SqlCompose.Proofs.Binding
import SqlCompose.Proofs.MirroredStatement

/-! # What a request looks into

A request is ordinary if all its names are texts, and if of the shared mappings it looks only into some. An ordinary
request is mirrored by every mirror under which these mappings are open.
-/
namespace SqlCompose
open Relation Build

variable {s : Setting} {m : Memory} {r : Request} {d e : Draft} {seen : Memory → Prop} {free : Home → Prop}

/-! ## Drafts on the way -/

namespace Request

def ComesTo (s : Setting) (m : Memory) (r : Request) : Draft → Prop :=
  ReflTransGen ((r.extent m).Step (r.setting s m)) (r.start s m)

/-- The memories that a request may see, its own bindings included. -/
def Sees (s : Setting) (m : Memory) (r : Request) (seen : Memory) : Prop :=
  ∃ d, r.ComesTo s m d ∧ d.view (r.setting s m) = seen

/-- Whether a request writes into a shared mapping: its collection, or the parameters of a member. -/
def Extends (m : Memory) (r : Request) (home : Home) : Prop :=
  r.params m = .shared home ∨ ∃ c, home = m.home c ∧ (r.extent m).member c

end Request

/-! ## Ordinary requests -/

structure Condition.Test.Ordinary (seen : Memory → Prop) (free : Home → Prop) (t : Condition.Test) : Prop where
  columns : ∀ c ∈ t.columns, c.IsText
  mapping : ∀ home, t = .simple (.shared home) → free home
  rows : ∀ m, seen m → ∀ home, .shared home ∈ t.rows m → free home

structure Join.Ordinary (seen : Memory → Prop) (free : Home → Prop) (v : Value) : Prop where
  mapping : ∀ home, v = .shared home → free home
  condition : ∀ m, seen m → ∀ j, Join.ofValue? m v = some j → ∀ t ∈ Condition.tests j.on, t.Ordinary seen free

structure Query.Ordinary (seen : Memory → Prop) (free : Home → Prop) (q : Query) : Prop where
  filter : ∀ t ∈ Condition.tests q.filter, t.Ordinary seen free
  groupFilter : ∀ t ∈ Condition.tests q.groupFilter, t.Ordinary seen free
  joins : ∀ v ∈ q.joins, Join.Ordinary seen free v

namespace Request

/-- A request with ordinary conditions, whose table and columns are named by texts. -/
def Ordinary (seen : Memory → Prop) (free : Home → Prop) (m : Memory) : Request → Prop
  | .query cell => ∀ c, ((Request.query cell).extent m).query c → (m.query c).Ordinary seen free
  | .insert table columns _ =>
    table.text?.isSome ∧ (∀ home, columns = .shared home → free home) ∧ ∀ w, columns.Yields m w → w.IsText
  | .batchInsert table columns rows _ =>
    table.text?.isSome ∧ (∀ home, columns = .shared home → free home) ∧ (∀ w, columns.Yields m w → w.IsText) ∧
      (∀ home, rows = .shared home → free home) ∧
      ∀ m', seen m' → ∀ home, rows.Yields m' (.shared home) → free home
  | .update table columns condition _ =>
    table.text?.isSome ∧ (∀ home, columns = .shared home → free home) ∧
      (∀ es, columns.entries? m = some es → ∀ k ∈ es.keys, k.IsText) ∧
      ∀ t ∈ Condition.tests condition, t.Ordinary seen free
  | .delete table condition _ => table.text?.isSome ∧ ∀ t ∈ Condition.tests condition, t.Ordinary seen free
  | .filter spec _ => ∀ t ∈ Condition.tests spec, t.Ordinary seen free

def SpokenIn (dialect : Dialect) : Request → Prop
  | .batchInsert .. => dialect.batchInsert
  | _ => True

end Request

/-! ## Ordinary requests are mirrored -/

section Mirrored
variable {M : Mirror} {v : Value}

theorem Mirror.open_of_free (hf : ∀ home, free home → M.home home) (hc : ∀ n, M.cell n)
    (h : ∀ home, v = .shared home → free home) : M.Open v := by
  cases v with
  | shared home => exact hf home (h home rfl)
  | stream n => exact hc n
  | _ => trivial

theorem Condition.Test.Ordinary.allows {t : Condition.Test} (h : t.Ordinary seen free) (hf : ∀ home, free home → M.home home)
    (hc : ∀ n, M.cell n) (hs : ∀ {d}, M.Fits d → seen (d.view M.left)) : M.Allows t where
  columns c hc _ := .inl (h.columns c hc)
  mapping := by
    rintro v ht - home rfl
    exact hf home (h.mapping home ht)
  streams := fun _ _ _ n _ => hc n
  rows := by
    rintro d hd v hv - home rfl
    exact hf home (h.rows _ (hs hd) home hv)

theorem Query.Ordinary.clauses {q : Query} (h : q.Ordinary seen free) (hf : ∀ home, free home → M.home home)
    (hc : ∀ n, M.cell n) (hs : ∀ {d}, M.Fits d → seen (d.view M.left)) : M.Clauses q where
  filter t ht := (h.filter t ht).allows hf hc hs
  groupFilter t ht := (h.groupFilter t ht).allows hf hc hs
  joins v hv :=
    ⟨fun _ home hh => hf home ((h.joins v hv).mapping home hh),
      fun hd _ hj t ht => ((h.joins v hv).condition _ (hs hd) _ hj t ht).allows hf hc hs⟩

namespace Request

theorem mirrors (hs : s.collection = .own) (hl : M.left = r.setting s m) (hx : M.extent = r.extent m)
    (hd : ∀ {d}, M.Fits d → r.ComesTo s m d) (hf : ∀ home, free home → M.home home) (hc : ∀ n, M.cell n)
    (hp : r.Ordinary (r.Sees s m) free m) (hleft : r.SpokenIn M.left.dialect) (hright : r.SpokenIn M.right.dialect) :
    Mirrors M (r.start s m) (r.body M.left) (r.body M.right) (Sql.rename M.name) (fun _ => True) := by
  have hsees : ∀ {d}, M.Fits d → r.Sees s m (d.view M.left) := fun h => ⟨_,hd h,by rw [hl]⟩
  have hstart : (r.start s m).view M.left = m := by rw [hl,start_view hs]
  have hv : r.Within M.extent := hx ▸ within_extent
  have ho : ∀ {v : Value}, (∀ home, v = .shared home → free home) → M.Open v := Mirror.open_of_free hf hc
  have ha : ∀ {v : Value}, (∀ t ∈ Condition.tests v, t.Ordinary (r.Sees s m) free) → ∀ t ∈ Condition.tests v, M.Allows t :=
    fun h t ht => (h t ht).allows hf hc hsees
  cases r with
  | query cell =>
    refine Query.mirror_compile (fun {d} hfit c hq => ?_) cell _ hv
    obtain ⟨es,hes⟩ := Extent.query_of_steps (hd hfit) c
    rw [hes,start_memory]
    have hordinary := hp c (hx ▸ hq)
    exact ⟨(hordinary.clauses hf hc hsees).filter,(hordinary.clauses hf hc hsees).groupFilter,
      (hordinary.clauses hf hc hsees).joins⟩
  | insert table columns params =>
    obtain ⟨ht,hopen,hn⟩ := hp
    exact Statement.mirror_insert ht (ho hopen) hv.2 (by rwa [hstart])
  | batchInsert table columns rows params =>
    obtain ⟨ht,hopen,hn,hrows,hrow⟩ := hp
    refine Statement.mirror_batchInsert hleft hright ht (ho hopen) hv.2.1 (by rwa [hstart]) (ho hrows) hv.2.2 ?_
    rintro d hfit w hw
    refine ho ?_
    rintro home rfl
    exact hrow _ (hsees hfit) home hw
  | update table columns condition params =>
    obtain ⟨ht,hopen,hn,hordinary⟩ := hp
    refine Statement.mirror_update ht (Mirror.row_of_open (ho hopen)) hv.2.1 (by rwa [hstart]) (ha hordinary) hv.2.2
  | delete table condition params => exact Statement.mirror_delete hp.1 (ha hp.2) hv.2
  | filter spec params => exact Condition.mirror_compile spec _ (ha hp) hv

end Request

end Mirrored

end SqlCompose
