import SqlCompose.Proofs.ClauseFaults

/-! # How a JSON text ends

A JSON text is read as a query, and the query is composed. What is asked of the values of the text is collected from all
places, those of its members included. A text gives a statement only if all of them are in order, and if they are, then
it fails with a fault of parsing where it is read, and with a fault of compilation where it is composed.
-/
namespace SqlCompose
open Build Condition

variable {m m' : Memory} {s : Setting} {v : Value} {es : Entries}

/-! ## Order in a text -/

def Entries.unions (es : Entries) : List Value := (es.field? "UNION").elim [] Value.alternatives

/-- Whether the clauses of a query can be read, those of its members included. -/
inductive Entries.Readable : Entries → Prop where
  | intro {es : Entries}
    (items : ∀ name ∈ ["SELECT","FROM","GROUP_BY"], ∀ l, es.field? name = some (.list l) → ∀ v ∈ l, v.ReadsAsItem)
    (order : ∀ l, es.field? "ORDER_BY" = some (.mapping l) → ∀ e ∈ l, e.2.ReadsAsItem)
    (members : ∀ es', .mapping es' ∈ es.unions → Readable es') : Readable es

inductive Entries.Orderly (dialect : Dialect) : Entries → Prop where
  | intro {es : Entries}
    (joins : ∀ l, es.field? "JOIN" = some (.list l) → ∀ v ∈ l, Join.Orderly dialect v)
    (filter : ∀ v, es.field? "WHERE" = some v → Condition.Orderly dialect v)
    (groupFilter : ∀ v, es.field? "HAVING" = some v → Condition.Orderly dialect v)
    (members : ∀ es', .mapping es' ∈ es.unions → Orderly dialect es') : Orderly dialect es

/-! ## Queries that are read and composed -/

/-- What holds of a query that has been read from a mapping: the clauses could be read, and composing the query, then or
later, rests on its order. -/
structure Query.Tells (m : Memory) (es : Entries) (c : Nat) : Prop where
  readable : es.Readable
  held : c < m.queries.size
  rests : ∀ s : Setting, s.Binds → RestsOn m (Query.compile s c) (es.Orderly s.dialect) (fun _ => True)

theorem Query.Tells.later {c : Nat} (h : Query.Tells m es c) (hm : m.Later m') : Query.Tells m' es c where
  readable := h.readable
  held := Nat.lt_of_lt_of_le h.held hm.size
  rests s hb := (h.rests s hb).later hm

inductive Member.Tells (m : Memory) : Value → Member → Prop where
  | sql (t : String) : Tells m (.text t) (.sql t)
  | query {es : Entries} {c : Nat} (h : Query.Tells m es c) : Tells m (.mapping es) (.query c)

theorem Member.Tells.later {u : Member} (h : Member.Tells m v u) (hm : m.Later m') : Member.Tells m' v u := by
  cases h with
  | sql t => exact .sql t
  | query h => exact .query (h.later hm)

namespace Member
variable {nested : Entries → Reading (Option Nat)}

def Nests (m : Memory) (nested : Entries → Reading (Option Nat)) : Prop :=
  ∀ (es : Entries) m', (Value.mapping es).IsJson → m.Later m' →
    Gathers m' (nested es) es.Readable (fun m'' o => ∀ c, o = some c → Query.Tells m'' es c)

theorem gathers_read {W : Prop} (hn : Nests m nested) (hv : v.IsJson) (hm : m.Later m')
    (hW : W → ∀ es : Entries, v = .mapping es → es.Readable) :
    Gathers m' (read nested v) W (fun m'' o => ∀ u, o = some u → Tells m'' v u) := by
  cases hv with
  | null | bool | int | float | list => exact .get (.pure nofun)
  | text t =>
    refine .get (.pure ?_)
    rintro _ ⟨⟩
    exact .sql t
  | @mapping es hk hv =>
    refine .get (((hn es m' (.mapping hk hv) hm).of_imp (fun hw => hW hw es rfl)).map (fun m'' o ho u hu => ?_))
    obtain ⟨c,rfl,rfl⟩ := Option.map_eq_some_iff.mp hu
    exact .query (ho c rfl)

/-- All of the members could be read. -/
theorem tells_of_mapM {vs : List Value} {os : List (Option Member)} {us : List Member}
    (h : List.Forall₂ (fun v o => ∀ u, o = some u → Tells m v u) vs os) (hu : os.mapM id = some us) :
    List.Forall₂ (Tells m) vs us := by
  induction h generalizing us with
  | nil =>
    cases hu
    exact .nil
  | cons ho _ ih =>
    rw [List.mapM_cons] at hu
    simp only [id,bind,Option.bind_eq_some_iff,pure,Option.some.injEq] at hu
    obtain ⟨u,hu,us',hus,rfl⟩ := hu
    exact .cons (ho u hu) (ih hus)

theorem gathers_readAll {W : Prop} (hn : Nests m nested) (hv : v.IsJson) (hm : m.Later m')
    (hW : W → ∀ es : Entries, .mapping es ∈ v.alternatives → es.Readable) :
    Gathers m' (readAll nested v) W (fun m'' o => ∀ us, o = some us → List.Forall₂ (Tells m'') v.alternatives us) := by
  have hlater : ∀ {m₁ m₂ : Memory} {w : Value} {o : Option Member}, m₁.Later m₂ → (∀ u, o = some u → Tells m₁ w u) →
      ∀ u, o = some u → Tells m₂ w u := fun hl h u hu => (h u hu).later hl
  have hone : v.alternatives = [v] → Gathers m' (do return (← [v].mapM (read nested)).mapM id) W
      (fun m'' o => ∀ us, o = some us → List.Forall₂ (Tells m'') v.alternatives us) := by
    intro halone
    rw [halone] at hW ⊢
    refine (Gathers.mapM (R := fun m w o => ∀ u, o = some u → Tells m w u) hlater (fun w hw m'' hm' => ?_)).map
      (fun _ os hos us hus => tells_of_mapM hos hus)
    rw [List.mem_singleton.mp hw]
    exact gathers_read hn hv (hm.trans hm') (fun h es hes => hW h es (by rw [hes]; exact .head _))
  cases hv with
  | text t => exact .get (hone rfl)
  | mapping hk hv => exact .get (hone rfl)
  | @list items hi =>
    refine .get ((Reading.gathers_each (R := fun m w o => ∀ u, o = some u → Tells m w u) (.list hi) hlater ?_).map
      (fun m'' o ho us hus => ?_))
    · rintro _ ⟨⟩ w hw m'' hm'
      exact gathers_read hn (hi w hw) (hm.trans hm') (fun h es hes => hW h es (hes ▸ hw))
    · obtain ⟨os,rfl,hus⟩ := Option.bind_eq_some_iff.mp hus
      obtain ⟨l,⟨⟩,hl⟩ := ho.1 os rfl
      exact tells_of_mapM hl hus
  | _ =>
    refine .get (.pure ?_)
    rintro us ⟨⟩

end Member

namespace Entries.Readable

theorem items (h : es.Readable) {name : String} (hn : name ∈ ["SELECT","FROM","GROUP_BY"])
    (hv : es.field? name = some v) : ∀ l, v = .list l → ∀ w ∈ l, w.ReadsAsItem := by
  rintro l rfl
  cases h with
  | intro items _ _ => exact items name hn l hv

theorem order (h : es.Readable) (hv : es.field? "ORDER_BY" = some v) :
    ∀ l, v = .mapping l → ∀ e ∈ l, e.2.ReadsAsItem := by
  rintro l rfl
  cases h with
  | intro _ order _ => exact order l hv

theorem members (h : es.Readable) (hv : es.field? "UNION" = some v) {es' : Entries}
    (hm : .mapping es' ∈ v.alternatives) : es'.Readable := by
  cases h with
  | intro _ _ members => exact members es' (by rw [unions,hv]; exact hm)

end Entries.Readable

namespace Query
variable {nested : Entries → Reading (Option Nat)} {q : Query}

structure Told (m : Memory) (es : Entries) (q : Query) : Prop where
  readable : es.Readable
  joins : (es.field? "JOIN").getD (.list []) = .list q.joins
  filter : (es.field? "WHERE").getD .null = q.filter
  groupFilter : (es.field? "HAVING").getD .null = q.groupFilter
  members : List.Forall₂ (Member.Tells m) es.unions q.members

theorem gathers_readClause {γ : Type} {name : String} {absent : γ} {read : Value → Reading (Option γ)} {W : Prop}
    {P : Memory → Option γ → Prop} (ha : es.field? name = none → P m (some absent))
    (hr : ∀ v, es.field? name = some v → Gathers m (read v) W P) : Gathers m (readClause es name absent read) W P := by
  unfold readClause
  split
  · next h => exact .pure (ha h)
  · next v h => exact hr v h

theorem gathers_items {name : String} (hv : (Value.mapping es).IsJson) (hn : name ∈ ["SELECT","FROM","GROUP_BY"]) :
    Gathers m (readClause es name [] Item.readAll) es.Readable
      (fun _ _ => ∀ l, es.field? name = some (.list l) → ∀ v ∈ l, v.ReadsAsItem) := by
  refine gathers_readClause (fun h => by simp [h]) (fun v hf => ?_)
  refine (Item.gathers_readAll (Entries.isJson_field hv hf) (fun h => h.items hn hf)).weaken (fun _ _ h l hl => ?_)
  exact h l (Option.some.inj (hf.symm.trans hl))

/-- A clause that is kept as it is. -/
theorem gathers_value {name : String} {W : Prop} : Gathers m (readClause es name .null (fun v => pure (some v))) W
    (fun _ o => ∀ v, o = some v → (es.field? name).getD .null = v) := by
  refine gathers_readClause (fun h => ?_) (fun v hf => .pure ?_)
  · rintro _ ⟨⟩
    rw [h]
    rfl
  · rintro _ ⟨⟩
    rw [hf]
    rfl

theorem gathers_plain {γ : Type} {name : String} {absent : γ} {read : Value → Option γ} {W : Prop} :
    Gathers m (readClause es name absent (fun v => pure (read v))) W (fun _ _ => True) :=
  gathers_readClause (fun _ => trivial) (fun _ _ => .pure trivial)

theorem gathers_joins {W : Prop} (hv : (Value.mapping es).IsJson) : Gathers m (readClause es "JOIN" [] Reading.listed) W
    (fun _ o => ∀ l, o = some l → (es.field? "JOIN").getD (.list []) = .list l) := by
  refine gathers_readClause (fun h => ?_) (fun v hf => ?_)
  · rintro _ ⟨⟩
    rw [h]
    rfl
  · refine (Reading.gathers_each (R := fun _ w w' => w = w') (Entries.isJson_field hv hf) (fun _ h => h)
      (fun _ _ _ _ _ _ => .pure rfl)).weaken (fun _ o ho l hl => ?_)
    obtain ⟨l',rfl,hall⟩ := ho.1 l hl
    have heq : l' = l := by simpa [List.forall₂_eq_eq_eq] using hall
    rw [hf,heq]
    rfl

theorem gathers_ofEntries (hn : Member.Nests m nested) (hv : (Value.mapping es).IsJson) (hm : m.Later m') :
    Gathers m' (ofEntries nested es) es.Readable (fun m'' r => ∀ q, r = .ok q → Told m'' es q) := by
  unfold ofEntries
  refine (gathers_items hv (by simp)).bind (fun m₁ columns h₁ hcolumns => ?_)
  refine gathers_plain.bind (fun m₂ distinct h₂ _ => ?_)
  refine gathers_plain.bind (fun m₃ selectOption h₃ _ => ?_)
  refine (gathers_items hv (by simp)).bind (fun m₄ tables h₄ htables => ?_)
  refine (gathers_joins hv).bind (fun m₅ joins h₅ hjoins => ?_)
  refine gathers_value.bind (fun m₆ filter h₆ hfilter => ?_)
  refine (gathers_items hv (by simp)).bind (fun m₇ groups h₇ hgroups => ?_)
  refine gathers_value.bind (fun m₈ groupFilter h₈ hgroupFilter => ?_)
  have hlater := hm.trans (h₁.trans (h₂.trans (h₃.trans (h₄.trans (h₅.trans (h₆.trans (h₇.trans h₈)))))))
  refine (gathers_readClause (P := fun m o => ∀ us, o = some us → List.Forall₂ (Member.Tells m) es.unions us)
    (fun hf => ?_) (fun v hf => ?_)).bind (fun m₉ members h₉ hmembers => ?_)
  · rintro _ ⟨⟩
    rw [Entries.unions,hf]
    exact .nil
  · rw [Entries.unions,hf]
    exact Member.gathers_readAll hn (Entries.isJson_field hv hf) hlater (fun h es' hes => h.members hf hes)
  refine (gathers_readClause (P := fun _ _ => ∀ l, es.field? "ORDER_BY" = some (.mapping l) → ∀ e ∈ l, e.2.ReadsAsItem)
    (fun hf => by simp [hf]) (fun v hf => ?_)).bind (fun m₁₀ order h₁₀ horder => ?_)
  · refine (SortKey.gathers_readAll (Entries.isJson_field hv hf) (fun h => h.order hf)).weaken (fun _ _ h l hl => ?_)
    exact h l (Option.some.inj (hf.symm.trans hl))
  refine gathers_plain.bind (fun m₁₁ limit h₁₁ _ => ?_)
  refine gathers_plain.bind (fun m₁₂ offset h₁₂ _ => ?_)
  refine (gathers_readClause (P := fun _ _ => True) (fun _ => trivial)
    (fun v _ => .ofMemory (fun _ _ => trivial) (by rintro _ ⟨⟩))).bind (fun m₁₃ params h₁₃ _ => ?_)
  refine .get (.pure (fun q hq => ?_))
  obtain ⟨-,-,-,-,rfl,rfl,-,rfl,rfl,-⟩ := clauses_of_some (Checked.eq_of_ofFields hq)
  have hend := h₁₀.trans (h₁₁.trans (h₁₂.trans h₁₃))
  have htold := hmembers _ rfl
  refine ⟨.intro ?_ horder ?_,hjoins _ rfl,hfilter _ rfl,hgroupFilter _ rfl,?_⟩
  · intro name hname
    simp only [List.mem_cons,List.not_mem_nil,or_false] at hname
    rcases hname with rfl | rfl | rfl
    · exact hcolumns
    · exact htables
    · exact hgroups
  · intro es' hes
    obtain ⟨u,-,hu⟩ := exists_right htold hes
    cases hu with
    | query h => exact h.readable
  · exact htold.imp (fun _ _ h => h.later hend)

/-- The order of a mapping is that of the query that was read from it, and of its members. -/
theorem Told.orderly_iff (h : Told m es q) {dialect : Dialect} : es.Orderly dialect ↔
    q.Orderly dialect ∧ ∀ v ∈ es.unions, ∀ es' : Entries, v = .mapping es' → es'.Orderly dialect := by
  have hnull : Condition.Orderly dialect .null := by simp [Condition.Orderly,tests,Test.Orderly]
  have hvalue : ∀ {name : String} {w : Value}, (es.field? name).getD .null = w →
      ((∀ v, es.field? name = some v → Condition.Orderly dialect v) ↔ Condition.Orderly dialect w) := by
    rintro name w rfl
    cases es.field? name <;> simp [hnull]
  have hjoins : (∀ l, es.field? "JOIN" = some (.list l) → ∀ v ∈ l, Join.Orderly dialect v) ↔
      ∀ v ∈ q.joins, Join.Orderly dialect v := by
    have hj := h.joins
    cases hf : es.field? "JOIN" with
    | none =>
      rw [hf] at hj
      have hnil : q.joins = [] := (Value.list.inj hj).symm
      simp [hnil]
    | some v =>
      rw [hf] at hj
      have hlist : v = .list q.joins := hj
      simp [hlist]
  constructor
  · rintro ⟨joins,filter,groupFilter,members⟩
    exact ⟨⟨hjoins.mp joins,(hvalue h.filter).mp filter,(hvalue h.groupFilter).mp groupFilter⟩,
      fun v hv es' hes => members es' (hes ▸ hv)⟩
  · rintro ⟨⟨joins,filter,groupFilter⟩,members⟩
    exact ⟨hjoins.mpr joins,(hvalue h.filter).mpr filter,(hvalue h.groupFilter).mpr groupFilter,
      fun es' hes => members _ hes es' rfl⟩

theorem Told.plain (h : Told m es q) (hv : (Value.mapping es).IsJson) : q.Plain := by
  have hfield : ∀ {name : String} {v w : Value}, v.IsJson → (es.field? name).getD v = w → w.IsJson := by
    rintro name v w hj rfl
    cases hf : es.field? name with
    | none => exact hj
    | some w => exact Entries.isJson_field hv hf
  refine ⟨?_,hfield .null h.filter,hfield .null h.groupFilter⟩
  cases hfield (.list (by simp)) h.joins with
  | list hj => exact hj

/-- A query that was read from a mapping tells of it where it is added. -/
theorem Told.tells (h : Told m es q) (hv : (Value.mapping es).IsJson) : Tells (m.addQuery q).2 es m.queries.size where
  readable := h.readable
  held := by simp [Memory.addQuery]
  rests s hb := by
    intro d hd
    have hq : (m.addQuery q).2.query m.queries.size = q := by simp [Memory.addQuery,Memory.query]
    obtain ⟨es₀,hes⟩ := hd.query m.queries.size (by simp [Memory.addQuery])
    rw [hq] at hes
    have hearlier : ∀ c, Request.Joins d.memory m.queries.size c → c < m.queries.size := by
      intro c hc
      unfold Request.Joins at hc
      rw [hes] at hc
      obtain ⟨v,-,ht⟩ := exists_left h.members hc
      cases ht with
      | query ht => exact ht.held
    have hmembers : List.Forall₂ (fun v u => RestsOn (m.addQuery q).2 (member s (compile s) u)
        (∀ es' : Entries, v = .mapping es' → es'.Orderly s.dialect) (fun _ => True)) es.unions q.members := by
      refine h.members.imp (fun v u ht => ?_)
      cases ht with
      | sql t => exact (RestsOn.pure trivial).of_iff (by simp)
      | query ht => exact (restsOn_member hb ((ht.rests s hb).later (.addQuery m q))).of_iff (by simp)
    have hplain : Query.Plain { q with params := es₀ } :=
      ⟨(h.plain hv).joins,(h.plain hv).filter,(h.plain hv).groupFilter⟩
    have horder : Query.Orderly s.dialect { q with params := es₀ } ↔ q.Orderly s.dialect :=
      ⟨fun h => ⟨h.joins,h.filter,h.groupFilter⟩,fun h => ⟨h.joins,h.filter,h.groupFilter⟩⟩
    have hrests := restsOn_compileWith (m := (m.addQuery q).2) hb hplain hmembers
    rw [runOn_compile hearlier,hes]
    exact (hrests.of_iff (h.orderly_iff.trans (and_congr_left' horder.symm))) d hd

theorem gathers_allocate {q : Query} {W : Prop} (hv : (Value.mapping es).IsJson) (h : Told m es q) :
    Gathers m (allocate q) W (fun m' c => Tells m' es c) := by
  refine ⟨.addQuery m q,?_,nofun⟩
  rintro _ ⟨⟩
  exact h.tells hv

theorem nests_readNested (m : Memory) (levels : Nat) : Member.Nests m (readNested levels) := by
  induction levels generalizing m with
  | zero =>
    intro es m' _ _
    exact .pure nofun
  | succ levels ih =>
    intro es m' hv hm
    unfold readNested
    refine (gathers_ofEntries (ih m) hv hm).bind (fun m'' r _ hr => ?_)
    cases r with
    | error names => exact .pure nofun
    | ok q => exact (gathers_allocate hv (hr q rfl)).map (by rintro m₃ c hc _ ⟨⟩; exact hc)

/-- The build of a query that was read from a mapping rests on the order of the mapping. -/
theorem Tells.build {c : Nat} (h : Tells m es c) (s : Setting) :
    (∀ t, (Query.build s (.query c) m).1 = .ok t → es.Orderly s.dialect) ∧
      ∀ f, (Query.build s (.query c) m).1 = .error f → es.Orderly s.dialect → f.isCompilation := by
  obtain ⟨-,hok,herror⟩ := h.rests (within s (m.home c)) binds_within (begun m c) (.refl m)
  rw [build_query]
  revert hok herror
  rcases (compile (within s (m.home c)) c).runOn (begun m c) with ⟨x | sql,e⟩
  · intro _ herror
    exact ⟨nofun,fun f hf => herror f (by simpa using hf)⟩
  · intro hok _
    exact ⟨fun _ _ => (hok sql rfl).1,nofun⟩

def TellsValue (m : Memory) (v w : Value) : Prop := ∃ es c, v = .mapping es ∧ w = .query c ∧ Tells m es c

theorem gathers_ofValue (hv : v.IsJson) : Gathers m (ofValue v) (∀ es : Entries, v = .mapping es → es.Readable)
    (fun m' r => ∀ w, r = .ok w → TellsValue m' v w) := by
  cases hv with
  | @mapping es hk hv =>
    refine .get (((gathers_ofEntries (nests_readNested m _) (.mapping hk hv) (.refl m)).of_imp (fun h => h es rfl)).bind
      (fun m' r _ hr => ?_))
    cases r with
    | error names => exact .pure nofun
    | ok q =>
      refine (gathers_allocate (.mapping hk hv) (hr q rfl)).map ?_
      rintro m'' c hc _ ⟨⟩
      exact ⟨es,c,rfl,rfl,hc⟩
  | _ => exact .get (.pure nofun)

theorem parse_eq {text : String} (hr : Json.read text (.text text) = .ok v) :
    parse (.text text) = parse.check (some (.text text)) v := by
  unfold parse
  simp only [Value.text?,hr]

/-- A value of a JSON text is read as a query, or it is refused. -/
theorem parse_of_read {text : String} (hr : Json.read text (.text text) = .ok v) :
    (∀ w, ((parse (.text text)).runOn m).1 = .ok w → TellsValue ((parse (.text text)).runOn m).2 v w) ∧
      ∀ f, ((parse (.text text)).runOn m).1 = .error f →
        f.isParsing ∨ (f = .misuse .wrongType ∧ ¬ ∀ es : Entries, v = .mapping es → es.Readable) := by
  obtain ⟨-,hok,herror⟩ := gathers_ofValue (m := m) (Json.isJson_read hr)
  rw [parse_eq hr]
  unfold parse.check
  rw [Reading.runOn_bind]
  revert hok herror
  rcases (ofValue v).runOn m with ⟨x | r,m'⟩
  · intro _ herror
    refine ⟨by rintro w ⟨⟩,?_⟩
    rintro _ ⟨⟩
    exact .inr (herror x rfl)
  · intro hok _
    cases r with
    | ok w =>
      refine ⟨?_,by rintro f ⟨⟩⟩
      rintro _ ⟨⟩
      exact hok _ rfl _ rfl
    | error fields =>
      refine ⟨by rintro w ⟨⟩,?_⟩
      rintro _ ⟨⟩
      exact .inl rfl

end Query

/-! ## Whole texts -/

def Registry.Orderly (r : Registry) (target : String) (v : Value) : Prop :=
  ∀ es : Entries, v = .mapping es → es.Readable ∧ ∀ d, r.create target = .ok d → es.Orderly d

namespace Registry
variable {r : Registry} {o : Options} {target text : String}

theorem isCompilation_of_create {x : Fault} (h : r.create target = .error x) : x.isCompilation := by
  unfold create at h
  cases hr : r.resolve target with
  | error y =>
    rw [hr] at h
    cases h
    unfold resolve at hr
    dsimp only at hr
    split at hr
    · cases hr
    · cases hr
      rfl
  | ok name =>
    rw [hr] at h
    simp only [bind,Except.bind] at h
    split at h
    · cases h
    · cases h
      rfl

/-- How a JSON text ends that stands for a value. -/
structure Ends (r : Registry) (o : Options) (target text : String) (m : Memory) (v : Value) : Prop where
  /-- It gives a statement only if the value is in order. -/
  statement : ∀ t, (r.composeQuery o target (.text text) m).1 = .ok t → r.Orderly target v
  /-- If the value is in order and no query can be read from it, that is a fault of parsing. -/
  parsing : r.Orderly target v → ∀ f, ((Query.parse (.text text)).runOn m).1 = .error f →
    (r.composeQuery o target (.text text) m).1 = .error f ∧ f.isParsing
  /-- If the value is in order and a query was read from it, then it fails with a fault of compilation. -/
  compilation : r.Orderly target v → ∀ w, ((Query.parse (.text text)).runOn m).1 = .ok w →
    ∀ f, (r.composeQuery o target (.text text) m).1 = .error f → f.isCompilation

/-- What becomes of a text, given how reading and looking up the target end. -/
theorem composeQuery_eq : r.composeQuery o target (.text text) m =
    match (Query.parse (.text text)).runOn m with
      | (.error f,m') => (.error f,m')
      | (.ok w,m') =>
        match r.create target with
        | .error f => (.error f,m')
        | .ok d => Query.build (o.setting d) w m' := rfl

theorem ends_of_read (hr : Json.read text (.text text) = .ok v) : r.Ends o target text m v := by
  obtain ⟨hok,herror⟩ := Query.parse_of_read (m := m) hr
  rcases hp : (Query.parse (.text text)).runOn m with ⟨f | w,m'⟩
  · rw [hp] at herror
    have hout : r.composeQuery o target (.text text) m = (.error f,m') := by rw [composeQuery_eq,hp]
    refine ⟨?_,?_,?_⟩
    · rw [hout]
      nofun
    · intro ho
      rw [hout,hp]
      rintro _ ⟨⟩
      rcases herror f rfl with hf | ⟨-,hno⟩
      · exact ⟨rfl,hf⟩
      · exact absurd (fun es hes => (ho es hes).1) hno
    · rw [hp]
      nofun
  · rw [hp] at hok
    obtain ⟨es,c,rfl,rfl,ht⟩ := hok w rfl
    have hread : ∀ d, r.create target = .ok d → r.composeQuery o target (.text text) m =
        Query.build (o.setting d) (.query c) m' := by
      intro d hd
      rw [composeQuery_eq,hp]
      dsimp only
      rw [hd]
    refine ⟨?_,?_,?_⟩
    · rintro t hout _ ⟨⟩
      refine ⟨ht.readable,fun d hd => ?_⟩
      rw [hread d hd] at hout
      exact (ht.build (o.setting d)).1 t hout
    · rw [hp]
      nofun
    · intro ho _ _ f hf
      cases hd : r.create target with
      | error x =>
        have hout : r.composeQuery o target (.text text) m = (.error x,m') := by
          rw [composeQuery_eq,hp]
          dsimp only
          rw [hd]
        rw [hout] at hf
        cases hf
        exact isCompilation_of_create hd
      | ok d =>
        rw [hread d hd] at hf
        exact (ht.build (o.setting d)).2 f hf ((ho es rfl).2 d hd)

end Registry

/-- A text that is no JSON text gives the fault of reading it, a fault of parsing unless a number is too long or the text
nests too deep. Any other text stands for a value, and if the values in it are in order, its faults are faults of parsing
and of compilation. Only a text with values that are not in order ends with a misuse, and it never gives a statement. -/
theorem only_disorder_escapes (r : Registry) (o : Options) (target text : String) (m : Memory) :
    (∀ f, Json.read text (.text text) = .error f → (r.composeQuery o target (.text text) m).1 = .error f ∧
      (f.isParsing ∨ f = .misuse .unreadable ∨ f = .misuse .tooDeep)) ∧
    ∀ v, Json.read text (.text text) = .ok v → r.Ends o target text m v := by
  refine ⟨fun f hf => ⟨?_,?_⟩,fun v => Registry.ends_of_read⟩
  · have hparse : (Query.parse (.text text)).runOn m = (.error f,m) := by
      unfold Query.parse
      simp only [Value.text?,hf]
      rfl
    rw [Registry.composeQuery_eq,hparse]
  · unfold Json.read at hf
    split at hf
    · cases hf
    · cases hf
      exact .inr (.inl rfl)
    · cases hf
      exact .inr (.inr rfl)
    · cases hf
      exact .inl rfl

theorem Json.read_of_document {text : String} {source : Value} (h : Json.document text.toList = .ok v) :
    Json.read text source = .ok v := by
  rw [Json.read,h]

def Registry.narrow : String :=
  "\x7b\x22WHERE\x22: [\x22and\x22, [\x22=\x22, \x22a\x22, 1], [\x22between\x22, \x22b\x22, 2]]\x7d"

def Registry.proper : String := "\x7b\x22FROM\x22: \x22t\x22, \x22WHERE\x22: [\x22>\x22, \x22a\x22, 1]\x7d"

theorem only_disorder_escapes_samples :
    (∃ v, Json.read Registry.narrow (.text Registry.narrow) = .ok v ∧ Registry.builtin.Orderly "sqlite" v ∧
      ∃ f, (Registry.builtin.composeQuery {} "sqlite" (.text Registry.narrow) {}).1 = .error f ∧ f.isCompilation) ∧
    ∃ v, Json.read Registry.proper (.text Registry.proper) = .ok v ∧ Registry.builtin.Orderly "sqlite" v ∧
      (Registry.builtin.composeQuery {} "sqlite" (.text Registry.proper) {}).1.map Statement.text =
        .ok "SELECT * FROM \x22t\x22 WHERE \x22a\x22>:qp0" := by
  constructor
  · let filter : Value := .list [.text "and",.list [.text "=",.text "a",.int 1],.list [.text "between",.text "b",.int 2]]
    have hread : Json.read Registry.narrow (.text Registry.narrow) = .ok (.mapping [(.text "WHERE",filter)]) := by
      refine Json.read_of_document ?_
      simp only [Registry.narrow,String.reduceToList]
      with_unfolding_all rfl
    have hfilter : ∀ d, Condition.Orderly d filter := by
      intro d
      have htests : tests filter =
          [.operation (.compare .eq) [.text "a",.int 1],.operation (.between false) [.text "b",.int 2]] := rfl
      have hcolumn : Value.NamesColumn d (.text "a") := .inl ⟨"a",rfl⟩
      unfold Condition.Orderly
      rw [htests]
      simpa [Test.Orderly] using hcolumn
    have horder : Registry.builtin.Orderly "sqlite" (.mapping [(.text "WHERE",filter)]) := by
      rintro _ ⟨⟩
      refine ⟨.intro ?_ ?_ ?_,fun d _ => .intro ?_ ?_ ?_ ?_⟩
      all_goals simp [Entries.field?_cons,Entries.unions,Value.text?,hfilter]
    have hquery : ((Query.parse (.text Registry.narrow)).runOn {}).1 = .ok (.query 0) := by
      rw [Query.parse_eq hread]
      with_unfolding_all rfl
    have hfault : (Registry.builtin.composeQuery {} "sqlite" (.text Registry.narrow) {}).1 =
        .error (.operandCount (.between false) 3 2) := by
      rw [Registry.composeQuery_eq,Query.parse_eq hread]
      with_unfolding_all rfl
    have hends := (only_disorder_escapes Registry.builtin {} "sqlite" Registry.narrow {}).2 _ hread
    exact ⟨_,hread,horder,_,hfault,hends.compilation horder _ hquery _ hfault⟩
  · have hread : Json.read Registry.proper (.text Registry.proper) = .ok (.mapping [(.text "FROM",.text "t"),
        (.text "WHERE",.list [.text ">",.text "a",.int 1])]) := by
      refine Json.read_of_document ?_
      simp only [Registry.proper,String.reduceToList]
      with_unfolding_all rfl
    have htext : (Registry.builtin.composeQuery {} "sqlite" (.text Registry.proper) {}).1.map Statement.text =
        .ok "SELECT * FROM \x22t\x22 WHERE \x22a\x22>:qp0" := by
      rw [Registry.composeQuery_eq,Query.parse_eq hread]
      with_unfolding_all rfl
    have hends := (only_disorder_escapes Registry.builtin {} "sqlite" Registry.proper {}).2 _ hread
    cases hout : (Registry.builtin.composeQuery {} "sqlite" (.text Registry.proper) {}).1 with
    | error f =>
      rw [hout] at htext
      cases htext
    | ok t => exact ⟨_,hread,hends.statement t hout,hout ▸ htext⟩

/-- A number as a column, and a mapping without a text as an item. -/
theorem misuse_escapes :
    (Registry.builtin.composeQuery {} "sqlite" (.text "\x7b\x22WHERE\x22: [\x22=\x22, 1, 1]\x7d") {}).1 =
      .error (.misuse .wrongType) ∧
    (Registry.builtin.composeQuery {} "sqlite" (.text "\x7b\x22SELECT\x22: [\x7b\x7d]\x7d") {}).1 =
      .error (.misuse .wrongType) ∧
    Fault.isParsing (.misuse .wrongType) = false ∧ Fault.isCompilation (.misuse .wrongType) = false := by
  refine ⟨?_,?_,rfl,rfl⟩
  · have hread : Json.read "\x7b\x22WHERE\x22: [\x22=\x22, 1, 1]\x7d" (.text "\x7b\x22WHERE\x22: [\x22=\x22, 1, 1]\x7d") =
        .ok (.mapping [(.text "WHERE",.list [.text "=",.int 1,.int 1])]) := by
      refine Json.read_of_document ?_
      simp only [String.reduceToList]
      with_unfolding_all rfl
    rw [Registry.composeQuery_eq,Query.parse_eq hread]
    with_unfolding_all rfl
  · have hread : Json.read "\x7b\x22SELECT\x22: [\x7b\x7d]\x7d" (.text "\x7b\x22SELECT\x22: [\x7b\x7d]\x7d") =
        .ok (.mapping [(.text "SELECT",.list [.mapping []])]) := by
      refine Json.read_of_document ?_
      simp only [String.reduceToList]
      with_unfolding_all rfl
    rw [Registry.composeQuery_eq,Query.parse_eq hread]
    with_unfolding_all rfl

end SqlCompose
