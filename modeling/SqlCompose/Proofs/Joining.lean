import SqlCompose.Proofs.Pruning
import SqlCompose.Proofs.TiedQueries

/-! # Joins that are accepted

A join may be a record, a list or a mapping, and each notation is read in its own way. What is read is the keyword, the
table and the condition, and they determine what is written, whichever notation they came in. A value that can be read
in no notation is refused as it is. Only of a list with more than three items the rest goes unnoticed.
-/
namespace SqlCompose
open Build

variable {s : Setting} {d e : Draft} {m : Memory} {v : Value} {sql : Sql} {parts : List Sql} {inner : Build (List Sql)}

namespace Sql

def Definite (sql : Sql) : Prop := sql.isEmpty ∨ sql.Visible

theorem definite_nil : Definite [] := .inl rfl

theorem definite_text (text : String) : Definite [.text text] := by
  by_cases h : text = ""
  · subst h
    exact .inl rfl
  · exact .inr (visible_text h [])

theorem Definite.render_eq_empty (h : sql.Definite) (dialect : Dialect) : dialect.render sql = "" ↔ sql.isEmpty := by
  rcases h with h | h
  · exact iff_of_true (Condition.render_of_isEmpty h dialect) h
  · exact iff_of_false (h.render_ne dialect) (by simp [h.isEmpty])

end Sql

/-! ## What a condition reads as -/

namespace Condition
variable {op : Operator} {operands : List Value} {column : Value} {any negated : Bool}

def Decides (d : Draft) (p : Build Sql) : Prop := ∀ sql e, p.runOn d = (.ok sql,e) → sql.Definite

theorem Shown.decides {p : Build Sql} (h : Shown d p) : Decides d p := fun sql e hp => .inr (h sql e hp)

theorem decides_pure (h : sql.Definite) : Decides d (pure sql) := by
  rintro a e ⟨⟩
  exact h

theorem decides_bind {α : Type} {p : Build α} {f : α → Build Sql} (h : ∀ a e, p.runOn d = (.ok a,e) → Decides e (f a)) :
    Decides d (p >>= f) := by
  intro sql e hp
  obtain ⟨a,c,ha,hrest⟩ := runOn_bind_ok.mp hp
  exact h a c ha sql e hrest

theorem mem_stream? : ∀ n, v = .stream n → n ∈ v.stream?.toList := by
  rintro n rfl
  exact .head _

theorem decides_member : Decides d (member s negated column v) := by
  by_cases h : negated = false ∨ (columns? column ≠ some [] ∧ v.listed (d.view s) ≠ [])
  · exact (shown_member h).decides
  · intro sql e hrun
    rw [not_or,Bool.not_eq_false] at h
    obtain ⟨rfl,hnothing⟩ := h
    refine .inl (quiet_member mem_stream? ?_ hrun).1
    by_cases hcolumn : columns? column = some []
    · simp [hcolumn]
    · have hlisted : v.listed (d.view s) = [] := by_contra (fun hne => hnothing ⟨hcolumn,hne⟩)
      simp [hlisted]

theorem decides_like : Decides d (like s any negated column v) := by
  by_cases h : negated = false ∨ v.listed (d.view s) ≠ []
  · exact (shown_like h).decides
  · intro sql e hrun
    rw [not_or,Bool.not_eq_false,not_not] at h
    obtain ⟨rfl,hnothing⟩ := h
    exact .inl (quiet_like mem_stream? (by simp [hnothing]) hrun).1

theorem definite_connected {word : String} (h : ∀ part ∈ parts, part.Definite) : (connected word parts).Definite := by
  by_cases hall : ∀ part ∈ parts, part.isEmpty
  · have hnone : parts.filter (fun part => !part.isEmpty) = [] := by simpa using hall
    unfold connected
    rw [hnone]
    exact Sql.definite_nil
  · simp only [not_forall] at hall
    obtain ⟨part,hm,hfull⟩ := hall
    exact .inr (visible_connected ⟨part,hm,(h part hm).resolve_left hfull⟩)

theorem decides_operate (h : ∀ parts e, inner.runOn d = (.ok parts,e) → ∀ part ∈ parts, part.Definite) :
    Decides d (operate s op operands inner) := by
  cases hop : op.connects with
  | true =>
    rw [operate_of_connects hop]
    exact decides_bind (fun parts e hparts => decides_pure (definite_connected (h parts e hparts)))
  | false =>
    unfold operate
    split
    · cases hop
    · cases hop
    · exact shown_between.decides
    · exact (Shown.fail _).decides
    · exact decides_member
    · exact decides_like
    · exact shown_comparison.decides
    · exact (Shown.fail _).decides

theorem decides_simple (v : Value) : Decides d (simple s v) := by
  refine decides_bind (fun m e _ => ?_)
  split
  · exact (Shown.fail _).decides
  · exact decides_pure (Sql.definite_text _)
  · exact shown_pairs.decides
  · exact decides_pure Sql.definite_nil

theorem definite_operands (ih : ∀ o ∈ operands, ∀ d, Decides d (compile s o))
    (h : (compileAll s operands).runOn d = (.ok parts,e)) : ∀ part ∈ parts, part.Definite := by
  induction operands generalizing d parts with
  | nil =>
    rw [compileAll] at h
    cases h
    exact List.forall_mem_nil _
  | cons v vs ihs =>
    rw [compileAll_asOperand] at h
    obtain ⟨sql,c,hsql,hrest⟩ := runOn_bind_ok.mp h
    obtain ⟨rest,c',hparts,hlast⟩ := runOn_bind_ok.mp hrest
    cases hlast
    refine List.forall_mem_cons.mpr ⟨?_,ihs (fun o ho => ih o (.tail _ ho)) hparts⟩
    unfold asOperand at hsql
    split at hsql
    · next hs =>
      cases hsql
      exact .inr (visible_symbol hs)
    · exact ih v (.head _) d sql c hsql

theorem decides_compile (v : Value) (d : Draft) : Decides d (compile s v) := by
  induction v using induct generalizing d with
  | expression text params =>
    rw [compile]
    exact decides_bind (fun _ _ _ => decides_pure (Sql.definite_text _))
  | operation v op operands h ih =>
    rw [compile_of_operation? h]
    exact decides_operate (fun parts e hparts => definite_operands ih hparts)
  | empty v h =>
    rw [compile_of_empty h]
    exact decides_pure Sql.definite_nil
  | unread v x h =>
    rw [compile_of_unread h]
    exact (Shown.fail x).decides
  | bare v hb hx =>
    rw [compile_of_bare hb hx]
    exact decides_simple v

end Condition

/-! ## Joins -/

namespace Join
variable {j : Join}

/-- `v` is a list or a tuple that begins like the join `short` of three items and goes on behind them. -/
def Exceeds (v short : Value) : Prop :=
  ∃ keyword table on extra more, (v = .list (keyword :: table :: on :: extra :: more) ∨
    v = .tuple (keyword :: table :: on :: extra :: more)) ∧ keyword.text?.isSome ∧ table.text?.isSome ∧
    short = .list [keyword,table,on]

/-- A value that stands for a join: a record; a list or a tuple of a keyword, a table and perhaps a condition; or a
mapping that has nothing but these. -/
inductive Written (m : Memory) : Value → Join → Prop where
  | record (keyword table : String) (on : Value) : Written m (.join keyword table on) ⟨keyword,table,on⟩
  | pair {v keyword table : Value} {k t : String} (hv : v = .list [keyword,table] ∨ v = .tuple [keyword,table])
    (hk : keyword.text? = some k) (ht : table.text? = some t) : Written m v ⟨k,t,.null⟩
  | triple {v keyword table on : Value} {k t : String}
    (hv : v = .list [keyword,table,on] ∨ v = .tuple [keyword,table,on]) (hk : keyword.text? = some k)
    (ht : table.text? = some t) : Written m v ⟨k,t,on⟩
  | mapping {v : Value} {es : Entries} {k t : String} (hv : v.entries? m = some es)
    (hkeys : ∀ key ∈ es.keys, ∃ name ∈ ["type","table","on"], key.text? = some name)
    (hk : (es.field? "type").bind Value.readText? = some k) (ht : (es.field? "table").bind Value.readText? = some t) :
    Written m v ⟨k,t,(es.field? "on").getD .null⟩

theorem ofList?_cons (keyword table : Value) (rest : List Value) : ofList? (keyword :: table :: rest) =
    keyword.text?.bind (fun k => table.text?.bind (fun t => some ⟨k,t,rest.headD .null⟩)) := rfl

theorem ofList?_eq_some {items : List Value} : ofList? items = some j ↔ ∃ keyword table rest k t,
    items = keyword :: table :: rest ∧ keyword.text? = some k ∧ table.text? = some t ∧ j = ⟨k,t,rest.headD .null⟩ := by
  constructor
  · intro h
    match items with
    | [] => cases h
    | [_] => cases h
    | keyword :: table :: rest =>
      rw [ofList?_cons,Option.bind_eq_some_iff] at h
      obtain ⟨k,hk,h⟩ := h
      rw [Option.bind_eq_some_iff] at h
      obtain ⟨t,ht,h⟩ := h
      exact ⟨keyword,table,rest,k,t,rfl,hk,ht,(Option.some.inj h).symm⟩
  · rintro ⟨keyword,table,rest,k,t,rfl,hk,ht,rfl⟩
    rw [ofList?_cons,hk,ht]
    rfl

theorem written_of_list {items : List Value} (hv : v = .list items ∨ v = .tuple items) (hl : ∀ short, ¬ Exceeds v short)
    (h : ofList? items = some j) : Written m v j := by
  obtain ⟨keyword,table,rest,k,t,rfl,hk,ht,rfl⟩ := ofList?_eq_some.mp h
  match rest with
  | [] => exact .pair hv hk ht
  | [on] => exact .triple hv hk ht
  | on :: extra :: more =>
    exact absurd ⟨keyword,table,on,extra,more,hv,by rw [hk]; rfl,by rw [ht]; rfl,rfl⟩ (hl (.list [keyword,table,on]))

theorem keys_known {es : Entries} : es.keys.all (fun key => key.text?.any ["type","table","on"].contains) ↔
    ∀ key ∈ es.keys, ∃ name ∈ ["type","table","on"], key.text? = some name := by
  simp only [List.all_eq_true,Option.any_eq_true,List.contains_iff_mem]
  refine forall₂_congr (fun key _ => exists_congr (fun name => ?_))
  exact and_comm

/-- What is read as a join is what stands for one, unless it goes on behind it. -/
theorem ofValue?_eq_some (h : ∀ short, ¬ Exceeds v short) : ofValue? m v = some j ↔ Written m v j := by
  have hmapping : ∀ es, v.entries? m = some es → ofValue? m v = some j → Written m v j := by
    intro es he hj
    rw [ofValue?_of_entries es he] at hj
    unfold ofFields? at hj
    split at hj
    · next k t hk ht hkeys =>
      cases hj
      exact .mapping he (keys_known.mp hkeys) hk ht
    · cases hj
  constructor
  · intro hj
    cases v with
    | join keyword table on =>
      cases hj
      exact .record _ _ _
    | list items => exact written_of_list (.inl rfl) h hj
    | tuple items => exact written_of_list (.inr rfl) h hj
    | mapping es => exact hmapping es rfl hj
    | shared home => exact hmapping _ rfl hj
    | _ => cases hj
  · intro hj
    cases hj with
    | record keyword table on => rfl
    | @pair _ keyword table k t hv hk ht =>
      have hlist : ofList? [keyword,table] = some ⟨k,t,.null⟩ := ofList?_eq_some.mpr ⟨_,_,_,_,_,rfl,hk,ht,rfl⟩
      rcases hv with rfl | rfl <;> exact hlist
    | @triple _ keyword table on k t hv hk ht =>
      have hlist : ofList? [keyword,table,on] = some ⟨k,t,on⟩ := ofList?_eq_some.mpr ⟨_,_,_,_,_,rfl,hk,ht,rfl⟩
      rcases hv with rfl | rfl <;> exact hlist
    | mapping he hkeys hk ht =>
      rw [ofValue?_of_entries _ he,hk,ht,keys_known.mpr hkeys]
      rfl

theorem isExpression_iff : v.isExpression ↔ ∃ sql params, v = .expression sql params := by
  cases v <;> simp [Value.isExpression]

theorem Written.not_expression (h : Written m v j) : v.isExpression = false := by
  cases h with
  | record keyword table on => rfl
  | pair hv hk ht => rcases hv with rfl | rfl <;> rfl
  | triple hv hk ht => rcases hv with rfl | rfl <;> rfl
  | mapping he hkeys hk ht => cases v <;> first | rfl | cases he

theorem Written.not_exceeds (h : Written m v j) (short : Value) : ¬ Exceeds v short := by
  rintro ⟨keyword,table,on,extra,more,hitems,-⟩
  cases h with
  | record => rcases hitems with h | h <;> cases h
  | pair hv => rcases hv with rfl | rfl <;> rcases hitems with h | h <;> cases h
  | triple hv => rcases hv with rfl | rfl <;> rcases hitems with h | h <;> cases h
  | mapping he => rcases hitems with rfl | rfl <;> cases he

theorem runOn_compileEntry (h : v.isExpression = false) : (compileEntry s v).runOn d =
    match ofValue? (d.view s) v with
    | some j => (compile s j).runOn d
    | none => (.error (.malformedJoin v),d) := by
  rw [compileEntry_of_not_expression h,runOn_bind,runOn_view]
  dsimp only
  cases ofValue? (d.view s) v <;> rfl

theorem Written.runOn_compileEntry (h : Written (d.view s) v j) :
    (compileEntry s v).runOn d = (compile s j).runOn d := by
  rw [Join.runOn_compileEntry h.not_expression,(ofValue?_eq_some h.not_exceeds).mpr h]

theorem runOn_compileEntry_refused (hl : ∀ short, ¬ Exceeds v short) (hx : v.isExpression = false)
    (hnone : ∀ j, ¬ Written (d.view s) v j) : (compileEntry s v).runOn d = (.error (.malformedJoin v),d) := by
  have hread : ofValue? (d.view s) v = none :=
    Option.eq_none_iff_forall_ne_some.mpr (fun j hj => hnone j ((ofValue?_eq_some hl).mp hj))
  rw [runOn_compileEntry hx,hread]

theorem Exceeds.runOn_compileEntry {short : Value} (h : Exceeds v short) :
    (compileEntry s v).runOn d = (compileEntry s short).runOn d := by
  obtain ⟨keyword,table,on,extra,more,hv,hk,ht,rfl⟩ := h
  obtain ⟨k,hk⟩ := Option.isSome_iff_exists.mp hk
  obtain ⟨t,ht⟩ := Option.isSome_iff_exists.mp ht
  have hlist : ∀ rest, ofList? (keyword :: table :: on :: rest) = some ⟨k,t,on⟩ :=
    fun rest => ofList?_eq_some.mpr ⟨_,_,_,_,_,rfl,hk,ht,rfl⟩
  have hlong : ofValue? (d.view s) v = some ⟨k,t,on⟩ := by rcases hv with rfl | rfl <;> exact hlist _
  have hshort : ofValue? (d.view s) (.list [keyword,table,on]) = some ⟨k,t,on⟩ := hlist []
  have hx : v.isExpression = false := by rcases hv with rfl | rfl <;> rfl
  rw [Join.runOn_compileEntry hx,Join.runOn_compileEntry rfl,hlong,hshort]

/-- The list of joins fails with the first entry that does. -/
theorem runOn_joinClause_error {q : Query} {before after : List Value} {start : Draft} {x : Fault}
    (hq : q.joins = before ++ v :: after) (hbefore : (before.mapM (compileEntry s)).runOn start = (.ok parts,d))
    (hv : (compileEntry s v).runOn d = (.error x,e)) : (Query.joinClause s q).runOn start = (.error x,e) := by
  have hrest : ((v :: after).mapM (compileEntry s)).runOn d = (.error x,e) := by rw [List.mapM_cons,runOn_bind,hv]
  have hall : (q.joins.mapM (compileEntry s)).runOn start = (.error x,e) := by
    rw [hq,List.mapM_append,runOn_bind,hbefore]
    dsimp only
    rw [runOn_bind,hrest]
  rw [Query.joinClause,runOn_bind,hall]

def sqlOf (s : Setting) (j : Join) (on : Sql) : Sql :=
  [.text (j.keyword ++ " ")] ++ Sql.aliasedTable j.table ++
    if s.dialect.render on = "" then [] else [.text " ON "] ++ on.alone

theorem runOn_compile : (compile s j).runOn d =
    match (Condition.compile s j.on).runOn d with
    | (.ok on,e) => (.ok (sqlOf s j on),e)
    | (.error x,e) => (.error x,e) := by
  rw [compile,runOn_bind]
  cases hrun : (Condition.compile s j.on).runOn d with
  | mk r e =>
    cases r with
    | error x => rfl
    | ok on =>
      have hempty := (Condition.decides_compile j.on d on e hrun).render_eq_empty s.dialect
      unfold sqlOf
      cases hon : on.isEmpty with
      | true => simp [hempty.mpr hon,hon]
      | false =>
        have hne : s.dialect.render on ≠ "" := fun hnil => by simp [hempty.mp hnil] at hon
        simp [hne,hon]

/-- Which entries of a list of joins are accepted, and what is written for them. An expression is written as it is.
Whatever stands for a join in any notation is written from its keyword, its table and its condition, and fails only if
the condition does. Nothing else is accepted: the value is refused, and with it the whole list of joins, unless it goes
on behind the three items of a join; what stands there goes unnoticed. -/
theorem accepted_iff_written (hb : s.Binds) (d : Draft) (v : Value) :
    ((∀ short, ¬ Exceeds v short) → ((∃ sql e, (compileEntry s v).runOn d = (.ok sql,e)) ↔
      v.isExpression ∨ ∃ j, Written (d.view s) v j ∧ ∃ on e, (Condition.compile s j.on).runOn d = (.ok on,e))) ∧
    (∀ sql params, v = .expression sql params → (compileEntry s v).runOn d = (.ok [.text sql],d.adopted params)) ∧
    (∀ j, Written (d.view s) v j → (compileEntry s v).runOn d =
      match (Condition.compile s j.on).runOn d with
      | (.ok on,e) => (.ok (sqlOf s j on),e)
      | (.error x,e) => (.error x,e)) ∧
    ((∀ short, ¬ Exceeds v short) → v.isExpression = false → (∀ j, ¬ Written (d.view s) v j) →
      (compileEntry s v).runOn d = (.error (.malformedJoin v),d) ∧
      ∀ (q : Query) before after start parts, q.joins = before ++ v :: after →
        (before.mapM (compileEntry s)).runOn start = (.ok parts,d) →
        (Query.joinClause s q).runOn start = (.error (.malformedJoin v),d)) ∧
    ∀ short, Exceeds v short → (compileEntry s v).runOn d = (compileEntry s short).runOn d := by
  have hexpression : ∀ sql params, v = .expression sql params →
      (compileEntry s v).runOn d = (.ok [.text sql],d.adopted params) := by
    rintro sql params rfl
    show (rendered s (.expression sql params)).runOn d = _
    rw [rendered,runOn_bind,runOn_adopt hb]
    rfl
  refine ⟨fun hl => ⟨?_,?_⟩,hexpression,?_,?_,fun short h => h.runOn_compileEntry⟩
  · rintro ⟨sql,e,hrun⟩
    by_contra hneither
    rw [not_or,Bool.not_eq_true] at hneither
    obtain ⟨hx,hnone⟩ := hneither
    by_cases hj : ∃ j, Written (d.view s) v j
    · obtain ⟨j,hj⟩ := hj
      rw [hj.runOn_compileEntry,runOn_compile] at hrun
      cases hon : (Condition.compile s j.on).runOn d with
      | mk r c =>
        rw [hon] at hrun
        cases r with
        | error x => cases hrun
        | ok on => exact hnone ⟨j,hj,on,c,hon⟩
    · rw [runOn_compileEntry_refused hl hx (not_exists.mp hj)] at hrun
      cases hrun
  · rintro (hx | ⟨j,hj,on,e,hon⟩)
    · obtain ⟨sql,params,hv⟩ := isExpression_iff.mp hx
      exact ⟨_,_,hexpression sql params hv⟩
    · refine ⟨sqlOf s j on,e,?_⟩
      rw [hj.runOn_compileEntry,runOn_compile,hon]
  · intro j hj
    rw [hj.runOn_compileEntry,runOn_compile]
  · intro hl hx hnone
    have hrefused := runOn_compileEntry_refused hl hx hnone
    exact ⟨hrefused,fun q before after start parts hq hbefore => runOn_joinClause_error hq hbefore hrefused⟩

/-- One join in each notation, the table given as bytes in the mapping; and a mapping with one key too many. -/
theorem accepted_iff_written_spelled :
    let s := Options.setting {} .sqlite
    let d : Draft := { bindings := [],memory := {} }
    let on := .mapping [(.text "y.id",.int 1)]
    let extra := .mapping [(.text "type",.text "JOIN"),(.text "table",.text "b"),(.text "using",.text "id")]
    (∃ sql e, s.dialect.render sql = "LEFT JOIN \"b\" \"y\" ON \"y\".\"id\"=:qp0" ∧
      ∀ v ∈ [.join "LEFT JOIN" "b y" on,.list [.text "LEFT JOIN",.text "b y",on],.tuple [.text "LEFT JOIN",.text "b y",on],
        .mapping [(.text "on",on),(.text "table",.bytes [98,32,121]),(.text "type",.text "LEFT JOIN")]],
        (compileEntry s v).runOn d = (.ok sql,e)) ∧
    (compileEntry s extra).runOn d = (.error (.malformedJoin extra),d) := by
  have hunknown : ∀ m j, ¬ Written m
      (.mapping [(.text "type",.text "JOIN"),(.text "table",.text "b"),(.text "using",.text "id")]) j := by
    rintro m j (_ | hv | hv | ⟨hv,hkeys,-,-⟩)
    · rcases hv with h | h <;> cases h
    · rcases hv with h | h <;> cases h
    · cases hv
      have husing := hkeys (.text "using") (by simp [Entries.keys])
      simp [Value.text?] at husing
  have hon : (Condition.compile (Options.setting {} .sqlite) (.mapping [(.text "y.id",.int 1)])).runOn
      { bindings := [],memory := {} } = (.ok (Sql.column "y.id" ++ [.text "=",.placeholder "qp0"]),
        Draft.bound (Options.setting {} .sqlite) (.int 1) { bindings := [],memory := {} }) := rfl
  intro s d on extra
  have hb : s.Binds := .inl rfl
  have hshort : ∀ short, ¬ Exceeds extra short := by
    rintro short ⟨_,_,_,_,_,h,-⟩
    rcases h with h | h <;> exact Value.noConfusion h
  have hrun : ∀ v, Written (d.view s) v ⟨"LEFT JOIN","b y",on⟩ → (compileEntry s v).runOn d =
      (.ok (sqlOf s ⟨"LEFT JOIN","b y",on⟩ (Sql.column "y.id" ++ [.text "=",.placeholder "qp0"])),d.bound s (.int 1)) := by
    intro v hv
    rw [(accepted_iff_written hb d v).2.2.1 _ hv,hon]
  have hall : ∀ v ∈ [Value.join "LEFT JOIN" "b y" on,.list [.text "LEFT JOIN",.text "b y",on],
      .tuple [.text "LEFT JOIN",.text "b y",on],
      .mapping [(.text "on",on),(.text "table",.bytes [98,32,121]),(.text "type",.text "LEFT JOIN")]],
      Written (d.view s) v ⟨"LEFT JOIN","b y",on⟩ := by
    let entries := [(Value.text "on",on),(.text "table",.bytes [98,32,121]),(.text "type",.text "LEFT JOIN")]
    have hentries : Value.entries? (d.view s) (.mapping entries) = some entries := rfl
    simp only [List.forall_mem_cons]
    exact ⟨.record _ _ _,.triple (.inl rfl) rfl rfl,.triple (.inr rfl) rfl rfl,
      .mapping hentries (by simp [Entries.keys,Value.text?,entries]) rfl (by decide),fun _ h => absurd h List.not_mem_nil⟩
  exact ⟨⟨_,_,by decide,fun v hv => hrun v (hall v hv)⟩,((accepted_iff_written hb d extra).2.2.2.1 hshort rfl (hunknown _)).1⟩

/-- A list that stands for no join, of which the first three items are written and the fourth is not. -/
theorem fourth_item_unnoticed :
    let s := Options.setting {} .sqlite
    let v := .list [.text "JOIN",.text "b",.text "a.id=b.id",.text "AND b.x=1"]
    v.isExpression = false ∧ (∀ m j, ¬ Written m v j) ∧
      ∃ sql e, (compileEntry s v).runOn { bindings := [],memory := {} } = (.ok sql,e) ∧
        s.dialect.render sql = "JOIN \"b\" ON a.id=b.id" := by
  refine ⟨rfl,?_,_,_,rfl,by decide⟩
  rintro m j (_ | hv | hv | ⟨hv,-⟩)
  · rcases hv with h | h <;> cases h
  · rcases hv with h | h <;> cases h
  · cases hv

end Join

end SqlCompose
