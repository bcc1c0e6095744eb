import SqlCompose.Proofs.Flaws

/-! # Spellings of a membership test

A test of one column over values may name the column alone or in a list, may give the values in a list, a tuple or a
stream, or each in a row under the column, and over a single value it is a comparison. All of these write the same and
bind the same.
-/
namespace SqlCompose
open Build

variable {s : Setting} {d : Draft} {m : Memory} {v head sign : Value} {vs : List Value} {c : String} {negated : Bool}
  {cell : Nat} {α β : Type}

/-! ## Steps that leave the memory alone -/

def Blind (step : Build α) : Prop :=
  ∀ d m, step.runOn { d with memory := m } = ((step.runOn d).1,{ (step.runOn d).2 with memory := m })

namespace Blind
variable {step : Build α} {f : α → Build β}

theorem pure (a : α) : Blind (Pure.pure a : Build α) := fun _ _ => rfl

theorem bind (h : Blind step) (hf : ∀ a, Blind (f a)) : Blind (step >>= f) := by
  intro d m
  rw [runOn_bind,runOn_bind,h d m]
  rcases step.runOn d with ⟨x | a,e⟩
  · rfl
  · exact hf a e m

theorem mapM {l : List α} (h : ∀ a, Blind (f a)) : Blind (l.mapM f) := by
  induction l with
  | nil => exact pure _
  | cons a l ih =>
    rw [List.mapM_cons]
    exact bind (h a) (fun b => bind ih (fun bs => pure _))

theorem rendered (v : Value) : Blind (Build.rendered s v) := by
  have hbind : ∀ w, Blind (bindValue s w) := by
    intro w d m
    unfold bindValue
    cases s.collection <;> rfl
  have hadopt : ∀ more, Blind (adopt s more) := by
    intro more d m
    unfold adopt
    cases s.collection <;> rfl
  unfold Build.rendered
  split
  · exact bind (hadopt _) (fun _ => pure _)
  · exact bind (hbind _) (fun _ => pure _)

theorem entry (v : Value) : Blind (Condition.entry s v) := by
  unfold Condition.entry
  split
  · exact pure _
  · exact rendered v

end Blind

/-- Items on which two steps agree are gone through alike. -/
theorem mapM_congr {f g : α → Build β} {l : List α} (h : ∀ a ∈ l, f a = g a) : l.mapM f = l.mapM g := by
  induction l with
  | nil => rfl
  | cons a l ih => rw [List.mapM_cons,List.mapM_cons,h a (.head _),ih (fun a ha => h a (.tail _ ha))]

namespace Condition

/-! ## The test itself -/

def tested (negated : Bool) (c : String) : List Sql → Sql
  | [one] => Sql.column c ++ [.text (if negated then "<>" else "=")] ++ one
  | many => Sql.column c ++ [.text (if negated then " NOT IN " else " IN ")] ++ tupled many

def memberTest (s : Setting) (negated : Bool) (c : String) (vs : List Value) : Build Sql :=
  if vs.isEmpty then return overNothing negated else return tested negated c (← vs.mapM (entry s))

theorem blind_memberTest : Blind (memberTest s negated c vs) := by
  unfold memberTest
  split
  · exact .pure _
  · exact .bind (.mapM .entry) (fun _ => .pure _)

theorem field_eq (h : v.hasEntries = false) : field s (.text c) v = pure v := by
  funext d
  cases v <;> first | rfl | cases h

theorem field_row : field s (.text c) (.mapping [(.text c,v)]) = pure v := by
  have hget : Entries.get? (.text c) [(.text c,v)] = some v := by
    simp [Entries.get?,Value.same_of_text_left (k := .text c) rfl,Value.text?]
  funext d
  show (field s (.text c) (.mapping [(.text c,v)])).runOn d = (.ok v,d)
  rw [field,runOn_bind,runOn_view]
  simp only [Value.entries?,Value.isKey,hget]
  rfl

/-- Things that each give one value under the column are tested as those values are. -/
theorem singleMember_eq {l : List α} {f g : α → Value} (h : ∀ a ∈ l, field s (.text c) (f a) = pure (g a)) :
    singleMember s negated (.text c) (l.map f) = do return tested negated c (← (l.map g).mapM (entry s)) := by
  have hentries : (l.map f).mapM (fun v => do entry s (← field s (.text c) v)) = (l.map g).mapM (entry s) := by
    rw [List.mapM_map,List.mapM_map]
    refine mapM_congr (fun a ha => ?_)
    simp only [Function.comp_apply]
    rw [h a ha,pure_bind]
  unfold singleMember
  rw [hentries]
  refine bind_congr (fun entries => ?_)
  rcases entries with _ | ⟨one,_ | ⟨two,more⟩⟩ <;> rfl

def columnSpellings (c : String) : List Value := [.text c,.list [.text c],.tuple [.text c]]

def valueSpellings (c : String) (vs : List Value) : List Value :=
  [.list vs,.tuple vs,.list (vs.map (fun v => .mapping [(.text c,v)])),.tuple (vs.map (fun v => .mapping [(.text c,v)]))]

theorem member_eq {column values : Value} (hc : column ∈ columnSpellings c) :
    member s negated column values = (valuesOf s values >>= fun l =>
      if l.isEmpty then pure (overNothing negated) else singleMember s negated (.text c) l) := by
  simp only [columnSpellings,List.mem_cons,List.not_mem_nil,or_false] at hc
  rcases hc with rfl | rfl | rfl <;> rfl

theorem singleMember_plain (hvs : ∀ v ∈ vs, v.hasEntries = false) :
    singleMember s negated (.text c) vs = do return tested negated c (← vs.mapM (entry s)) := by
  have h : singleMember s negated (.text c) (vs.map id) = do return tested negated c (← (vs.map id).mapM (entry s)) :=
    singleMember_eq (fun v hv => field_eq (hvs v hv))
  rwa [List.map_id] at h

theorem member_spelled {column values : Value} (hvs : ∀ v ∈ vs, v.hasEntries = false) (hc : column ∈ columnSpellings c)
    (hv : values ∈ valueSpellings c vs) : member s negated column values = memberTest s negated c vs := by
  have hrows : singleMember s negated (.text c) (vs.map (fun v => .mapping [(.text c,v)])) = do
      return tested negated c (← vs.mapM (entry s)) := by
    have h : singleMember s negated (.text c) (vs.map (fun v => .mapping [(.text c,v)])) = do
        return tested negated c (← (vs.map id).mapM (entry s)) := singleMember_eq (fun _ _ => field_row)
    rwa [List.map_id] at h
  have hlist : ∀ l : List Value, (valuesOf s values = pure l) → l.isEmpty = vs.isEmpty →
      singleMember s negated (.text c) l = (do return tested negated c (← vs.mapM (entry s))) →
      member s negated column values = memberTest s negated c vs := by
    intro l hvalues hempty hl
    rw [member_eq hc,hvalues,pure_bind,hempty,hl]
    rfl
  simp only [valueSpellings,List.mem_cons,List.not_mem_nil,or_false] at hv
  rcases hv with rfl | rfl | rfl | rfl
  · exact hlist vs rfl rfl (singleMember_plain hvs)
  · exact hlist vs rfl rfl (singleMember_plain hvs)
  · exact hlist _ rfl List.isEmpty_map hrows
  · exact hlist _ rfl List.isEmpty_map hrows

/-- A stream is used up besides. -/
theorem member_stream (hvs : ∀ v ∈ vs, v.hasEntries = false) (hs : d.memory.stream cell = vs) :
    (member s negated (.text c) (.stream cell)).runOn d =
      (((memberTest s negated c vs).runOn d).1,((memberTest s negated c vs).runOn d).2.drained cell []) := by
  have hvalues : (valuesOf s (.stream cell)).runOn d = (.ok vs,d.drained cell []) := by
    have hview : (d.view s).stream cell = vs := (Draft.view_stream s d cell).trans hs
    simp only [valuesOf,Value.listsValues,if_true,elements]
    rw [runOn_bind,runOn_view]
    simp only [Value.held,Value.elements?,Value.text?,Value.sequence?,hview]
    rfl
  have hmember : (member s negated (.text c) (.stream cell)).runOn d =
      (memberTest s negated c vs).runOn (d.drained cell []) := by
    rw [member_eq (c := c) (.head _),runOn_bind,hvalues]
    dsimp only
    rw [singleMember_plain hvs]
    rfl
  have hblind : Blind (memberTest s negated c vs) := blind_memberTest
  have hmemory : ((memberTest s negated c vs).runOn d).2.memory = d.memory :=
    congrArg (fun r => r.2.memory) (hblind d d.memory)
  rw [hmember,Draft.drained,hblind d,Draft.drained,hmemory]

theorem member_single (hv : v.hasEntries = false) (hl : v.listsValues = false) :
    member s negated (.text c) v = memberTest s negated c [v] := by
  have hvalues : valuesOf s v = pure [v] := by
    unfold valuesOf
    rw [hl]
    rfl
  rw [member_eq (c := c) (.head _),hvalues,pure_bind,singleMember_plain (by simpa using hv)]
  rfl

theorem memberTest_single (hn : v ≠ .null) : memberTest s negated c [v] = do
    return Sql.column c ++ [.text (if negated then "<>" else "=")] ++ (← rendered s v) := by
  have hentry : entry s v = rendered s v := by
    unfold entry
    split
    · exact absurd rfl hn
    · rfl
  unfold memberTest
  simp only [List.mapM_cons,List.mapM_nil,hentry,bind_assoc,pure_bind]
  rfl

theorem comparison_eq (hn : v ≠ .null) :
    comparison s (if negated then .ne else .eq) (.text c) v = memberTest s negated c [v] := by
  rw [memberTest_single hn]
  cases negated <;> rfl

theorem pair_listed (hl : v.listsValues) : pair s c v = member s false (.text c) v := by
  unfold pair
  rw [if_pos hl]

theorem pair_single (hn : v ≠ .null) (hl : v.listsValues = false) : pair s c v = memberTest s false c [v] := by
  rw [memberTest_single hn]
  unfold pair
  rw [hl,if_neg Bool.false_ne_true]
  split
  · exact absurd rfl hn
  · rfl

/-! ## Conditions -/

theorem compile_form {op : Operator} {operands : List Value} (h : Operator.ofValue head = .ok op) :
    compile s (.list (head :: operands)) = operate s op operands (compileAll s operands) := by
  rw [compile,compileForm,h]

theorem compile_pair (c : String) (v : Value) : compile s (.mapping [(.text c,v)]) = pair s c v := by
  have hpairs : compile s (.mapping [(.text c,v)]) = pairs s [(c,v)] := by
    rw [compile] <;> try simp
    rfl
  rw [hpairs]
  unfold pairs
  simp only [List.mapM_cons,List.mapM_nil,bind_assoc,pure_bind,bind_pure]

/-- All spellings of a membership test are the same step, also where it fails. The column may be named alone or in a
list; the values may be listed as they are or in rows under the column, and without a negation they may stand under the
column of a mapping; a stream of the values is used up besides. A single value that is neither nothing nor a list may
stand for the list of it, and may as well be compared. -/
theorem spellings_agree (hhead : Operator.ofValue head = .ok (.member negated))
    (hsign : Operator.ofValue sign = .ok (.compare (if negated then .ne else .eq)))
    (hvs : ∀ v ∈ vs, v.hasEntries = false) :
    (∀ column ∈ columnSpellings c, ∀ values ∈ valueSpellings c vs,
      compile s (.list [head,column,values]) = compile s (.list [head,.text c,.list vs])) ∧
    (negated = false → ∀ values ∈ [.list vs,.tuple vs],
      compile s (.mapping [(.text c,values)]) = compile s (.list [head,.text c,.list vs])) ∧
    (∀ d cell, d.memory.stream cell = vs →
      ∀ w ∈ .list [head,.text c,.stream cell] :: if negated then [] else [.mapping [(.text c,.stream cell)]],
        (compile s w).runOn d = (((compile s (.list [head,.text c,.list vs])).runOn d).1,
          ((compile s (.list [head,.text c,.list vs])).runOn d).2.drained cell [])) ∧
    ∀ v, v ≠ .null → v.hasEntries = false → v.listsValues = false →
      ∀ w ∈ [.list [head,.text c,v],.list [sign,.text c,v]] ++ if negated then [] else [.mapping [(.text c,v)]],
        compile s w = compile s (.list [head,.text c,.list [v]]) := by
  have hform : ∀ column values, compile s (.list [head,column,values]) = member s negated column values :=
    fun column values => compile_form hhead
  have hspelled : ∀ vs : List Value, (∀ v ∈ vs, v.hasEntries = false) → ∀ column ∈ columnSpellings c,
      ∀ values ∈ valueSpellings c vs, compile s (.list [head,column,values]) = memberTest s negated c vs :=
    fun vs hvs column hc values hv => (hform column values).trans (member_spelled hvs hc hv)
  have hplain : ∀ vs : List Value, (∀ v ∈ vs, v.hasEntries = false) →
      compile s (.list [head,.text c,.list vs]) = memberTest s negated c vs :=
    fun vs hvs => hspelled vs hvs _ (.head _) _ (.head _)
  refine ⟨?_,?_,?_,?_⟩
  · intro column hc values hv
    rw [hplain vs hvs,hspelled vs hvs column hc values hv]
  · rintro rfl values hv
    have hv' : values ∈ valueSpellings c vs ∧ values.listsValues := by
      simp only [List.mem_cons,List.not_mem_nil,or_false] at hv
      rcases hv with rfl | rfl <;> simp [valueSpellings,Value.listsValues]
    rw [hplain vs hvs,compile_pair,pair_listed hv'.2]
    exact member_spelled hvs (.head _) hv'.1
  · intro d cell hs w hw
    rw [hplain vs hvs,← member_stream hvs hs]
    rcases List.mem_cons.mp hw with rfl | hw
    · rw [hform]
    · cases negated with
      | true => cases hw
      | false =>
        rw [List.mem_singleton.mp hw,compile_pair,pair_listed rfl]
  · intro v hn he hl w hw
    rw [hplain [v] (by simpa using he)]
    simp only [List.mem_append,List.mem_cons,List.not_mem_nil,or_false] at hw
    rcases hw with (rfl | rfl) | hw
    · rw [hform,member_single he hl]
    · rw [compile_form hsign,← comparison_eq hn]
      rfl
    · cases negated with
      | true => cases hw
      | false => rw [List.mem_singleton.mp hw,compile_pair,pair_single hn hl]

/-- A number, nothing and an expression, in rows under the column and in a stream; and a single number compared. -/
theorem spellings_agree_excluded :
    let vs : List Value := [.int 1,.null,.expression "now()" [(.text "zone",.null)]]
    let s : Setting := Options.setting {} .mysql
    let d : Draft := { bindings := [(.text "p",.int 5)],memory := { streams := #[vs] } }
    let listed := (compile s (.list [.text "not in",.text "t.a",.list vs])).runOn d
    (∃ sql, listed.1 = .ok sql ∧ Dialect.mysql.render sql = "\x60t\x60.\x60a\x60 NOT IN (%(qp1)s, NULL, now())") ∧
      (compile s (.list [.text "not in",.list [.text "t.a"],
        .list (vs.map (fun v => .mapping [(.text "t.a",v)]))])).runOn d = listed ∧
      (compile s (.list [.text "not in",.text "t.a",.stream 0])).runOn d = (listed.1,listed.2.drained 0 []) ∧
      compile s (.list [.text "<>",.text "t.a",.int 1]) = compile s (.list [.text "not in",.text "t.a",.list [.int 1]]) := by
  intro vs s d listed
  have hvs : ∀ v ∈ vs, v.hasEntries = false := by simp [vs,Value.hasEntries]
  have hhead : Operator.ofValue (.text "not in") = .ok (.member true) := rfl
  have hsign : Operator.ofValue (.text "<>") = .ok (.compare (if true then .ne else .eq)) := rfl
  obtain ⟨hspelled,-,hstream,hsingle⟩ := spellings_agree (s := s) (c := "t.a") hhead hsign hvs
  refine ⟨⟨_,rfl,by decide⟩,?_,hstream d 0 rfl _ (.head _),?_⟩
  · rw [hspelled (.list [.text "t.a"]) (by simp [columnSpellings]) _ (by simp [valueSpellings])]
  · exact hsingle (.int 1) (by simp) rfl rfl _ (by simp)

end Condition

end SqlCompose
