import SqlCompose.Proofs.CanonicalNames
import SqlCompose.Proofs.Entries
import Mathlib.Data.List.Infix

/-! # Histories of a registry

A registry is changed by registrations and removals, one after the other. Whatever they are, no alias outlives the
target that it stands for, and a removal takes away one target with its aliases and nothing else. A target is reached
under its own name unless that name is an alias for another target; which names are aliases is read off the history.
-/
namespace SqlCompose

namespace Text
variable {α : Type} {name k : String} {a b : α} {l : List (String × α)}

theorem mem_names_iff : k ∈ l.map (·.1) ↔ (l.lookup k).isSome := by
  simp [List.lookup_isSome_iff]

theorem lookup_cons_of_ne (h : k ≠ name) : ((name,a) :: l).lookup k = l.lookup k := by
  have hk : (k == name) = false := by simpa using h
  rw [List.lookup_cons,hk]

theorem lookup_put : (put name a l).lookup k = if k = name then some a else l.lookup k := by
  induction l with
  | nil =>
    rw [put]
    split
    · next h => rw [h,List.lookup_cons_self]
    · next h => rw [lookup_cons_of_ne h]
  | cons e l ih =>
    obtain ⟨n,b⟩ := e
    rw [put]
    split
    · next hn =>
      have hname : n = name := by simpa using hn
      subst hname
      split
      · next h => rw [h,List.lookup_cons_self]
      · next h => rw [lookup_cons_of_ne h,lookup_cons_of_ne h]
    · next hn =>
      have hname : n ≠ name := by simpa using hn
      by_cases h : k = n
      · subst h
        rw [List.lookup_cons_self,List.lookup_cons_self,if_neg hname]
      · rw [lookup_cons_of_ne h,lookup_cons_of_ne h,ih]

/-- Where no name is repeated, what is found under a name after some entries have been removed is what was found before,
unless it has been removed. -/
theorem lookup_filter {p : String × α → Bool} (h : (l.map (·.1)).Nodup) :
    (l.filter p).lookup k = (l.lookup k).filter (fun b => p (k,b)) := by
  induction l with
  | nil => rfl
  | cons e l ih =>
    obtain ⟨n,b⟩ := e
    rw [List.map_cons,List.nodup_cons] at h
    rw [List.filter_cons]
    by_cases hk : k = n
    · subst hk
      have hnone : l.lookup k = none := by
        rw [← Option.not_isSome_iff_eq_none,← mem_names_iff]
        exact h.1
      rw [List.lookup_cons_self]
      by_cases hp : p (k,b)
      · rw [if_pos hp,List.lookup_cons_self,Option.filter_some,if_pos hp]
      · rw [if_neg hp,ih h.2,hnone,Option.filter_some,if_neg hp]
        rfl
    · rw [lookup_cons_of_ne hk]
      split
      · rw [lookup_cons_of_ne hk,ih h.2]
      · exact ih h.2

theorem nodup_names_filter {p : String × α → Bool} (h : (l.map (·.1)).Nodup) : ((l.filter p).map (·.1)).Nodup :=
  h.sublist (List.filter_sublist.map _)

end Text

namespace Registry
variable {r r' : Registry} {name t u a c k n : String} {d : Dialect} {aliases : List String}

/-! ## Calls -/

/-- A call that changes a registry. A registration that breaks off at one of its aliases leaves what it has written, so
it is the registration with the aliases before. -/
inductive Command where
  | register (name : String) (d : Dialect) (aliases : List String)
  | unregister (name : String)

def perform (r : Registry) : Command → Registry
  | .register name d aliases => r.register name d aliases
  | .unregister name =>
    match r.unregister name with
    | .ok r' => r'
    | .error _ => r

def after (r : Registry) (calls : List Command) : Registry := calls.foldl perform r

def without (r : Registry) (c : String) : Registry :=
  { targets := r.targets.filter (fun e => e.1 != c)
    aliases := r.aliases.filter (fun e => e.2 != c) }

theorem unregister_eq (r : Registry) (name : String) : r.unregister name = (r.resolve name).map r.without := by
  unfold unregister
  cases r.resolve name <;> rfl

/-- What a call does. -/
theorem perform_cases (r : Registry) (call : Command) :
    (∃ name d aliases, call = .register name d aliases ∧ r.perform call = r.register name d aliases) ∨
    (∃ name c, call = .unregister name ∧ r.resolve name = .ok c ∧ r.perform call = r.without c) ∨
    ∃ name f, call = .unregister name ∧ r.resolve name = .error f ∧ r.perform call = r := by
  cases call with
  | register name d aliases => exact .inl ⟨name,d,aliases,rfl,rfl⟩
  | unregister name =>
    cases h : r.resolve name with
    | ok c =>
      refine .inr (.inl ⟨name,c,rfl,h,?_⟩)
      simp only [perform,unregister_eq,h,Except.map]
    | error f =>
      refine .inr (.inr ⟨name,f,rfl,h,?_⟩)
      simp only [perform,unregister_eq,h,Except.map]

theorem mem_names : t ∈ r.names ↔ (r.targets.lookup t).isSome := by
  rw [names,List.mem_mergeSort,Text.mem_names_iff]

/-! ## Names and aliases after a call -/

theorem target_register : (r.register name d aliases).targets.lookup t =
    if t = canonical name then some d else r.targets.lookup t := Text.lookup_put

theorem alias_register : (r.register name d aliases).aliases.lookup a =
    if a ∈ aliases.map canonical then some (canonical name) else r.aliases.lookup a := by
  unfold register
  dsimp only
  generalize r.aliases = known
  induction aliases generalizing known with
  | nil => rfl
  | cons b aliases ih =>
    rw [List.foldl_cons,ih,Text.lookup_put,List.map_cons]
    by_cases hb : a = canonical b
    · simp [hb]
    · simp [hb]

/-- Whether no name is repeated, all targets are in their canonical form, and aliases stand for targets. -/
structure Consistent (r : Registry) : Prop where
  targets_nodup : (r.targets.map (·.1)).Nodup
  aliases_nodup : (r.aliases.map (·.1)).Nodup
  canonical : ∀ t ∈ r.names, canonical t = t
  closed : ∀ e ∈ r.aliases, e.2 ∈ r.names

theorem target_without (h : r.Consistent) : (r.without c).targets.lookup t =
    if t = c then none else r.targets.lookup t := by
  rw [without,Text.lookup_filter h.targets_nodup]
  split
  · next ht => simp [ht]
  · next ht =>
    have hkept : (t != c) = true := by simpa using ht
    cases r.targets.lookup t <;> simp [hkept]

theorem alias_without (h : r.Consistent) :
    (r.without c).aliases.lookup a = (r.aliases.lookup a).filter (fun u => u != c) :=
  Text.lookup_filter h.aliases_nodup

theorem mem_names_register : t ∈ (r.register name d aliases).names ↔ t = canonical name ∨ t ∈ r.names := by
  rw [mem_names,mem_names,target_register]
  split <;> simp_all

theorem mem_names_without (h : r.Consistent) : t ∈ (r.without c).names ↔ t ≠ c ∧ t ∈ r.names := by
  rw [mem_names,mem_names,target_without h]
  split <;> simp_all

theorem nodup_aliases_register (h : (r.aliases.map (·.1)).Nodup) :
    ((r.register name d aliases).aliases.map (·.1)).Nodup := by
  unfold register
  dsimp only
  generalize r.aliases = known at h ⊢
  induction aliases generalizing known with
  | nil => exact h
  | cons b aliases ih => exact ih _ (Text.nodup_put h)

theorem mem_aliases_register {e : String × String} (h : e ∈ (r.register name d aliases).aliases) :
    e.2 = canonical name ∨ e ∈ r.aliases := by
  unfold register at h
  dsimp only at h
  generalize r.aliases = known at h ⊢
  induction aliases generalizing known with
  | nil => exact .inr h
  | cons b aliases ih =>
    rcases ih _ h with h | h
    · exact .inl h
    · rcases Text.mem_put h with rfl | h
      · exact .inl rfl
      · exact .inr h

namespace Consistent

theorem register (h : r.Consistent) : (r.register name d aliases).Consistent where
  targets_nodup := Text.nodup_put h.targets_nodup
  aliases_nodup := nodup_aliases_register h.aliases_nodup
  canonical t ht := by
    rcases mem_names_register.mp ht with rfl | ht
    · exact canonical_canonical name
    · exact h.canonical t ht
  closed e he := by
    rw [mem_names_register]
    exact (mem_aliases_register he).imp_right (h.closed e)

theorem without (h : r.Consistent) (c : String) : (r.without c).Consistent where
  targets_nodup := Text.nodup_names_filter h.targets_nodup
  aliases_nodup := Text.nodup_names_filter h.aliases_nodup
  canonical t ht := h.canonical t ((mem_names_without h).mp ht).2
  closed e he := by
    obtain ⟨hmem,hne⟩ := List.mem_filter.mp he
    exact (mem_names_without h).mpr ⟨by simpa using hne,h.closed e hmem⟩

theorem perform (h : r.Consistent) (call : Command) : (r.perform call).Consistent := by
  rcases r.perform_cases call with ⟨name,d,aliases,-,he⟩ | ⟨name,c,-,-,he⟩ | ⟨name,f,-,-,he⟩
  · rw [he]
    exact h.register
  · rw [he]
    exact h.without c
  · rwa [he]

/-- A registry stays consistent whatever is called. -/
theorem after (h : r.Consistent) (calls : List Command) : (r.after calls).Consistent := by
  induction calls generalizing r with
  | nil => exact h
  | cons call calls ih => exact ih (h.perform call)

end Consistent

def empty : Registry := { targets := [], aliases := [] }

theorem consistent_empty : empty.Consistent := by
  constructor <;> simp [empty,names]

def founding : List Command :=
  [.register "sqlite" .sqlite ["sqlite3"], .register "postgres" .postgres ["postgresql", "pgsql"],
    .register "mysql" .mysql ["mariadb"]]

theorem after_append (calls more : List Command) : r.after (calls ++ more) = (r.after calls).after more :=
  List.foldl_append

theorem builtin_after (calls : List Command) : builtin.after calls = empty.after (founding ++ calls) :=
  (after_append founding calls).symm

theorem consistent_builtin (calls : List Command) : (builtin.after calls).Consistent := by
  rw [builtin_after]
  exact consistent_empty.after _

/-! ## What names stand for -/

def meant (r : Registry) (n : String) : String := (r.aliases.lookup (canonical n)).getD (canonical n)

theorem resolve_eq (r : Registry) (n : String) :
    r.resolve n = if r.meant n ∈ r.names then .ok (r.meant n) else .error (.unknownTarget n r.names) :=
  ite_congr (by rw [mem_names]; rfl) (fun _ => rfl) (fun _ => rfl)

theorem resolve_eq_ok_iff : r.resolve n = .ok u ↔ r.meant n = u ∧ u ∈ r.names := by
  rw [resolve_eq]
  split
  · next hm =>
    rw [Except.ok.injEq]
    exact ⟨fun h => ⟨h,h ▸ hm⟩,fun h => h.1⟩
  · next hm =>
    refine iff_of_false nofun ?_
    rintro ⟨rfl,h⟩
    exact hm h

theorem resolve_eq_error_iff {f : Fault} :
    r.resolve n = .error f ↔ r.meant n ∉ r.names ∧ f = .unknownTarget n r.names := by
  rw [resolve_eq]
  split
  · next hm => exact iff_of_false nofun (fun h => h.1 hm)
  · next hm =>
    rw [Except.error.injEq]
    exact ⟨fun h => ⟨hm,h.symm⟩,fun h => h.2.symm⟩

theorem meant_of_alias (h : r.aliases.lookup (canonical n) = some u) : r.meant n = u := by
  rw [meant,h,Option.getD_some]

theorem meant_of_not_alias (h : r.aliases.lookup (canonical n) = none) : r.meant n = canonical n := by
  rw [meant,h,Option.getD_none]

theorem meant_canonical (r : Registry) (n : String) : r.meant (canonical n) = r.meant n := by
  rw [meant,canonical_canonical,meant]

theorem Consistent.mem_of_alias (h : r.Consistent) (ha : r.aliases.lookup a = some u) : u ∈ r.names := by
  obtain ⟨l,l',hl,-⟩ := List.lookup_eq_some_iff.mp ha
  exact h.closed (a,u) (by simp [hl])

/-- Only what is neither an alias nor a target stands for nothing. -/
theorem meant_not_mem_iff (h : r.Consistent) :
    r.meant n ∉ r.names ↔ r.aliases.lookup (canonical n) = none ∧ canonical n ∉ r.names := by
  cases ha : r.aliases.lookup (canonical n) with
  | some u =>
    rw [meant_of_alias ha]
    exact iff_of_false (fun hn => hn (h.mem_of_alias ha)) nofun
  | none =>
    rw [meant_of_not_alias ha]
    simp

theorem create_eq (h : r.resolve n = .ok t) (hd : r.targets.lookup t = some d) : r.create n = .ok d := by
  unfold create
  rw [h]
  dsimp only [bind,Except.bind]
  rw [hd]
  rfl

/-! ## Removals -/

/-- A name that stood for another target still does. -/
theorem resolve_without_of_ne (h : r.Consistent) (hk : r.resolve k = .ok u) (hu : u ≠ c) :
    (r.without c).resolve k = .ok u := by
  obtain ⟨hmeant,hmem⟩ := resolve_eq_ok_iff.mp hk
  refine resolve_eq_ok_iff.mpr ⟨?_,(mem_names_without h).mpr ⟨hu,hmem⟩⟩
  cases ha : r.aliases.lookup (canonical k) with
  | some v =>
    have hv : v = u := (meant_of_alias ha).symm.trans hmeant
    have hkept : (u != c) = true := by simpa using hu
    refine meant_of_alias ?_
    rw [alias_without h,ha,hv,Option.filter_some,if_pos hkept]
  | none =>
    rw [← hmeant,meant_of_not_alias ha]
    refine meant_of_not_alias ?_
    rw [alias_without h,ha]
    rfl

theorem create_without_of_ne (h : r.Consistent) (hk : r.resolve k = .ok u) (hu : u ≠ c) :
    ∃ d, r.create k = .ok d ∧ (r.without c).create k = .ok d := by
  obtain ⟨d,hd⟩ := Option.isSome_iff_exists.mp (mem_names.mp (resolve_eq_ok_iff.mp hk).2)
  refine ⟨d,create_eq hk hd,create_eq (resolve_without_of_ne h hk hu) ?_⟩
  rw [target_without h,if_neg hu,hd]

/-- A name that stood for the removed target stands for itself, if it is a target, or for nothing. -/
theorem resolve_without_self (h : r.Consistent) (hk : r.resolve k = .ok c) :
    (∃ f, (r.without c).resolve k = .error f) ∨
      ((r.without c).resolve k = .ok (canonical k) ∧ canonical k ∈ (r.without c).names) := by
  have hnone : (r.without c).aliases.lookup (canonical k) = none := by
    rw [alias_without h]
    cases ha : r.aliases.lookup (canonical k) with
    | some v =>
      have hv : v = c := (meant_of_alias ha).symm.trans (resolve_eq_ok_iff.mp hk).1
      simp [hv]
    | none => rfl
  by_cases hn : canonical k ∈ (r.without c).names
  · exact .inr ⟨resolve_eq_ok_iff.mpr ⟨meant_of_not_alias hnone,hn⟩,hn⟩
  · exact .inl ⟨_,resolve_eq_error_iff.mpr ⟨meant_of_not_alias hnone ▸ hn,rfl⟩⟩

/-- After any calls all aliases stand for targets, a name stands for nothing exactly if it is no alias and no target, and
a removal takes away the target that its name stands for, with the aliases of that target alone. -/
theorem removals_local (calls : List Command) :
    let r := builtin.after calls
    (∀ e ∈ r.aliases, e.2 ∈ r.names) ∧
    (∀ n, (∃ f, r.resolve n = .error f) ↔ r.aliases.lookup (canonical n) = none ∧ canonical n ∉ r.names) ∧
    (∀ n r', r.unregister n = .ok r' → ∃ c, r.resolve n = .ok c ∧ c ∉ r'.names ∧
      (∀ k u, r.resolve k = .ok u → u ≠ c →
        r'.resolve k = .ok u ∧ ∃ d, r.create k = .ok d ∧ r'.create k = .ok d) ∧
      ∀ k, r.resolve k = .ok c →
        (∃ f, r'.resolve k = .error f) ∨ (r'.resolve k = .ok (canonical k) ∧ canonical k ∈ r'.names)) ∧
    ∀ n f, r.unregister n = .error f → r.resolve n = .error f ∧ r.perform (.unregister n) = r := by
  intro r
  have h : r.Consistent := consistent_builtin calls
  refine ⟨h.closed,fun n => ?_,fun n r' hr => ?_,fun n f hf => ?_⟩
  · simp only [resolve_eq_error_iff,exists_and_left,exists_eq,and_true]
    exact meant_not_mem_iff h
  · rw [unregister_eq] at hr
    cases hn : r.resolve n with
    | error f =>
      rw [hn] at hr
      cases hr
    | ok c =>
      rw [hn] at hr
      cases hr
      refine ⟨c,rfl,fun hc => ((mem_names_without h).mp hc).1 rfl,fun k u hk hu => ?_,fun k hk => ?_⟩
      · exact ⟨resolve_without_of_ne h hk hu,create_without_of_ne h hk hu⟩
      · exact resolve_without_self h hk
  · have hn : r.resolve n = .error f := by
      rw [unregister_eq] at hf
      cases hn : r.resolve n with
      | error g =>
        rw [hn] at hf
        cases hf
        rfl
      | ok c =>
        rw [hn] at hf
        cases hf
    refine ⟨hn,?_⟩
    simp only [perform,hf]

/-- A removal by an alias takes the target and its other alias away, and leaves the name that another target has. -/
theorem removals_local_alias :
    let r := builtin.after [.register "pgsql" .plain ["pg"]]
    ∃ r', r.unregister "PostgreSQL" = .ok r' ∧ "postgres" ∉ r'.names ∧ r'.resolve "pg" = .ok "pgsql" ∧
      r.resolve "pgsql" = .ok "postgres" ∧ r'.resolve "pgsql" = .ok "pgsql" := by
  intro r
  have hmeant : r.meant "PostgreSQL" = "postgres" := by decide +kernel
  have hpostgres : "postgres" ∈ r.names := mem_names.mpr (by decide +kernel)
  have hpgsql : "pgsql" ∈ r.names := mem_names.mpr (by decide +kernel)
  have hr : r.unregister "PostgreSQL" = .ok (r.without "postgres") := by
    rw [unregister_eq,resolve_eq_ok_iff.mpr ⟨hmeant,hpostgres⟩]
    rfl
  obtain ⟨-,-,hremoved,-⟩ := removals_local [.register "pgsql" .plain ["pg"]]
  obtain ⟨c,hc,hgone,hother,hself⟩ := hremoved _ _ hr
  obtain rfl : "postgres" = c := Except.ok.inj ((resolve_eq_ok_iff.mpr ⟨hmeant,hpostgres⟩).symm.trans hc)
  have hpg : r.resolve "pg" = .ok "pgsql" := resolve_eq_ok_iff.mpr ⟨by decide +kernel,hpgsql⟩
  have hlent : r.resolve "pgsql" = .ok "postgres" := resolve_eq_ok_iff.mpr ⟨by decide +kernel,hpostgres⟩
  refine ⟨r.without "postgres",hr,hgone,(hother _ _ hpg (by decide)).1,hlent,?_⟩
  rcases hself _ hlent with ⟨f,hf⟩ | ⟨h,-⟩
  · exact absurd (mem_names.mpr (by decide +kernel)) (resolve_eq_error_iff.mp hf).1
  · exact h.trans (congrArg Except.ok (by decide +kernel))

/-! ## What a history says -/

namespace Command

def dialect? (t : String) : Command → Option Dialect
  | .register name d _ => if canonical name = t then some d else none
  | .unregister _ => none

def Writes (a : String) : Command → Prop
  | .register _ _ aliases => a ∈ aliases.map canonical
  | .unregister _ => False

end Command

def lastRegistered (t : String) (calls : List Command) : Option Dialect := calls.reverse.findSome? (Command.dialect? t)

/-- Whether the last call that writes an alias makes it one for `u`, and `u` has been a target ever since. -/
def Lent (a u : String) (calls : List Command) : Prop :=
  ∃ before name d aliases later, calls = before ++ .register name d aliases :: later ∧ canonical name = u ∧
    a ∈ aliases.map canonical ∧ (∀ call ∈ later, ¬ call.Writes a) ∧
    ∀ since, since <+: later → u ∈ (empty.after (before ++ .register name d aliases :: since)).names

variable {calls : List Command} {call : Command}

theorem after_concat : r.after (calls ++ [call]) = (r.after calls).perform call := by
  rw [after_append]
  rfl

theorem consistent_after (calls : List Command) : (empty.after calls).Consistent := consistent_empty.after calls

/-- What is a target now is the dialect that was registered last. -/
theorem target_eq_lastRegistered (h : t ∈ (empty.after calls).names) :
    (empty.after calls).targets.lookup t = lastRegistered t calls := by
  induction calls using List.reverseRecOn with
  | nil => simp [after,empty,names] at h
  | append_singleton calls call ih =>
    have hlast : lastRegistered t (calls ++ [call]) = (call.dialect? t).or (lastRegistered t calls) := by
      simp only [lastRegistered,List.reverse_append,List.reverse_singleton,List.singleton_append,List.findSome?_cons]
      cases call.dialect? t <;> rfl
    rw [after_concat] at h ⊢
    rw [hlast]
    have hcons := consistent_after calls
    rcases perform_cases (empty.after calls) call with ⟨name,d,aliases,rfl,he⟩ | ⟨name,c,rfl,-,he⟩ | ⟨name,f,rfl,-,he⟩
    · rw [he,target_register]
      rw [he,mem_names_register] at h
      simp only [Command.dialect?]
      by_cases hn : canonical name = t
      · simp [hn]
      · rw [if_neg (Ne.symm hn),if_neg hn,Option.none_or]
        exact ih (h.resolve_left (Ne.symm hn))
    · rw [he,target_without hcons]
      rw [he,mem_names_without hcons] at h
      rw [if_neg h.1]
      exact ih h.2
    · rw [he]
      rw [he] at h
      exact ih h

theorem lent_concat : Lent a u (calls ++ [call]) ↔
    (∃ name d aliases, call = .register name d aliases ∧ a ∈ aliases.map canonical ∧ canonical name = u) ∨
    (¬ call.Writes a ∧ Lent a u calls ∧ u ∈ (empty.after (calls ++ [call])).names) := by
  constructor
  · rintro ⟨before,name,d,aliases,later,hcalls,hu,ha,hlater,hsince⟩
    rcases List.eq_nil_or_concat' later with rfl | ⟨later,last,rfl⟩
    · obtain ⟨-,hcall⟩ := List.append_inj' hcalls rfl
      rw [List.cons.injEq] at hcall
      exact .inl ⟨name,d,aliases,hcall.1,ha,hu⟩
    · have hassoc : calls ++ [call] = (before ++ .register name d aliases :: later) ++ [last] := by
        rw [hcalls]
        simp
      obtain ⟨rfl,hcall⟩ := List.append_inj' hassoc rfl
      obtain rfl : call = last := by simpa using hcall
      refine .inr ⟨hlater call (by simp),⟨before,name,d,aliases,later,rfl,hu,ha,fun c hc => hlater c (by simp [hc]),
        fun since hs => hsince since (hs.trans (List.prefix_append _ _))⟩,?_⟩
      simpa using hsince (later ++ [call]) (List.prefix_refl _)
  · rintro (⟨name,d,aliases,rfl,ha,hu⟩ | ⟨hwrites,⟨before,name,d,aliases,later,rfl,hu,ha,hlater,hsince⟩,hmem⟩)
    · refine ⟨calls,name,d,aliases,[],rfl,hu,ha,by simp,fun since hs => ?_⟩
      rw [List.prefix_nil.mp hs,after_concat,perform,mem_names_register]
      exact .inl hu.symm
    · refine ⟨before,name,d,aliases,later ++ [call],by simp,hu,ha,?_,fun since hs => ?_⟩
      · intro c hc
        rcases List.mem_append.mp hc with hc | hc
        · exact hlater c hc
        · rwa [List.mem_singleton.mp hc]
      · rcases List.prefix_concat_iff.mp hs with rfl | hs
        · simpa using hmem
        · exact hsince since hs

/-- An alias after a call has been written by it, or was one before and its target is still there. -/
theorem alias_perform_eq_some_iff (h : r.Consistent) : (r.perform call).aliases.lookup a = some u ↔
    (∃ name d aliases, call = .register name d aliases ∧ a ∈ aliases.map canonical ∧ canonical name = u) ∨
    (¬ call.Writes a ∧ r.aliases.lookup a = some u ∧ u ∈ (r.perform call).names) := by
  rcases perform_cases r call with ⟨name,d,aliases,rfl,he⟩ | ⟨name,c,rfl,-,he⟩ | ⟨name,f,rfl,-,he⟩
  · rw [he,alias_register]
    by_cases ha : a ∈ aliases.map canonical
    · rw [if_pos ha,Option.some.injEq]
      refine ⟨fun hu => .inl ⟨name,d,aliases,rfl,ha,hu⟩,?_⟩
      rintro (⟨_,_,_,hcall,-,hu⟩ | ⟨hwrites,-⟩)
      · cases hcall
        exact hu
      · exact absurd ha hwrites
    · rw [if_neg ha]
      refine ⟨fun hu => .inr ⟨ha,hu,mem_names_register.mpr (.inr (h.mem_of_alias hu))⟩,?_⟩
      rintro (⟨_,_,_,hcall,hwrites,-⟩ | ⟨-,hu,-⟩)
      · cases hcall
        exact absurd hwrites ha
      · exact hu
  · rw [he,alias_without h,mem_names_without h]
    simp only [Option.filter_eq_some_iff,bne_iff_ne,reduceCtorEq,false_and,exists_false,false_or,Command.Writes,
      not_false_eq_true,true_and]
    exact ⟨fun hu => ⟨hu.1,hu.2,h.mem_of_alias hu.1⟩,fun hu => ⟨hu.1,hu.2.1⟩⟩
  · rw [he]
    simp only [reduceCtorEq,false_and,exists_false,false_or,Command.Writes,not_false_eq_true,true_and]
    exact ⟨fun hu => ⟨hu,h.mem_of_alias hu⟩,fun hu => hu.1⟩

/-- The aliases of a registry are those that its history has lent. -/
theorem alias_eq_some_iff : (empty.after calls).aliases.lookup a = some u ↔ Lent a u calls := by
  induction calls using List.reverseRecOn with
  | nil =>
    refine iff_of_false nofun ?_
    rintro ⟨before,name,d,aliases,later,h,-⟩
    simp at h
  | append_singleton calls call ih =>
    rw [lent_concat,← ih,after_concat]
    exact alias_perform_eq_some_iff (consistent_after calls)

/-! ## Targets under their own names -/

/-- A name that is no alias for another target stands for itself. -/
theorem resolve_eq_self_iff (h : r.Consistent) (ht : t ∈ r.names) :
    r.resolve t = .ok t ↔ ∀ u, r.aliases.lookup t = some u → u = t := by
  have hcanonical := h.canonical t ht
  rw [resolve_eq_ok_iff,meant,hcanonical]
  cases r.aliases.lookup t with
  | none => simp [ht]
  | some u => simp [ht]

theorem pairwise_names (l : List String) : l.mergeSort.Pairwise (fun a b => decide (a ≤ b) = true) := by
  refine List.pairwise_mergeSort (fun a b c hab hbc => ?_) (fun a b => ?_) l
  · simp only [decide_eq_true_eq] at hab hbc ⊢
    exact String.le_trans hab hbc
  · simpa using String.le_total a b

/-- The names that are left stay in order. -/
theorem names_without (r : Registry) (c : String) : (r.without c).names = r.names.filter (fun t => t != c) := by
  have hkeys : (r.without c).targets.map (·.1) = (r.targets.map (·.1)).filter (fun t => t != c) := by
    rw [without,List.filter_map]
    rfl
  unfold names
  rw [hkeys]
  refine List.Perm.eq_of_pairwise (fun a b _ _ hab hba => ?_) (pairwise_names _) ((pairwise_names _).filter _) ?_
  · simp only [decide_eq_true_eq] at hab hba
    exact String.le_antisymm hab hba
  · exact (List.mergeSort_perm _ _).trans ((List.mergeSort_perm _ _).symm.filter _)

/-- After any calls a target is reached under its own name unless the history has lent that name to another target. Then
the name makes the dialect that was registered last under it, and its removal takes away this target and no other. The
same holds of a name in any spelling when a dialect has just been registered under it. -/
theorem targets_reached (calls : List Command) :
    let r := builtin.after calls
    (∀ t ∈ r.names,
      (r.resolve t = .ok t ↔ ∀ u, Lent t u (founding ++ calls) → u = t) ∧
      (r.resolve t = .ok t →
        (∃ d, lastRegistered t (founding ++ calls) = some d ∧ r.create t = .ok d) ∧
        ∃ r', r.unregister t = .ok r' ∧ r'.names = r.names.filter (fun u => u != t))) ∧
    ∀ name d aliases,
      (∀ u, Lent (canonical name) u (founding ++ calls ++ [.register name d aliases]) → u = canonical name) →
      (r.register name d aliases).create name = .ok d := by
  intro r
  have h : r.Consistent := consistent_builtin calls
  have hr : r = empty.after (founding ++ calls) := builtin_after calls
  refine ⟨fun t ht => ⟨?_,fun hself => ⟨?_,?_⟩⟩,fun name d aliases hlent => ?_⟩
  · simp only [← alias_eq_some_iff,← hr]
    exact resolve_eq_self_iff h ht
  · obtain ⟨d,hd⟩ := Option.isSome_iff_exists.mp (mem_names.mp ht)
    have hlast : r.targets.lookup t = lastRegistered t (founding ++ calls) := by
      rw [hr] at ht ⊢
      exact target_eq_lastRegistered ht
    exact ⟨d,hlast.symm.trans hd,create_eq hself hd⟩
  · exact ⟨r.without t,by rw [unregister_eq,hself]; rfl,names_without r t⟩
  · have hr' : r.register name d aliases = empty.after (founding ++ calls ++ [.register name d aliases]) := by
      rw [after_concat,← hr]
      rfl
    have hself : (r.register name d aliases).resolve (canonical name) = .ok (canonical name) := by
      refine (resolve_eq_self_iff h.register (mem_names_register.mpr (.inl rfl))).mpr ?_
      simp only [hr',alias_eq_some_iff]
      exact hlent
    rw [resolve_eq_ok_iff,meant_canonical,← resolve_eq_ok_iff] at hself
    exact create_eq hself (by rw [target_register,if_pos rfl])

/-- The alias of a target that has been removed may be registered as a target of its own. -/
theorem targets_reached_again :
    let r := builtin.after [.unregister "sqlite", .register "SQLite3" .plain []]
    "sqlite3" ∈ r.names ∧ (∀ u, ¬ Lent "sqlite3" u (founding ++ [.unregister "sqlite", .register "SQLite3" .plain []])) ∧
      r.resolve "sqlite3" = .ok "sqlite3" ∧ r.create "sqlite3" = .ok .plain ∧
      (∃ r', r.unregister "sqlite3" = .ok r' ∧ r'.names = r.names.filter (fun u => u != "sqlite3")) ∧
      r.create "SQLite3" = .ok .plain := by
  intro r
  have ht : "sqlite3" ∈ r.names := mem_names.mpr (by decide +kernel)
  have hnone : r.aliases.lookup "sqlite3" = none := by decide +kernel
  have hlent : ∀ u, ¬ Lent "sqlite3" u (founding ++ [.unregister "sqlite", .register "SQLite3" .plain []]) := by
    intro u hu
    have hsome := alias_eq_some_iff.mpr hu
    rw [← builtin_after,hnone] at hsome
    cases hsome
  have hname : canonical "SQLite3" = "sqlite3" := by decide +kernel
  obtain ⟨hself,hreach⟩ := (targets_reached [.unregister "sqlite", .register "SQLite3" .plain []]).1 "sqlite3" ht
  have hresolve := hself.mpr (fun u hu => absurd hu (hlent u))
  obtain ⟨⟨d,hd,hcreate⟩,hremove⟩ := hreach hresolve
  have hplain : d = .plain := Option.some.inj (hd.symm.trans rfl)
  refine ⟨ht,hlent,hresolve,hplain ▸ hcreate,hremove,?_⟩
  refine (targets_reached [.unregister "sqlite"]).2 "SQLite3" .plain [] (fun u hu => ?_)
  rw [hname] at hu
  exact absurd hu (hlent u)

/-- A dialect that is registered under a name which is an alias is not reached: that name still makes the dialect that
the alias stands for, and removing it removes the other target. -/
theorem alias_hides_target :
    let r := builtin.after [.register "sqlite3" .mysql []]
    "sqlite3" ∈ r.names ∧ r.resolve "sqlite3" = .ok "sqlite" ∧ r.create "sqlite3" = .ok .sqlite ∧
      Dialect.sqlite.name ≠ Dialect.mysql.name ∧
      ∃ r', r.unregister "sqlite3" = .ok r' ∧ "sqlite3" ∈ r'.names ∧ "sqlite" ∉ r'.names := by
  intro r
  have hr : r.Consistent := consistent_builtin _
  have ht : "sqlite3" ∈ r.names := mem_names.mpr (by decide +kernel)
  have hmeant : r.meant "sqlite3" = "sqlite" := by decide +kernel
  have hresolve : r.resolve "sqlite3" = .ok "sqlite" := resolve_eq_ok_iff.mpr ⟨hmeant,mem_names.mpr (by decide +kernel)⟩
  refine ⟨ht,hresolve,create_eq hresolve rfl,by decide,r.without "sqlite",by rw [unregister_eq,hresolve]; rfl,?_,?_⟩
  · exact (mem_names_without hr).mpr ⟨by decide,ht⟩
  · exact fun h => ((mem_names_without hr).mp h).1 rfl

end Registry

end SqlCompose
