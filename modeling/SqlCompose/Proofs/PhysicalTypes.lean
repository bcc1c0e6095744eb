import SqlCompose.Proofs.TypeForms

/-! # Physical types

A type that has been resolved is settled if its own leading word stands for nothing, for itself, or for itself with a
length; resolving it again leaves it as it is. The types of a name are settled if the template of the name is stable. All
templates of the dialects are, except that of money in MySQL: it is a decimal with a length, and a decimal loses its length
there.
-/
namespace SqlCompose.ColumnType
open Text

variable {types : TypeMap} {t n size rest word old template : List Char}

def Trails (rest : List Char) : Prop := ∀ c ∈ rest.head?, isBlank c

theorem all_isBlank_head?_iff (rest : List Char) : rest.head?.all isBlank ↔ Trails rest := by
  cases rest <;> simp [Trails]

instance : DecidablePred Trails := fun rest => decidable_of_iff _ (all_isBlank_head?_iff rest)

/-- The types of a name: alone, with a length, or with words behind it. -/
inductive Form (name : String) : String → Prop where
  | bare : Form name name
  | sized {size rest : String} (hsize : size ≠ "" ∧ '(' ∉ size.toList ∧ ')' ∉ size.toList) (hrest : Trails rest.toList) :
    Form name (name ++ "(" ++ size ++ ")" ++ rest)
  | worded {rest : String} (hrest : Trails rest.toList) : Form name (name ++ rest)

def Named (types : TypeMap) : Prop := ∀ e ∈ types, IsName e.1.toList

/-! ## Settled types -/

/-- The types that need no resolving: their leading word stands for nothing, for itself, or for itself with a length. -/
inductive Settled (types : TypeMap) : List Char → Prop where
  | unknown {t : List Char} (h : template? types (t.takeWhile isWordChar) = none) : Settled types t
  | worded {n rest : List Char} (h : template? types n = some n) (hrest : Trails rest) : Settled types (n ++ rest)
  | sized {n old size rest : List Char} (h : template? types n = some (n ++ '(' :: old ++ [')']))
    (hold : old ≠ [] ∧ '\n' ∉ old) (hsize : IsLength size) : Settled types (n ++ '(' :: size ++ ')' :: rest)

theorem mem_of_template? (h : template? types n = some template) : (String.ofList n,String.ofList template) ∈ types := by
  obtain ⟨s,hlookup,rfl⟩ := Option.map_eq_some_iff.mp h
  obtain ⟨before,after,rfl,-⟩ := List.lookup_eq_some_iff.mp hlookup
  simp

theorem Named.isName (hnamed : Named types) (h : template? types n = some template) : IsName n := by
  simpa using hnamed _ (mem_of_template? h)

theorem IsName.not_mem {c : Char} (h : IsName n) (hc : ¬ isWordChar c) : c ∉ n := fun hmem => hc (h.word c hmem)

/-- What has other characters than word characters has no template of its own. -/
theorem Named.template?_eq_none {c : Char} (hnamed : Named types) (hmem : c ∈ t) (hc : ¬ isWordChar c) :
    template? types t = none := by
  cases h : template? types t with
  | none => rfl
  | some template => exact absurd hmem ((hnamed.isName h).not_mem hc)

/-- A name with words behind it is resolved by the template of the name. -/
theorem physical_worded (hnamed : Named types) (h : template? types n = some template) (hrest : Trails rest) :
    physical types (n ++ rest) = template ++ rest := by
  cases rest with
  | nil => rw [List.append_nil,List.append_nil,physical_of_template h]
  | cons c rest =>
    have hblank : isBlank c := hrest c rfl
    have hkey : template? types (n ++ c :: rest) = none :=
      hnamed.template?_eq_none (by simp) (fun hc => not_isBlank_of_isWordChar hc hblank)
    rw [physical_modified hkey (.modified (hnamed.isName h) ⟨c,rfl,hblank⟩),h]
    rfl

/-- A name with a length is resolved by the template of the name with that length. -/
theorem physical_resized (hnamed : Named types) (h : template? types n = some template) (hsize : IsLength size) :
    physical types (n ++ '(' :: size ++ ')' :: rest) = resize size template ++ rest := by
  have hopening : ¬ isWordChar '(' := by decide
  have hkey : template? types (n ++ '(' :: size ++ ')' :: rest) = none := hnamed.template?_eq_none (by simp) hopening
  rw [physical_sized hkey (.sized (hnamed.isName h) hsize),h]
  rfl

/-- The length behind a name is replaced by the length that is given. -/
theorem IsName.resize_brackets (hname : IsName n) (hold : old ≠ []) (hline : '\n' ∉ old) (hclosing : ')' ∉ rest) :
    resize size (n ++ '(' :: old ++ ')' :: rest) = n ++ '(' :: size ++ ')' :: rest :=
  ColumnType.resize_brackets (hname.not_mem (by decide)) hold hline hclosing

theorem Settled.physical_eq (hnamed : Named types) (h : Settled types t) : physical types t = t := by
  cases h with
  | unknown h =>
    refine physical_of_unknown ?_ h
    cases hkey : template? types t with
    | none => rfl
    | some template =>
      rw [List.takeWhile_eq_self_iff.mpr (hnamed.isName hkey).word,hkey] at h
      cases h
  | worded h hrest => exact physical_worded hnamed h hrest
  | sized h hold hsize =>
    rw [physical_resized hnamed h hsize,(hnamed.isName h).resize_brackets hold.1 hold.2 List.not_mem_nil]
    simp

/-! ## Stable templates -/

inductive Stable (types : TypeMap) : List Char → Prop where
  | unknown {n rest : List Char} (hword : ∀ c ∈ n, isWordChar c) (hrest : ∀ c ∈ rest.head?, ¬ isWordChar c)
    (h : template? types n = none) : Stable types (n ++ rest)
  | worded {n rest : List Char} (h : template? types n = some n) (hrest : Trails rest) (hopening : '(' ∉ rest) :
    Stable types (n ++ rest)
  | sized {n old size rest : List Char} (h : template? types n = some (n ++ '(' :: old ++ [')']))
    (hold : old ≠ [] ∧ '\n' ∉ old) (hsize : IsLength size ∧ '\n' ∉ size) (hclosing : ')' ∉ rest) :
    Stable types (n ++ '(' :: size ++ ')' :: rest)

theorem head?_append_of {more : List Char} {p : Char → Prop} (hrest : ∀ c ∈ rest.head?, p c) (hmore : ∀ c ∈ more.head?, p c) :
    ∀ c ∈ (rest ++ more).head?, p c := by
  cases rest with
  | nil => exact hmore
  | cons c rest => exact hrest

theorem Trails.not_word (h : Trails rest) : ∀ c ∈ rest.head?, ¬ isWordChar c :=
  fun c hc hword => not_isBlank_of_isWordChar hword (h c hc)

theorem Stable.settled_append (hstable : Stable types template) (hrest : Trails rest) : Settled types (template ++ rest) := by
  cases hstable with
  | @unknown n more hword hmore h =>
    refine .unknown ?_
    rwa [List.append_assoc,(takeWhile_append_of hword (head?_append_of hmore hrest.not_word)).1]
  | worded h hmore =>
    rw [List.append_assoc]
    exact .worded h (head?_append_of hmore hrest)
  | @sized n old size more h hold hsize =>
    have hsettled : Settled types (n ++ '(' :: size ++ ')' :: (more ++ rest)) := .sized h hold hsize.1
    simpa using hsettled

theorem Stable.settled_resize (hnamed : Named types) (hstable : Stable types template) (hsize : IsLength size)
    (hrest : Trails rest) : Settled types (resize size template ++ rest) := by
  cases hstable with
  | @unknown n more hword hmore h =>
    have hopening : '(' ∉ n := fun hmem => absurd (hword _ hmem) (by decide)
    refine .unknown ?_
    rw [resize_append hopening,List.append_assoc]
    rwa [(takeWhile_append_of hword (head?_append_of (by rwa [head?_resize]) hrest.not_word)).1]
  | worded h hmore hopening =>
    have hword : '(' ∉ _ := (hnamed.isName h).not_mem (by decide)
    rw [resize_of_no_opening (by simp [hword,hopening]),List.append_assoc]
    exact .worded h (head?_append_of hmore hrest)
  | @sized n old current more h hold hcurrent hclosing =>
    rw [(hnamed.isName h).resize_brackets hcurrent.1.ne_nil hcurrent.2 hclosing]
    have hsettled : Settled types (n ++ '(' :: size ++ ')' :: (more ++ rest)) := .sized h hold hsize
    simpa using hsettled

def isStable (types : TypeMap) (template : List Char) : Bool :=
  let n := template.takeWhile isWordChar
  let rest := template.dropWhile isWordChar
  match template? types n with
  | none => true
  | some own =>
    (own == n && decide (Trails rest) && !rest.contains '(') ||
      match written template, written own with
      | .sized _ size more, .sized m old [] => m == n && !size.contains '\n' && !old.contains '\n' && !more.contains ')'
      | _, _ => false

theorem stable_of_isStable (h : isStable types template) : Stable types template := by
  have hall : template.takeWhile isWordChar ++ template.dropWhile isWordChar = template := List.takeWhile_append_dropWhile
  unfold isStable at h
  dsimp only at h
  split at h
  · next hunknown =>
    rw [← hall]
    refine .unknown (fun c hc => List.mem_takeWhile_imp hc) (fun c hc => ?_) hunknown
    have hhead := List.head?_dropWhile_not isWordChar template
    rw [hc] at hhead
    simpa using hhead
  · next own hown =>
    rw [Bool.or_eq_true] at h
    rcases h with h | h
    · simp only [Bool.and_eq_true,beq_iff_eq,decide_eq_true_eq,Bool.not_eq_true',List.contains_eq_mem,decide_eq_false_iff_not] at h
      obtain ⟨⟨rfl,hrest⟩,hopening⟩ := h
      rw [← hall]
      exact .worded hown hrest hopening
    · split at h
      · next m size more k old hsized hown' =>
        obtain ⟨hname,hsize,htemplate⟩ := ((written_eq_iff (by simp)).mp hsized).of_sized
        obtain ⟨-,hold,rfl⟩ := ((written_eq_iff (by simp)).mp hown').of_sized
        simp only [Bool.and_eq_true,beq_iff_eq,Bool.not_eq_true',List.contains_eq_mem,decide_eq_false_iff_not] at h
        obtain ⟨⟨⟨hk,hline⟩,hline'⟩,hclosing⟩ := h
        have hm : template.takeWhile isWordChar = m := by rw [htemplate,(leading_sized hname size more).1]
        rw [hm] at hown hk
        subst hk
        rw [htemplate]
        exact .sized hown ⟨hold.ne_nil,hline'⟩ ⟨hsize,hline⟩ hclosing
      · cases h

/-! ## The types of a name -/

theorem Form.toList {name text : String} (h : Form name text) :
    (∃ rest, Trails rest ∧ text.toList = name.toList ++ rest) ∨
    ∃ size rest, IsLength size ∧ Trails rest ∧ text.toList = name.toList ++ '(' :: size ++ ')' :: rest := by
  cases h with
  | bare => exact .inl ⟨[],nofun,by simp⟩
  | @sized size rest hsize hrest =>
    exact .inr ⟨size.toList,rest.toList,isLength_of_not_mem (by simpa using hsize.1) hsize.2.2,hrest,toList_brackets ..⟩
  | @worded rest hrest => exact .inl ⟨rest.toList,hrest,String.toList_append⟩

theorem Form.leading {name text : String} (hname : ∀ c ∈ name.toList, isWordChar c) (h : Form name text) :
    text.toList.takeWhile isWordChar = name.toList := by
  obtain ⟨rest,hrest,htext⟩ | ⟨size,rest,-,-,htext⟩ := h.toList
  · rw [htext]
    exact (takeWhile_append_of hname hrest.not_word).1
  · rw [htext,List.append_assoc]
    exact (takeWhile_append_of hname (by simp; decide)).1

/-- If the template of a name is stable, the types of the name are settled once they are resolved. -/
theorem Form.settled {name text : String} (hnamed : Named types) (hname : ∀ c ∈ name.toList, isWordChar c)
    (hstable : ∀ template, template? types name.toList = some template → Stable types template) (h : Form name text) :
    Settled types (physical types text.toList) := by
  cases htemplate : template? types name.toList with
  | none =>
    have hsettled : Settled types text.toList := .unknown (by rw [h.leading hname,htemplate])
    rwa [hsettled.physical_eq hnamed]
  | some template =>
    obtain ⟨rest,hrest,htext⟩ | ⟨size,rest,hsize,hrest,htext⟩ := h.toList
    · rw [htext,physical_worded hnamed htemplate hrest]
      exact (hstable _ htemplate).settled_append hrest
    · rw [htext,physical_resized hnamed htemplate hsize]
      exact (hstable _ htemplate).settled_resize hnamed hsize hrest

/-- A template that is another name with a length, where that name itself takes none: the length is lost. -/
theorem Form.shortened {name text : String} (hnamed : Named types)
    (htemplate : template? types name.toList = some (n ++ '(' :: old ++ [')'])) (hold : IsLength old ∧ '\n' ∉ old)
    (hn : template? types n = some n) (h : Form name text) :
    physical types (physical types text.toList) ≠ physical types text.toList := by
  have hname : IsName n := hnamed.isName hn
  obtain ⟨size,rest,hsize,hphysical⟩ : ∃ size rest, IsLength size ∧
      physical types text.toList = n ++ '(' :: size ++ ')' :: rest := by
    obtain ⟨rest,hrest,htext⟩ | ⟨size,rest,hsize,hrest,htext⟩ := h.toList
    · refine ⟨old,rest,hold.1,?_⟩
      rw [htext,physical_worded hnamed htemplate hrest]
      simp
    · refine ⟨size,rest,hsize,?_⟩
      rw [htext,physical_resized hnamed htemplate hsize,hname.resize_brackets hold.1.ne_nil hold.2 List.not_mem_nil]
      simp
  rw [hphysical,physical_resized hnamed hn hsize,resize_of_no_opening (hname.not_mem (by decide))]
  intro heq
  have hlength := congrArg List.length heq
  simp only [List.length_append,List.length_cons] at hlength
  omega

/-! ## The types of the dialects -/

theorem named_of_builtin {d : Dialect} (hd : d ∈ [Dialect.sqlite,.postgres,.mysql]) : Named d.types := by
  have hwords : ∀ d ∈ [Dialect.sqlite,.postgres,.mysql], ∀ e ∈ d.types, e.1.toList ≠ [] ∧ e.1.toList.all isWordChar := by
    decide +kernel
  exact fun e he => ⟨(hwords d hd e he).1,List.all_eq_true.mp (hwords d hd e he).2⟩

theorem isStable_of_builtin : ∀ d ∈ [Dialect.sqlite,.postgres,.mysql], ∀ e ∈ d.types,
    (d.name = "mysql" ∧ e.1 = "money") ∨ isStable d.types e.2.toList := by decide +kernel

/-- The types of a name are left alone when they are resolved again, in all dialects and whatever length and words they are
given, except for money in MySQL. That is a decimal with a length, and there a decimal has none, so that the second time
the length is lost. -/
theorem resolved_again_iff {name text : String} (hname : ∀ c ∈ name.toList, isWordChar c) (h : Form name text) :
    ∀ d ∈ [Dialect.sqlite,.postgres,.mysql],
      resolve d.types (resolve d.types text) = resolve d.types text ↔ ¬ (d.name = "mysql" ∧ name = "money") := by
  intro d hd
  have hnamed := named_of_builtin hd
  rw [resolve_eq_iff,resolve_toList]
  constructor
  · rintro hsame ⟨hmysql,rfl⟩
    have hd : d.types = Dialect.mysql.types := by
      simp only [List.mem_cons,List.not_mem_nil,or_false] at hd
      rcases hd with rfl | rfl | rfl
      · exact absurd hmysql (by decide)
      · exact absurd hmysql (by decide)
      · rfl
    have hmoney : template? d.types "money".toList = some ("decimal".toList ++ '(' :: "19,4".toList ++ [')']) := by
      rw [hd]
      decide
    have hdecimal : template? d.types "decimal".toList = some "decimal".toList := by
      rw [hd]
      decide
    exact h.shortened hnamed hmoney ⟨⟨by decide,by decide⟩,by decide⟩ hdecimal hsame
  · intro hmoney
    refine (h.settled hnamed hname (fun template htemplate => stable_of_isStable ?_)).physical_eq hnamed
    have hstable := isStable_of_builtin d hd _ (mem_of_template? htemplate)
    rw [String.ofList_toList,String.toList_ofList] at hstable
    exact hstable.resolve_left hmoney

/-- A decimal with a length and words, in two dialects, and money in MySQL. -/
theorem resolved_again_iff_decimal :
    resolve Dialect.sqlite.types (resolve Dialect.sqlite.types "money(8,2) NULL") =
      resolve Dialect.sqlite.types "money(8,2) NULL" ∧
    resolve Dialect.mysql.types (resolve Dialect.mysql.types "decimal(8,2) NULL") =
      resolve Dialect.mysql.types "decimal(8,2) NULL" ∧
    resolve Dialect.mysql.types (resolve Dialect.mysql.types "money(8,2) NULL") ≠
      resolve Dialect.mysql.types "money(8,2) NULL" := by
  have hword : ∀ name ∈ ["money","decimal"], name.toList.all isWordChar := by decide
  have hform : ∀ name : String, Form name (name ++ "(" ++ "8,2" ++ ")" ++ " NULL") := fun name => .sized (by decide) (by decide)
  have hmoney := resolved_again_iff (List.all_eq_true.mp (hword "money" (by simp))) (hform _)
  have hdecimal := resolved_again_iff (List.all_eq_true.mp (hword "decimal" (by simp))) (hform _)
  exact ⟨(hmoney _ (by simp)).mpr (by decide),(hdecimal _ (by simp)).mpr (by decide),
    fun h => (hmoney _ (by simp)).mp h (by decide)⟩

/-- Money in MySQL is resolved to a type that is resolved further. -/
theorem money_shortened :
    Form "money" "money" ∧ resolve Dialect.mysql.types "money" = "decimal(19,4)" ∧
    resolve Dialect.mysql.types (resolve Dialect.mysql.types "money") = "decimal" := ⟨.bare,by decide,by decide⟩

end SqlCompose.ColumnType
