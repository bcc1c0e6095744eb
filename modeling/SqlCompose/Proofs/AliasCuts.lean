import SqlCompose.Proofs.Aliases
import SqlCompose.Proofs.TidyTexts

/-! # Names cut from their aliases

An item is cut into a name and an alias, or it is a name as a whole. A line feed behind an item moves no cut, and only an
alias that is the bare word `as` changes with it. From what is written for an item it can be told whether the name begins,
and what stands last ends, otherwise than in blanks: a quoted text can be decoded, an unquoted one begins and ends alike.
-/
namespace SqlCompose

/-! ## Where an item is cut -/

namespace Text
variable {α : Type} {tail? : List Char → Option α} {t : α} {a before rest s w : List Char}
  {alias? : List Char → Option (List Char)}

/-- If some rest is a tail, then the item is cut, there or before. -/
theorem cutWhere?_ne_none (hline : '\n' ∉ before) (hs : s ≠ []) (h : tail? s ≠ none) :
    cutWhere? tail? (before ++ s) ≠ none := by
  induction before with
  | nil =>
    obtain ⟨c,s,rfl⟩ := List.exists_cons_of_ne_nil hs
    obtain ⟨t,ht⟩ := Option.ne_none_iff_exists'.mp h
    rw [List.nil_append,cutWhere?,ht]
    simp
  | cons c before ih =>
    rw [List.mem_cons,not_or] at hline
    have hc : (c == '\n') = false := by simpa using Ne.symm hline.1
    rw [List.cons_append,cutWhere?]
    split
    · simp
    · simpa [hc] using ih hline.2

theorem aliasTail?_append (hw : Run w) (h : ∀ c ∈ rest.head?, ¬ isBlank c) : aliasTail? alias? (w ++ rest) =
    (((afterWord? ['a','s'] rest).bind afterBlanks?).bind alias?).or (alias? rest) := by
  rw [aliasTail?,afterBlanks?_append hw h]
  rfl

/-- A line feed behind a text does not take part in a word at its start. -/
theorem afterWord?_line (s : List Char) :
    afterWord? ['a','s'] (s ++ ['\n']) = (afterWord? ['a','s'] s).map (· ++ ['\n']) := by
  ext rest
  rw [afterWord?_as,Option.map_eq_some_iff]
  constructor
  · rintro ⟨word,hs,hword⟩
    rcases List.eq_nil_or_concat rest with rfl | ⟨rest,c,rfl⟩
    · rw [List.append_nil] at hs
      exact absurd (by simp [← hs]) hword.solid.no_line
    · rw [List.concat_eq_append,← List.append_assoc] at hs
      obtain ⟨rfl,hc⟩ := List.append_inj' hs rfl
      cases hc
      exact ⟨rest,afterWord?_as.mpr ⟨word,rfl,hword⟩,(List.concat_eq_append).symm⟩
  · rintro ⟨rest,hrest,rfl⟩
    obtain ⟨word,rfl,hword⟩ := afterWord?_as.mp hrest
    exact ⟨word,by simp,hword⟩

theorem blanks_nil : Blanks [] := by simp [Blanks]

def FullEnd (s : List Char) : Prop := ∃ c ∈ s.getLast?, ¬ isBlank c

def FullStart (s : List Char) : Prop := ∃ c ∈ s.head?, ¬ isBlank c

theorem FullEnd.of_suffix (h : FullEnd s) (hr : rest <:+ s) (hne : rest ≠ []) : FullEnd rest := by
  rwa [FullEnd,getLast?_of_suffix hr hne]

theorem FullEnd.ne_nil (h : FullEnd s) : s ≠ [] := by
  rintro rfl
  obtain ⟨c,hc,-⟩ := h
  cases hc

theorem FullEnd.append (h : FullEnd s) : FullEnd (before ++ s) := by
  rwa [FullEnd,List.getLast?_append_of_ne_nil _ h.ne_nil]

theorem not_fullEnd_of_blanks (hw : Blanks w) (hne : w ≠ []) : ¬ FullEnd (s ++ w) := by
  rintro ⟨c,hc,hblank⟩
  rw [List.getLast?_append_of_ne_nil _ hne] at hc
  exact hblank (hw c (List.mem_of_mem_getLast? hc))

theorem not_fullStart_of_blanks (hw : Blanks w) (hne : w ≠ []) : ¬ FullStart (w ++ s) := by
  rintro ⟨c,hc,hblank⟩
  rw [List.head?_append_of_ne_nil _ hne] at hc
  exact hblank (hw c (List.mem_of_mem_head? hc))

theorem afterBlanks?_line (h : FullEnd s) : afterBlanks? (s ++ ['\n']) = (afterBlanks? s).map (· ++ ['\n']) := by
  obtain ⟨c,s,rfl⟩ := List.exists_cons_of_ne_nil h.ne_nil
  rw [List.cons_append,afterBlanks?,afterBlanks?]
  split
  · have hfull : trimLeft (c :: s) ≠ [] := by
      intro hnil
      have hall : Blanks (c :: s) := List.dropWhile_eq_nil_iff.mp hnil
      exact not_fullEnd_of_blanks hall (by simp) (s := []) h
    have htrim : trimLeft (c :: s ++ ['\n']) = trimLeft (c :: s) ++ ['\n'] := by
      unfold trimLeft at hfull ⊢
      rw [List.dropWhile_append,if_neg (by simpa using hfull)]
    rw [← List.cons_append,htrim]
    rfl
  · rfl

theorem FullEnd.afterBlanks (h : FullEnd s) (hrest : afterBlanks? s = some rest) : FullEnd rest := by
  obtain ⟨w,hw,rfl⟩ := of_afterBlanks? hrest
  refine h.of_suffix (List.suffix_append _ _) ?_
  rintro rfl
  exact not_fullEnd_of_blanks hw.blanks hw.ne_nil (s := []) (by simpa using h)

end Text

/-! ## Columns and tables -/

/-- The names that may have an alias. -/
inductive NameKind where
  | column
  | table

namespace NameKind
open Text
variable {k : NameKind} {a c s w y rest core : List Char} {item : String}

def alias? : NameKind → List Char → Option (List Char)
  | column => wordAlias?
  | table => lineAlias?

def Accepts : NameKind → List Char → Prop
  | column,a => a ≠ [] ∧ ∀ c ∈ a, isAliasChar c
  | table,a => '\n' ∉ a

def cut? (k : NameKind) (item : List Char) : Option (List Char × List Char) := cutWhere? (aliasTail? k.alias?) item

def quoted : NameKind → String → Sql
  | column => Sql.column
  | table => Sql.table

def separator : NameKind → String
  | column => " AS "
  | table => " "

def aliased : NameKind → String → Sql
  | column => Sql.aliasedColumn
  | table => Sql.aliasedTable

def clause : NameKind → ItemClause
  | column => .columns
  | table => .tables

/-! ### A line feed behind an item -/

theorem Accepts.no_line (h : k.Accepts a) : '\n' ∉ a := by
  cases k with
  | column => exact (solid_of_alias h.2).no_line
  | table => exact h

theorem alias?_eq_some : k.alias? s = some a ↔ k.Accepts a ∧ (s = a ∨ s = a ++ ['\n']) := by
  cases k with
  | column =>
    refine ⟨of_wordAlias?,?_⟩
    rintro ⟨h,rfl | rfl⟩
    · exact wordAlias?_self h.1 h.2
    · have hline : ∀ c ∈ ['\n'].head?, ¬ isAliasChar c := by
        rintro _ ⟨⟩
        decide
      obtain ⟨htake,hdrop⟩ := takeWhile_append_of h.2 hline
      simp [alias?,wordAlias?,htake,hdrop,isEnd,h.1]
  | table =>
    constructor
    · intro h
      simp only [alias?,lineAlias?] at h
      split at h
      · next hend =>
        cases h
        refine ⟨fun hmem => ?_,run_to_end hend⟩
        simpa using List.mem_takeWhile_imp hmem
      · cases h
    · rintro ⟨h,rfl | rfl⟩
      · exact lineAlias?_self h
      · have hall : ∀ c ∈ a, (c != '\n') = true := by
          intro c hc
          simpa using fun he : c = '\n' => h (he ▸ hc)
        have hline : ∀ c ∈ ['\n'].head?, ¬ (c != '\n') = true := by
          rintro _ ⟨⟩
          decide
        obtain ⟨htake,hdrop⟩ := takeWhile_append_of hall hline
        simp [alias?,lineAlias?,htake,hdrop,isEnd]

theorem alias?_line (h : FullEnd s) : k.alias? (s ++ ['\n']) = k.alias? s := by
  ext a
  rw [alias?_eq_some,alias?_eq_some]
  refine and_congr_right (fun ha => ?_)
  have hline : ¬ s ++ ['\n'] = a := fun he => ha.no_line (by simp [← he])
  have hblank : ¬ s = a ++ ['\n'] := fun he => absurd (he ▸ h) (not_fullEnd_of_blanks (by simp [Blanks,isBlank]) (by simp))
  simp [hline,hblank]

/-- A line feed behind a tail changes nothing, unless a table has the bare word `as` behind the blanks. -/
theorem aliasTail?_line (h : FullEnd s) (hno : k = .table → ∀ word, afterBlanks? s = some word → ¬ IsAs word) :
    aliasTail? k.alias? (s ++ ['\n']) = aliasTail? k.alias? s := by
  rw [aliasTail?,aliasTail?,afterBlanks?_line h]
  cases hrest : afterBlanks? s with
  | none => rfl
  | some rest =>
    have hstop : FullEnd rest := h.afterBlanks hrest
    rw [Option.map_some,Option.bind_some,Option.bind_some,afterWord?_line,alias?_line hstop]
    cases hmore : afterWord? ['a','s'] rest with
    | none => rfl
    | some more =>
      obtain ⟨word,rfl,hword⟩ := afterWord?_as.mp hmore
      congr 1
      rw [Option.map_some,Option.bind_some,Option.bind_some]
      by_cases hnil : more = []
      · subst hnil
        rw [List.append_nil] at hrest
        cases k with
        | column => rfl
        | table => exact absurd hword (hno rfl _ hrest)
      · have hstop' : FullEnd more := hstop.of_suffix (List.suffix_append _ _) hnil
        rw [afterBlanks?_line hstop']
        cases hlast : afterBlanks? more with
        | none => rfl
        | some last => exact alias?_line (hstop'.afterBlanks hlast)

/-- With a line feed behind it, the bare word is read as the one before an alias, and the alias is empty. -/
theorem aliasTail?_line_of_isAs {word : List Char} (hw : Run w) (h : IsAs word) :
    aliasTail? table.alias? (w ++ word ++ ['\n']) = some [] := by
  have hhead : ∀ c ∈ (word ++ ['\n']).head?, ¬ isBlank c := by
    rw [List.head?_append_of_ne_nil _ h.ne_nil]
    exact h.solid.head
  rw [List.append_assoc,aliasTail?_append hw hhead,afterWord?_as.mpr ⟨word,rfl,h⟩]
  rfl

theorem aliasTail?_word {word : List Char} (hw : Run w) (h : IsAs word) :
    aliasTail? table.alias? (w ++ word) = some word :=
  aliasTail?_lead (.blanks hw) h.solid (lineAlias?_self h.solid.no_line)

theorem aliasTail?_line_eq_none (h : FullEnd s) (hnone : aliasTail? k.alias? s = none) :
    aliasTail? k.alias? (s ++ ['\n']) = none := by
  rw [aliasTail?_line h,hnone]
  rintro rfl word hrest hword
  obtain ⟨w,hw,rfl⟩ := of_afterBlanks? hrest
  rw [aliasTail?_word hw hword] at hnone
  cases hnone

def Swallowed (k : NameKind) (core c a : List Char) : Prop := k = .table ∧ IsAs a ∧ ∃ w, Run w ∧ core = c ++ w ++ a

/-- A line feed does not move the place of the cut. -/
theorem cut?_line_of (h : FullEnd core) (hcut : k.cut? core = some (c,a)) :
    ∃ s, core = c ++ s ∧ FullEnd s ∧ aliasTail? k.alias? s = some a ∧
      ∀ b, aliasTail? k.alias? (s ++ ['\n']) = some b → k.cut? (core ++ ['\n']) = some (c,b) := by
  obtain ⟨s,rfl,htail,hline,hno⟩ := of_cutWhere? hcut
  have hne : s ≠ [] := by
    rintro rfl
    cases htail
  have hstop : FullEnd s := h.of_suffix (List.suffix_append _ _) hne
  refine ⟨s,rfl,hstop,htail,fun b hb => ?_⟩
  rw [List.append_assoc]
  refine cutWhere?_append hline (by simp) (fun r hr hr' => ?_) hb
  rw [← List.append_assoc]
  exact aliasTail?_line_eq_none hstop.append (hno r hr hr')

theorem cut?_line (h : FullEnd core) (hcut : k.cut? core = some (c,a)) (hno : ¬ k.Swallowed core c a) :
    k.cut? (core ++ ['\n']) = some (c,a) := by
  obtain ⟨s,rfl,hstop,htail,hline⟩ := cut?_line_of h hcut
  refine hline a ?_
  rw [aliasTail?_line hstop,htail]
  rintro rfl word hrest hword
  obtain ⟨w,hw,rfl⟩ := of_afterBlanks? hrest
  rw [aliasTail?_word hw hword] at htail
  cases htail
  exact hno ⟨rfl,hword,w,hw,by simp⟩

theorem cut?_line_of_swallowed (h : FullEnd core) (hcut : k.cut? core = some (c,a)) (hs : k.Swallowed core c a) :
    k.cut? (core ++ ['\n']) = some (c,[]) := by
  obtain ⟨rfl,hword,w,hw,hcore⟩ := hs
  obtain ⟨s,hsplit,-,-,hline⟩ := cut?_line_of h hcut
  have hs : s = w ++ a := by
    rw [hcore,List.append_assoc] at hsplit
    exact (List.append_cancel_left hsplit).symm
  exact hline [] (hs ▸ aliasTail?_line_of_isAs hw hword)

/-- An item with a line feed behind it has an alias only if it has one without. -/
theorem cut?_ne_none_of_line (ha : FullEnd a) (hcut : k.cut? (core ++ ['\n']) = some (c,a)) :
    k.cut? core ≠ none := by
  obtain ⟨s,hs,htail,hline,-⟩ := of_cutWhere? hcut
  obtain ⟨x,rest,hx,rfl,hrest⟩ := of_aliasTail? htail
  have hend : rest = a ++ ['\n'] := by
    rcases (alias?_eq_some.mp hrest).2 with rfl | h
    · have hlast : FullEnd (core ++ ['\n']) := hs ▸ ha.append.append
      exact absurd hlast (not_fullEnd_of_blanks (by simp [Blanks,isBlank]) (by simp))
    · exact h
  subst hend
  have hcore : core = c ++ (x ++ a) := by
    have happ : core ++ ['\n'] = (c ++ (x ++ a)) ++ ['\n'] := by simp [hs]
    exact List.append_cancel_right happ
  rw [hcore]
  refine cutWhere?_ne_none hline (by simp [hx.ne_nil]) (fun hnone => ?_)
  have hnone' := aliasTail?_line_eq_none ha.append hnone
  rw [List.append_assoc,htail] at hnone'
  cases hnone'

/-! ### What an item is written as -/

def naming (k : NameKind) (item : String) : Naming :=
  match k.cut? item.toList with
  | some (c,a) => ⟨item,String.ofList c,some (String.ofList a)⟩
  | none => ⟨item,item,none⟩

theorem aliased_eq (h : '(' ∉ item.toList) : k.aliased item = k.quoted (k.naming item).name ++
    (k.naming item).label.elim [] (fun a => .text k.separator :: k.quoted a) := by
  have hparen : ¬ Sql.isExpression item := fun he => h (Sql.isExpression_iff.mp he)
  cases k with
  | column =>
    rw [aliased,Sql.aliasedColumn,if_neg hparen,naming]
    have hcut : cut? .column item.toList = columnAlias? item.toList := rfl
    rw [hcut]
    cases columnAlias? item.toList <;> simp [quoted,separator]
  | table =>
    rw [aliased,Sql.aliasedTable,if_neg hparen,naming]
    have hcut : cut? .table item.toList = tableAlias? item.toList := rfl
    rw [hcut]
    cases tableAlias? item.toList <;> simp [quoted,separator]

theorem render_aliased (h : '(' ∉ item.toList) (d : Dialect) :
    d.render (k.aliased item) = (k.naming item).write d k.quoted k.separator := by
  rw [aliased_eq h,Naming.render_write]

end NameKind

namespace Naming
open Text
variable {n n' : Naming} {k : NameKind} {item : String}

def ending (n : Naming) : List Char := (n.label.getD n.name).toList

theorem name_isPrefix (k : NameKind) (item : String) : (k.naming item).name.toList <+: item.toList := by
  unfold NameKind.naming
  split
  · next c a hcut =>
    obtain ⟨rest,hs,-⟩ := of_cutWhere? hcut
    rw [hs,String.toList_ofList]
    exact List.prefix_append _ _
  · exact List.prefix_rfl

theorem fullStart_naming : FullStart (k.naming item).name.toList ↔ FullStart item.toList := by
  have hpre := name_isPrefix k item
  obtain ⟨more,hmore⟩ := hpre
  by_cases hnil : (k.naming item).name.toList = []
  · refine iff_of_false (by simp [hnil,FullStart]) ?_
    rintro ⟨c,hc,hblank⟩
    unfold NameKind.naming at hnil
    split at hnil
    · next first a hcut =>
      obtain ⟨rest,hs,htail,-⟩ := of_cutWhere? hcut
      rw [String.toList_ofList] at hnil
      subst hnil
      have hnone : aliasTail? k.alias? rest = none := aliasTail?_of_head (fun d hd => by
        rw [hs,List.nil_append] at hc
        rwa [← Option.mem_unique hc hd])
      rw [hnone] at htail
      cases htail
    · simp [hnil] at hc
  · rw [FullStart,FullStart,← hmore,List.head?_append_of_ne_nil _ hnil]

theorem ending_naming (k : NameKind) (item : String) : ∃ before,
    item.toList = before ++ (k.naming item).ending ∨
      (k.cut? item.toList ≠ none ∧ item.toList = before ++ (k.naming item).ending ++ ['\n']) := by
  unfold NameKind.naming
  cases hcut : k.cut? item.toList with
  | none => exact ⟨[],.inl rfl⟩
  | some cut =>
    obtain ⟨rest,hs,htail,-⟩ := of_cutWhere? hcut
    obtain ⟨x,last,-,rfl,hlast⟩ := of_aliasTail? htail
    refine ⟨cut.1 ++ x,?_⟩
    rcases (NameKind.alias?_eq_some.mp hlast).2 with rfl | rfl
    · exact .inl (by simp [hs,ending])
    · exact .inr ⟨nofun,by simp [hs,ending]⟩

/-- The name and the alias have the characters of the item. -/
theorem mem_of_mem_name {c : Char} (hc : c ∈ (k.naming item).name.toList) : c ∈ item.toList :=
  (name_isPrefix k item).subset hc

theorem mem_of_mem_label {c : Char} {a : String} (ha : a ∈ (k.naming item).label) (hc : c ∈ a.toList) :
    c ∈ item.toList := by
  have hending : c ∈ (k.naming item).ending := by
    rw [ending,Option.mem_def.mp ha]
    exact hc
  obtain ⟨before,hs | ⟨-,hs⟩⟩ := ending_naming k item <;> simp [hs,hending]

theorem fullEnd_naming (h : FullEnd item.toList) : FullEnd (k.naming item).ending := by
  unfold NameKind.naming
  cases hcut : k.cut? item.toList with
  | none => exact h
  | some cut =>
    obtain ⟨rest,hs,htail,-⟩ := of_cutWhere? hcut
    obtain ⟨x,last,hx,rfl,hlast⟩ := of_aliasTail? htail
    have hend : ∃ a, last = cut.2 ++ a ∧ Blanks a := by
      rcases (NameKind.alias?_eq_some.mp hlast).2 with rfl | rfl
      · exact ⟨[],by simp,blanks_nil⟩
      · exact ⟨['\n'],rfl,by simp [Blanks,isBlank]⟩
    obtain ⟨a,rfl,ha⟩ := hend
    rw [hs,← List.append_assoc,← List.append_assoc] at h
    have hnil : a = [] := by_contra (fun hne => not_fullEnd_of_blanks ha hne h)
    subst hnil
    rw [List.append_nil] at h
    have hne : cut.2 ≠ [] := by
      intro hnil
      rw [hnil,List.append_nil] at h
      obtain ⟨c,hc,hblank⟩ := h
      exact hx.getLast_append c hc hblank
    have hfull := h.of_suffix (List.suffix_append _ _) hne
    simpa [ending] using hfull

end Naming

/-! ## What two texts that are equal have in common -/

namespace Path
variable {q : Char} {p p' : Path} {a b : String} {cs cs' : List Char}

/-- A quoted path is told from what follows it. -/
theorem pathChars_append_inj (hq : IsQuote q) (hp : p.Proper) (hp' : p'.Proper) (hcs : EndsColumn q cs)
    (hcs' : EndsColumn q cs') (h : pathChars q p ++ cs = pathChars q p' ++ cs') : p = p' ∧ cs = cs' := by
  have hstar : '*' ≠ q := by
    rcases hq with rfl | rfl <;> decide
  obtain ⟨segments,starred⟩ := p
  obtain ⟨segments',starred'⟩ := p'
  unfold pathChars at h
  by_cases hs : segments = []
  · by_cases hs' : segments' = []
    · subst hs
      subst hs'
      cases hp rfl
      cases hp' rfl
      exact ⟨rfl,by simpa using h⟩
    · rw [if_pos hs,if_neg hs'] at h
      exact absurd (List.cons.inj h).1 hstar
  · by_cases hs' : segments' = []
    · rw [if_neg hs,if_pos hs'] at h
      exact absurd (List.cons.inj h).1.symm hstar
    · rw [if_neg hs,if_neg hs'] at h
      have hrest := (List.cons.inj h).2
      have hread := @segments?_append q cs starred hq hcs segments hs _ (Nat.le_max_left _ segments'.length)
      have hread' := @segments?_append q cs' starred' hq hcs' segments' hs' _ (Nat.le_max_right segments.length _)
      rw [List.append_eq,List.append_eq] at hrest
      rw [hrest,hread'] at hread
      cases hread
      exact ⟨rfl,rfl⟩

theorem ofTable_inj (h : ofTable a = ofTable b) : a = b := by
  rw [← (isCut_ofTable a).joined,h,(isCut_ofTable b).joined]

theorem ofColumn_inj (h : ofColumn a = ofColumn b) : a = b := by
  rw [ofColumn_eq,ofColumn_eq] at h
  have hsegments : (ofTable a).segments = (ofTable b).segments := ofSegments_inj h
  rw [← (isCut_ofTable a).joined,hsegments,(isCut_ofTable b).joined]

end Path

namespace NameKind
open Text
variable {k : NameKind} {d : Dialect} {q : Char} {name a b : String}

def path : NameKind → String → Path
  | column => .ofColumn
  | table => .ofTable

theorem path_inj (h : k.path a = k.path b) : a = b := by
  cases k with
  | column => exact Path.ofColumn_inj h
  | table => exact Path.ofTable_inj h

theorem proper_path (k : NameKind) (name : String) : (k.path name).Proper := by
  cases k with
  | column => exact proper_ofColumn name
  | table => exact proper_ofTable name

theorem quoted_eq (h : '(' ∉ name.toList) : k.quoted name = [.path (k.path name)] := by
  cases k with
  | column => exact Sql.column_of_not_mem h
  | table => exact Sql.table_of_not_mem h

theorem quoted_toList (hd : d.quote = some q) (h : '(' ∉ name.toList) :
    (d.render (k.quoted name)).toList = pathChars q (k.path name) := by
  rw [quoted_eq h,Dialect.render_path,renderPath_toList hd (k.proper_path name)]

theorem renderPath_ofTable_of_bare (hd : d.quote = none) (name : String) : d.renderPath (.ofTable name) = name := by
  have hid : d.quoteIdentifier = id := by
    funext t
    simp [Dialect.quoteIdentifier,hd]
  rw [Dialect.renderPath,hid,List.map_id,show (Path.ofTable name).starred = false from rfl,if_neg (by decide),
    List.append_nil,(Path.isCut_ofTable name).joined]

theorem render_bare (hd : d.quote = none) (h : '(' ∉ name.toList) : d.render (k.quoted name) = name := by
  rw [quoted_eq h,Dialect.render_path]
  cases k with
  | column => exact Dialect.renderPath_of_bare hd name
  | table => exact renderPath_ofTable_of_bare hd name

/-- The separator begins and ends with a blank. -/
theorem separator_toList (k : NameKind) :
    (∃ more, k.separator.toList = ' ' :: more) ∧ ∃ before, k.separator.toList = before ++ [' '] := by
  cases k with
  | column => exact ⟨⟨_,rfl⟩,⟨[' ','A','S'],rfl⟩⟩
  | table => exact ⟨⟨_,rfl⟩,⟨[],rfl⟩⟩

end NameKind

namespace Naming
open Text
variable {n n' : Naming} {k : NameKind} {d : Dialect} {q : Char} {item : String}

structure Plain (n : Naming) : Prop where
  name : '(' ∉ n.name.toList
  label : ∀ a ∈ n.label, '(' ∉ a.toList

theorem naming_plain (h : '(' ∉ item.toList) : (k.naming item).Plain :=
  ⟨fun hc => h (mem_of_mem_name hc),fun _ ha hc => h (mem_of_mem_label ha hc)⟩

/-- Quoted, the name and the alias are found again. -/
theorem eq_of_write_eq (hd : d.quote = some q) (hq : IsQuote q) (hn : n.Plain) (hn' : n'.Plain)
    (h : n.write d k.quoted k.separator = n'.write d k.quoted k.separator) : n.name = n'.name ∧ n.label = n'.label := by
  have hends : ∀ label : Option String, EndsColumn q
      (label.elim "" (fun a => k.separator ++ d.render (k.quoted a))).toList := by
    intro label c rest hcs
    cases label with
    | none => simp at hcs
    | some a =>
      obtain ⟨⟨more,hmore⟩,-⟩ := k.separator_toList
      have hc : c = ' ' := by
        simp only [Option.elim_some,String.toList_append,hmore] at hcs
        exact (List.cons.inj hcs).1.symm
      subst hc
      rcases hq with rfl | rfl <;> decide
  have hchars := congrArg String.toList h
  simp only [write,String.toList_append,NameKind.quoted_toList hd hn.name,NameKind.quoted_toList hd hn'.name] at hchars
  obtain ⟨hpath,hrest⟩ := Path.pathChars_append_inj hq (k.proper_path _) (k.proper_path _) (hends _) (hends _) hchars
  refine ⟨NameKind.path_inj hpath,?_⟩
  cases hlabel : n.label with
  | none =>
    cases hlabel' : n'.label with
    | none => rfl
    | some b =>
      obtain ⟨⟨more,hmore⟩,-⟩ := k.separator_toList
      simp [hlabel,hlabel',hmore] at hrest
  | some a =>
    cases hlabel' : n'.label with
    | none =>
      obtain ⟨⟨more,hmore⟩,-⟩ := k.separator_toList
      simp [hlabel,hlabel',hmore] at hrest
    | some b =>
      have hnil : EndsColumn q [] := fun c rest hc => by cases hc
      simp only [hlabel,hlabel',Option.elim_some,String.toList_append,List.append_cancel_left_eq,
        NameKind.quoted_toList hd (hn.label a hlabel),NameKind.quoted_toList hd (hn'.label b hlabel')] at hrest
      have hpath' : k.path a = k.path b :=
        (Path.pathChars_append_inj hq (k.proper_path _) (k.proper_path _) hnil hnil (by simpa using hrest)).1
      rw [NameKind.path_inj hpath']

theorem toList_write_of_bare (hd : d.quote = none) (hn : n.Plain) : (n.write d k.quoted k.separator).toList =
    n.name.toList ++ n.label.elim [] (fun a => k.separator.toList ++ a.toList) := by
  rw [write,NameKind.render_bare hd hn.name,String.toList_append]
  cases hlabel : n.label with
  | none => simp
  | some a => simp [NameKind.render_bare hd (hn.label a hlabel)]

/-- Unquoted, the text begins like the name and ends like what stands last. -/
theorem fullStart_write_of_bare (hd : d.quote = none) (hn : n.Plain) :
    FullStart (n.write d k.quoted k.separator).toList ↔ FullStart n.name.toList := by
  rw [toList_write_of_bare hd hn]
  cases hname : n.name.toList with
  | cons c more => simp [FullStart]
  | nil =>
    cases hlabel : n.label with
    | none => simp
    | some a =>
      obtain ⟨⟨more,hmore⟩,-⟩ := k.separator_toList
      simp [FullStart,hmore,isBlank]

theorem fullEnd_write_of_bare (hd : d.quote = none) (hn : n.Plain) :
    FullEnd (n.write d k.quoted k.separator).toList ↔ FullEnd n.ending := by
  rw [toList_write_of_bare hd hn,ending]
  cases hlabel : n.label with
  | none => simp
  | some a =>
    obtain ⟨-,before,hbefore⟩ := k.separator_toList
    by_cases hnil : a.toList = []
    · simp [FullEnd,hnil,hbefore,isBlank,← List.append_assoc]
    · simp [FullEnd,hnil,List.getLast?_append]

/-- Items that are written alike begin and end alike, as far as blanks are concerned. -/
theorem ends_of_write_eq (hd : d ∈ [.plain,.sqlite,.postgres,.mysql]) (hn : n.Plain) (hn' : n'.Plain)
    (h : n.write d k.quoted k.separator = n'.write d k.quoted k.separator) :
    (FullStart n.name.toList ↔ FullStart n'.name.toList) ∧ (FullEnd n.ending ↔ FullEnd n'.ending) := by
  rcases List.mem_cons.mp hd with rfl | hd
  · have hbare : Dialect.plain.quote = none := rfl
    rw [← fullStart_write_of_bare hbare hn,← fullStart_write_of_bare hbare hn',← fullEnd_write_of_bare hbare hn,
      ← fullEnd_write_of_bare hbare hn',h]
    exact ⟨Iff.rfl,Iff.rfl⟩
  · obtain ⟨q,hquote,hq⟩ := Dialect.exists_quote hd
    obtain ⟨hname,hlabel⟩ := eq_of_write_eq hquote hq hn hn' h
    rw [ending,ending,hname,hlabel]
    exact ⟨Iff.rfl,Iff.rfl⟩

end Naming

end SqlCompose
