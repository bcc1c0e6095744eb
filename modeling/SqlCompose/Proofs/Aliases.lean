import SqlCompose.Proofs.Cutting
import SqlCompose.Proofs.ItemClauses
import SqlCompose.Proofs.Joining

/-! # Columns and tables with aliases

An alias stands behind blanks, or behind the word `as` between blanks. The item is cut where the name ends: further to the
left the rest would have to be one word behind blanks, with `as` before it or not, but the end of the name stands between.
-/
namespace SqlCompose

/-! ## Tails that are aliases -/

namespace Text
variable {c : Char} {a b r s w w' x rest word first item : List Char} {alias? : List Char → Option (List Char)}

theorem not_isBlank_of_isAliasChar (h : isAliasChar c) : ¬ isBlank c := by
  simp only [isAliasChar,Bool.or_eq_true,beq_iff_eq] at h
  rcases h with (h | rfl) | rfl
  · exact not_isBlank_of_isWordChar h
  · decide
  · decide

theorem solid_of_alias (h : ∀ c ∈ a, isAliasChar c) : Solid a := fun c hc => not_isBlank_of_isAliasChar (h c hc)

theorem wordAlias?_self (hne : a ≠ []) (h : ∀ c ∈ a, isAliasChar c) : wordAlias? a = some a := by
  have htake : a.takeWhile isAliasChar = a := List.takeWhile_eq_self_iff.mpr h
  have hdrop : a.dropWhile isAliasChar = [] := List.dropWhile_eq_nil_iff.mpr h
  have hfull : a.isEmpty = false := by simpa using hne
  simp [wordAlias?,htake,hdrop,isEnd,hfull]

theorem of_wordAlias? (h : wordAlias? s = some a) : (a ≠ [] ∧ ∀ c ∈ a, isAliasChar c) ∧ (s = a ∨ s = a ++ ['\n']) := by
  unfold wordAlias? at h
  dsimp only at h
  split at h
  · next hrun =>
    cases h
    rw [Bool.and_eq_true] at hrun
    exact ⟨⟨by simpa using hrun.1,fun c hc => List.mem_takeWhile_imp hc⟩,run_to_end hrun.2⟩
  · cases h

theorem lineAlias?_self (h : '\n' ∉ a) : lineAlias? a = some a := by
  have hall : ∀ c ∈ a, (c != '\n') = true := by
    intro c hc
    simpa using fun he : c = '\n' => h (he ▸ hc)
  have htake : a.takeWhile (· != '\n') = a := List.takeWhile_eq_self_iff.mpr hall
  have hdrop : a.dropWhile (· != '\n') = [] := List.dropWhile_eq_nil_iff.mpr hall
  simp [lineAlias?,htake,hdrop,isEnd]

def IsAs (word : List Char) : Prop := keyword word = ['A','S']

theorem IsAs.solid (h : IsAs word) : Solid word := solid_of_keyword (by simp) h

theorem IsAs.ne_nil (h : IsAs word) : word ≠ [] := by
  rintro rfl
  cases h

theorem afterWord?_as : afterWord? ['a','s'] s = some rest ↔ ∃ word, s = word ++ rest ∧ IsAs word :=
  afterWord?_eq_some (by simp [IsLetter])

inductive Lead : List Char → Prop where
  | blanks {w : List Char} (hw : Run w) : Lead w
  | as {w word w' : List Char} (hw : Run w) (has : IsAs word) (hw' : Run w') : Lead (w ++ word ++ w')

theorem Lead.ne_nil (h : Lead x) : x ≠ [] := by
  cases h with
  | blanks hw => exact hw.ne_nil
  | as _ _ hw' => simp [hw'.ne_nil]

theorem Lead.getLast_append (h : Lead x) : ∀ c ∈ (r ++ x).getLast?, ¬ ¬ isBlank c := by
  cases h with
  | blanks hw => exact hw.getLast_append
  | as _ _ hw' =>
    rw [← List.append_assoc]
    exact hw'.getLast_append

theorem aliasTail?_of_head (h : ∀ c ∈ s.head?, ¬ isBlank c) : aliasTail? alias? s = none := by
  rw [aliasTail?,afterBlanks?_of_head h]
  rfl

/-- A word behind a lead is read as the alias; right behind blanks it may be `as` itself, or begin with it. -/
theorem aliasTail?_lead (h : Lead x) (hs : Solid a) (ha : alias? a = some a) : aliasTail? alias? (x ++ a) = some a := by
  cases h with
  | blanks hw =>
    have hno : (afterWord? ['a','s'] a).bind afterBlanks? = none := by
      cases h : afterWord? ['a','s'] a with
      | none => rfl
      | some rest =>
        obtain ⟨word,rfl,-⟩ := afterWord?_as.mp h
        exact afterBlanks?_of_head (fun c hc => hs c (List.mem_append_right _ (List.mem_of_mem_head? hc)))
    rw [aliasTail?,afterBlanks?_append hw hs.head,Option.bind_some,hno,ha]
    rfl
  | @as w word w' hw has hw' =>
    have hword : ∀ c ∈ (word ++ (w' ++ a)).head?, ¬ isBlank c := by
      rw [List.head?_append_of_ne_nil _ has.ne_nil]
      exact has.solid.head
    rw [aliasTail?,List.append_assoc,List.append_assoc,afterBlanks?_append hw hword,Option.bind_some,
      afterWord?_as.mpr ⟨word,rfl,has⟩,Option.bind_some,afterBlanks?_append hw' hs.head,Option.bind_some,ha]
    rfl

theorem of_aliasTail? (h : aliasTail? alias? s = some a) : ∃ x rest, Lead x ∧ s = x ++ rest ∧ alias? rest = some a := by
  unfold aliasTail? at h
  obtain ⟨rest,hrest,halias⟩ := Option.bind_eq_some_iff.mp h
  obtain ⟨w,hw,rfl⟩ := of_afterBlanks? hrest
  rcases Option.or_eq_some_iff.mp halias with has | ⟨-,ha⟩
  · obtain ⟨rest',hrest',ha⟩ := Option.bind_eq_some_iff.mp has
    obtain ⟨rest'',hafter,hblanks⟩ := Option.bind_eq_some_iff.mp hrest'
    obtain ⟨word,rfl,hword⟩ := afterWord?_as.mp hafter
    obtain ⟨w',hw',rfl⟩ := of_afterBlanks? hblanks
    exact ⟨w ++ word ++ w',rest',.as hw hword hw',by simp,ha⟩
  · exact ⟨w,rest,.blanks hw,rfl,ha⟩

/-- Nothing before `as` is part of a lead, if it does not end in a blank. -/
theorem not_lead_append (hne : r ≠ []) (hr : ∀ c ∈ r.getLast?, ¬ isBlank c) (hw : Run w) (has : IsAs word) (hw' : Run w') :
    ¬ Lead (r ++ (w ++ word ++ w')) := by
  generalize hx : r ++ (w ++ word ++ w') = x
  rintro (hv | @⟨v,word',v',hv,has',hv'⟩)
  · rw [← hx] at hv
    exact not_blanks_append hne hr hv.blanks
  · -- Taken apart from the right, both sides end in blanks, a word and blanks again.
    have heq : (r ++ w ++ word) ++ w' = (v ++ word') ++ v' := by simpa using hx
    obtain ⟨hwords,-⟩ := append_inj_of_run hw'.blanks hv'.blanks (has.solid.getLast_append has.ne_nil)
      (has'.solid.getLast_append has'.ne_nil) heq
    obtain ⟨hblanks,-⟩ := append_inj_of_run has.solid has'.solid hw.getLast_append hv.getLast hwords
    exact not_blanks_append hne hr (hblanks ▸ hv.blanks)

/-- No tail begins before the end of a name that has `as` and a word behind it. -/
theorem aliasTail?_before_as (hne : r ≠ []) (hr : ∀ c ∈ r.getLast?, ¬ isBlank c) (hw : Run w) (has : IsAs word)
    (hw' : Run w') (hane : a ≠ []) (ha : ∀ c ∈ a, isAliasChar c) :
    aliasTail? wordAlias? (r ++ (w ++ word ++ w' ++ a)) = none := by
  refine Option.eq_none_iff_forall_ne_some.mpr (fun b hb => ?_)
  obtain ⟨x,rest,hx,heq,hrest⟩ := of_aliasTail? hb
  obtain ⟨⟨hbne,hbalias⟩,hend⟩ := of_wordAlias? hrest
  have hrestne : rest ≠ [] := by
    rintro rfl
    rcases hend with h | h
    · exact hbne h.symm
    · simp at h
  have hlast : rest.getLast? = a.getLast? := by
    rw [← List.getLast?_append_of_ne_nil x hrestne,← heq,← List.append_assoc,List.getLast?_append_of_ne_nil _ hane]
  -- What is read behind the lead is the last word of the item, and that is `a`.
  have hsolid := solid_of_alias ha
  rw [eq_of_end hend (hlast ▸ hsolid.getLast),← List.append_assoc] at heq
  have hlead : ∀ c ∈ (r ++ (w ++ word ++ w')).getLast?, ¬ ¬ isBlank c := (Lead.as hw has hw').getLast_append
  have hend' : ∀ c ∈ x.getLast?, ¬ ¬ isBlank c := hx.getLast_append (r := [])
  obtain ⟨hsame,-⟩ := append_inj_of_run hsolid (solid_of_alias hbalias) hlead hend' heq
  exact not_lead_append hne hr hw has hw' (hsame ▸ hx)

/-! ## Where the name ends -/

theorem Solid.no_line (h : Solid s) : '\n' ∉ s := fun hc => absurd (by decide) (h _ hc)

theorem cutWhere?_solid (hf : Solid first) (hx : Lead x) (hs : Solid a) (ha : alias? a = some a) :
    cutWhere? (aliasTail? alias?) (first ++ (x ++ a)) = some (first,a) := by
  refine cutWhere?_append hf.no_line (by simp [hx.ne_nil]) (fun r hr hne => ?_) (aliasTail?_lead hx hs ha)
  refine aliasTail?_of_head (fun c hc => hf c (hr.subset ?_))
  rw [List.head?_append_of_ne_nil _ hne] at hc
  exact List.mem_of_mem_head? hc

theorem cutWhere?_none (hf : Solid first) : cutWhere? (aliasTail? alias?) first = none :=
  cutWhere?_eq_none (fun _ hr => aliasTail?_of_head (fun c hc => hf c (hr.subset (List.mem_of_mem_head? hc))))

theorem columnAlias?_as (hf : ∀ c ∈ first.getLast?, ¬ isBlank c) (hline : '\n' ∉ first) (hw : Run w) (has : IsAs word)
    (hw' : Run w') (hane : a ≠ []) (ha : ∀ c ∈ a, isAliasChar c) :
    columnAlias? (first ++ (w ++ word ++ w' ++ a)) = some (first,a) := by
  refine cutWhere?_append hline (by simp [hane]) (fun r hr hne => ?_)
    (aliasTail?_lead (.as hw has hw') (solid_of_alias ha) (wordAlias?_self hane ha))
  exact aliasTail?_before_as hne (getLast?_of_suffix hr hne ▸ hf) hw has hw' hane ha

inductive Spells : String → String → Option String → Prop where
  | alone {name : String} (hname : Solid name.toList) : Spells name name none
  | behind {name w label : String} (hname : Solid name.toList) (hw : Run w.toList) :
    Spells (name ++ w ++ label) name (some label)
  | as {name w word w' label : String} (hname : ∀ c ∈ name.toList.getLast?, ¬ isBlank c) (hline : '\n' ∉ name.toList)
    (hw : Run w.toList) (has : IsAs word.toList) (hw' : Run w'.toList) :
    Spells (name ++ w ++ word ++ w' ++ label) name (some label)

section Spells
variable {item name : String} {label : Option String}

theorem Spells.no_paren (h : Spells item name label) (hname : '(' ∉ name.toList) (ha : ∀ a ∈ label, '(' ∉ a.toList) :
    '(' ∉ item.toList := by
  cases h with
  | alone => exact hname
  | behind _ hw =>
    simp only [String.toList_append,List.mem_append,not_or]
    exact ⟨⟨hname,hw.blanks.not_mem (by decide)⟩,ha _ rfl⟩
  | as _ _ hw has hw' =>
    simp only [String.toList_append,List.mem_append,not_or]
    exact ⟨⟨⟨⟨hname,hw.blanks.not_mem (by decide)⟩,not_mem_of_keyword has (by decide)⟩,hw'.blanks.not_mem (by decide)⟩,
      ha _ rfl⟩

theorem Spells.item_eq (h : Spells item name none) : item = name := by
  cases h
  rfl

theorem columnAlias?_spells (h : Spells item name label) (ha : ∀ a ∈ label, a ≠ "" ∧ ∀ c ∈ a.toList, isAliasChar c) :
    columnAlias? item.toList = label.map (fun a => (name.toList,a.toList)) := by
  cases h with
  | alone hname => exact cutWhere?_none hname
  | behind hname hw =>
    obtain ⟨hne,hchars⟩ := ha _ rfl
    have halias := wordAlias?_self (by simpa using hne) hchars
    rw [String.toList_append,String.toList_append,List.append_assoc]
    exact cutWhere?_solid hname (.blanks hw) (solid_of_alias hchars) halias
  | as hname hline hw has hw' =>
    obtain ⟨hne,hchars⟩ := ha _ rfl
    have hcut := columnAlias?_as hname hline hw has hw' (by simpa using hne) hchars
    simpa only [String.toList_append,List.append_assoc,Option.map_some] using hcut

theorem tableAlias?_spells (h : Spells item name label) (hname : Solid name.toList) (ha : ∀ a ∈ label, Solid a.toList) :
    tableAlias? item.toList = label.map (fun a => (name.toList,a.toList)) := by
  cases h with
  | alone => exact cutWhere?_none hname
  | behind _ hw =>
    have hsolid := ha _ rfl
    rw [String.toList_append,String.toList_append,List.append_assoc]
    exact cutWhere?_solid hname (.blanks hw) hsolid (lineAlias?_self hsolid.no_line)
  | as _ _ hw has hw' =>
    have hsolid := ha _ rfl
    have hcut : tableAlias? _ = _ := cutWhere?_solid hname (.as hw has hw') hsolid (lineAlias?_self hsolid.no_line)
    simpa only [String.toList_append,List.append_assoc,Option.map_some] using hcut

end Spells

end Text

/-! ## Items as they are written -/

namespace Sql
variable {item name : String} {label : Option String}

theorem aliasedColumn_spells (h : Text.Spells item name label) (hname : '(' ∉ name.toList)
    (hl : ∀ a ∈ label, a ≠ "" ∧ ∀ c ∈ a.toList, Text.isAliasChar c) :
    aliasedColumn item = column name ++ label.elim [] (fun a => .text " AS " :: column a) := by
  have hparen := h.no_paren hname (fun a ha hc => absurd ((hl a ha).2 _ hc) (by decide))
  have hcut := Text.columnAlias?_spells h hl
  rw [aliasedColumn,if_neg (fun he => hparen (isExpression_iff.mp he)),hcut]
  cases label with
  | none => simp [h.item_eq]
  | some a => simp

theorem aliasedTable_spells (h : Text.Spells item name label) (hsolid : Text.Solid name.toList) (hname : '(' ∉ name.toList)
    (hl : ∀ a ∈ label, Text.Solid a.toList ∧ '(' ∉ a.toList) :
    aliasedTable item = table name ++ label.elim [] (fun a => .text " " :: table a) := by
  have hparen := h.no_paren hname (fun a ha => (hl a ha).2)
  have hcut := Text.tableAlias?_spells h hsolid (fun a ha => (hl a ha).1)
  rw [aliasedTable,if_neg (fun he => hparen (isExpression_iff.mp he)),hcut]
  cases label with
  | none => simp [h.item_eq]
  | some a => simp

end Sql

/-- A name, its alias if it has one, and an item for them. -/
structure Naming where
  item : String
  name : String
  label : Option String

namespace Naming
variable {s : Setting} {n : Naming}

structure OfColumn (n : Naming) : Prop where
  spelled : Text.Spells n.item n.name n.label
  plain : '(' ∉ n.name.toList
  word : ∀ a ∈ n.label, a ≠ "" ∧ ∀ c ∈ a.toList, Text.isAliasChar c

structure OfTable (n : Naming) : Prop where
  spelled : Text.Spells n.item n.name n.label
  solid : Text.Solid n.name.toList
  plain : '(' ∉ n.name.toList
  word : ∀ a ∈ n.label, Text.Solid a.toList ∧ '(' ∉ a.toList

def write (d : Dialect) (quoted : String → Sql) (separator : String) (n : Naming) : String :=
  d.render (quoted n.name) ++ n.label.elim "" (fun a => separator ++ d.render (quoted a))

theorem render_write (d : Dialect) (quoted : String → Sql) (separator : String) (n : Naming) :
    d.render (quoted n.name ++ n.label.elim [] (fun a => .text separator :: quoted a)) = n.write d quoted separator := by
  unfold write
  cases n.label with
  | none => simp
  | some a => simp [Dialect.render_append,Dialect.render_cons,Dialect.renderToken]

theorem OfColumn.render (h : n.OfColumn) (d : Dialect) :
    d.render (Sql.aliasedColumn n.item) = n.write d Sql.column " AS " := by
  rw [Sql.aliasedColumn_spells h.spelled h.plain h.word,render_write]

theorem OfTable.render (h : n.OfTable) (d : Dialect) : d.render (Sql.aliasedTable n.item) = n.write d Sql.table " " := by
  rw [Sql.aliasedTable_spells h.spelled h.solid h.plain h.word,render_write]

theorem render_clause {c : ItemClause} {q : Query} {ns : List Naming} {text : Naming → String} (hne : ns ≠ [])
    (htext : ∀ n ∈ ns, s.dialect.render (c.name n.item) = text n) (hq : c.items q = ns.map (fun n => .name n.item)) :
    ∃ sql, c.compile s q = pure sql ∧ s.dialect.render sql = c.opening q ++ ", ".intercalate (ns.map text) := by
  have hitems : c.items q = (ns.map item).map .name := by rw [hq,List.map_map]; rfl
  have htexts : (ns.map item).map (fun name => s.dialect.render (c.name name)) = ns.map text := by
    rw [List.map_map]
    exact List.map_congr_left htext
  rw [← htexts]
  exact ItemClause.render_compile hitems (by simpa using hne)

/-- Columns and tables are told from their aliases, in every dialect. A column may have blanks in it, if `as` stands
before the alias. Each is written as it is wherever items are written: in the list of columns, in the list of tables, and
as the table of a join in any notation. -/
theorem written_with_alias (s : Setting) :
    (∀ n : Naming, n.OfColumn → s.dialect.render (Sql.aliasedColumn n.item) = n.write s.dialect Sql.column " AS ") ∧
    (∀ (q : Query) (ns : List Naming), ns ≠ [] → (∀ n ∈ ns, n.OfColumn) → q.columns = ns.map (fun n => .name n.item) →
      ∃ sql, Query.selectClause s q = pure sql ∧ s.dialect.render sql =
        ItemClause.columns.opening q ++ ", ".intercalate (ns.map (write s.dialect Sql.column " AS "))) ∧
    (∀ n : Naming, n.OfTable → s.dialect.render (Sql.aliasedTable n.item) = n.write s.dialect Sql.table " ") ∧
    (∀ (q : Query) (ns : List Naming), ns ≠ [] → (∀ n ∈ ns, n.OfTable) → q.tables = ns.map (fun n => .name n.item) →
      ∃ sql, Query.fromClause s q = pure sql ∧ s.dialect.render sql =
        "FROM " ++ ", ".intercalate (ns.map (write s.dialect Sql.table " "))) ∧
    ∀ (n : Naming) (d e : Draft) (v : Value) (keyword : String) (on : Value) (condition : Sql), n.OfTable →
      Join.Written (d.view s) v ⟨keyword,n.item,on⟩ → (Condition.compile s on).runOn d = (.ok condition,e) →
      ∃ sql, (Join.compileEntry s v).runOn d = (.ok sql,e) ∧ s.dialect.render sql =
        keyword ++ " " ++ n.write s.dialect Sql.table " " ++ if s.dialect.render condition = "" then ""
          else " ON " ++ s.dialect.render condition.alone := by
  refine ⟨fun n h => h.render s.dialect,fun q ns hne hns => ?_,fun n h => h.render s.dialect,fun q ns hne hns => ?_,?_⟩
  · exact render_clause (c := .columns) hne (fun n hn => (hns n hn).render s.dialect)
  · exact render_clause (c := .tables) hne (fun n hn => (hns n hn).render s.dialect)
  · intro n d e v keyword on condition hn hv hon
    refine ⟨Join.sqlOf s ⟨keyword,n.item,on⟩ condition,?_,?_⟩
    · rw [hv.runOn_compileEntry,Join.runOn_compile,hon]
    · rw [Join.sqlOf,Dialect.render_append,Dialect.render_append,hn.render]
      split <;> simp [Dialect.renderToken,Dialect.render]

/-- A column with a blank in it, a column and an alias that are both `as`, and a table with the word between. -/
theorem written_with_alias_sqlite :
    let s := Options.setting {} .sqlite
    let d : Draft := { bindings := [],memory := {} }
    let q : Query :=
      { columns := [.name ("full name" ++ "\t" ++ "aS" ++ "  " ++ "f-n"),.name ("as" ++ " " ++ "as"),.name "id"],
        tables := [.name ("main.t" ++ " " ++ "AS" ++ " " ++ "u")] }
    (∃ sql, Query.selectClause s q = pure sql ∧
      s.dialect.render sql = "SELECT \"full name\" AS \"f-n\", \"as\" AS \"as\", \"id\"") ∧
    (∃ sql, Query.fromClause s q = pure sql ∧ s.dialect.render sql = "FROM \"main\".\"t\" \"u\"") ∧
    ∃ sql, (Join.compileEntry s (.list [.text "JOIN",.text ("t" ++ "  " ++ "v")])).runOn d = (.ok sql,d) ∧
      s.dialect.render sql = "JOIN \"t\" \"v\"" := by
  have hspace : Text.Run " ".toList := ⟨by decide,by simp [Text.Blanks,Text.isBlank]⟩
  have hspaces : Text.Run "  ".toList := ⟨by decide,by simp [Text.Blanks,Text.isBlank]⟩
  have htab : Text.Run "\t".toList := ⟨by decide,by simp [Text.Blanks,Text.isBlank]⟩
  have hsolid : ∀ name ∈ ["as","id","main.t","t","u","v"], Text.Solid name.toList ∧ '(' ∉ name.toList := by
    simp [Text.Solid,Text.isBlank]
  have hdash : "f-n" ≠ "" ∧ ∀ c ∈ "f-n".toList, Text.isAliasChar c := ⟨by decide,List.all_eq_true.mp (by decide)⟩
  have hword : "as" ≠ "" ∧ ∀ c ∈ "as".toList, Text.isAliasChar c := ⟨by decide,List.all_eq_true.mp (by decide)⟩
  have hfull : OfColumn ⟨"full name" ++ "\t" ++ "aS" ++ "  " ++ "f-n","full name",some "f-n"⟩ :=
    ⟨.as (by simp [Text.isBlank]) (by decide) htab rfl hspaces,by decide,by simpa using hdash⟩
  have has : OfColumn ⟨"as" ++ " " ++ "as","as",some "as"⟩ :=
    ⟨.behind (hsolid _ (by simp)).1 hspace,by decide,by simpa using hword⟩
  have hid : OfColumn ⟨"id","id",none⟩ := ⟨.alone (hsolid _ (by simp)).1,by decide,by simp⟩
  have hmain : OfTable ⟨"main.t" ++ " " ++ "AS" ++ " " ++ "u","main.t",some "u"⟩ :=
    ⟨.as (by simp [Text.isBlank]) (by decide) hspace rfl hspace,(hsolid _ (by simp)).1,by decide,
      by simpa using hsolid "u" (by simp)⟩
  have htable : OfTable ⟨"t" ++ "  " ++ "v","t",some "v"⟩ :=
    ⟨.behind (hsolid _ (by simp)).1 hspaces,(hsolid _ (by simp)).1,by decide,by simpa using hsolid "v" (by simp)⟩
  intro s d q
  obtain ⟨-,hselect,-,hfrom,hjoin⟩ := written_with_alias s
  refine ⟨?_,?_,?_⟩
  · obtain ⟨sql,hsql,hrender⟩ := hselect q [_,_,_] (by simp) (by simpa using ⟨hfull,has,hid⟩) rfl
    exact ⟨sql,hsql,hrender.trans (by decide)⟩
  · obtain ⟨sql,hsql,hrender⟩ := hfrom q [_] (by simp) (by simpa using hmain) rfl
    exact ⟨sql,hsql,hrender.trans (by decide)⟩
  · have hpair : Join.Written (d.view s) (.list [.text "JOIN",.text ("t" ++ "  " ++ "v")])
        ⟨"JOIN","t" ++ "  " ++ "v",.null⟩ := .pair (.inl rfl) rfl rfl
    obtain ⟨sql,hsql,hrender⟩ := hjoin _ d d _ "JOIN" .null [] htable hpair rfl
    exact ⟨sql,hsql,hrender.trans (by decide)⟩

end Naming

end SqlCompose
