import SqlCompose.Proofs.ItemClauses
import SqlCompose.Proofs.Listing

/-! # Lists written as texts

A list of names may be written as one text with commas. Queries and schema statements take either, and each reads the
text by itself: a query when it is read from a mapping, a schema statement when it is written. As long as the text is no
expression, both come to the names that the text lists, and nothing tells the text from the list.
-/
namespace SqlCompose

variable {s : Setting} {text : String} {names : List String}

/-! ## In a query -/

namespace Item

theorem mapM_toValue (l : List Item) :
    (l.map toValue).mapM (fun v => Reading.ofMemory (fun m => read m v)) = (pure (l.map some) : Reading _) := by
  have hitem : ∀ i : Item, Reading.ofMemory (fun m => read m i.toValue) = pure (some i) := by
    intro i
    cases i <;> rfl
  rw [List.mapM_map]
  simp only [Function.comp_def,hitem]
  exact List.mapM_pure

/-- Items that have been read are read again as they are. -/
theorem readAll_toValue (l : List Item) : readAll (.list (l.map toValue)) = pure (some l) := by
  have hread : readAll (.list (l.map toValue)) = (do
      return (← Reading.each (fun v => Reading.ofMemory (fun m => read m v)) (.list (l.map toValue))).bind
        (List.mapM id)) := rfl
  have heach : Reading.each (fun v => Reading.ofMemory (fun m => read m v)) (.list (l.map toValue)) = (do
      let _ ← get
      return some (← (l.map toValue).mapM (fun v => Reading.ofMemory (fun m => read m v)))) := rfl
  rw [hread,heach,mapM_toValue,pure_bind,bind_assoc]
  simp only [pure_bind,Option.bind_some,sequence_some]
  rfl

theorem map_name (names : List String) : (names.map Item.name).map toValue = names.map Value.text := by
  rw [List.map_map]
  rfl

theorem readAll_list (names : List String) : readAll (.list (names.map .text)) = pure (some (names.map .name)) := by
  rw [← map_name,readAll_toValue]

theorem readAll_of_ofText (h : ofText text = names.map Value.text) :
    readAll (.text text) = pure (some (names.map .name)) := by
  have hitems : readAll (.text text) = (do
      return ((← (ofText text).mapM (fun v => Reading.ofMemory (fun m => read m v))).mapM id)) := rfl
  rw [hitems,h,← map_name,mapM_toValue,pure_bind,sequence_some]

theorem readAll_text (h : '(' ∉ text.toList) : readAll (.text text) = pure (some ((Text.names text).map .name)) :=
  readAll_of_ofText (if_neg (fun he => h (Sql.isExpression_iff.mp he)))

theorem readAll_expression (h : '(' ∈ text.toList) : readAll (.text text) = pure (some [.name text]) := by
  have hwhole : ofText text = [text].map Value.text := if_pos (Sql.isExpression_iff.mpr h)
  exact readAll_of_ofText hwhole

end Item

/-! ## In a schema statement -/

namespace Build

theorem columnList_ofText (b : Bool) (text : String) : columnList s b (.text text) = pure (Sql.columnsOfText text) := rfl

theorem columnList_text (b : Bool) (h : '(' ∉ text.toList) :
    columnList s b (.text text) = pure (Sql.commas ((Text.names text).map Sql.column)) := by
  rw [columnList_ofText,Sql.columnsOfText,if_neg (fun he => h (Sql.isExpression_iff.mp he))]

theorem columnList_expression (b : Bool) (h : '(' ∈ text.toList) : columnList s b (.text text) = pure [.text text] := by
  rw [columnList_ofText,Sql.columnsOfText,if_pos (Sql.isExpression_iff.mpr h)]

theorem columnList_list (b : Bool) (names : List String) :
    columnList s b (.list (names.map .text)) = pure (Sql.commas (names.map Sql.column)) := by
  have hlist : columnList s b (.list (names.map .text)) = (do
      let _ ← view s
      nameList (← (names.map Value.text).mapM (columnItem s b))) := rfl
  have hnames : (names.map Value.text).mapM (columnItem s b) = pure ((names.map Sql.column).map some) := by
    rw [List.mapM_map,List.map_map]
    exact List.mapM_pure
  rw [hlist,hnames]
  simp only [pure_bind,nameList_some]
  rfl

end Build

namespace Schema

/-- The commands that take a list of columns, with their arguments before and behind it. What happens to rows on deletion
and on update, and whether an index is unique, may be left out. -/
inductive TakesColumns : String → List Value → List Value → Prop where
  | primaryKey (name table : Value) : TakesColumns "add_primary_key" [name,table] []
  | source (name table target targetColumns : Value) {actions : List Value} (h : actions.length ≤ 2) :
    TakesColumns "add_foreign_key" [name,table] (target :: targetColumns :: actions)
  | target (name table columns target : Value) {actions : List Value} (h : actions.length ≤ 2) :
    TakesColumns "add_foreign_key" [name,table,columns,target] actions
  | index (name table : Value) {unique : List Value} (h : unique.length ≤ 1) :
    TakesColumns "create_index" [name,table] unique

theorem command_congr {types : ColumnType.TypeMap} {name : String} {before after : List Value} {v w : Value}
    (h : TakesColumns name before after) (hv : Build.columnList s false v = Build.columnList s false w) :
    command types s name (before ++ v :: after) = command types s name (before ++ w :: after) := by
  have hindex : ∀ name table unique, createIndex s name table v unique = createIndex s name table w unique := by
    intros
    simp only [createIndex,hv]
  have hsource : ∀ name table target columns delete update, addForeignKey s name table v target columns delete update =
      addForeignKey s name table w target columns delete update := by
    intros
    simp only [addForeignKey,hv]
  have htarget : ∀ name table columns target delete update, addForeignKey s name table columns target v delete update =
      addForeignKey s name table columns target w delete update := by
    intros
    simp only [addForeignKey,hv]
  cases h with
  | primaryKey => simp only [List.cons_append,List.nil_append,command,addPrimaryKey,hv]
  | @source _ _ _ _ actions h =>
    match actions with
    | [] | [_] | [_,_] => simp only [List.cons_append,List.nil_append,command,hsource]
    | _ :: _ :: _ :: _ => simp at h
  | target _ _ _ _ h =>
    match after with
    | [] | [_] | [_,_] => simp only [List.cons_append,List.nil_append,command,htarget]
    | _ :: _ :: _ :: _ => simp at h
  | index _ _ h =>
    match after with
    | [] | [_] => simp only [List.cons_append,List.nil_append,command,hindex]
    | _ :: _ :: _ => simp at h

end Schema

/-! ## Text or list -/

/-- Grouping by any text: what it is read as is written like the list of columns for it. -/
theorem Query.groupClause_text (hne : Text.names text ≠ []) : ∃ l, Item.readAll (.text text) = pure (some l) ∧
    ∀ (s : Setting) (q : Query), q.groups = l → groupClause s q = (do
      return [.text "GROUP BY "] ++ (← Build.columnList s true (.text text))) := by
  by_cases hparen : '(' ∈ text.toList
  · refine ⟨[.name text],Item.readAll_expression hparen,fun s q hq => ?_⟩
    rw [Build.columnList_expression true hparen]
    exact ItemClause.compile_expression (c := .groups) hparen hq
  · refine ⟨_,Item.readAll_text hparen,fun s q hq => ?_⟩
    rw [Build.columnList_text true hparen]
    exact ItemClause.compile_names (c := .groups) hq hne

/-- The names found in a text are items that the text lists, and no other items are listed by it. So a text may always be
given in place of the list of its names, unless it is an expression: a query reads the same items from both and is composed
alike, and the commands that take a list of columns write the same. Grouping by any text, be it an expression or not,
writes the list of columns for that text. -/
theorem text_in_place_of_list :
    (∀ (text : String) (names : List String), Text.names text = names ↔
      Text.Lists text.toList (names.map String.toList) ∧ ∀ n ∈ names, Text.IsItem n.toList) ∧
    (∀ (text : String) (names : List String), Text.Lists text.toList (names.map String.toList) →
      (∀ n ∈ names, Text.IsItem n.toList) → '(' ∉ text.toList →
      (∀ c : ItemClause, Query.Contributes c.key (.text text) (c.put (names.map .name)) ∧
        Query.Contributes c.key (.list (names.map .text)) (c.put (names.map .name))) ∧
      (∀ (c : ItemClause) (before after : Entries), c.key ∉ (before ++ after).names →
        ∀ (r : Registry) (o : Options) (target : String) (m : Memory),
          r.composeQuery o target (.mapping (before ++ (.text c.key,.text text) :: after)) m =
            r.composeQuery o target (.mapping (before ++ (.text c.key,.list (names.map .text)) :: after)) m) ∧
      ∀ (command : String) (before after : List Value), Schema.TakesColumns command before after →
        ∀ (o : Options) (d : Dialect) (m : Memory), Schema.build o d command (before ++ .text text :: after) m =
          Schema.build o d command (before ++ .list (names.map .text) :: after) m) ∧
    ∀ text : String, Text.names text ≠ [] → ∃ l, Query.Contributes "GROUP_BY" (.text text) (ItemClause.groups.put l) ∧
      ∀ (s : Setting) (q : Query), q.groups = l → Query.groupClause s q = (do
        return [.text "GROUP BY "] ++ (← Build.columnList s true (.text text))) := by
  refine ⟨fun text names => Text.names_eq_iff,fun text names hlists hitems hparen => ?_,fun text hne => ?_⟩
  · have hnames : Text.names text = names := Text.names_eq_iff.mpr ⟨hlists,hitems⟩
    have htext : Item.readAll (.text text) = pure (some (names.map .name)) := by rw [Item.readAll_text hparen,hnames]
    have hcontributes : ∀ c : ItemClause, Query.Contributes c.key (.text text) (c.put (names.map .name)) ∧
        Query.Contributes c.key (.list (names.map .text)) (c.put (names.map .name)) :=
      fun c => ⟨Query.contributes_items c htext,Query.contributes_items c (Item.readAll_list names)⟩
    refine ⟨hcontributes,fun c before after hkey => ?_,fun command before after h o d m => ?_⟩
    · exact (hcontributes c).1.composeQuery_eq (hcontributes c).2 hkey
    · have hcolumns : Build.columnList (o.setting d) false (.text text) =
          Build.columnList (o.setting d) false (.list (names.map .text)) := by
        rw [Build.columnList_text false hparen,Build.columnList_list,hnames]
      unfold Schema.build
      rw [Schema.command_congr h hcolumns]
  · obtain ⟨l,hread,hclause⟩ := Query.groupClause_text hne
    exact ⟨l,Query.contributes_items .groups hread,hclause⟩

/-- Two names with blanks and commas around them, in a query and in an index; and an expression to group by. -/
theorem text_in_place_of_list_spelled :
    let text := " a ,,\tb c, "
    let list := .list [.text "a",.text "b c"]
    Text.names text = ["a","b c"] ∧
    (∀ (r : Registry) (o : Options) (target : String) (m : Memory),
      r.composeQuery o target (.mapping [(.text "FROM",.text "t"),(.text "SELECT",.text text)]) m =
        r.composeQuery o target (.mapping [(.text "FROM",.text "t"),(.text "SELECT",list)]) m) ∧
    (∀ v ∈ [.text text,list], (Schema.build {} .sqlite "create_index" [.text "i",.text "t",v] {}).1.toOption =
      some "CREATE INDEX \"i\" ON \"t\" (\"a\", \"b c\")") ∧
    ∃ l, Query.Contributes "GROUP_BY" (.text "f(a, b)") (ItemClause.groups.put l) ∧ ∀ (s : Setting) (q : Query),
      q.groups = l → Query.groupClause s q = pure [.text "GROUP BY ",.text "f(a, b)"] := by
  intro text list
  obtain ⟨hnames,hsame,hgroup⟩ := text_in_place_of_list
  obtain ⟨hlists,hitems⟩ := (hnames text ["a","b c"]).mp (by decide)
  obtain ⟨-,hquery,hschema⟩ := hsame text ["a","b c"] hlists hitems (by decide)
  have hlist : (Schema.build {} .sqlite "create_index" [.text "i",.text "t",list] {}).1.toOption =
      some "CREATE INDEX \"i\" ON \"t\" (\"a\", \"b c\")" := by decide
  refine ⟨by decide,hquery .columns [_] [] (by decide),?_,?_⟩
  · simp only [List.forall_mem_cons]
    refine ⟨?_,hlist,nofun⟩
    have hindex := hschema "create_index" [.text "i",.text "t"] [] (.index _ _ (by decide)) {} .sqlite {}
    rw [← hlist]
    exact congrArg (fun p => p.1.toOption) hindex
  · obtain ⟨l,hl,hclause⟩ := hgroup "f(a, b)" (by decide)
    exact ⟨l,hl,hclause⟩

end SqlCompose
