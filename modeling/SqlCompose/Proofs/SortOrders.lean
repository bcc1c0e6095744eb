import SqlCompose.Proofs.ItemClauses
import SqlCompose.Proofs.Listing

/-! # Sort orders written as texts

A sort order may be written as a text of columns with their directions, or as a mapping from columns to directions. An
item of the text is cut where its column ends: a direction further to the left would have to be the last word behind
blanks as well, but the end of the column stands between. If the columns are distinct, both ways of writing come to the
same order.
-/
namespace SqlCompose

/-! ## Directions at the end of an item -/

namespace Text
variable {c : Char} {s w r word rest : List Char} {d : Direction}

def IsDirection (d : Direction) (word : List Char) : Prop := keyword word = d.token.toList

theorem IsDirection.solid (h : IsDirection d word) : Solid word := by
  cases d <;> exact solid_of_keyword (by simp [Direction.token]) h

theorem IsDirection.ne_nil (h : IsDirection d word) : word ≠ [] := by
  rintro rfl
  cases d <;> cases h

theorem IsDirection.unique {e : Direction} (hd : IsDirection d word) (he : IsDirection e word) : d = e := by
  cases d <;> cases e <;> first | rfl | exact absurd (hd.symm.trans he) (by decide)

def directionLetters : Direction → List Char
  | .ascending => ['a','s','c']
  | .descending => ['d','e','s','c']

theorem afterWord?_direction :
    afterWord? (directionLetters d) s = some rest ↔ ∃ word, s = word ++ rest ∧ IsDirection d word := by
  have hkeyword : keyword (directionLetters d) = d.token.toList := by cases d <;> decide
  rw [afterWord?_eq_some (by cases d <;> simp [directionLetters,IsLetter]),hkeyword]
  rfl

theorem ends_iff : ((afterWord? (directionLetters d) s).map isEnd).getD false = true ↔
    ∃ word rest, s = word ++ rest ∧ IsDirection d word ∧ isEnd rest := by
  constructor
  · intro h
    cases hrest : afterWord? (directionLetters d) s with
    | none =>
      rw [hrest] at h
      cases h
    | some rest =>
      obtain ⟨word,hs,hword⟩ := afterWord?_direction.mp hrest
      rw [hrest] at h
      exact ⟨word,rest,hs,hword,h⟩
  · rintro ⟨word,rest,hs,hword,hend⟩
    rw [afterWord?_direction.mpr ⟨word,hs,hword⟩]
    exact hend

theorem directionTail?_run (hw : Run w) (h : IsDirection d word) :
    directionTail? (w ++ word) = some (d == .descending) := by
  rw [directionTail?,afterBlanks?_append hw h.solid.head,Option.bind_some]
  have hend : ∃ word' rest, word = word' ++ rest ∧ IsDirection d word' ∧ isEnd rest := ⟨word,[],by simp,h,rfl⟩
  cases d with
  | ascending => exact if_pos (ends_iff.mpr hend)
  | descending =>
    have hasc : ¬ ((afterWord? (directionLetters .ascending) word).map isEnd).getD false = true := by
      rw [ends_iff]
      rintro ⟨word',rest,hs,hword',hrest⟩
      have hword : word = word' := by
        refine eq_of_end ?_ h.solid.getLast
        rcases isEnd_iff.mp hrest with rfl | rfl
        · exact .inl (by simpa using hs)
        · exact .inr hs
      exact absurd (h.unique (hword ▸ hword')) (by decide)
    exact (if_neg hasc).trans (if_pos (ends_iff.mpr hend))

theorem of_directionTail? {b : Bool} (h : directionTail? s = some b) :
    ∃ w word d, Run w ∧ IsDirection d word ∧ (s = w ++ word ∨ s = w ++ word ++ ['\n']) := by
  unfold directionTail? at h
  obtain ⟨rest,hrest,hword⟩ := Option.bind_eq_some_iff.mp h
  obtain ⟨w,hw,rfl⟩ := of_afterBlanks? hrest
  have hend : ∃ d : Direction, ((afterWord? (directionLetters d) rest).map isEnd).getD false = true := by
    split at hword
    · next hasc => exact ⟨.ascending,hasc⟩
    · split at hword
      · next hdesc => exact ⟨.descending,hdesc⟩
      · cases hword
  obtain ⟨d,hd⟩ := hend
  obtain ⟨word,last,rfl,hdirection,hlast⟩ := ends_iff.mp hd
  refine ⟨w,word,d,hw,hdirection,?_⟩
  rcases isEnd_iff.mp hlast with rfl | rfl
  · exact .inl (by simp)
  · exact .inr (by simp)

def EndsDirected (s : List Char) : Prop := ∃ before w word d, s = before ++ (w ++ word) ∧ Run w ∧ IsDirection d word

theorem sortItem?_directed {column : List Char} (hc : ∀ c ∈ column.getLast?, ¬ isBlank c) (hline : '\n' ∉ column)
    (hw : Run w) (h : IsDirection d word) : sortItem? (column ++ (w ++ word)) = some (column,d == .descending) := by
  refine cutWhere?_append hline (by simp [hw.ne_nil]) (fun r hr hne => ?_) (directionTail?_run hw h)
  refine Option.eq_none_iff_forall_ne_some.mpr (fun b hb => ?_)
  obtain ⟨w',word',d',hw',hword',hend⟩ := of_directionTail? hb
  -- Both directions are the last word behind blanks, so `r` would have to be part of these blanks.
  have hlastWord := h.solid.getLast_append (x := r ++ w) h.ne_nil
  have heq : (r ++ w) ++ word = w' ++ word' := by
    rw [List.append_assoc]
    exact eq_of_end hend (by rwa [← List.append_assoc])
  have hblanks := (append_inj_of_run h.solid hword'.solid hw.getLast_append hw'.getLast heq).1
  exact not_blanks_append hne (getLast?_of_suffix hr hne ▸ hc) (hblanks ▸ hw'.blanks)

theorem sortItem?_bare (hline : '\n' ∉ s) (h : ¬ EndsDirected s) : sortItem? s = none := by
  refine cutWhere?_eq_none (fun r hr => ?_)
  refine Option.eq_none_iff_forall_ne_some.mpr (fun b hb => ?_)
  obtain ⟨before,rfl⟩ := hr
  obtain ⟨w,word,d,hw,hword,rfl | rfl⟩ := of_directionTail? hb
  · exact h ⟨before,w,word,d,rfl,hw,hword⟩
  · exact hline (by simp)

/-- An item that sorts by a column. Its direction stands behind blanks; it may be left out if it is ascending and the
column does not end like one that has a direction. -/
inductive Sorts : List Char → String × Direction → Prop where
  | directed {column : String} {w word : List Char} {d : Direction} (hw : Run w) (h : IsDirection d word) :
    Sorts (column.toList ++ (w ++ word)) (column,d)
  | bare {column : String} (h : ¬ EndsDirected column.toList) : Sorts column.toList (column,.ascending)

theorem IsDirection.not_mem (h : IsDirection d word) (hc : upperChar c ∉ ['A','S','C','D','E']) : c ∉ word := by
  have hletters : d.token.toList ⊆ ['A','S','C','D','E'] := by cases d <;> decide
  exact not_mem_of_keyword h (fun hmem => hc (hletters hmem))

theorem Sorts.isItem {item : List Char} {p : String × Direction} (h : Sorts item p) (hp : IsItem p.1.toList) :
    IsItem item := by
  cases h with
  | bare => exact hp
  | @directed column w word d hw h =>
    refine ⟨by simp [h.ne_nil],?_,?_,?_⟩
    · simp only [List.mem_append,not_or]
      exact ⟨hp.uncut,hw.blanks.not_mem (by decide),h.not_mem (by decide)⟩
    · rw [List.head?_append_of_ne_nil _ hp.ne_nil]
      exact hp.trimmed.1
    · rw [← List.append_assoc]
      exact h.solid.getLast_append h.ne_nil

theorem putAll_of_nodup {α : Type} {named more : List (String × α)} (h : ((named ++ more).map (·.1)).Nodup) :
    putAll named more = named ++ more := by
  induction more generalizing named with
  | nil => simp [putAll]
  | cons e more ih =>
    have hassoc : named ++ e :: more = named ++ [e] ++ more := by simp
    have hnew : e.1 ∉ named.map (·.1) := by
      rw [List.map_append] at h
      exact fun hmem => (List.nodup_append.mp h).2.2 _ hmem _ (by simp) rfl
    have hput : putAll named (e :: more) = putAll (put e.1 e.2 named) more := rfl
    rw [hput,put_of_not_mem hnew,ih (hassoc ▸ h),hassoc]

end Text

/-! ## Orders read from either form -/

namespace SortKey
variable {pairs : List (String × Direction)} {items : List (List Char)} {entries : Entries} {m : Memory}

theorem ofItem_sorts {item : List Char} {p : String × Direction} (h : Text.Sorts item p)
    (hp : Text.IsItem p.1.toList) (hline : '\n' ∉ p.1.toList) :
    ofItem (String.ofList item) = (p.1,.direction p.2) := by
  unfold ofItem
  rw [String.toList_ofList]
  cases h with
  | bare h => simp [Text.sortItem?_bare hline h]
  | @directed column w word d hw h =>
    rw [Text.sortItem?_directed hp.trimmed.2 hline hw h]
    cases d <;> simp [ofDescending]

def orderOf (pairs : List (String × Direction)) : List (String × SortKey) := pairs.map (fun p => (p.1,.direction p.2))

theorem putAll_orderOf (h : (pairs.map (·.1)).Nodup) : Text.putAll [] (orderOf pairs) = orderOf pairs := by
  refine Text.putAll_of_nodup ?_
  rw [List.nil_append,orderOf,List.map_map]
  exact h

theorem items_sorts (h : List.Forall₂ Text.Sorts items pairs)
    (hcolumns : ∀ p ∈ pairs, Text.IsItem p.1.toList ∧ '\n' ∉ p.1.toList) :
    (∀ item ∈ items, Text.IsItem item) ∧ (items.map String.ofList).map ofItem = orderOf pairs := by
  induction h with
  | nil => exact ⟨nofun,rfl⟩
  | cons h _ ih =>
    obtain ⟨⟨hitem,hline⟩,hmore⟩ := List.forall_mem_cons.mp hcolumns
    obtain ⟨hitems,horder⟩ := ih hmore
    refine ⟨List.forall_mem_cons.mpr ⟨h.isItem hitem,hitems⟩,?_⟩
    rw [List.map_cons,List.map_cons,ofItem_sorts h hitem hline,horder]
    rfl

theorem readAll_ofText (text : String) : readAll m (.text text) = .ok (some (ofText text)) := rfl

theorem readAll_text {text : String} (hlists : Text.Lists text.toList items) (hsorts : List.Forall₂ Text.Sorts items pairs)
    (hcolumns : ∀ p ∈ pairs, Text.IsItem p.1.toList ∧ '\n' ∉ p.1.toList) (hdistinct : (pairs.map (·.1)).Nodup) :
    readAll m (.text text) = .ok (some (orderOf pairs)) := by
  obtain ⟨hitems,horder⟩ := items_sorts hsorts hcolumns
  rw [readAll_ofText,ofText,Text.names,Text.commaParts_of_lists hlists hitems,horder,putAll_orderOf hdistinct]

/-- An entry that gives a column its direction, as such or by its word in any letter case. -/
def Directs (e : Value × Value) (p : String × Direction) : Prop :=
  e.1 = .text p.1 ∧ (e.2 = .direction p.2 ∨ ∃ word, e.2 = .text word ∧ Text.IsDirection p.2 word.toList)

theorem readEntry_directs {e : Value × Value} {p : String × Direction} (h : Directs e p) :
    readEntry m e = .ok (some (p.1,.direction p.2)) := by
  obtain ⟨hcolumn,hv⟩ := h
  have hread : read m e.2 = .ok (some (.direction p.2)) := by
    rcases hv with hv | ⟨word,hv,hword⟩
    · rw [hv]
      cases p.2 <;> rfl
    · have htext : read m e.2 = .ok ((Direction.ofToken? (String.ofList (Text.keyword word.toList))).map .direction) := by
        rw [hv]
        rfl
      rw [htext,hword,String.ofList_toList]
      cases p.2 <;> rfl
  rw [readEntry,hread,hcolumn]
  rfl

theorem readAll_of_keys {l : List (String × SortKey)} (h : entries.mapM (readEntry m) = .ok (l.map some))
    (hdistinct : (l.map (·.1)).Nodup) : readAll m (.mapping entries) = .ok (some l) := by
  have hread : readAll m (.mapping entries) =
      (do return ((← entries.mapM (readEntry m)).mapM id).map (Text.putAll [])) := rfl
  have hplaced : ((l.map some).mapM id).map (Text.putAll []) = some l := by
    rw [sequence_some,Option.map_some,Text.putAll_of_nodup hdistinct,List.nil_append]
  rw [hread,h,← hplaced]
  rfl

theorem readAll_mapping (h : List.Forall₂ Directs entries pairs) (hdistinct : (pairs.map (·.1)).Nodup) :
    readAll m (.mapping entries) = .ok (some (orderOf pairs)) := by
  have hkeys : entries.mapM (readEntry m) = .ok ((orderOf pairs).map some) := by
    induction h with
    | nil => rfl
    | cons h _ ih =>
      rw [List.mapM_cons,readEntry_directs h,ih (List.nodup_cons.mp hdistinct).2]
      rfl
  refine readAll_of_keys hkeys ?_
  rw [orderOf,List.map_map]
  exact hdistinct

end SortKey

namespace Query
variable {s : Setting} {q : Query} {pairs : List (String × Direction)} {items : List (List Char)} {entries : Entries}
  {text : String}

theorem orderClause_eq (hq : q.order = SortKey.orderOf pairs) (hne : pairs ≠ []) :
    ∃ sql, orderClause s q = pure sql ∧
      s.dialect.render sql = "ORDER BY " ++ ", ".intercalate (pairs.map (fun p =>
        s.dialect.render (Sql.column p.1) ++ if p.2 = .descending then " DESC" else "")) := by
  have hkey : ∀ p : String × Direction, sortKey s (p.1,.direction p.2) =
      pure (Sql.column p.1 ++ if p.2 = .descending then [.text " DESC"] else []) := by
    intro p
    unfold sortKey
    cases p.2 with
    | ascending => simp
    | descending => rfl
  have hkeys : q.order.mapM (sortKey s) =
      pure (pairs.map (fun p => Sql.column p.1 ++ if p.2 = .descending then [.text " DESC"] else [])) := by
    rw [hq,SortKey.orderOf,List.mapM_map]
    simp only [Function.comp_def,hkey]
    exact List.mapM_pure
  have hfull : q.order.isEmpty = false := by simpa [hq,SortKey.orderOf] using hne
  refine ⟨_,by rw [orderClause,hfull,hkeys]; rfl,?_⟩
  rw [Dialect.render_clause,List.map_map]
  refine congrArg (fun texts => "ORDER BY " ++ ", ".intercalate texts) (List.map_congr_left (fun p _ => ?_))
  rw [Function.comp_apply,Dialect.render_append]
  split <;> rfl

/-- A sort order may be written as a text or as a mapping. If a text has distinct columns in this order, each with its
direction, and a mapping has the same columns with the same directions, then a query is read alike from both and composed
alike. The clause has the columns in this order, and a word behind those that descend. -/
theorem sort_text_in_place_of_mapping (hne : pairs ≠ []) (hdistinct : (pairs.map (·.1)).Nodup)
    (hcolumns : ∀ p ∈ pairs, Text.IsItem p.1.toList ∧ '\n' ∉ p.1.toList) (hlists : Text.Lists text.toList items)
    (hsorts : List.Forall₂ Text.Sorts items pairs) (hentries : List.Forall₂ SortKey.Directs entries pairs) :
    Contributes "ORDER_BY" (.text text) (fun q => { q with order := SortKey.orderOf pairs }) ∧
    Contributes "ORDER_BY" (.mapping entries) (fun q => { q with order := SortKey.orderOf pairs }) ∧
    (∀ before after : Entries, "ORDER_BY" ∉ (before ++ after).names → ∀ (r : Registry) (o : Options) (target : String)
      (m : Memory), r.composeQuery o target (.mapping (before ++ (.text "ORDER_BY",.text text) :: after)) m =
        r.composeQuery o target (.mapping (before ++ (.text "ORDER_BY",.mapping entries) :: after)) m) ∧
    ∀ (s : Setting) (q : Query), q.order = SortKey.orderOf pairs → ∃ sql, orderClause s q = pure sql ∧
      s.dialect.render sql = "ORDER BY " ++ ", ".intercalate (pairs.map (fun p =>
        s.dialect.render (Sql.column p.1) ++ if p.2 = .descending then " DESC" else "")) := by
  have htext := contributes_order (fun m => SortKey.readAll_text (m := m) hlists hsorts hcolumns hdistinct)
  have hmapping := contributes_order (fun m => SortKey.readAll_mapping (m := m) hentries hdistinct)
  exact ⟨htext,hmapping,fun _ _ hkey => htext.composeQuery_eq hmapping hkey,fun _ _ hq => orderClause_eq hq hne⟩

/-- A column that ends in `asc` and descends, before one whose direction is left out. -/
theorem sort_text_in_place_of_mapping_spelled :
    let entries := [(Value.text "a asc",Value.text "Desc"),(.text "b",.direction .ascending)]
    (∀ (r : Registry) (o : Options) (target : String) (m : Memory),
      r.composeQuery o target (.mapping [(.text "FROM",.text "t"),(.text "ORDER_BY",.text "a asc dEsc\t, b")]) m =
        r.composeQuery o target (.mapping [(.text "FROM",.text "t"),(.text "ORDER_BY",.mapping entries)]) m) ∧
    ∃ sql, orderClause (Options.setting {} .sqlite)
        { order := [("a asc",.direction .descending),("b",.direction .ascending)] } = pure sql ∧
      Dialect.sqlite.render sql = "ORDER BY \"a asc\" DESC, \"b\"" := by
  let pairs : List (String × Direction) := [("a asc",.descending),("b",.ascending)]
  have hspace : Text.Run " ".toList := ⟨by decide,by simp [Text.Blanks,Text.isBlank]⟩
  have hdirected : Text.Sorts ("a asc".toList ++ (" ".toList ++ "dEsc".toList)) ("a asc",.descending) :=
    .directed hspace rfl
  have hbare : Text.Sorts "b".toList ("b",.ascending) := by
    refine .bare ?_
    rintro ⟨before,w,word,d,h,hw,hword⟩
    have hletters : word.length = d.token.toList.length := by rw [← hword,Text.keyword,List.length_map]
    have hlength := congrArg List.length h
    rw [List.length_append,List.length_append,hletters] at hlength
    cases d <;> simp [Direction.token] at hlength <;> omega
  have hitems := (Text.names_eq_iff.mp (by decide : Text.names "a asc,b" = pairs.map (·.1))).2
  have hlines : ∀ p ∈ pairs, '\n' ∉ p.1.toList := by decide
  have hcolumns : ∀ p ∈ pairs, Text.IsItem p.1.toList ∧ '\n' ∉ p.1.toList :=
    fun p hp => ⟨hitems p.1 (List.mem_map_of_mem hp),hlines p hp⟩
  have hlists : Text.Lists "a asc dEsc\t, b".toList ["a asc".toList ++ (" ".toList ++ "dEsc".toList),"b".toList] :=
    (Text.commaParts_eq_iff.mp (by decide)).1
  have hentries : List.Forall₂ SortKey.Directs [(.text "a asc",.text "Desc"),(.text "b",.direction .ascending)] pairs :=
    .cons ⟨rfl,.inr ⟨"Desc",rfl,rfl⟩⟩ (.cons ⟨rfl,.inl rfl⟩ .nil)
  obtain ⟨-,-,hcompose,hclause⟩ := sort_text_in_place_of_mapping (by decide) (by decide) hcolumns hlists
    (.cons hdirected (.cons hbare .nil)) hentries
  obtain ⟨sql,hsql,hrender⟩ := hclause (Options.setting {} .sqlite) { order := SortKey.orderOf pairs } rfl
  exact ⟨hcompose [_] [] (by decide),sql,hsql,hrender.trans (by decide)⟩

end Query

end SqlCompose
