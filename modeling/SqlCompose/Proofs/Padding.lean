import SqlCompose.Proofs.AliasCuts
import SqlCompose.Proofs.Shorthand

/-! # Blanks around items

An item of a list is not trimmed. A blank before it or behind it stays in the text, where it is a part of a name or cuts an
empty name off. Only the line feed that may follow an alias leaves no trace.
-/
namespace SqlCompose

/-! ## Items with blanks around them -/

/-- An item that is no expression, and blanks around it. -/
structure Padded where
  left : List Char
  core : List Char
  right : List Char
  left_blank : Text.Blanks left
  right_blank : Text.Blanks right
  nonempty : core ≠ []
  trimmed : Text.Trimmed core
  plain : '(' ∉ core

namespace Padded
open Text
variable {p : Padded} {k : NameKind} {d : Dialect}

def item (p : Padded) : String := String.ofList (p.left ++ p.core ++ p.right)

def bare (p : Padded) : String := String.ofList p.core

/-- There is nothing around the item, or nothing but one line feed behind an alias. -/
def Unseen (k : NameKind) (p : Padded) : Prop :=
  p.left = [] ∧ (p.right = [] ∨ p.right = ['\n'] ∧ ∃ c a, k.cut? p.core = some (c,a) ∧ ¬ k.Swallowed p.core c a)

theorem fullStart (p : Padded) : FullStart p.core := by
  obtain ⟨c,more,hcore⟩ := List.exists_cons_of_ne_nil p.nonempty
  have hc : c ∈ p.core.head? := by simp [hcore]
  exact ⟨c,hc,p.trimmed.1 c hc⟩

theorem fullEnd (p : Padded) : FullEnd p.core := by
  obtain ⟨c,hc⟩ := Option.isSome_iff_exists.mp (List.getLast?_isSome.mpr p.nonempty)
  exact ⟨c,hc,p.trimmed.2 c hc⟩

theorem item_plain (p : Padded) : '(' ∉ p.item.toList := by
  have hleft : '(' ∉ p.left := p.left_blank.not_mem (by decide)
  have hright : '(' ∉ p.right := p.right_blank.not_mem (by decide)
  simp [item,hleft,p.plain,hright]

theorem bare_plain (p : Padded) : '(' ∉ p.bare.toList := by simpa [bare] using p.plain

/-- Nothing stands before an item that begins otherwise than with a blank. -/
theorem left_eq_nil (h : FullStart p.item.toList) : p.left = [] := by
  by_contra hne
  rw [item,String.toList_ofList,List.append_assoc] at h
  exact not_fullStart_of_blanks p.left_blank hne h

/-- If what stands last in an item does not end in a blank, then nothing is behind it, or a line feed behind an alias. -/
theorem right_of_ending (hl : p.left = []) (h : FullEnd (k.naming p.item).ending) :
    p.right = [] ∨ p.right = ['\n'] ∧ k.cut? p.core ≠ none := by
  have hitem : p.item.toList = p.core ++ p.right := by simp [item,hl]
  obtain ⟨before,hs | ⟨hcut,hs⟩⟩ := Naming.ending_naming k p.item
  · by_contra hno
    rw [not_or] at hno
    have hfull : FullEnd (p.core ++ p.right) := by
      rw [← hitem,hs]
      exact h.append
    exact not_fullEnd_of_blanks p.right_blank hno.1 hfull
  · rcases List.eq_nil_or_concat p.right with hright | ⟨more,c,hright⟩
    · exact .inl hright
    · rw [hitem,hright,List.concat_eq_append,← List.append_assoc] at hs
      obtain ⟨hcore,hc⟩ := List.append_inj' hs rfl
      cases hc
      have hmore : more = [] := by
        by_contra hne
        have hblank : Blanks more := fun c hc => p.right_blank c (by simp [hright,hc])
        exact not_fullEnd_of_blanks hblank hne (hcore ▸ h.append)
      subst hmore
      have hline : p.right = ['\n'] := hright
      obtain ⟨⟨c,a⟩,hca⟩ := Option.ne_none_iff_exists'.mp hcut
      have hending : (k.naming p.item).ending = a := by simp [NameKind.naming,hca,Naming.ending]
      rw [hitem,hline] at hca
      exact .inr ⟨hline,NameKind.cut?_ne_none_of_line (hending ▸ h) hca⟩

/-- What stands around an item shows in its text, unless it is a line feed behind an alias. -/
theorem render_eq_iff (hd : d ∈ [.plain,.sqlite,.postgres,.mysql]) (k : NameKind) (p : Padded) :
    d.render (k.aliased p.item) = d.render (k.aliased p.bare) ↔ p.Unseen k := by
  have hbare : p.bare.toList = p.core := String.toList_ofList
  rw [NameKind.render_aliased p.item_plain,NameKind.render_aliased p.bare_plain]
  constructor
  · intro h
    obtain ⟨hstart,hend⟩ := Naming.ends_of_write_eq hd (Naming.naming_plain p.item_plain) (Naming.naming_plain p.bare_plain) h
    have hleft : p.left = [] := by
      refine left_eq_nil (Naming.fullStart_naming.mp (hstart.mpr (Naming.fullStart_naming.mpr ?_)))
      exact hbare ▸ p.fullStart
    have hfull : FullEnd (k.naming p.bare).ending := Naming.fullEnd_naming (hbare ▸ p.fullEnd)
    refine ⟨hleft,(right_of_ending hleft (hend.mpr hfull)).imp_right (fun hright => ⟨hright.1,?_⟩)⟩
    obtain ⟨⟨c,a⟩,hca⟩ := Option.ne_none_iff_exists'.mp hright.2
    refine ⟨c,a,hca,fun hswallowed => ?_⟩
    have hcut := NameKind.cut?_line_of_swallowed p.fullEnd hca hswallowed
    have hending : (k.naming p.item).ending = [] := by
      simp [NameKind.naming,item,hleft,hright.1,hcut,Naming.ending]
    exact (hending ▸ hend.mpr hfull).ne_nil rfl
  · rintro ⟨hleft,hright | ⟨hright,c,a,hcut,hno⟩⟩
    · rw [item,bare,hleft,hright,List.nil_append,List.append_nil]
    · have hline := NameKind.cut?_line p.fullEnd hcut hno
      simp [NameKind.naming,item,bare,hleft,hright,hline,hcut,Naming.write]

end Padded

/-! ## Items in a clause -/

namespace ItemClause
variable {s : Setting} {c : ItemClause} {q : Query} {before after : List Item} {n n' : String} {d : Draft}

/-- The rest of a clause does not depend on the name in one place. -/
theorem compile_put (s : Setting) (c : ItemClause) (q : Query) (before after : List Item) :
    ∃ rest : Build (List Sql × List Sql), ∀ n, c.compile s (c.put (before ++ .name n :: after) q) =
      rest >>= fun r => pure ([.text (c.opening q)] ++ Sql.commas (r.1 ++ c.name n :: r.2)) := by
  refine ⟨do
    let b ← before.mapM (Build.item s c.name)
    let a ← after.mapM (Build.item s c.name)
    return (b,a),fun n => ?_⟩
  have hitems : ∀ l, c.items (c.put l q) = l := by
    intro l
    cases c <;> rfl
  have hopening : ∀ l, c.opening (c.put l q) = c.opening q := by
    intro l
    cases c <;> rfl
  have hname : Build.item s c.name (.name n) = pure (c.name n) := rfl
  rw [compile_of_ne (by simp [hitems]),hitems,hopening,Build.items,List.mapM_append,List.mapM_cons,hname]
  simp only [bind_assoc,pure_bind]

end ItemClause

theorem intercalate_inj {sep x y : String} {before after : List String} :
    sep.intercalate (before ++ x :: after) = sep.intercalate (before ++ y :: after) ↔ x = y := by
  have hframe : ∃ left right : String, ∀ x, sep.intercalate (before ++ x :: after) = left ++ x ++ right := by
    induction before with
    | nil =>
      cases after with
      | nil => exact ⟨"","",fun x => by simp⟩
      | cons a after => exact ⟨"",sep ++ sep.intercalate (a :: after),fun x => by simp [String.append_assoc]⟩
    | cons b before ih =>
      obtain ⟨left,right,h⟩ := ih
      refine ⟨b ++ sep ++ left,right,fun x => ?_⟩
      have hcons : ∃ c rest, before ++ x :: after = c :: rest := List.exists_cons_of_ne_nil (by simp)
      obtain ⟨c,rest,hrest⟩ := hcons
      rw [List.cons_append,hrest,String.intercalate_cons_cons,← hrest,h]
      simp [String.append_assoc]
  obtain ⟨left,right,h⟩ := hframe
  rw [h,h]
  simp [← String.toList_inj]

namespace Padded
variable {s : Setting} {k : NameKind} {p : Padded}

/-- Two runs that fail alike, or end alike and write the same if and only if `same`. -/
def Agree (s : Setting) (same : Prop) (a b : Except Fault Sql × Draft) : Prop :=
  (∃ x e, a = (.error x,e) ∧ b = (.error x,e)) ∨
    ∃ sql sql' e, a = (.ok sql,e) ∧ b = (.ok sql',e) ∧ (s.dialect.render sql = s.dialect.render sql' ↔ same)

/-- The same in a list among other items. -/
theorem clause_agree (hd : s.dialect ∈ [.plain,.sqlite,.postgres,.mysql]) (k : NameKind) (p : Padded) (q : Query)
    (before after : List Item) (d : Draft) : Agree s (p.Unseen k)
      ((k.clause.compile s (k.clause.put (before ++ .name p.item :: after) q)).runOn d)
      ((k.clause.compile s (k.clause.put (before ++ .name p.bare :: after) q)).runOn d) := by
  obtain ⟨rest,hrest⟩ := k.clause.compile_put s q before after
  have hname : k.clause.name = k.aliased := by cases k <;> rfl
  rw [hrest,hrest,Build.runOn_bind,Build.runOn_bind]
  cases hrun : rest.runOn d with
  | mk r e =>
    cases r with
    | error x => exact .inl ⟨x,e,rfl,rfl⟩
    | ok parts =>
      refine .inr ⟨_,_,e,rfl,rfl,?_⟩
      rw [Dialect.render_clause,Dialect.render_clause,hname,← render_eq_iff hd k p]
      simp only [List.map_append,List.map_cons,← String.toList_inj,String.toList_append,List.append_cancel_left_eq]
      rw [String.toList_inj,intercalate_inj,String.toList_inj]

/-- The same for the table of a join, in any notation. -/
theorem join_agree (hd : s.dialect ∈ [.plain,.sqlite,.postgres,.mysql]) (p : Padded) {d : Draft} {v w : Value}
    {keyword : String} {on : Value} (hv : Join.Written (d.view s) v ⟨keyword,p.item,on⟩)
    (hw : Join.Written (d.view s) w ⟨keyword,p.bare,on⟩) : Agree s (p.Unseen .table)
      ((Join.compileEntry s v).runOn d) ((Join.compileEntry s w).runOn d) := by
  rw [hv.runOn_compileEntry,hw.runOn_compileEntry,Join.runOn_compile,Join.runOn_compile]
  cases hrun : (Condition.compile s on).runOn d with
  | mk r e =>
    cases r with
    | error x => exact .inl ⟨x,e,rfl,rfl⟩
    | ok condition =>
      refine .inr ⟨_,_,e,rfl,rfl,?_⟩
      have hframe : ∃ rest, ∀ table, Join.sqlOf s ⟨keyword,table,on⟩ condition =
          [.text (keyword ++ " ")] ++ Sql.aliasedTable table ++ rest := ⟨_,fun _ => rfl⟩
      have htable : NameKind.aliased .table = Sql.aliasedTable := rfl
      obtain ⟨rest,hrest⟩ := hframe
      rw [← render_eq_iff hd .table p,htable,hrest,hrest]
      simp only [Dialect.render_append,← String.toList_inj,String.toList_append,List.append_cancel_left_eq,
        List.append_cancel_right_eq]

end Padded

/-! ## Empty names -/

namespace Text
variable {sep : Char} {x y : List Char}

/-- The last piece before a place and the first behind it make one piece. -/
theorem splitOn_append_pieces (sep : Char) (x y : List Char) : ∃ init last first more,
    splitOn sep x = init ++ [last] ∧ splitOn sep y = first :: more ∧
      splitOn sep (x ++ y) = init ++ (last ++ first) :: more := by
  obtain ⟨first,more,hy⟩ := List.exists_cons_of_ne_nil (splitOn_ne_nil sep y)
  induction x with
  | nil => exact ⟨[],[],first,more,rfl,hy,hy⟩
  | cons c x ih =>
    obtain ⟨init,last,first,more,hx,hy,hxy⟩ := ih
    rw [List.cons_append,splitOn,splitOn,hx,hxy]
    split
    · exact ⟨[] :: init,last,first,more,rfl,hy,rfl⟩
    · cases init with
      | nil => exact ⟨[],c :: last,first,more,rfl,hy,rfl⟩
      | cons piece init => exact ⟨(c :: piece) :: init,last,first,more,rfl,hy,rfl⟩

theorem head_splitOn {first : List Char} {more : List (List Char)} (h : splitOn sep x = first :: more) :
    first = [] ↔ x = [] ∨ x.head? = some sep := by
  cases x with
  | nil =>
    cases h
    simp
  | cons c x =>
    rw [splitOn] at h
    split at h
    · next hc =>
      cases h
      simpa using hc
    · next hc =>
      have hne : first ≠ [] := by
        rintro rfl
        split at h <;> cases h
      simpa [hne] using hc

theorem getLast_splitOn {init : List (List Char)} {last : List Char} (h : splitOn sep x = init ++ [last]) :
    last = [] ↔ x = [] ∨ x.getLast? = some sep := by
  cases hcut : cutLast? sep x with
  | none =>
    obtain ⟨hx,hsep⟩ := splitOn_of_cutLast?_none hcut
    have hone : [] ++ [x] = init ++ [last] := hx.symm.trans h
    obtain ⟨-,hlast⟩ := List.append_inj' hone rfl
    cases hlast
    have hno : x.getLast? ≠ some sep := fun hmem => hsep (List.mem_of_mem_getLast? hmem)
    simp [hno]
  | some parts =>
    obtain ⟨hx,rfl⟩ := splitOn_of_cutLast?_some hcut
    obtain ⟨-,hlast⟩ := List.append_inj' (hx.symm.trans h) rfl
    cases hlast
    have hmem : parts.2 ∈ splitOn sep (parts.1 ++ sep :: parts.2) := by simp [hx]
    have hsep : sep ∉ parts.2 := not_mem_of_mem_splitOn hmem
    rcases List.eq_nil_or_concat parts.2 with hnil | ⟨more,c,hmore⟩
    · simp [hnil]
    · rw [hmore,List.concat_eq_append] at hsep ⊢
      have hc : c ≠ sep := by
        rintro rfl
        simp at hsep
      simp [List.getLast?_cons,hc]

end Text

/-- Whether a name in the SQL has an empty segment: quoted, it is an empty identifier. -/
def Sql.Hollow (sql : Sql) : Prop := ∃ p, Token.path p ∈ sql ∧ "" ∈ p.segments

def Text.Segmented (item : List Char) : Prop := ∀ segment ∈ splitOn '.' item, ¬ Blanks segment

namespace Sql
variable {a b : Sql}

theorem hollow_append : (a ++ b).Hollow ↔ a.Hollow ∨ b.Hollow := by
  simp only [Hollow,List.mem_append,or_and_right,exists_or]

theorem not_hollow_text (t : String) : ¬ Hollow [.text t] := by
  rintro ⟨p,hp,-⟩
  simp at hp

theorem hollow_commas {parts : List Sql} : (commas parts).Hollow ↔ ∃ part ∈ parts, part.Hollow := by
  induction parts with
  | nil => simp [commas,join,Text.between,Hollow]
  | cons a parts ih =>
    cases parts with
    | nil => simp [commas,join,Text.between]
    | cons b parts =>
      have hcons : commas (a :: b :: parts) = a ++ [.text ", "] ++ commas (b :: parts) := rfl
      rw [hcons,hollow_append,hollow_append,ih,List.exists_mem_cons_iff]
      simp [not_hollow_text]

end Sql

namespace NameKind
open Text
variable {k : NameKind} {name : String} {a c item : List Char}

theorem hollow_quoted (h : '(' ∉ name.toList) : (k.quoted name).Hollow ↔ [] ∈ splitOn '.' name.toList := by
  have htable : "" ∈ (Path.ofTable name).segments ↔ [] ∈ splitOn '.' name.toList := by
    have hempty : ∀ piece : List Char, String.ofList piece = "" ↔ piece = [] := by simp
    simp [Path.ofTable,hempty]
  rw [quoted_eq h,← htable]
  have hpath : Sql.Hollow [.path (k.path name)] ↔ "" ∈ (k.path name).segments := by simp [Sql.Hollow]
  rw [hpath]
  cases k with
  | table => rfl
  | column =>
    rw [path,Path.ofColumn_eq]
    split
    · next hlast =>
      rw [← List.dropLast_append_getLast? _ hlast]
      simp
    · rfl

/-- A name is cut off empty, or it is cut next to a point. -/
def Hollowed (k : NameKind) (item : List Char) : Prop :=
  ∃ c a, k.cut? item = some (c,a) ∧ (c = [] ∨ c.getLast? = some '.' ∨ a = [] ∨ a.head? = some '.')

/-- The pieces of a name before the last are pieces of the item. -/
theorem empty_piece_before {rest : List Char} (h : Segmented (c ++ rest)) :
    [] ∈ splitOn '.' c ↔ c = [] ∨ c.getLast? = some '.' := by
  obtain ⟨init,last,first,more,hc,-,hitem⟩ := splitOn_append_pieces '.' c rest
  have hinit : [] ∉ init := by
    intro hmem
    exact h [] (by simp [hitem,hmem]) blanks_nil
  rw [hc,← getLast_splitOn hc]
  simp [hinit,eq_comm]

/-- The pieces of an alias behind the first are pieces of the item. -/
theorem empty_piece_behind {before line : List Char} (hline : Blanks line) (h : Segmented (before ++ (a ++ line))) :
    [] ∈ splitOn '.' a ↔ a = [] ∨ a.head? = some '.' := by
  obtain ⟨init,last,first,more,ha,hl,haline⟩ := splitOn_append_pieces '.' a line
  obtain ⟨init',last',first',more',-,hrest,hitem⟩ := splitOn_append_pieces '.' before (a ++ line)
  rw [splitOn_of_not_mem (hline.not_mem (by decide))] at hl
  cases hl
  cases init with
  | nil =>
    rw [ha,← head_splitOn ha]
    simp [eq_comm]
  | cons piece init =>
    rw [haline] at hrest
    cases hrest
    have hinit : [] ∉ init := by
      intro hmem
      exact h [] (by simp [hitem,hmem]) blanks_nil
    have hlast : last ≠ [] := by
      rintro rfl
      exact h line (by simp [hitem]) hline
    rw [ha,← head_splitOn ha]
    simp [hinit,eq_comm,hlast]

/-- Empty names come from a cut with nothing on one of its sides, or with a point there. -/
theorem hollow_aliased {item : String} (hparen : '(' ∉ item.toList) (h : Segmented item.toList) :
    (k.aliased item).Hollow ↔ k.Hollowed item.toList := by
  rw [aliased_eq hparen,Hollowed,naming]
  cases hcut : k.cut? item.toList with
  | none =>
    have hnil : [] ∉ splitOn '.' item.toList := fun hmem => h [] hmem blanks_nil
    simp [hollow_quoted hparen,hnil]
  | some cut =>
    obtain ⟨c,a⟩ := cut
    obtain ⟨rest,hs,htail,-⟩ := of_cutWhere? hcut
    obtain ⟨x,last,-,rfl,hlast⟩ := of_aliasTail? htail
    have hend : ∃ line, last = a ++ line ∧ Blanks line := by
      rcases (alias?_eq_some.mp hlast).2 with rfl | rfl
      · exact ⟨[],by simp,blanks_nil⟩
      · exact ⟨['\n'],rfl,by simp [Blanks,isBlank]⟩
    obtain ⟨line,rfl,hline⟩ := hend
    rw [hs] at h hparen
    have hc : '(' ∉ (String.ofList c).toList := by
      rw [String.toList_ofList]
      exact fun hmem => hparen (by simp [hmem])
    have ha : '(' ∉ (String.ofList a).toList := by
      rw [String.toList_ofList]
      exact fun hmem => hparen (by simp [hmem])
    have hname := empty_piece_before h
    rw [← List.append_assoc] at h
    have hlabel := empty_piece_behind hline h
    have hsplit : (.text k.separator :: k.quoted (String.ofList a) : Sql) =
        [.text k.separator] ++ k.quoted (String.ofList a) := rfl
    dsimp only [Option.elim_some]
    rw [hsplit,Sql.hollow_append,Sql.hollow_append,hollow_quoted hc,hollow_quoted ha,String.toList_ofList,
      String.toList_ofList,hname,hlabel]
    simp [Sql.not_hollow_text,or_assoc]

end NameKind

theorem Text.mem_between {α : Type} {x : α} {sep : List α} {pieces : List (List α)} (h : x ∈ between sep pieces) :
    x ∈ sep ∨ ∃ piece ∈ pieces, x ∈ piece := by
  induction pieces with
  | nil => simp [between] at h
  | cons piece more ih =>
    cases more with
    | nil => exact .inr ⟨piece,.head _,h⟩
    | cons next more =>
      have hcons : between sep (piece :: next :: more) = piece ++ sep ++ between sep (next :: more) := rfl
      rw [hcons,List.mem_append,List.mem_append] at h
      rcases h with (h | h) | h
      · exact .inr ⟨piece,.head _,h⟩
      · exact .inl h
      · obtain h | ⟨piece,hpiece,h⟩ := ih h
        · exact .inl h
        · exact .inr ⟨piece,.tail _ hpiece,h⟩

namespace Padded
open Text
variable {s : Setting} {item : String}

theorem exists_item (h : '(' ∉ item.toList) (hs : Segmented item.toList) :
    ∃ p : Padded, p.item = item ∧ p.bare = String.ofList (trim item.toList) := by
  obtain ⟨left,right,hleft,hright,hitem⟩ := exists_padding item.toList
  have hne : trim item.toList ≠ [] := by
    intro hnil
    rw [hnil,List.append_nil] at hitem
    have hblank : Blanks item.toList := hitem ▸ hleft.append hright
    have hone : splitOn '.' item.toList = [item.toList] := splitOn_of_not_mem (hblank.not_mem (by decide))
    exact hs item.toList (by simp [hone]) hblank
  have hplain : '(' ∉ trim item.toList := by
    intro hmem
    rw [hitem] at h
    exact h (by simp [hmem])
  refine ⟨⟨left,trim item.toList,right,hleft,hright,hne,trimmed_trim _,hplain⟩,?_,rfl⟩
  rw [Padded.item,← hitem,String.ofList_toList]

/-- In a comma-separated text the blanks around items are insignificant. -/
theorem readAll_commas (ps : List Padded) (h : ∀ p ∈ ps, ',' ∉ p.core) :
    Item.readAll (.text (String.ofList (between [','] (ps.map (fun p => p.item.toList))))) =
      pure (some (ps.map (fun p => .name p.bare))) := by
  have hitem : ∀ p : Padded, p.item.toList = p.left ++ p.core ++ p.right := fun p => String.toList_ofList
  have hparen : '(' ∉ between [','] (ps.map (fun p => p.item.toList)) := by
    intro hmem
    rcases mem_between hmem with hmem | ⟨piece,hpiece,hmem⟩
    · simp at hmem
    · obtain ⟨p,-,rfl⟩ := List.mem_map.mp hpiece
      exact p.item_plain hmem
  have hsplit : commaParts (between [','] (ps.map (fun p => p.item.toList))) = ps.map core := by
    cases ps with
    | nil => rfl
    | cons p ps =>
      have hpieces : ∀ piece ∈ (p :: ps).map (fun p => p.item.toList), ',' ∉ piece := by
        intro piece hpiece
        obtain ⟨p,hp,rfl⟩ := List.mem_map.mp hpiece
        have hleft : ',' ∉ p.left := p.left_blank.not_mem (by decide)
        have hright : ',' ∉ p.right := p.right_blank.not_mem (by decide)
        simp [hitem,hleft,h p hp,hright]
      have htrim : ∀ p : Padded, trim p.item.toList = p.core := by
        intro p
        rw [hitem,trim_padded p.left_blank p.right_blank p.trimmed]
      have hcores : ((p :: ps).map (fun p => p.item.toList)).map trim = (p :: ps).map core := by
        rw [List.map_map]
        exact List.map_congr_left (fun p _ => htrim p)
      rw [commaParts,splitOn_between (by simp) hpieces,hcores,List.filter_eq_self]
      intro part hpart
      obtain ⟨p,-,rfl⟩ := List.mem_map.mp hpart
      simpa using p.nonempty
  have hnames : names (String.ofList (between [','] (ps.map (fun p => p.item.toList)))) = ps.map bare := by
    rw [names,String.toList_ofList,hsplit,List.map_map]
    rfl
  rw [Item.readAll_text (by simpa using hparen),hnames,List.map_map]
  rfl

/-- What stands around an item is significant: in every dialect the item is written as without it if and only if it is
nothing, or one line feed behind an alias. So it is wherever items are written: among other items in the list of columns or
of tables, and as the table of a join. An empty name is written for an item, and in a list for one of its items, exactly if
the item is cut with nothing, or a point, next to the cut. In a comma-separated text the blanks around items are dropped. -/
theorem unseen_iff (s : Setting) (hd : s.dialect ∈ [.plain,.sqlite,.postgres,.mysql]) :
    (∀ item : String, '(' ∉ item.toList → Segmented item.toList →
      ∃ p : Padded, p.item = item ∧ p.bare = String.ofList (trim item.toList)) ∧
    (∀ (k : NameKind) (p : Padded),
      s.dialect.render (k.aliased p.item) = s.dialect.render (k.aliased p.bare) ↔ p.Unseen k) ∧
    (∀ (k : NameKind) (p : Padded) (q : Query) (before after : List Item) (d : Draft), Agree s (p.Unseen k)
      ((k.clause.compile s (k.clause.put (before ++ .name p.item :: after) q)).runOn d)
      ((k.clause.compile s (k.clause.put (before ++ .name p.bare :: after) q)).runOn d)) ∧
    (∀ (p : Padded) (d : Draft) (v w : Value) (keyword : String) (on : Value),
      Join.Written (d.view s) v ⟨keyword,p.item,on⟩ → Join.Written (d.view s) w ⟨keyword,p.bare,on⟩ →
      Agree s (p.Unseen .table) ((Join.compileEntry s v).runOn d) ((Join.compileEntry s w).runOn d)) ∧
    (∀ (k : NameKind) (item : String), '(' ∉ item.toList → Segmented item.toList →
      ((k.aliased item).Hollow ↔ k.Hollowed item.toList)) ∧
    (∀ (k : NameKind) (q : Query) (items : List String), items ≠ [] →
      ∃ sql, k.clause.compile s (k.clause.put (items.map .name) q) = pure sql ∧
        (sql.Hollow ↔ ∃ item ∈ items, (k.aliased item).Hollow)) ∧
    ∀ ps : List Padded, (∀ p ∈ ps, ',' ∉ p.core) →
      Item.readAll (.text (String.ofList (between [','] (ps.map (fun p => p.item.toList))))) =
        pure (some (ps.map (fun p => .name p.bare))) := by
  refine ⟨fun item h hs => exists_item h hs,fun k p => render_eq_iff hd k p,fun k p q before after d => ?_,?_,?_,?_,?_⟩
  · exact clause_agree hd k p q before after d
  · exact fun p d v w keyword on hv hw => join_agree hd p hv hw
  · exact fun k item h hs => NameKind.hollow_aliased h hs
  · intro k q items hne
    have hitems : k.clause.items (k.clause.put (items.map .name) q) = items.map .name := by cases k <;> rfl
    have hname : k.clause.name = k.aliased := by cases k <;> rfl
    refine ⟨_,ItemClause.compile_names hitems hne,?_⟩
    rw [Sql.hollow_append,Sql.hollow_commas,hname]
    simp [Sql.not_hollow_text]
  · exact readAll_commas

/-- A blank before a column, a line feed behind its alias, and a line feed behind the bare word `as` at a table. -/
theorem unseen_iff_sqlite :
    Dialect.sqlite ∈ [Dialect.plain,.sqlite,.postgres,.mysql] ∧
    Dialect.sqlite.render (Sql.aliasedColumn " id") ≠ Dialect.sqlite.render (Sql.aliasedColumn "id") ∧
    Dialect.sqlite.render (Sql.aliasedColumn "a b\n") = Dialect.sqlite.render (Sql.aliasedColumn "a b") ∧
    Dialect.sqlite.render (Sql.aliasedTable "t as\n") ≠ Dialect.sqlite.render (Sql.aliasedTable "t as") := by
  have hblank : Blanks [' '] := by simp [Blanks,isBlank]
  have hline : Blanks ['\n'] := by simp [Blanks,isBlank]
  have hnone : Blanks [] := blanks_nil
  let padded : Padded := ⟨[' '],"id".toList,[],hblank,hnone,by decide,by simp [Trimmed,isBlank],by decide⟩
  let column : Padded := ⟨[],"a b".toList,['\n'],hnone,hline,by decide,by simp [Trimmed,isBlank],by decide⟩
  let table : Padded := ⟨[],"t as".toList,['\n'],hnone,hline,by decide,by simp [Trimmed,isBlank],by decide⟩
  have hcolumn : NameKind.cut? .column "a b".toList = some (['a'],['b']) := by decide
  have htable : NameKind.cut? .table "t as".toList = some (['t'],['a','s']) := by decide
  have hunseen : column.Unseen .column := ⟨rfl,.inr ⟨rfl,['a'],['b'],hcolumn,fun h => by cases h.1⟩⟩
  have hseen : ¬ padded.Unseen .column := fun h => by cases h.1
  have hswallowed : NameKind.Swallowed .table table.core ['t'] ['a','s'] :=
    ⟨rfl,rfl,[' '],⟨by decide,hblank⟩,rfl⟩
  have hseen' : ¬ table.Unseen .table := by
    rintro ⟨-,h | ⟨-,c,a,hca,hno⟩⟩
    · cases h
    · cases htable.symm.trans hca
      exact hno hswallowed
  have hd : Dialect.sqlite ∈ [Dialect.plain,.sqlite,.postgres,.mysql] := by simp
  have hiff := (unseen_iff (Options.setting {} .sqlite) hd).2.1
  exact ⟨hd,fun h => hseen ((hiff .column padded).mp h),(hiff .column column).mpr hunseen,
    fun h => hseen' ((hiff .table table).mp h)⟩

/-- A blank before a column, and a blank behind a table. No segment is blank, and an empty name is written for each. -/
theorem padding_seen :
    let s := Options.setting {} .sqlite
    let q : Query := { columns := [.name " id"],tables := [.name "t "] }
    let bare : Query := { columns := [.name "id"],tables := [.name "t"] }
    (∀ item ∈ [" id","t "], '(' ∉ item.toList ∧ ∀ segment ∈ splitOn '.' item.toList, ¬ Blanks segment) ∧
    (∃ sql sql', Query.selectClause s q = pure sql ∧ Query.selectClause s bare = pure sql' ∧
      s.dialect.render sql = "SELECT \"\" AS \"id\"" ∧ s.dialect.render sql' = "SELECT \"id\"") ∧
    ∃ sql sql', Query.fromClause s q = pure sql ∧ Query.fromClause s bare = pure sql' ∧
      s.dialect.render sql = "FROM \"t\" \"\"" ∧ s.dialect.render sql' = "FROM \"t\"" := by
  have hid : splitOn '.' " id".toList = [" id".toList] := by decide
  have ht : splitOn '.' "t ".toList = ["t ".toList] := by decide
  intro s q bare
  refine ⟨?_,⟨_,_,rfl,rfl,by decide,by decide⟩,_,_,rfl,rfl,by decide,by decide⟩
  simp only [List.forall_mem_cons]
  refine ⟨⟨by decide,?_⟩,⟨by decide,?_⟩,fun _ h => absurd h List.not_mem_nil⟩
  · rw [hid]
    exact List.forall_mem_singleton.mpr (fun h => absurd (h 'i' (by decide)) (by decide))
  · rw [ht]
    exact List.forall_mem_singleton.mpr (fun h => absurd (h 't' (by decide)) (by decide))

end Padded

end SqlCompose
