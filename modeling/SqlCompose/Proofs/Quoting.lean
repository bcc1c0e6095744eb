import SqlCompose.Proofs.Spelling

/-! # Quoted names

A name is cut at its points, and what a dialect writes for it is read by the rule for quoted identifiers alone: an
opening quote, characters among which a doubled quote stands for one, and a closing quote. Reading uses up the whole
text and gives the segments of the name again, so no character of a name ends its identifier early.
-/
namespace SqlCompose

/-- The segments of a name: with points between them they are the name, and they have none inside. -/
structure IsCut (name : String) (segments : List String) : Prop where
  nonempty : segments ≠ []
  joined : ".".intercalate segments = name
  uncut : ∀ s ∈ segments, '.' ∉ s.toList

def Reader.name? (q : Char) : List Char → Option Path
  | [] => none
  | c :: rest =>
    if c = q then
      match segments? q (rest.length + 1) rest with
      | some ((segments,starred),[]) => some ⟨segments,starred⟩
      | _ => none
    else if c = '*' && rest.isEmpty then some ⟨[],true⟩
    else none

/-- The path that a dialect reads from a text by its own quote. -/
def Dialect.readName? (d : Dialect) (text : String) : Option Path := d.quote.bind (Reader.name? · text.toList)

/-! ## Cutting at the last point and at every point -/

namespace Text
variable {sep : Char} {cs before after : List Char}

theorem splitOn_of_cutLast?_none (h : cutLast? sep cs = none) : splitOn sep cs = [cs] ∧ sep ∉ cs := by
  induction cs with
  | nil => exact ⟨rfl,List.not_mem_nil⟩
  | cons c rest ih =>
    unfold cutLast? at h
    cases hr : cutLast? sep rest with
    | some p =>
      rw [hr] at h
      cases h
    | none =>
      rw [hr] at h
      obtain ⟨hsplit,hmem⟩ := ih hr
      have hc : (c == sep) = false := by
        cases hc : c == sep with
        | false => rfl
        | true =>
          dsimp only at h
          rw [hc] at h
          cases h
      have hne : sep ≠ c := by
        rintro rfl
        simp at hc
      refine ⟨?_,?_⟩
      · unfold splitOn
        rw [hc,hsplit]
        rfl
      · exact List.not_mem_cons_of_ne_of_not_mem hne hmem

theorem splitOn_of_cutLast?_some (h : cutLast? sep cs = some (before,after)) :
    splitOn sep cs = splitOn sep before ++ [after] ∧ cs = before ++ sep :: after := by
  induction cs generalizing before with
  | nil => cases h
  | cons c rest ih =>
    unfold cutLast? at h
    cases hr : cutLast? sep rest with
    | some p =>
      rw [hr] at h
      cases h
      obtain ⟨hsplit,hrest⟩ := ih hr
      refine ⟨?_,by rw [hrest]; rfl⟩
      rw [splitOn,splitOn,hsplit]
      by_cases hc : c == sep
      · rw [if_pos hc,if_pos hc]
        rfl
      · rw [if_neg hc,if_neg hc]
        cases hb : splitOn sep p.1 with
        | nil => exact absurd hb (splitOn_ne_nil sep p.1)
        | cons piece more => rfl
    | none =>
      rw [hr] at h
      dsimp only at h
      split at h
      · next hc =>
        cases h
        obtain ⟨hsplit,-⟩ := splitOn_of_cutLast?_none hr
        refine ⟨?_,by rw [eq_of_beq hc]; rfl⟩
        rw [splitOn.eq_def]
        dsimp only
        rw [if_pos hc,hsplit]
        rfl
      · cases h

/-- A text is its pieces with separators between them. -/
theorem between_splitOn (sep : Char) (cs : List Char) : between [sep] (splitOn sep cs) = cs := by
  induction cs with
  | nil => rfl
  | cons c rest ih =>
    unfold splitOn
    cases hs : splitOn sep rest with
    | nil => exact absurd hs (splitOn_ne_nil sep rest)
    | cons piece more =>
      rw [hs] at ih
      split
      · next hc =>
        rw [eq_of_beq hc]
        exact congrArg (sep :: ·) ih
      · dsimp only
        rw [← ih]
        cases more <;> rfl

theorem not_mem_of_mem_splitOn {piece : List Char} (h : piece ∈ splitOn sep cs) : sep ∉ piece := by
  induction cs generalizing piece with
  | nil =>
    rw [List.mem_singleton.mp h]
    exact List.not_mem_nil
  | cons c rest ih =>
    unfold splitOn at h
    split at h
    · rcases List.mem_cons.mp h with rfl | h
      · exact List.not_mem_nil
      · exact ih h
    · next hc =>
      have hne : sep ≠ c := by
        rintro rfl
        exact hc (beq_self_eq_true _)
      cases hs : splitOn sep rest with
      | nil => exact absurd hs (splitOn_ne_nil sep rest)
      | cons first more =>
        rw [hs] at h ih
        rcases List.mem_cons.mp h with rfl | h
        · exact List.not_mem_cons_of_ne_of_not_mem hne (ih (.head _))
        · exact ih (.tail _ h)

theorem splitOn_append {before after : List Char} (h : sep ∉ before) :
    splitOn sep (before ++ sep :: after) = before :: splitOn sep after := by
  induction before with
  | nil =>
    rw [List.nil_append,splitOn,if_pos (beq_self_eq_true sep)]
  | cons c before ih =>
    rw [List.mem_cons,not_or] at h
    have hc : (c == sep) = false := by simpa using Ne.symm h.1
    rw [List.cons_append,splitOn.eq_def]
    dsimp only
    rw [hc,ih h.2]
    rfl

theorem splitOn_of_not_mem {cs : List Char} (h : sep ∉ cs) : splitOn sep cs = [cs] := by
  cases hc : cutLast? sep cs with
  | none => exact (splitOn_of_cutLast?_none hc).1
  | some p =>
    obtain ⟨-,hcs⟩ := splitOn_of_cutLast?_some hc
    exact absurd (by rw [hcs]; simp) h

/-- Pieces without separators are found again. -/
theorem splitOn_between {pieces : List (List Char)} (hne : pieces ≠ []) (h : ∀ piece ∈ pieces, sep ∉ piece) :
    splitOn sep (between [sep] pieces) = pieces := by
  induction pieces with
  | nil => exact absurd rfl hne
  | cons piece more ih =>
    cases more with
    | nil => exact splitOn_of_not_mem (h piece (.head _))
    | cons next more =>
      have hmore := ih (by simp) (fun p hp => h p (.tail _ hp))
      have happ : between [sep] (piece :: next :: more) = piece ++ sep :: between [sep] (next :: more) := by
        simp [between]
      rw [happ,splitOn_append (h piece (.head _)),hmore]

end Text

namespace Path
variable {name : String} {segments : List String}

theorem intercalate_ofList (pieces : List (List Char)) :
    (".".intercalate (pieces.map String.ofList)).toList = Text.between ['.'] pieces := by
  induction pieces with
  | nil => rfl
  | cons piece more ih =>
    cases more with
    | nil => simp [Text.between]
    | cons next more =>
      simp only [List.map_cons] at ih ⊢
      rw [String.intercalate_cons_cons,String.toList_append,String.toList_append,ih]
      simp [Text.between]

theorem isCut_ofTable (name : String) : IsCut name (ofTable name).segments where
  nonempty h := splitOn_ne_nil _ _ (List.map_eq_nil_iff.mp h)
  joined := by
    apply String.toList_injective
    rw [ofTable,intercalate_ofList,Text.between_splitOn]
  uncut := by
    intro s hs
    obtain ⟨piece,hp,rfl⟩ := List.mem_map.mp hs
    rw [String.toList_ofList]
    exact Text.not_mem_of_mem_splitOn hp

/-- There is one way to cut a name. -/
theorem segments_ofTable (h : IsCut name segments) : (ofTable name).segments = segments := by
  have hpieces : name.toList = Text.between ['.'] (segments.map String.toList) := by
    rw [← h.joined,← intercalate_ofList]
    simp
  have hsplit : Text.splitOn '.' name.toList = segments.map String.toList := by
    rw [hpieces]
    refine Text.splitOn_between (by simpa using h.nonempty) (fun piece hp => ?_)
    obtain ⟨s,hs,rfl⟩ := List.mem_map.mp hp
    exact h.uncut s hs
  simp [ofTable,hsplit]

/-- The path of a column is the path of a table, except for a star in the last place. -/
theorem ofColumn_eq (name : String) : ofColumn name =
    if (ofTable name).segments.getLast? = some "*" then ⟨(ofTable name).segments.dropLast,true⟩ else ofTable name := by
  unfold ofColumn
  split
  · next table hc =>
    obtain ⟨hs,-⟩ := Text.splitOn_of_cutLast?_some hc
    have hstar : String.ofList ['*'] = "*" := rfl
    simp [ofTable,hs,hstar]
  · next before hb hc =>
    obtain ⟨table,after⟩ := before
    obtain ⟨hs,-⟩ := Text.splitOn_of_cutLast?_some hc
    have hne : String.ofList after ≠ "*" := by
      intro h
      have : after = ['*'] := by rw [← String.toList_ofList (l := after),h]; rfl
      exact hb table (by rw [this])
    rw [if_neg]
    simpa [ofTable,hs] using hne
  · next hc =>
    obtain ⟨hs,-⟩ := Text.splitOn_of_cutLast?_none hc
    by_cases h : name = "*"
    · subst h
      rfl
    · simp [ofTable,hs,h]

end Path

/-! ## Reading names back -/

namespace Dialect
variable {d : Dialect} {q : Char}

theorem readName?_renderPath (hd : d.quote = some q) (hq : IsQuote q) {p : Path} (hp : p.Proper) :
    d.readName? (d.renderPath p) = some p := by
  have hstar : '*' ≠ q := by
    rcases hq with rfl | rfl <;> decide
  obtain ⟨segments,starred⟩ := p
  rw [readName?,hd,Option.bind_some,renderPath_toList hd hp,pathChars]
  by_cases hs : segments = []
  · subst hs
    cases hp rfl
    rw [if_pos rfl,Reader.name?,if_neg hstar]
    rfl
  · have hlength : segments.length ≤ (pathRest q starred segments).length + 1 :=
      Nat.le_succ_of_le (length_le_pathRest q starred segments)
    have hend : EndsColumn q [] := ends_nil.column hq
    have hread : Reader.segments? q ((pathRest q starred segments).length + 1) (pathRest q starred segments) =
        some ((segments,starred),[]) := by
      rw [← segments?_append hq hend hs hlength,List.append_nil]
    rw [if_neg hs,Reader.name?,if_pos rfl,hread]

theorem render_path (p : Path) : d.render [.path p] = d.renderPath p := by
  apply String.toList_injective
  rw [render_toList,chars_cons,chars_nil,List.append_nil,renderToken]

end Dialect

namespace Sql
variable {name : String}

theorem table_of_not_mem (h : '(' ∉ name.toList) : table name = [.path (.ofTable name)] := by
  rw [table,isExpression,Text.hasChar,if_neg]
  simpa using h

theorem column_of_not_mem (h : '(' ∉ name.toList) : column name = [.path (.ofColumn name)] := by
  rw [column,isExpression,Text.hasChar,if_neg]
  simpa using h

end Sql

/-- The quotes of the dialects that quote. -/
theorem Dialect.exists_quote {d : Dialect} (hd : d ∈ [sqlite,postgres,mysql]) : ∃ q, d.quote = some q ∧ IsQuote q := by
  simp only [List.mem_cons,List.not_mem_nil,or_false] at hd
  rcases hd with rfl | rfl | rfl
  · exact ⟨_,rfl,.inl rfl⟩
  · exact ⟨_,rfl,.inl rfl⟩
  · exact ⟨_,rfl,.inr rfl⟩

def Path.ofSegments (segments : List String) : Path :=
  if segments.getLast? = some "*" then ⟨segments.dropLast,true⟩ else ⟨segments,false⟩

theorem Path.ofSegments_inj {a b : List String} (h : ofSegments a = ofSegments b) : a = b := by
  have hstar : ∀ {l : List String}, l.getLast? = some "*" → l = l.dropLast ++ ["*"] :=
    fun hl => (List.dropLast_append_getLast? _ hl).symm
  unfold ofSegments at h
  split at h <;> split at h <;> obtain ⟨hs,ht⟩ := Path.mk.inj h
  · next ha hb => rw [hstar ha,hstar hb,hs]
  · cases ht
  · cases ht
  · exact hs

/-- Names are written so that they can be decoded. Read by the quote of its dialect, what stands for a table gives the
segments of its name, and so does what stands for a column, except that a last segment `*` stays bare; else both are
written alike. Hence no two tables are written alike, and no two columns. -/
theorem quoted_names_decode {d : Dialect} (hd : d ∈ [Dialect.sqlite,Dialect.postgres,Dialect.mysql]) :
    (∀ name : String, ∃ segments, IsCut name segments) ∧
    (∀ (name : String) (segments : List String), '(' ∉ name.toList → IsCut name segments →
      d.readName? (d.render (Sql.table name)) = some ⟨segments,false⟩ ∧
      d.readName? (d.render (Sql.column name)) = some (Path.ofSegments segments) ∧
      (segments.getLast? ≠ some "*" → d.render (Sql.column name) = d.render (Sql.table name))) ∧
    (∀ a b : String, '(' ∉ a.toList → '(' ∉ b.toList → d.render (Sql.table a) = d.render (Sql.table b) → a = b) ∧
    (∀ a b : String, '(' ∉ a.toList → '(' ∉ b.toList → d.render (Sql.column a) = d.render (Sql.column b) → a = b) := by
  obtain ⟨q,hquote,hq⟩ := Dialect.exists_quote hd
  have htable : ∀ name, '(' ∉ name.toList →
      d.readName? (d.render (Sql.table name)) = some ⟨(Path.ofTable name).segments,false⟩ := by
    intro name h
    rw [Sql.table_of_not_mem h,Dialect.render_path,Dialect.readName?_renderPath hquote hq (proper_ofTable name)]
    rfl
  have hcolumn : ∀ name, '(' ∉ name.toList →
      d.readName? (d.render (Sql.column name)) = some (Path.ofSegments (Path.ofTable name).segments) := by
    intro name h
    rw [Sql.column_of_not_mem h,Dialect.render_path,Dialect.readName?_renderPath hquote hq (proper_ofColumn name),
      Path.ofColumn_eq]
    rfl
  have hsame : ∀ a b, (Path.ofTable a).segments = (Path.ofTable b).segments → a = b := by
    intro a b h
    rw [← (Path.isCut_ofTable a).joined,h,(Path.isCut_ofTable b).joined]
  refine ⟨fun name => ⟨_,Path.isCut_ofTable name⟩,?_,?_,?_⟩
  · intro name segments h hcut
    have hs := Path.segments_ofTable hcut
    refine ⟨hs ▸ htable name h,hs ▸ hcolumn name h,fun hlast => ?_⟩
    rw [Sql.column_of_not_mem h,Sql.table_of_not_mem h,Path.ofColumn_eq,hs,if_neg hlast]
  · intro a b ha hb h
    have hread := (htable a ha).symm.trans ((congrArg d.readName? h).trans (htable b hb))
    exact hsame a b (Path.mk.inj (Option.some.inj hread)).1
  · intro a b ha hb h
    have hread := (hcolumn a ha).symm.trans ((congrArg d.readName? h).trans (hcolumn b hb))
    exact hsame a b (Path.ofSegments_inj (Option.some.inj hread))

/-- A doubled backquote, an empty segment and a star. -/
theorem quoted_names_decode_starred :
    Dialect.mysql ∈ [Dialect.sqlite,Dialect.postgres,Dialect.mysql] ∧ IsCut "a\x60b..*" ["a\x60b","","*"] ∧
      Dialect.mysql.readName? (Dialect.mysql.render (Sql.column "a\x60b..*")) = some ⟨["a\x60b",""],true⟩ := by
  have hcut : IsCut "a\x60b..*" ["a\x60b","","*"] := ⟨by decide,by decide,by decide⟩
  refine ⟨by simp,hcut,?_⟩
  exact ((quoted_names_decode (by simp)).2.1 _ _ (by decide) hcut).2.1

end SqlCompose
