import SqlCompose.Proofs.Cutting
import SqlCompose.Proofs.Quoting

/-! # Comma-separated texts

A text lists items if each part between its commas is an item with blanks around it or blanks alone. The items of a text
are found again, whatever blanks and empty parts stand between them, and every text lists the items that are found in it.
-/
namespace SqlCompose.Text

variable {c : Char} {s w part rest item left right : List Char} {items more pieces : List (List Char)}

inductive Part : List Char → List (List Char) → Prop where
  | blank {w : List Char} (hw : Blanks w) : Part w []
  | item {left item right : List Char} (hl : Blanks left) (hr : Blanks right) : Part (left ++ item ++ right) [item]

/-- A text that lists these items, commas between its parts. -/
inductive Lists : List Char → List (List Char) → Prop where
  | last {part : List Char} {items : List (List Char)} (h : Part part items) : Lists part items
  | cons {part rest : List Char} {items more : List (List Char)} (h : Part part items) (hrest : Lists rest more) :
    Lists (part ++ ',' :: rest) (items ++ more)

structure IsItem (item : List Char) : Prop where
  ne_nil : item ≠ []
  uncut : ',' ∉ item
  trimmed : Trimmed item

/-! ## Blanks around a text -/

theorem Blanks.append (hl : Blanks left) (hr : Blanks right) : Blanks (left ++ right) := by
  intro c hc
  rcases List.mem_append.mp hc with hc | hc
  · exact hl c hc
  · exact hr c hc

theorem trim_padded (hl : Blanks left) (hr : Blanks right) (h : Trimmed item) : trim (left ++ item ++ right) = item := by
  have hright : trimRight (item ++ right) = item := by
    unfold trimRight
    rw [List.reverse_append,List.dropWhile_append_of_pos (fun c hc => hr c (List.mem_reverse.mp hc))]
    cases he : item.reverse with
    | nil => simpa using he.symm
    | cons c more =>
      have hlast : c ∈ item.getLast? := by simp [List.getLast?_eq_head?_reverse,he]
      rw [List.dropWhile_cons_of_neg (h.2 c hlast),← he,List.reverse_reverse]
  unfold trim
  rw [List.append_assoc,trimLeft_append hl]
  cases item with
  | nil =>
    have hnil : trimLeft ([] ++ right) = [] := by
      rw [List.nil_append,← List.append_nil right,trimLeft_append hr]
      rfl
    rw [hnil]
    rfl
  | cons c more => rw [trimLeft_eq_self (fun d hd => h.1 d (by simpa using hd)),hright]

theorem trim_blanks (hw : Blanks w) : trim w = [] := by
  have h : trim (w ++ [] ++ []) = [] := trim_padded hw nofun ⟨nofun,nofun⟩
  simpa using h

/-- A text is what is left of it without the blanks around it, and these blanks. -/
theorem exists_padding (s : List Char) : ∃ left right, Blanks left ∧ Blanks right ∧ s = left ++ trim s ++ right := by
  have hleft : s.takeWhile isBlank ++ trimLeft s = s := List.takeWhile_append_dropWhile
  have hright : trim s ++ (trimLeft s).rtakeWhile isBlank = trimLeft s := List.rdropWhile_append_rtakeWhile
  refine ⟨s.takeWhile isBlank,(trimLeft s).rtakeWhile isBlank,fun c hc => List.mem_takeWhile_imp hc,
    fun c hc => List.mem_rtakeWhile_imp hc,?_⟩
  rw [List.append_assoc,hright,hleft]

/-! ## The items of a text -/

theorem commaParts_append (h : ',' ∉ part) : commaParts (part ++ ',' :: rest) = commaParts part ++ commaParts rest := by
  unfold commaParts
  rw [splitOn_append h,splitOn_of_not_mem h,List.map_cons,List.map_singleton,← List.singleton_append,List.filter_append]

theorem commaParts_of_part (h : Part part items) (hi : ∀ i ∈ items, IsItem i) :
    ',' ∉ part ∧ commaParts part = items := by
  cases h with
  | blank hw =>
    have hcomma : ',' ∉ part := hw.not_mem (by decide)
    refine ⟨hcomma,?_⟩
    unfold commaParts
    rw [splitOn_of_not_mem hcomma,List.map_singleton,trim_blanks hw]
    rfl
  | @item left item right hl hr =>
    have hitem := hi item (.head _)
    have hcomma : ',' ∉ left ++ item ++ right := by
      simp only [List.mem_append,not_or]
      exact ⟨⟨hl.not_mem (by decide),hitem.uncut⟩,hr.not_mem (by decide)⟩
    have hne : (!item.isEmpty) = true := by simpa using hitem.ne_nil
    refine ⟨hcomma,?_⟩
    unfold commaParts
    rw [splitOn_of_not_mem hcomma,List.map_singleton,trim_padded hl hr hitem.trimmed,List.filter_singleton,hne]
    rfl

theorem commaParts_of_lists (h : Lists s items) (hi : ∀ i ∈ items, IsItem i) : commaParts s = items := by
  induction h with
  | last h => exact (commaParts_of_part h hi).2
  | cons h _ ih =>
    obtain ⟨hitems,hmore⟩ := List.forall_mem_append.mp hi
    obtain ⟨hcomma,hpart⟩ := commaParts_of_part h hitems
    rw [commaParts_append hcomma,hpart,ih hmore]

theorem part_of_piece (piece : List Char) : Part piece (([piece].map trim).filter (fun part => !part.isEmpty)) := by
  obtain ⟨left,right,hl,hr,hpiece⟩ := exists_padding piece
  rw [List.map_singleton,List.filter_singleton]
  cases he : trim piece with
  | nil =>
    rw [he,List.append_nil] at hpiece
    exact hpiece ▸ .blank (hl.append hr)
  | cons c more =>
    have hitem : Part (left ++ (c :: more) ++ right) [c :: more] := .item hl hr
    rwa [← he,← hpiece,he] at hitem

theorem lists_between (hne : pieces ≠ []) :
    Lists (between [','] pieces) ((pieces.map trim).filter (fun part => !part.isEmpty)) := by
  induction pieces with
  | nil => exact absurd rfl hne
  | cons piece more ih =>
    cases more with
    | nil => exact .last (part_of_piece piece)
    | cons next more =>
      have hcons := Lists.cons (part_of_piece piece) (ih (by simp))
      rw [← List.filter_append,← List.map_append] at hcons
      have htext : between [','] (piece :: next :: more) = piece ++ ',' :: between [','] (next :: more) := by
        simp [between]
      rwa [htext]

theorem isItem_of_mem_commaParts (h : item ∈ commaParts s) : IsItem item := by
  obtain ⟨hmem,hne⟩ := List.mem_filter.mp h
  obtain ⟨piece,hpiece,rfl⟩ := List.mem_map.mp hmem
  refine ⟨by simpa using hne,fun hc => ?_,trimmed_trim piece⟩
  obtain ⟨left,right,-,-,hsplit⟩ := exists_padding piece
  refine not_mem_of_mem_splitOn hpiece ?_
  rw [hsplit]
  simp [hc]

/-- The items that are found in a text are those that it lists. -/
theorem commaParts_eq_iff : commaParts s = items ↔ Lists s items ∧ ∀ i ∈ items, IsItem i := by
  constructor
  · rintro rfl
    have hlists := lists_between (splitOn_ne_nil ',' s)
    rw [between_splitOn] at hlists
    exact ⟨hlists,fun i hi => isItem_of_mem_commaParts hi⟩
  · rintro ⟨h,hi⟩
    exact commaParts_of_lists h hi

theorem names_eq_iff {text : String} {l : List String} :
    names text = l ↔ Lists text.toList (l.map String.toList) ∧ ∀ n ∈ l, IsItem n.toList := by
  rw [← List.forall_mem_map,← commaParts_eq_iff,names]
  constructor
  · rintro rfl
    simp
  · intro h
    simp [h]

end SqlCompose.Text
