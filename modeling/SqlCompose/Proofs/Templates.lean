import SqlCompose.ColumnType
import SqlCompose.Proofs.Quoting

/-! # Lengths in templates

A length replaces what stands between the first opening and the last closing parenthesis on each line of a template. What
stands before the first opening parenthesis of all is kept, and so is every line on which no parenthesis is closed.
-/
namespace SqlCompose

/-! ## Cutting at the first and at the last separator -/

namespace Text
variable {sep : Char} {s before after piece : List Char}

theorem cut?_append (h : sep ∉ before) : cut? sep (before ++ sep :: after) = some (before,after) := by
  induction before with
  | nil => simp [cut?]
  | cons c before ih =>
    rw [List.mem_cons,not_or] at h
    have hc : (c == sep) = false := by simpa using Ne.symm h.1
    simp [cut?,hc,ih h.2]

theorem cut?_eq_none (h : sep ∉ s) : cut? sep s = none := by
  induction s with
  | nil => rfl
  | cons c s ih =>
    rw [List.mem_cons,not_or] at h
    have hc : (c == sep) = false := by simpa using Ne.symm h.1
    simp [cut?,hc,ih h.2]

theorem cut?_eq_some_iff : cut? sep s = some (before,after) ↔ sep ∉ before ∧ s = before ++ sep :: after := by
  constructor
  · intro h
    by_cases hs : sep ∈ s
    · obtain ⟨first,rest,rfl,hfirst⟩ := List.eq_append_cons_of_mem hs
      rw [cut?_append hfirst] at h
      cases h
      exact ⟨hfirst,rfl⟩
    · rw [cut?_eq_none hs] at h
      cases h
  · rintro ⟨h,rfl⟩
    exact cut?_append h

theorem cutLast?_eq_none (h : sep ∉ s) : cutLast? sep s = none := by
  cases hc : cutLast? sep s with
  | none => rfl
  | some p =>
    obtain ⟨-,hs⟩ := splitOn_of_cutLast?_some hc
    exact absurd (by rw [hs]; simp) h

theorem cutLast?_append (h : sep ∉ after) : cutLast? sep (before ++ sep :: after) = some (before,after) := by
  induction before with
  | nil => simp [cutLast?,cutLast?_eq_none h]
  | cons c before ih => simp [cutLast?,ih]

theorem exists_last (h : sep ∈ s) : ∃ before after, s = before ++ sep :: after ∧ sep ∉ after := by
  obtain ⟨after,before,hreverse,hafter⟩ := List.eq_append_cons_of_mem (List.mem_reverse.mpr h)
  refine ⟨before.reverse,after.reverse,?_,by simpa using hafter⟩
  simpa using congrArg List.reverse hreverse

theorem subset_of_mem_splitOn (h : piece ∈ splitOn sep s) : piece ⊆ s := by
  induction s generalizing piece with
  | nil => simp_all [splitOn]
  | cons c s ih =>
    unfold splitOn at h
    split at h
    · rcases List.mem_cons.mp h with rfl | h
      · exact List.nil_subset _
      · exact List.subset_cons_of_subset _ (ih h)
    · cases hs : splitOn sep s with
      | nil => exact absurd hs (splitOn_ne_nil sep s)
      | cons first more =>
        rw [hs] at h ih
        rcases List.mem_cons.mp h with rfl | h
        · exact List.cons_subset_cons _ (ih (.head _))
        · exact List.subset_cons_of_subset _ (ih (.tail _ h))

end Text

namespace ColumnType
open Text

variable {types : TypeMap} {c : Char} {t n size rest line head x tail template : List Char}

/-! ## Lengths in templates -/

theorem resizeLine_of_no_closing (h : ')' ∉ line) : resizeLine size line = line := by
  unfold resizeLine
  split
  · rfl
  · next inner hcut =>
    obtain ⟨-,rfl⟩ := cut?_eq_some_iff.mp hcut
    have hinner : ')' ∉ inner := fun hmem => h (by simp [hmem])
    rw [cutLast?_eq_none hinner]

theorem resizeLine_brackets (hx : x ≠ []) (htail : ')' ∉ tail) :
    resizeLine size ('(' :: x ++ ')' :: tail) = '(' :: size ++ ')' :: tail := by
  have hcut : cut? '(' ('(' :: x ++ ')' :: tail) = some ([],x ++ ')' :: tail) := by simp [cut?]
  unfold resizeLine
  rw [hcut]
  dsimp only
  rw [cutLast?_append htail]
  cases x with
  | nil => exact absurd rfl hx
  | cons c x => simp

theorem resize_of_line (h : '\n' ∉ line) : resize size line = resizeLine size line := by
  rw [resize,splitOn_of_not_mem h]
  rfl

/-- The first line is resized on its own. -/
theorem resize_append_line (h : '\n' ∉ line) :
    resize size (line ++ '\n' :: rest) = resizeLine size line ++ '\n' :: resize size rest := by
  unfold resize
  rw [splitOn_append h,List.map_cons]
  cases hs : splitOn '\n' rest with
  | nil => exact absurd hs (splitOn_ne_nil _ _)
  | cons first more => simp [between]

theorem resize_of_no_closing (h : ')' ∉ t) : resize size t = t := by
  have hkept : ∀ line ∈ splitOn '\n' t, resizeLine size line = id line :=
    fun line hline => resizeLine_of_no_closing (fun hc => h (subset_of_mem_splitOn hline hc))
  rw [resize,List.map_congr_left hkept,List.map_id,between_splitOn]

theorem resizeLine_cons (h : c ≠ '(') : resizeLine size (c :: line) = c :: resizeLine size line := by
  have hc : (c == '(') = false := by simpa using h
  simp only [resizeLine,cut?,hc,Bool.false_eq_true,if_false]
  cases cut? '(' line with
  | none => rfl
  | some p =>
    dsimp only [Option.map_some]
    split
    · rfl
    · rfl
    · rfl

theorem resize_cons (h : c ≠ '(') : resize size (c :: t) = c :: resize size t := by
  by_cases hc : c = '\n'
  · rw [hc]
    have hempty : '\n' ∉ ([] : List Char) := List.not_mem_nil
    exact resize_append_line hempty
  · unfold resize
    rw [splitOn,if_neg (by simpa using hc)]
    cases hs : splitOn '\n' t with
    | nil => exact absurd hs (splitOn_ne_nil _ _)
    | cons first more =>
      simp only [List.map_cons,resizeLine_cons h]
      cases more <;> rfl

/-- What stands before the first opening parenthesis is kept. -/
theorem resize_append (h : '(' ∉ head) : resize size (head ++ t) = head ++ resize size t := by
  induction head with
  | nil => rfl
  | cons c head ih =>
    rw [List.mem_cons,not_or] at h
    rw [List.cons_append,resize_cons (Ne.symm h.1),ih h.2,List.cons_append]

theorem resize_of_no_opening (h : '(' ∉ t) : resize size t = t := by
  have happ : resize size (t ++ []) = t ++ resize size [] := resize_append h
  rwa [List.append_nil,resize_of_no_closing List.not_mem_nil,List.append_nil] at happ

theorem resizeLine_opening (size line : List Char) : ∃ more, resizeLine size ('(' :: line) = '(' :: more := by
  have hcut : cut? '(' ('(' :: line) = some ([],line) := by simp [cut?]
  unfold resizeLine
  rw [hcut]
  dsimp only
  split
  · exact ⟨line,rfl⟩
  · exact ⟨line,rfl⟩
  · exact ⟨_,rfl⟩

/-- A length does not change what a template starts with. -/
theorem head?_resize (size t : List Char) : (resize size t).head? = t.head? := by
  cases t with
  | nil => rfl
  | cons c t =>
    by_cases hc : c = '('
    · rw [hc]
      by_cases hbreak : '\n' ∈ t
      · obtain ⟨first,rest,rfl,hfirst⟩ := List.eq_append_cons_of_mem hbreak
        obtain ⟨more,hmore⟩ := resizeLine_opening size first
        have hline : '\n' ∉ '(' :: first := by simp [hfirst]
        rw [← List.cons_append,resize_append_line hline,hmore]
        rfl
      · obtain ⟨more,hmore⟩ := resizeLine_opening size t
        rw [resize_of_line (by simp [hbreak]),hmore]
        rfl
    · rw [resize_cons hc]
      rfl

/-- A part in parentheses on one line, with no parenthesis closed behind it, is replaced, and all else is kept. -/
theorem resize_brackets (hhead : '(' ∉ head) (hx : x ≠ []) (hline : '\n' ∉ x) (htail : ')' ∉ tail) :
    resize size (head ++ '(' :: x ++ ')' :: tail) = head ++ '(' :: size ++ ')' :: tail := by
  rw [List.append_assoc,resize_append hhead,List.append_assoc]
  congr 1
  by_cases hbreak : '\n' ∈ tail
  · obtain ⟨first,rest,rfl,hfirst⟩ := List.eq_append_cons_of_mem hbreak
    have hline : '\n' ∉ '(' :: x ++ ')' :: first := by simp [hline,hfirst]
    have hclosing : ')' ∉ first ∧ ')' ∉ rest := by simpa using htail
    have hsplit : '(' :: x ++ ')' :: (first ++ '\n' :: rest) = ('(' :: x ++ ')' :: first) ++ '\n' :: rest := by simp
    rw [hsplit,resize_append_line hline,resizeLine_brackets hx hclosing.1,resize_of_no_closing hclosing.2]
    simp
  · rw [resize_of_line (by simp [hline,hbreak]),resizeLine_brackets hx htail]

end ColumnType

end SqlCompose
