import SqlCompose.Proofs.Cutting
import SqlCompose.Proofs.Entries
import SqlCompose.Proofs.Templates
import SqlCompose.Schema

/-! # The forms of column types

A type is a name, a name with a length, or a name with words behind it. A grammar describes what is read as which form, and
each form is resolved by one rule. A length replaces the part of a template that is in parentheses. If the template has
several such parts on a line, the length replaces all from the first to the last of them.
-/
namespace SqlCompose.ColumnType
open Text

variable {types : TypeMap} {c : Char} {t n size rest head x tail template : List Char}

/-! ## How types are written -/

structure IsName (n : List Char) : Prop where
  ne_nil : n ≠ []
  word : ∀ c ∈ n, isWordChar c

structure IsLength (size : List Char) : Prop where
  ne_nil : size ≠ []
  uncut : ')' ∉ size.tail

theorem isLength_of_not_mem (hne : size ≠ []) (h : ')' ∉ size) : IsLength size := ⟨hne,fun hmem => h (List.mem_of_mem_tail hmem)⟩

inductive Spelled : List Char → Written → Prop where
  | sized {n size rest : List Char} (hname : IsName n) (hsize : IsLength size) :
    Spelled (n ++ '(' :: size ++ ')' :: rest) (.sized n size rest)
  | modified {n rest : List Char} (hname : IsName n) (hrest : ∃ c ∈ rest.head?, isBlank c) :
    Spelled (n ++ rest) (.modified n rest)

theorem IsName.isEmpty (h : IsName n) : n.isEmpty = false := by simpa using h.ne_nil

theorem leading_sized (hname : IsName n) (size rest : List Char) : (n ++ '(' :: size ++ ')' :: rest).takeWhile isWordChar = n ∧
    (n ++ '(' :: size ++ ')' :: rest).dropWhile isWordChar = '(' :: (size ++ ')' :: rest) := by
  rw [List.append_assoc]
  exact takeWhile_append_of hname.word (by simp; decide)

theorem leading_modified (hname : IsName n) (hrest : ∃ c ∈ rest.head?, isBlank c) :
    (n ++ rest).takeWhile isWordChar = n ∧ (n ++ rest).dropWhile isWordChar = rest := by
  obtain ⟨c,hc,hblank⟩ := hrest
  refine takeWhile_append_of hname.word (fun d hd hword => not_isBlank_of_isWordChar hword ?_)
  rwa [Option.mem_unique hd hc]

theorem written_of_spelled {w : Written} (h : Spelled t w) : written t = w := by
  cases h with
  | @sized n size rest hname hsize =>
    obtain ⟨htake,hdrop⟩ := leading_sized hname size rest
    obtain ⟨hne,huncut⟩ := hsize
    cases size with
    | nil => exact absurd rfl hne
    | cons c size =>
      have hcut : cut? ')' (size ++ ')' :: rest) = some (size,rest) := cut?_append huncut
      unfold written sized?
      rw [htake,hdrop]
      simp [hname.isEmpty,hcut]
  | @modified n rest hname hrest =>
    obtain ⟨htake,hdrop⟩ := leading_modified hname hrest
    obtain ⟨c,hc,hblank⟩ := hrest
    cases rest with
    | nil => cases hc
    | cons d rest =>
      cases hc
      have hopening : c ≠ '(' := by
        rintro rfl
        exact absurd hblank (by decide)
      have hsized : sized? (n ++ c :: rest) = none := by
        unfold sized?
        rw [hdrop]
        dsimp only
        split
        · next hcons => exact absurd (List.cons.inj hcons).1 hopening
        · rfl
      have hmodified : modified? (n ++ c :: rest) = some (n,c :: rest) := by
        unfold modified?
        rw [htake,hdrop]
        simp [hname.isEmpty,hblank]
      unfold written
      rw [hsized,hmodified]

theorem Spelled.of_sized (h : Spelled t (.sized n size rest)) :
    IsName n ∧ IsLength size ∧ t = n ++ '(' :: size ++ ')' :: rest := by
  cases h with
  | sized hname hsize => exact ⟨hname,hsize,rfl⟩

theorem Spelled.of_modified (h : Spelled t (.modified n rest)) :
    IsName n ∧ (∃ c ∈ rest.head?, isBlank c) ∧ t = n ++ rest := by
  cases h with
  | modified hname hrest => exact ⟨hname,hrest,rfl⟩

theorem isName_takeWhile (h : (t.takeWhile isWordChar).isEmpty = false) : IsName (t.takeWhile isWordChar) where
  ne_nil := by simpa using h
  word _ hc := List.mem_takeWhile_imp hc

theorem spelled_of_sized? (h : sized? t = some (n,size,rest)) : Spelled t (.sized n size rest) := by
  have hall : t.takeWhile isWordChar ++ t.dropWhile isWordChar = t := List.takeWhile_append_dropWhile
  unfold sized? at h
  dsimp only at h
  split at h
  · next c more hdrop =>
    split at h
    · cases h
    · next hname =>
      obtain ⟨⟨inner,after⟩,hcut,heq⟩ := Option.map_eq_some_iff.mp h
      cases heq
      obtain ⟨hinner,rfl⟩ := cut?_eq_some_iff.mp hcut
      have hsized : Spelled (t.takeWhile isWordChar ++ '(' :: (c :: inner) ++ ')' :: after)
          (.sized (t.takeWhile isWordChar) (c :: inner) after) :=
        .sized (isName_takeWhile (by simpa using hname)) ⟨List.cons_ne_nil c inner,hinner⟩
      rw [hdrop] at hall
      simpa [hall] using hsized
  · cases h

theorem spelled_of_modified? (h : modified? t = some (n,rest)) : Spelled t (.modified n rest) := by
  have hall : t.takeWhile isWordChar ++ t.dropWhile isWordChar = t := List.takeWhile_append_dropWhile
  unfold modified? at h
  dsimp only at h
  split at h
  · next hparts =>
    cases h
    simp only [Bool.and_eq_true,Bool.not_eq_true'] at hparts
    obtain ⟨hname,hblank⟩ := hparts
    have hhead : ∃ c ∈ (t.dropWhile isWordChar).head?, isBlank c := by
      cases hc : (t.dropWhile isWordChar).head? with
      | none => simp [hc] at hblank
      | some c => exact ⟨c,rfl,by simpa [hc] using hblank⟩
    have hmodified := Spelled.modified (isName_takeWhile hname) hhead
    rwa [hall] at hmodified
  · cases h

/-- The grammar describes exactly what is read. -/
theorem written_eq_iff {w : Written} (hw : w ≠ .other) : written t = w ↔ Spelled t w := by
  refine ⟨fun h => ?_,written_of_spelled⟩
  unfold written at h
  split at h
  · next hsized =>
    cases h
    exact spelled_of_sized? hsized
  · split at h
    · next hmodified =>
      cases h
      exact spelled_of_modified? hmodified
    · exact absurd h.symm hw

theorem exists_run (h : ∃ c ∈ rest.head?, isBlank c) : ∃ w more, Run w ∧ rest = w ++ more := by
  obtain ⟨c,hc,hblank⟩ := h
  cases rest with
  | nil => cases hc
  | cons d rest =>
    cases hc
    refine ⟨[c],rest,⟨List.cons_ne_nil c [],fun d hd => ?_⟩,rfl⟩
    rwa [List.mem_singleton.mp hd]

/-! ## What the forms stand for -/

def physical (types : TypeMap) (t : List Char) : List Char := (resolveChars? types t).getD t

theorem resolve_toList (types : TypeMap) (text : String) : (resolve types text).toList = physical types text.toList := by
  unfold resolve resolve? physical
  cases resolveChars? types text.toList <;> simp

theorem resolve_eq_iff {text result : String} : resolve types text = result ↔ physical types text.toList = result.toList := by
  rw [← String.toList_inj,resolve_toList]

theorem template?_toList (types : TypeMap) (name : String) :
    template? types name.toList = (types.lookup name).map String.toList := by
  rw [template?,String.ofList_toList]

theorem physical_of_template (h : template? types t = some template) : physical types t = template := by
  simp [physical,resolveChars?,h]

theorem physical_sized (hkey : template? types t = none) (h : Spelled t (.sized n size rest)) :
    physical types t = ((template? types n).map (resize size · ++ rest)).getD t := by
  simp [physical,resolveChars?,hkey,written_of_spelled h]

theorem physical_modified (hkey : template? types t = none) (h : Spelled t (.modified n rest)) :
    physical types t = ((template? types n).map (· ++ rest)).getD t := by
  simp [physical,resolveChars?,hkey,written_of_spelled h]

/-- What is changed has a template itself or has one of the two forms with a name that has one. -/
theorem of_physical_ne (h : physical types t ≠ t) : (template? types t).isSome ∨
    ∃ n, (template? types n).isSome ∧ ((∃ size rest, Spelled t (.sized n size rest)) ∨ ∃ rest, Spelled t (.modified n rest)) := by
  cases hkey : template? types t with
  | some template => exact .inl rfl
  | none =>
    refine .inr ?_
    cases hw : written t with
    | sized n size rest =>
      have hspelled : Spelled t (.sized n size rest) := (written_eq_iff (by simp)).mp hw
      refine ⟨n,?_,.inl ⟨size,rest,hspelled⟩⟩
      cases hn : template? types n with
      | some template => rfl
      | none => exact absurd (by simp [physical_sized hkey hspelled,hn]) h
    | modified n rest =>
      have hspelled : Spelled t (.modified n rest) := (written_eq_iff (by simp)).mp hw
      refine ⟨n,?_,.inr ⟨rest,hspelled⟩⟩
      cases hn : template? types n with
      | some template => rfl
      | none => exact absurd (by simp [physical_modified hkey hspelled,hn]) h
    | other => exact absurd (by simp [physical,resolveChars?,hkey,hw]) h

/-- A type whose leading word stands for nothing is physical. -/
theorem physical_of_unknown (hkey : template? types t = none) (h : template? types (t.takeWhile isWordChar) = none) :
    physical types t = t := by
  by_contra hne
  obtain hsome | ⟨n,hn,⟨size,rest,hspelled⟩ | ⟨rest,hspelled⟩⟩ := of_physical_ne hne
  · rw [hkey] at hsome
    cases hsome
  · obtain ⟨hname,-,rfl⟩ := hspelled.of_sized
    rw [(leading_sized hname size rest).1] at h
    rw [h] at hn
    cases hn
  · obtain ⟨hname,hrest,rfl⟩ := hspelled.of_modified
    rw [(leading_modified hname hrest).1] at h
    rw [h] at hn
    cases hn

/-! ## Texts -/

section Texts
variable {text name size rest : String}

theorem template?_of_lookup {template : String} (h : types.lookup name = some template) :
    template? types name.toList = some template.toList := by
  rw [template?_toList,h]
  rfl

theorem template?_eq_none (h : types.lookup name = none) : template? types name.toList = none := by
  rw [template?_toList,h]
  rfl

theorem toList_brackets (head inner tail : String) : (head ++ "(" ++ inner ++ ")" ++ tail).toList =
    head.toList ++ '(' :: inner.toList ++ ')' :: tail.toList := by simp

theorem spelled_sized (hname : IsName name.toList) (hsize : IsLength size.toList) :
    Spelled (name ++ "(" ++ size ++ ")" ++ rest).toList (.sized name.toList size.toList rest.toList) := by
  rw [toList_brackets]
  exact .sized hname hsize

theorem spelled_modified {blanks : String} (hname : IsName name.toList) (hrun : Run blanks.toList) :
    Spelled (name ++ blanks ++ rest).toList (.modified name.toList (blanks ++ rest).toList) := by
  rw [String.append_assoc,String.toList_append]
  refine .modified hname ?_
  rw [String.toList_append]
  cases hb : blanks.toList with
  | nil => exact absurd hb hrun.ne_nil
  | cons c more => exact ⟨c,rfl,hrun.blanks c (hb ▸ .head _)⟩

/-- A name with a length whose template is known. -/
theorem resolve_sized {template : String} (hkey : types.lookup (name ++ "(" ++ size ++ ")" ++ rest) = none)
    (hname : IsName name.toList) (hsize : IsLength size.toList) (htemplate : types.lookup name = some template) :
    (resolve types (name ++ "(" ++ size ++ ")" ++ rest)).toList = resize size.toList template.toList ++ rest.toList := by
  rw [resolve_toList,physical_sized (template?_eq_none hkey) (spelled_sized hname hsize),template?_of_lookup htemplate]
  rfl

/-- A length that replaces the one part of the template that is in parentheses. -/
theorem resolve_brackets {head x tail : String} (hkey : types.lookup (name ++ "(" ++ size ++ ")" ++ rest) = none)
    (hname : IsName name.toList) (hsize : IsLength size.toList)
    (htemplate : types.lookup name = some (head ++ "(" ++ x ++ ")" ++ tail)) (hhead : '(' ∉ head.toList)
    (hx : x ≠ "" ∧ '\n' ∉ x.toList) (htail : ')' ∉ tail.toList) :
    resolve types (name ++ "(" ++ size ++ ")" ++ rest) = head ++ "(" ++ size ++ ")" ++ tail ++ rest := by
  rw [← String.toList_inj,resolve_sized hkey hname hsize htemplate,toList_brackets,
    resize_brackets hhead (by simpa using hx.1) hx.2 htail,String.toList_append,toList_brackets]

/-- A name whose template is known and words behind it. -/
theorem resolve_modified {blanks template : String} (hkey : types.lookup (name ++ blanks ++ rest) = none)
    (hname : IsName name.toList) (hrun : Run blanks.toList) (htemplate : types.lookup name = some template) :
    resolve types (name ++ blanks ++ rest) = template ++ blanks ++ rest := by
  refine resolve_eq_iff.mpr ?_
  rw [physical_modified (template?_eq_none hkey) (spelled_modified hname hrun),template?_of_lookup htemplate]
  simp

/-- What is changed, and has no template itself, is a name that has one with a length or words behind it. -/
theorem form_of_resolve_ne (hkey : types.lookup text = none) (h : resolve types text ≠ text) :
    ∃ n : String, IsName n.toList ∧ (types.lookup n).isSome ∧
      ((∃ size rest : String, IsLength size.toList ∧ text = n ++ "(" ++ size ++ ")" ++ rest) ∨
        ∃ blanks rest : String, Run blanks.toList ∧ text = n ++ blanks ++ rest) := by
  have hne : physical types text.toList ≠ text.toList := fun he => h (resolve_eq_iff.mpr he)
  obtain hsome | ⟨n,hn,⟨size,rest,hspelled⟩ | ⟨rest,hspelled⟩⟩ := of_physical_ne hne
  · rw [template?_eq_none hkey] at hsome
    cases hsome
  · obtain ⟨hname,hsize,htext⟩ := hspelled.of_sized
    refine ⟨String.ofList n,by simpa using hname,by simpa [template?] using hn,.inl ⟨String.ofList size,String.ofList rest,
      by simpa using hsize,?_⟩⟩
    rw [← String.toList_inj,htext,toList_brackets]
    simp
  · obtain ⟨hname,hrest,htext⟩ := hspelled.of_modified
    obtain ⟨w,more,hrun,rfl⟩ := exists_run hrest
    refine ⟨String.ofList n,by simpa using hname,by simpa [template?] using hn,.inr ⟨String.ofList w,String.ofList more,
      by simpa using hrun,?_⟩⟩
    rw [← String.toList_inj,htext]
    simp

theorem get?_texts (types : TypeMap) (name : String) :
    Entries.get? (.text name) (types.map (fun e => (.text e.1,.text e.2))) = (types.lookup name).map .text := by
  induction types with
  | nil => rfl
  | cons e types ih =>
    have hcons := Entries.field?_cons (t := name) (.text e.1,.text e.2) (types.map (fun e => (.text e.1,.text e.2)))
    rw [List.map_cons,List.lookup_cons]
    refine hcons.trans ?_
    by_cases he : e.1 = name
    · simp [he,Value.text?]
    · have hname : (name == e.1) = false := by simpa using Ne.symm he
      rw [if_neg (by simpa [Value.text?] using he),hname]
      exact ih

theorem filled_texts (types : TypeMap) (text : String) (n : List Char) (change : List Char → List Char) :
    filled (types.map (fun e => (.text e.1,.text e.2))) text n change =
      .ok (.text (((template? types n).map (fun template => String.ofList (change template))).getD text)) := by
  unfold filled template?
  rw [get?_texts]
  cases types.lookup (String.ofList n) <;> rfl

/-- A map of texts that is given as a mapping of values. -/
theorem resolveIn_texts (types : TypeMap) (text : String) :
    resolveIn (types.map (fun e => (.text e.1,.text e.2))) text = .ok (.text (resolve types text)) := by
  have hkey := template?_toList types text
  unfold resolveIn resolve resolve? resolveChars?
  rw [get?_texts]
  cases hlookup : types.lookup text with
  | some template =>
    rw [hlookup] at hkey
    simp [hkey]
  | none =>
    rw [hlookup] at hkey
    rw [hkey]
    dsimp only [Option.map_none]
    cases written text.toList with
    | sized n size rest => simp only [filled_texts,Option.map_map,Function.comp_def]
    | modified n rest => simp only [filled_texts,Option.map_map,Function.comp_def]
    | other => rfl

theorem columnType_text (types : TypeMap) (text : String) :
    Schema.columnType types (.text text) = pure (.text (resolve types text)) := by
  have hcolumn : Schema.columnType types (.text text) =
      pure (((resolve? types text).map Value.text).getD (.text text)) := rfl
  rw [hcolumn,resolve]
  cases resolve? types text <;> rfl

end Texts

/-- A type is resolved by exactly three forms: as a name that has a template; as a name with a length, where the length
replaces the one part of the template that is in parentheses and what stands behind follows; and as a name with words behind
it, which follow the template. All else stays as it is. A map that is given as a mapping of texts, and every schema
statement, resolve types in this way. -/
theorem forms_resolved (types : TypeMap) (text : String) :
    (∀ template, types.lookup text = some template → resolve types text = template) ∧
    (types.lookup text = none →
      (∀ n size rest : String, text = n ++ "(" ++ size ++ ")" ++ rest → IsName n.toList → size ≠ "" → ')' ∉ size.toList →
        (types.lookup n = none → resolve types text = text) ∧
        ∀ template, types.lookup n = some template →
          ('(' ∉ template.toList → resolve types text = template ++ rest) ∧
          ∀ head x tail : String, template = head ++ "(" ++ x ++ ")" ++ tail → '(' ∉ head.toList → ')' ∉ tail.toList →
            x ≠ "" → '\n' ∉ x.toList → resolve types text = head ++ "(" ++ size ++ ")" ++ tail ++ rest) ∧
      (∀ n blanks rest template : String, text = n ++ blanks ++ rest → IsName n.toList → Run blanks.toList →
        types.lookup n = some template → resolve types text = template ++ blanks ++ rest) ∧
      (types.lookup (String.ofList (text.toList.takeWhile isWordChar)) = none → resolve types text = text) ∧
      (resolve types text ≠ text → ∃ n : String, IsName n.toList ∧ (types.lookup n).isSome ∧
        ((∃ size rest : String, IsLength size.toList ∧ text = n ++ "(" ++ size ++ ")" ++ rest) ∨
          ∃ blanks rest : String, Run blanks.toList ∧ text = n ++ blanks ++ rest))) ∧
    resolveIn (types.map (fun e => (.text e.1,.text e.2))) text = .ok (.text (resolve types text)) ∧
    Schema.columnType types (.text text) = pure (.text (resolve types text)) := by
  refine ⟨fun template h => ?_,fun hkey => ⟨?_,?_,fun h => ?_,form_of_resolve_ne hkey⟩,resolveIn_texts types text,
    columnType_text types text⟩
  · exact resolve_eq_iff.mpr (physical_of_template (template?_of_lookup h))
  · rintro n size rest rfl hname hne huncut
    have hsize : IsLength size.toList := isLength_of_not_mem (by simpa using hne) huncut
    refine ⟨fun hn => ?_,fun template htemplate => ⟨fun hopening => ?_,?_⟩⟩
    · refine resolve_eq_iff.mpr ?_
      rw [physical_sized (template?_eq_none hkey) (spelled_sized hname hsize),template?_eq_none hn]
      rfl
    · rw [← String.toList_inj,resolve_sized hkey hname hsize htemplate,resize_of_no_opening hopening,String.toList_append]
    · rintro head x tail rfl hhead htail hx hline
      exact resolve_brackets hkey hname hsize htemplate hhead ⟨hx,hline⟩ htail
  · rintro n blanks rest template rfl hname hrun htemplate
    exact resolve_modified hkey hname hrun htemplate
  · refine resolve_eq_iff.mpr (physical_of_unknown (template?_eq_none hkey) ?_)
    rw [template?,h]
    rfl

/-- A length with a backslash and a line feed behind it, a template without parentheses, and a type with words that has a
tabulator. -/
theorem forms_resolved_samples :
    let types := [("string","varchar(255)"),("text","text")]
    resolve types "string" = "varchar(255)" ∧ resolve types "string(\\1)\nNULL" = "varchar(\\1)\nNULL" ∧
    resolve types "text(9) NULL" = "text NULL" ∧ resolve types "string\tNULL" = "varchar(255)\tNULL" ∧
    resolve types "char(3)" = "char(3)" ∧ resolve types "jsonb" = "jsonb" ∧
    ∃ n : String, IsName n.toList ∧ (types.lookup n).isSome ∧
      ((∃ size rest : String, IsLength size.toList ∧ "string\tNULL" = n ++ "(" ++ size ++ ")" ++ rest) ∨
        ∃ blanks rest : String, Run blanks.toList ∧ "string\tNULL" = n ++ blanks ++ rest) := by
  intro types
  have hstring : IsName "string".toList := ⟨by decide,List.all_eq_true.mp (by decide)⟩
  have htext : IsName "text".toList := ⟨by decide,List.all_eq_true.mp (by decide)⟩
  have hchar : IsName "char".toList := ⟨by decide,List.all_eq_true.mp (by decide)⟩
  have hblanks : Run "\t".toList := ⟨by decide,List.all_eq_true.mp (by decide)⟩
  obtain ⟨hsized,-⟩ := (forms_resolved types "string(\\1)\nNULL").2.1 (by decide)
  obtain ⟨hplain,-⟩ := (forms_resolved types "text(9) NULL").2.1 (by decide)
  obtain ⟨hunknown,-⟩ := (forms_resolved types "char(3)").2.1 (by decide)
  obtain ⟨-,hmodified,-,hform⟩ := (forms_resolved types "string\tNULL").2.1 (by decide)
  obtain ⟨-,-,hother,-⟩ := (forms_resolved types "jsonb").2.1 (by decide)
  refine ⟨(forms_resolved types "string").1 _ (by decide),?_,?_,?_,?_,hother (by decide),hform (by decide)⟩
  · exact ((hsized "string" "\\1" "\nNULL" (by decide) hstring (by decide) (by decide)).2 _ rfl).2 "varchar" "255" "" (by decide)
      (by decide) (by decide) (by decide) (by decide)
  · exact ((hplain "text" "9" " NULL" (by decide) htext (by decide) (by decide)).2 _ rfl).1 (by decide)
  · exact hmodified "string" "\t" "NULL" _ (by decide) hstring hblanks rfl
  · exact (hunknown "char" "3" "" (by decide) hchar (by decide) (by decide)).1 (by decide)

/-- Where a template has further parentheses behind its first part, a length replaces all up to the last closing one. So the
rest of the template is kept exactly if no parenthesis is closed in it. -/
theorem template_kept_iff {n head x tail size rest : String} (hname : IsName n.toList)
    (htemplate : types.lookup n = some (head ++ "(" ++ x ++ ")" ++ tail)) (hhead : '(' ∉ head.toList ∧ ')' ∉ head.toList)
    (hx : x ≠ "" ∧ '(' ∉ x.toList ∧ ')' ∉ x.toList ∧ '\n' ∉ x.toList) (htail : '\n' ∉ tail.toList)
    (hsize : size ≠ "" ∧ ')' ∉ size.toList) (hkey : types.lookup (n ++ "(" ++ size ++ ")" ++ rest) = none) :
    (resolve types (n ++ "(" ++ size ++ ")" ++ rest) = head ++ "(" ++ size ++ ")" ++ tail ++ rest ↔ ')' ∉ tail.toList) ∧
    ∀ lost kept : String, tail = lost ++ ")" ++ kept → ')' ∉ kept.toList →
      resolve types (n ++ "(" ++ size ++ ")" ++ rest) = head ++ "(" ++ size ++ ")" ++ kept ++ rest := by
  have hlength : IsLength size.toList := isLength_of_not_mem (by simpa using hsize.1) hsize.2
  have hlost : ∀ lost kept : String, tail = lost ++ ")" ++ kept → ')' ∉ kept.toList →
      resolve types (n ++ "(" ++ size ++ ")" ++ rest) = head ++ "(" ++ size ++ ")" ++ kept ++ rest := by
    rintro lost kept rfl hkept
    -- The part that is replaced goes on to the last closing parenthesis.
    have hwhole : head ++ "(" ++ x ++ ")" ++ (lost ++ ")" ++ kept) = head ++ "(" ++ (x ++ ")" ++ lost) ++ ")" ++ kept := by
      simp [String.append_assoc]
    rw [hwhole] at htemplate
    refine resolve_brackets hkey hname hlength htemplate hhead.1 ⟨fun h => ?_,?_⟩ hkept
    · simpa using congrArg String.toList h
    · simp at htail
      simp [hx,htail]
  refine ⟨⟨fun h hclosing => ?_,resolve_brackets hkey hname hlength htemplate hhead.1 ⟨hx.1,hx.2.2.2⟩⟩,hlost⟩
  obtain ⟨lost,kept,htext,hkept⟩ := exists_last hclosing
  have hsplit : tail = String.ofList lost ++ ")" ++ String.ofList kept := by
    rw [← String.toList_inj,htext]
    simp
  have hresolved := hlost (String.ofList lost) (String.ofList kept) hsplit (by simpa using hkept)
  rw [h,String.append_left_inj,String.append_right_inj] at hresolved
  rw [hresolved,String.toList_ofList] at hclosing
  exact hkept hclosing

/-- A template in which a parenthesis is closed behind its first part, and one in which none is. -/
theorem template_kept_iff_checked :
    let types := [("price","decimal(19,4) CHECK (price > 0) NOT NULL"),("name","varchar(255) DEFAULT x")]
    resolve types "price(8,2)" = "decimal(8,2) NOT NULL" ∧ resolve types "name(9) NULL" = "varchar(9) DEFAULT x NULL" := by
  intro types
  have hprice : IsName "price".toList := ⟨by decide,List.all_eq_true.mp (by decide)⟩
  have hname : IsName "name".toList := ⟨by decide,List.all_eq_true.mp (by decide)⟩
  have hchecked : types.lookup "price" = some ("decimal" ++ "(" ++ "19,4" ++ ")" ++ " CHECK (price > 0) NOT NULL") := rfl
  have hdefault : types.lookup "name" = some ("varchar" ++ "(" ++ "255" ++ ")" ++ " DEFAULT x") := rfl
  have hshort : types.lookup ("price" ++ "(" ++ "8,2" ++ ")" ++ "") = none := by decide
  have hlong : types.lookup ("name" ++ "(" ++ "9" ++ ")" ++ " NULL") = none := by decide
  obtain ⟨-,hlost⟩ := template_kept_iff hprice hchecked (by decide) (by decide) (by decide) (by decide) hshort
  obtain ⟨hkept,-⟩ := template_kept_iff hname hdefault (by decide) (by decide) (by decide) (by decide) hlong
  exact ⟨hlost " CHECK (price > 0" " NOT NULL" (by decide) (by decide),hkept.mpr (by decide)⟩

/-- A template that is a type with a check, and the length that is asked for: the check is lost. -/
theorem check_lost :
    let types := [("price","decimal" ++ "(" ++ "19,4" ++ ")" ++ " CHECK (price > 0)")]
    resolve types ("price" ++ "(" ++ "8,2" ++ ")" ++ "") = "decimal(8,2)" ∧
    resolve types ("price" ++ "(" ++ "8,2" ++ ")" ++ "") ≠ "decimal" ++ "(" ++ "8,2" ++ ")" ++ " CHECK (price > 0)" ++ "" := by
  decide

end SqlCompose.ColumnType
