import SqlCompose.Proofs.LiteralPlaces
import SqlCompose.Proofs.Quoting

/-! # SQL as a format

Where placeholders are conversions in percent style, a driver reads the whole text as a format, without regard to quotes: a
percent sign begins a conversion or doubles the one before. SQL whose verbatim text has no percent sign is read as its
placeholders, if the percent signs of every identifier come in pairs; else it cannot be read.
-/
namespace SqlCompose

/-! ## Reading a format -/

/-- Where a reader of a format stands: in its text, behind a percent sign, among the characters of a name, which may have
balanced parentheses inside, or behind a name, where the letter of the conversion is due. -/
inductive Format where
  | text
  | percent
  | name (depth : Nat) (read : List Char)
  | letter (read : List Char)

namespace Format

/-- The names of the conversions, if each percent sign doubles another or belongs to a conversion as placeholders are
written. -/
def names? : Format → List Char → Option (List String)
  | text,[] => some []
  | text,c :: rest => names? (if c = '%' then percent else text) rest
  | percent,c :: rest =>
    if c = '%' then names? text rest else if c = '(' then names? (name 0 []) rest else none
  | name depth read,c :: rest =>
    if c = ')' ∧ depth = 0 then names? (letter read) rest
    else names? (name (if c = '(' then depth + 1 else if c = ')' then depth - 1 else depth) (read ++ [c])) rest
  | letter read,c :: rest => if c = 's' then (names? text rest).map (String.ofList read :: ·) else none
  | _,[] => none

/-- Whether the percent signs of a text come in pairs; `behind` is set behind the first of a pair. -/
def paired (behind : Bool) : List Char → Bool
  | [] => !behind
  | c :: rest => if behind then c == '%' && paired false rest else paired (c == '%') rest

variable {a b read : List Char} {q : Char} {rest : List Char}

theorem names?_text_append (h : '%' ∉ a) : names? text (a ++ b) = names? text b := by
  induction a with
  | nil => rfl
  | cons c a ih =>
    rw [List.mem_cons,not_or] at h
    rw [List.cons_append,names?,if_neg (Ne.symm h.1),ih h.2]

theorem names?_name_append (ho : '(' ∉ a) (hc : ')' ∉ a) :
    names? (name 0 read) (a ++ ')' :: rest) = names? (letter (read ++ a)) rest := by
  induction a generalizing read with
  | nil => simp [names?]
  | cons c a ih =>
    rw [List.mem_cons,not_or] at ho hc
    have hclose : ¬ (c = ')' ∧ 0 = 0) := fun h => hc.1 h.1.symm
    rw [List.cons_append,names?,if_neg hclose,if_neg (Ne.symm ho.1),if_neg (Ne.symm hc.1),ih ho.2 hc.2]
    simp

/-- What a placeholder is written as is one conversion. -/
theorem names?_placeholder {t : String} (ho : '(' ∉ t.toList) (hc : ')' ∉ t.toList) :
    names? text (("%(" ++ t ++ ")s").toList ++ rest) = (names? text rest).map (t :: ·) := by
  have hchars : ("%(" ++ t ++ ")s").toList ++ rest = '%' :: '(' :: (t.toList ++ ')' :: ('s' :: rest)) := by simp
  rw [hchars,names?,if_pos rfl,names?,if_neg (by decide),if_pos rfl,names?_name_append ho hc,names?,if_pos rfl]
  simp

/-- A segment up to its closing quote. Only a percent sign behind another is let through. -/
theorem names?_quoted (hq : q ≠ '%' ∧ q ≠ '(') {segment : List Char} (h : '(' ∉ segment) (behind : Bool) :
    names? (if behind then percent else text) (segment.flatMap (fun c => if c == q then [q,q] else [c]) ++ q :: rest) =
      if paired behind segment then names? text rest else none := by
  induction segment generalizing behind with
  | nil => cases behind <;> simp [names?,paired,hq.1,hq.2]
  | cons c segment ih =>
    rw [List.mem_cons,not_or] at h
    have htext := ih h.2 false
    have hpercent := ih h.2 true
    simp only [Bool.false_eq_true,if_false,if_true] at htext hpercent
    rw [List.flatMap_cons,List.append_assoc]
    generalize segment.flatMap (fun c => if c == q then [q,q] else [c]) ++ q :: rest = more at htext hpercent ⊢
    by_cases hc : c = q
    · subst hc
      have hb : (c == '%') = false := by simpa using hq.1
      cases behind <;> simp [names?,paired,hq.1,hq.2,htext,hb]
    · have hb : (c == q) = false := by simpa using hc
      rw [hb]
      by_cases hp : c = '%'
      · cases behind <;> simp [names?,paired,hp,hpercent,htext]
      · have hb' : (c == '%') = false := by simpa using hp
        cases behind <;> simp [names?,paired,hp,htext,hb',Ne.symm h.1]

theorem names?_segment (hq : IsQuote q) {segment : String} (h : '(' ∉ segment.toList) :
    names? text (quotedRest q segment ++ rest) = if paired false segment.toList then names? text rest else none := by
  have hquote : q ≠ '%' ∧ q ≠ '(' := by
    rcases hq with rfl | rfl <;> decide
  have hread : names? text (segment.toList.flatMap (fun c => if c == q then [q,q] else [c]) ++ q :: rest) =
      if paired false segment.toList then names? text rest else none := names?_quoted hquote h false
  rw [quotedRest,List.append_assoc]
  exact hread

theorem names?_pathRest (hq : IsQuote q) {starred : Bool} {segments : List String}
    (h : ∀ segment ∈ segments, '(' ∉ segment.toList) : names? text (pathRest q starred segments ++ rest) =
      if segments.all (fun segment => paired false segment.toList) then names? text rest else none := by
  induction segments with
  | nil => rfl
  | cons segment more ih =>
    obtain ⟨hsegment,hmore⟩ := List.forall_mem_cons.mp h
    cases more with
    | nil =>
      rw [pathRest,List.append_assoc,names?_segment hq hsegment,List.all_cons,List.all_nil,Bool.and_true]
      have hstar : names? text ((if starred then ['.','*'] else []) ++ rest) = names? text rest := by
        cases starred <;> exact names?_text_append (by decide)
      rw [hstar]
    | cons next more =>
      have hdot : '%' ∉ ['.',q] := by
        rcases hq with rfl | rfl <;> decide
      rw [pathRest,List.append_assoc,List.append_assoc,names?_segment hq hsegment,names?_text_append hdot,ih hmore]
      · rw [List.all_cons (a := segment)]
        cases paired false segment.toList <;> rfl
      · simp

/-- An identifier can be read if the percent signs of each of its segments come in pairs, and it has no conversion. -/
theorem names?_path (hq : IsQuote q) {p : Path} (h : ∀ segment ∈ p.segments, '(' ∉ segment.toList) :
    names? text (pathChars q p ++ rest) =
      if p.segments.all (fun segment => paired false segment.toList) then names? text rest else none := by
  unfold pathChars
  split
  · next hnil =>
    rw [hnil]
    exact names?_text_append (by decide)
  · have hquote : q ≠ '%' := by
      rcases hq with rfl | rfl <;> decide
    rw [List.cons_append,names?,if_neg hquote,names?_pathRest hq h]

end Format

/-! ## SQL without percent signs in its verbatim text -/

def Token.Calm (A : Char → Prop) : Token → Prop
  | .text s => '%' ∉ s.toList
  | .path p => p.Proper ∧ ∀ segment ∈ p.segments, ∀ c ∈ segment.toList, A c
  | .placeholder name => '(' ∉ name.toList ∧ ')' ∉ name.toList
  | .symbol s label => '%' ∉ s.toList ∧ '%' ∉ label.toList

namespace Sql

def Calm (A : Char → Prop) (sql : Sql) : Prop := ∀ t ∈ sql, t.Calm A

/-- Whether the percent signs of every identifier come in pairs. -/
def paired (sql : Sql) : Bool :=
  sql.all fun
    | .path p => p.segments.all (fun segment => Format.paired false segment.toList)
    | _ => true

variable {A : Char → Prop} {a b sql : Sql} {parts : List Sql} {d : Dialect} {q : Char} {t : String}

theorem Calm.append (ha : Calm A a) (hb : Calm A b) : Calm A (a ++ b) := List.forall_mem_append.mpr ⟨ha,hb⟩

theorem calm_nil : Calm A [] := nofun

theorem calm_text (h : '%' ∉ t.toList) : Calm A [.text t] := List.forall_mem_singleton.mpr h

theorem Calm.join {separator : String} (h : '%' ∉ separator.toList) (hp : ∀ part ∈ parts, Calm A part) :
    Calm A (Sql.join separator parts) := by
  unfold Sql.join
  induction parts with
  | nil => exact calm_nil
  | cons a parts ih =>
    obtain ⟨ha,hparts⟩ := List.forall_mem_cons.mp hp
    cases parts with
    | nil => exact ha
    | cons b parts => exact (ha.append (calm_text h)).append (ih hparts)

theorem Calm.commas (h : ∀ part ∈ parts, Calm A part) : Calm A (Sql.commas parts) := .join (by decide) h

theorem Calm.alone (h : Calm A sql) : Calm A sql.alone := by
  unfold Sql.alone
  split
  · next text label => exact calm_text (h _ (.head _)).2
  · exact h

/-- Calm SQL is read as its placeholders, if it can be read. -/
theorem Calm.names? (h : Calm A sql) (hA : ¬ A '(') (hd : d.quote = some q) (hq : IsQuote q)
    (hp : d.placeholders = .percent) :
    Format.names? .text (d.render sql).toList = if sql.paired then some sql.placeholders else none := by
  rw [Dialect.render_toList]
  induction sql with
  | nil => rfl
  | cons t sql ih =>
    obtain ⟨ht,hsql⟩ := List.forall_mem_cons.mp h
    rw [Dialect.chars_cons,paired,List.all_cons,← paired]
    cases t with
    | text text => exact (Format.names?_text_append ht).trans (ih hsql)
    | symbol text label => exact (Format.names?_text_append ht.1).trans (ih hsql)
    | placeholder name =>
      have hname : d.renderToken (.placeholder name) = "%(" ++ name ++ ")s" := by simp [Dialect.renderToken,Dialect.placeholder,hp]
      rw [hname,Format.names?_placeholder ht.1 ht.2,ih hsql]
      cases paired sql <;> rfl
    | path p =>
      have hparen : ∀ segment ∈ p.segments, '(' ∉ segment.toList :=
        fun segment hsegment hc => hA (ht.2 segment hsegment _ hc)
      have hpath : (d.renderToken (.path p)).toList = pathChars q p := renderPath_toList hd ht.1
      rw [hpath,Format.names?_path hq hparen,ih hsql]
      have hplaces : placeholders (.path p :: sql) = placeholders sql := rfl
      rw [hplaces]
      dsimp only
      simp only [Bool.and_eq_true,ite_and]

end Sql

def IsName (A : Char → Prop) (name : String) : Prop := ∀ c ∈ name.toList, A c

end SqlCompose
