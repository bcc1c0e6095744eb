import SqlCompose.Proofs.Legibility
import SqlCompose.Proofs.Quoting
import SqlCompose.Proofs.Uniqueness
import Mathlib.Data.List.Chain

/-! # Tidy texts

A text is tidy if it has no empty pair of parentheses and gets none from tidy texts before or behind it. Columns,
placeholders and the words between them bring no parentheses along, and parts in parentheses are tidy if there are any.
-/
namespace SqlCompose

variable {s : Setting} {dialect : Dialect} {a b : Sql} {parts : List Sql}

/-! ## Parentheses -/

namespace Text
variable {cs ds : List Char}

/-- A text without `()` that may also stand between such texts. -/
structure Tidy (cs : List Char) : Prop where
  chain : cs.IsChain (fun a b => ¬ (a = '(' ∧ b = ')'))
  first : cs.head? ≠ some ')'
  last : cs.getLast? ≠ some '('

namespace Tidy

theorem append (hc : Tidy cs) (hd : Tidy ds) : Tidy (cs ++ ds) where
  chain := by
    refine hc.chain.append hd.chain ?_
    rintro a ha b - ⟨rfl,-⟩
    exact hc.last ha
  first := by
    rw [List.head?_append]
    cases h : cs.head? with
    | none => exact hd.first
    | some c =>
      rw [Option.some_or,← h]
      exact hc.first
  last := by
    rw [List.getLast?_append]
    cases h : ds.getLast? with
    | none => exact hc.last
    | some c =>
      rw [Option.some_or,← h]
      exact hd.last

theorem of_not_mem (h : '(' ∉ cs) (hf : cs.head? ≠ some ')') : Tidy cs where
  chain := by
    refine List.isChain_iff_forall_rel_of_append_cons_cons.mpr ?_
    rintro a b before after rfl ⟨rfl,-⟩
    exact h (by simp)
  first := hf
  last hl := h (List.mem_of_getLast? hl)

/-- Parentheses around something. -/
theorem enclosed (h : Tidy cs) (hne : cs ≠ []) : Tidy ('(' :: cs ++ [')']) where
  chain := by
    rw [List.cons_append]
    refine List.isChain_cons.mpr ⟨?_,?_⟩
    · rintro b hb ⟨-,rfl⟩
      rw [List.head?_append_of_ne_nil _ hne] at hb
      exact h.first hb
    · refine h.chain.append (.singleton _) ?_
      rintro a ha b - ⟨rfl,-⟩
      exact h.last ha
  first := by simp
  last := by
    rw [List.getLast?_concat]
    decide

theorem no_group (h : Tidy cs) : ¬ ['(',')'] <:+: cs := by
  intro hi
  have hpair := h.chain.infix hi
  rw [List.isChain_cons_cons] at hpair
  exact hpair.1 ⟨rfl,rfl⟩

end Tidy

end Text

namespace Sql

def Tidy (dialect : Dialect) (sql : Sql) : Prop := Text.Tidy (dialect.chars sql)

def Neat (dialect : Dialect) (sql : Sql) : Prop := sql.Tidy dialect ∧ dialect.chars sql ≠ []

theorem tidy_text {t : String} (h : '(' ∉ t.toList ∧ t.toList.head? ≠ some ')') : Tidy dialect [.text t] := by
  unfold Tidy
  rw [Dialect.chars_text]
  exact .of_not_mem h.1 h.2

theorem neat_text {t : String} (h : '(' ∉ t.toList ∧ t.toList.head? ≠ some ')') (hne : t.toList ≠ []) :
    Neat dialect [.text t] := ⟨tidy_text h,by rwa [Dialect.chars_text]⟩

theorem Tidy.append (ha : a.Tidy dialect) (hb : b.Tidy dialect) : (a ++ b).Tidy dialect := by
  unfold Tidy
  rw [Dialect.chars_append]
  exact Text.Tidy.append ha hb

theorem Neat.append_tidy (ha : a.Neat dialect) (hb : b.Tidy dialect) : (a ++ b).Neat dialect :=
  ⟨ha.1.append hb,by simp [ha.2]⟩

theorem Tidy.append_neat (ha : a.Tidy dialect) (hb : b.Neat dialect) : (a ++ b).Neat dialect :=
  ⟨ha.append hb.1,by simp [hb.2]⟩

theorem Neat.parenthesized (h : a.Neat dialect) : (Condition.parenthesized a).Neat dialect := by
  have hchars : dialect.chars (Condition.parenthesized a) = '(' :: dialect.chars a ++ [')'] := by
    simp [Condition.parenthesized,Dialect.renderToken]
  refine ⟨?_,by simp [hchars]⟩
  unfold Tidy
  rw [hchars]
  exact h.1.enclosed h.2

theorem Tidy.join {separator : String} (hs : '(' ∉ separator.toList ∧ separator.toList.head? ≠ some ')')
    (h : ∀ part ∈ parts, part.Tidy dialect) : (Sql.join separator parts).Tidy dialect := by
  unfold Sql.join
  induction parts with
  | nil => exact .of_not_mem List.not_mem_nil (by simp [Text.between])
  | cons a parts ih =>
    cases parts with
    | nil => exact h a (.head _)
    | cons b parts =>
      exact ((h a (.head _)).append (tidy_text hs)).append (ih (fun part hm => h part (.tail _ hm)))

theorem Neat.join {separator : String} (hs : '(' ∉ separator.toList ∧ separator.toList.head? ≠ some ')')
    (hne : parts ≠ []) (h : ∀ part ∈ parts, part.Neat dialect) : (Sql.join separator parts).Neat dialect := by
  refine ⟨Tidy.join hs (fun part hm => (h part hm).1),?_⟩
  match parts,hne with
  | [a],_ => exact (h a (.head _)).2
  | a :: b :: parts,_ =>
    have ha := (h a (.head _)).2
    simp [Sql.join,Text.between,ha]

theorem Neat.tupled (hne : parts ≠ []) (h : ∀ part ∈ parts, part.Neat dialect) :
    (Condition.tupled parts).Neat dialect := (Neat.join (by decide) hne h).parenthesized

/-- A group reads like its parts in parentheses, with the word between them. -/
theorem chars_grouped (word : String) (a : Sql) (parts : List Sql) :
    dialect.chars (Condition.grouped word (a :: parts)) =
    dialect.chars (Sql.join (" " ++ word ++ " ") ((a :: parts).map Condition.parenthesized)) := by
  unfold Condition.grouped Sql.join
  induction parts generalizing a with
  | nil => simp [Text.between,Condition.parenthesized]
  | cons b parts ih =>
    have htail := ih b
    simp only [List.map_cons,Text.between,Condition.parenthesized,Dialect.chars_append,Dialect.chars_text,
      String.toList_append,List.append_assoc] at htail ⊢
    rw [← htail]
    simp

theorem Neat.grouped {word : String} (hw : '(' ∉ word.toList) (hne : parts ≠ [])
    (h : ∀ part ∈ parts, part.Neat dialect) : (Condition.grouped word parts).Neat dialect := by
  obtain ⟨a,parts,rfl⟩ := List.exists_cons_of_ne_nil hne
  have hword : '(' ∉ (" " ++ word ++ " ").toList ∧ (" " ++ word ++ " ").toList.head? ≠ some ')' := by simp [hw]
  have hjoin : (Sql.join (" " ++ word ++ " ") ((a :: parts).map Condition.parenthesized)).Neat dialect := by
    refine Neat.join hword (by simp) (fun enclosed he => ?_)
    obtain ⟨part,hm,rfl⟩ := List.mem_map.mp he
    exact (h part hm).parenthesized
  unfold Neat Tidy at hjoin ⊢
  rwa [chars_grouped]

end Sql

/-! ## Columns and placeholders -/

/-- A text that neither holds an opening parenthesis nor starts with a closing one. -/
def Unbracketed (t : String) : Prop := '(' ∉ t.toList ∧ t.toList.head? ≠ some ')'

def Dialect.Harmless (dialect : Dialect) (name : String) : Prop :=
  '(' ∉ name.toList ∧ (dialect.quote = none → name.toList.head? ≠ some ')')

structure Setting.Clean (s : Setting) : Prop where
  quote : ∀ q, s.dialect.quote = some q → q ≠ '(' ∧ q ≠ ')'
  stem : Unbracketed s.stem

theorem Options.unbracketed_of_isStem {stem : String} (h : isStem stem) : Unbracketed stem := by
  refine ⟨fun hc => ?_,fun hc => ?_⟩
  · exact absurd (mem_stem h hc) (by decide)
  · exact absurd (mem_stem h (List.mem_of_head? hc)) (by decide)

/-- The settings of the dialects with the stems that options accept. -/
theorem Setting.clean_of_isStem (hd : s.dialect ∈ [.plain,.sqlite,.postgres,.mysql]) (h : Options.isStem s.stem) :
    s.Clean where
  quote q hq := by
    simp only [List.mem_cons,List.not_mem_nil,or_false] at hd
    rcases hd with hd | hd | hd | hd <;> rw [hd] at hq <;> cases hq <;> decide
  stem := Options.unbracketed_of_isStem h

theorem mem_intercalate {c : Char} {separator : String} {texts : List String}
    (h : c ∈ (separator.intercalate texts).toList) : c ∈ separator.toList ∨ ∃ t ∈ texts, c ∈ t.toList := by
  induction texts with
  | nil => simp at h
  | cons t texts ih =>
    cases texts with
    | nil => exact .inr ⟨t,.head _,by simpa using h⟩
    | cons u texts =>
      rw [String.intercalate_cons_cons,String.toList_append,String.toList_append,List.mem_append,List.mem_append] at h
      rcases h with (h | h) | h
      · exact .inr ⟨t,.head _,h⟩
      · exact .inl h
      · exact (ih h).imp_right (fun ⟨x,hx,hc⟩ => ⟨x,.tail _ hx,hc⟩)

theorem mem_intercalate_of_mem {c : Char} {texts : List String} {t : String} (ht : t ∈ texts) (hc : c ∈ t.toList) :
    c ∈ (".".intercalate texts).toList := by
  induction texts with
  | nil => cases ht
  | cons u texts ih =>
    cases texts with
    | nil =>
      rw [List.mem_singleton] at ht
      simpa [← ht] using hc
    | cons x texts =>
      rw [String.intercalate_cons_cons,String.toList_append,String.toList_append,List.mem_append,List.mem_append]
      rcases List.mem_cons.mp ht with rfl | ht
      · exact .inl (.inl hc)
      · exact .inr (ih ht)

namespace Dialect
variable {name : String} {q : Char}

/-- Without quotes a column is written as it is. -/
theorem renderPath_of_bare (h : dialect.quote = none) (name : String) : dialect.renderPath (.ofColumn name) = name := by
  have hid : dialect.quoteIdentifier = id := by
    funext t
    simp [quoteIdentifier,h]
  have hcut := (Path.isCut_ofTable name).joined
  unfold renderPath
  rw [hid,List.map_id,Path.ofColumn_eq]
  split
  · next hlast =>
    have hstar := List.dropLast_append_getLast? _ hlast
    rw [if_pos rfl,hstar,hcut]
  · rw [show (Path.ofTable name).starred = false from rfl,if_neg (by decide),List.append_nil,hcut]

/-- The segments of a column have the characters of its name. -/
theorem mem_of_mem_segments {c : Char} {t : String} (ht : t ∈ (Path.ofColumn name).segments) (hc : c ∈ t.toList) :
    c ∈ name.toList := by
  have hsegment : t ∈ (Path.ofTable name).segments := by
    rw [Path.ofColumn_eq] at ht
    split at ht
    · exact (List.dropLast_sublist _).subset ht
    · exact ht
  rw [← (Path.isCut_ofTable name).joined]
  exact mem_intercalate_of_mem hsegment hc

theorem mem_quoteIdentifier {c : Char} {t : String} (h : dialect.quote = some q)
    (hc : c ∈ (dialect.quoteIdentifier t).toList) : c = q ∨ c ∈ t.toList := by
  simp only [quoteIdentifier,h,String.toList_ofList,List.mem_append,List.mem_singleton,List.mem_flatMap] at hc
  rcases hc with (hc | ⟨c',hc',hc⟩) | hc
  · exact .inl hc
  · split at hc
    · exact .inl (by simpa using hc)
    · rw [List.mem_singleton] at hc
      exact .inr (hc ▸ hc')
  · exact .inl hc

theorem not_mem_renderPath (h : dialect.quote = some q) (hq : q ≠ '(') (hn : '(' ∉ name.toList) :
    '(' ∉ (dialect.renderPath (.ofColumn name)).toList := by
  intro hc
  unfold renderPath at hc
  rcases mem_intercalate hc with hc | ⟨t,ht,hc⟩
  · exact absurd hc (by decide)
  rcases List.mem_append.mp ht with ht | ht
  · obtain ⟨segment,hs,rfl⟩ := List.mem_map.mp ht
    rcases mem_quoteIdentifier h hc with hc | hc
    · exact hq hc.symm
    · exact hn (mem_of_mem_segments hs hc)
  · split at ht
    · rw [List.mem_singleton] at ht
      rw [ht] at hc
      exact absurd hc (by decide)
    · cases ht

theorem head?_renderPath (h : dialect.quote = some q) (hq : q ≠ ')') :
    (dialect.renderPath (.ofColumn name)).toList.head? ≠ some ')' := by
  rw [renderPath_toList h (proper_ofColumn name),pathChars]
  split
  · decide
  · simpa using hq

end Dialect

theorem Sql.tidy_column {name : String} (hs : s.Clean) (hn : s.dialect.Harmless name) :
    (column name).Tidy s.dialect := by
  have hchars : s.dialect.chars (column name) = (s.dialect.renderPath (.ofColumn name)).toList := by
    rw [column_of_not_mem hn.1]
    simp [Dialect.renderToken]
  unfold Tidy
  rw [hchars]
  cases h : s.dialect.quote with
  | none =>
    rw [Dialect.renderPath_of_bare h]
    exact .of_not_mem hn.1 (hn.2 h)
  | some q =>
    have hq := hs.quote q h
    exact .of_not_mem (Dialect.not_mem_renderPath h hq.1 hn.1) (Dialect.head?_renderPath h hq.2)

namespace Setting

/-- Placeholders are numbered, so they are not empty. -/
theorem unbracketed_placeholderName (h : Unbracketed s.stem) (n : Nat) :
    Unbracketed (s.placeholderName n) ∧ (s.placeholderName n).toList ≠ [] := by
  have hdigit : ∀ c ∈ (Number.writeInt n).toList, c.isDigit := fun c hc => Number.isDigit_of_mem_writeInt hc
  have hne : (Number.writeInt n).toList ≠ [] := by
    rw [Number.writeInt_natCast,String.toList_ofList]
    exact Nat.toDigits_ne_nil
  unfold placeholderName Unbracketed
  rw [String.toList_append]
  refine ⟨⟨?_,?_⟩,by simp [hne]⟩
  · intro hc
    rcases List.mem_append.mp hc with hc | hc
    · exact h.1 hc
    · exact absurd (hdigit _ hc) (by decide)
  · rw [List.head?_append]
    cases hstem : s.stem.toList.head? with
    | none =>
      rw [Option.none_or]
      intro hc
      exact absurd (hdigit _ (List.mem_of_head? hc)) (by decide)
    | some c =>
      rw [Option.some_or,← hstem]
      exact h.2

end Setting

theorem Sql.neat_placeholder {name : String} (h : Unbracketed name) (hne : name.toList ≠ []) :
    Neat dialect [.placeholder name] := by
  unfold Neat Tidy
  have hchars : dialect.chars [.placeholder name] = (dialect.placeholder name).toList := by simp [Dialect.renderToken]
  rw [hchars,Dialect.placeholder]
  cases dialect.placeholders with
  | colon =>
    refine ⟨.of_not_mem ?_ ?_,by simp⟩
    · simpa using h.1
    · simp
  | percent =>
    have hpercent : (("%(" ++ name ++ ")s").toList) = ['%'] ++ ('(' :: name.toList ++ [')']) ++ ['s'] := by simp
    rw [hpercent]
    have hname : Text.Tidy name.toList := .of_not_mem h.1 h.2
    have hopen : Text.Tidy ['%'] := .of_not_mem (by decide) (by decide)
    have hclose : Text.Tidy ['s'] := .of_not_mem (by decide) (by decide)
    exact ⟨(hopen.append (hname.enclosed hne)).append hclose,by simp⟩

end SqlCompose
