import SqlCompose.Proofs.Layout
import Mathlib.Data.List.Forall2

/-! # The text of a layout

A layout is written as SQL, whose text is cut into the lexemes of the layout again. Names have to be readable, paths
proper, and lists may not be empty.
-/
namespace SqlCompose
open Condition

namespace Operand

def sql : Operand String → Sql
  | .null => [.text "NULL"]
  | .bound name => [.placeholder name]

def lexemes : Operand String → List Lexeme
  | .null => [.word "NULL"]
  | .bound name => [.placeholder name]

end Operand

def testWords (negated : Bool) (test : String) : List String := if negated then ["NOT",test] else [test]

namespace Lexeme

def commas (parts : List (List Lexeme)) : List Lexeme := Text.between [.comma] parts

def enclosed (ls : List Lexeme) : List Lexeme := .opening :: ls ++ [.closing]

def tupled (parts : List (List Lexeme)) : List Lexeme := enclosed (commas parts)

end Lexeme

namespace Predicate

def sql : Predicate String → Sql
  | .isNull p => [.path p,.text " IS NULL"]
  | .compare c p o => [.path p] ++ [.text c.token] ++ o.sql
  | .between negated p low high =>
    [.path p] ++ [.text (if negated then " NOT BETWEEN " else " BETWEEN ")] ++ low.sql ++ [.text " AND "] ++ high.sql
  | .member negated p values =>
    [.path p] ++ [.text (if negated then " NOT IN " else " IN ")] ++ tupled (values.map Operand.sql)
  | .rowMember negated ps rows =>
    parenthesized (Sql.commas (ps.map (fun p => [.path p]))) ++ [.text (if negated then " NOT IN " else " IN ")] ++
      tupled (rows.map (fun row => tupled (row.map Operand.sql)))
  | .like negated p o => [.path p] ++ [.text (if negated then " NOT LIKE " else " LIKE ")] ++ o.sql

def lexemes : Predicate String → List Lexeme
  | .isNull p => [.column p,.word "IS",.word "NULL"]
  | .compare c p o => .column p :: .sign c.token :: o.lexemes
  | .between negated p low high =>
    .column p :: (testWords negated "BETWEEN").map .word ++ (low.lexemes ++ .word "AND" :: high.lexemes)
  | .member negated p values =>
    .column p :: (testWords negated "IN").map .word ++ Lexeme.tupled (values.map Operand.lexemes)
  | .rowMember negated ps rows =>
    Lexeme.tupled (ps.map (fun p => [.column p])) ++ (testWords negated "IN").map .word ++
      Lexeme.tupled (rows.map (fun row => Lexeme.tupled (row.map Operand.lexemes)))
  | .like negated p o => .column p :: (testWords negated "LIKE").map .word ++ o.lexemes

def paths : Predicate String → List Path
  | .isNull p | .compare _ p _ | .between _ p _ _ | .member _ p _ | .like _ p _ => [p]
  | .rowMember _ ps _ => ps

def names : Predicate String → List String
  | .isNull _ => []
  | .compare _ _ o | .like _ _ o => o.values
  | .between _ _ low high => low.values ++ high.values
  | .member _ _ values => values.flatMap Operand.values
  | .rowMember _ _ rows => rows.flatMap (List.flatMap Operand.values)

def Listed : Predicate String → Prop
  | .member _ _ values => values ≠ []
  | .rowMember _ ps rows => ps ≠ [] ∧ rows ≠ [] ∧ ∀ row ∈ rows, row ≠ []
  | _ => True

structure Legible (p : Predicate String) : Prop where
  proper : ∀ path ∈ p.paths, path.Proper
  readable : ∀ name ∈ p.names, Readable name
  listed : p.Listed

end Predicate

namespace Layout

mutual
def sql : Layout String → Sql
  | .atom p => p.sql
  | .never => [.text "0=1"]
  | .row any first second more =>
    Sql.join (if any then " OR " else " AND ") (first.sql :: second.sql :: more.map Predicate.sql)
  | .group any first second more => grouped (connective any) (sql first :: sql second :: sqls more)

def sqls : List (Layout String) → List Sql
  | [] => []
  | x :: xs => sql x :: sqls xs
end

mutual
def lexemes : Layout String → List Lexeme
  | .atom p => p.lexemes
  | .never => [.number "0",.sign "=",.number "1"]
  | .row any first second more =>
    Text.between [.word (connective any)] (first.lexemes :: second.lexemes :: more.map Predicate.lexemes)
  | .group any first second more =>
    Text.between [.word (connective any)]
      ((lexemes first :: lexemes second :: lexemesAll more).map Lexeme.enclosed)

def lexemesAll : List (Layout String) → List (List Lexeme)
  | [] => []
  | x :: xs => lexemes x :: lexemesAll xs
end

mutual
def Legible : Layout String → Prop
  | .atom p => p.Legible
  | .never => True
  | .row _ first second more => ∀ p ∈ first :: second :: more, p.Legible
  | .group _ first second more => Legible first ∧ Legible second ∧ LegibleAll more

def LegibleAll : List (Layout String) → Prop
  | [] => True
  | x :: xs => Legible x ∧ LegibleAll xs
end

end Layout

/-! ## Texts of SQL -/

def Dialect.chars (d : Dialect) (sql : Sql) : List Char := sql.flatMap (fun t => (d.renderToken t).toList)

namespace Dialect
variable {d : Dialect} {a b : Sql} {parts : List Sql}

theorem render_toList (d : Dialect) (sql : Sql) : (d.render sql).toList = d.chars sql := by
  unfold render chars
  induction sql with
  | nil => rfl
  | cons t sql ih => simp [ih]

@[simp] theorem chars_nil : d.chars [] = [] := rfl

@[simp] theorem chars_append : d.chars (a ++ b) = d.chars a ++ d.chars b := List.flatMap_append

@[simp] theorem chars_cons (t : Token) : d.chars (t :: a) = (d.renderToken t).toList ++ d.chars a := rfl

@[simp] theorem chars_text (t : String) : d.chars [.text t] = t.toList := by simp [renderToken]

end Dialect

def Spells (d : Dialect) (q : Char) (after : List Char → Prop) (sql : Sql) (ls : List Lexeme) : Prop :=
  ∀ cs rest, after cs → Lexes q cs rest → Lexes q (d.chars sql ++ cs) (ls ++ rest)

variable {d : Dialect} {q : Char} {A B : List Char → Prop}

theorem Ends.column (hq : IsQuote q) {cs : List Char} (h : Ends cs) : EndsColumn q cs := by
  intro c rest hcs
  have hn := h c rest hcs
  simp only [Reader.isNameEnd,Bool.or_eq_true,beq_iff_eq] at hn
  rcases hn with (rfl | rfl) | rfl <;> rcases hq with rfl | rfl <;> decide

def IsWord (w : String) : Prop := w ≠ "" ∧ w.toList.all Char.isUpper

instance (w : String) : Decidable (IsWord w) := inferInstanceAs (Decidable (_ ∧ _))

theorem Lexes.words (hq : IsQuote q) (ws : List String) (hw : ∀ w ∈ ws, IsWord w) {cs : List Char} {ls : List Lexeme}
    (h : Lexes q cs ls) : Lexes q (ws.flatMap (fun w => w.toList ++ [' ']) ++ cs) (ws.map .word ++ ls) := by
  induction ws with
  | nil => exact h
  | cons w ws ih =>
    obtain ⟨hne,hup⟩ := hw w (.head _)
    have htail := Lexes.blank (ih (fun w hm => hw w (.tail _ hm)))
    have hword := Lexes.word hq hup hne (by rintro _ _ ⟨⟩; decide) htail
    simpa using hword

namespace Spells
variable {a b : Sql} {la lb : List Lexeme} {sep t : String}

theorem append (ha : Spells d q A a la) (hb : Spells d q B b lb) (h : ∀ cs, B cs → A (d.chars b ++ cs)) :
    Spells d q B (a ++ b) (la ++ lb) := by
  intro cs rest hcs hl
  have hab := ha _ _ (h cs hcs) (hb cs rest hcs hl)
  simpa using hab

theorem weaken (ha : Spells d q A a la) (h : ∀ cs, B cs → A cs) : Spells d q B a la :=
  fun cs rest hcs => ha cs rest (h cs hcs)

/-- Words with blanks around them. -/
theorem words (hq : IsQuote q) (ws : List String) (ht : t.toList = ' ' :: ws.flatMap (fun w => w.toList ++ [' ']))
    (hw : ∀ w ∈ ws, IsWord w) : Spells d q (fun _ => True) [.text t] (ws.map .word) := by
  intro cs rest _ hl
  rw [Dialect.chars_text,ht]
  exact .blank (Lexes.words hq ws hw hl)

theorem path (hq : IsQuote q) (hd : d.quote = some q) {p : Path} (hp : p.Proper) :
    Spells d q (EndsColumn q) [.path p] [.column p] := by
  intro cs rest hcs hl
  have hchars : d.chars [.path p] = pathChars q p := by simp [Dialect.renderToken,renderPath_toList hd hp]
  rw [hchars]
  exact .column hq hp hcs hl

theorem between (hsep : Spells d q (fun _ => True) [.text sep] lb) (hA : ∀ cs, A (sep.toList ++ cs))
    {parts : List Sql} {ls : List (List Lexeme)} (h : List.Forall₂ (Spells d q A) parts ls) :
    Spells d q A (Sql.join sep parts) (Text.between lb ls) := by
  unfold Sql.join
  induction h with
  | nil => exact fun cs rest _ hl => hl
  | @cons a la parts ls ha hrest ih =>
    cases hrest with
    | nil => exact ha
    | cons hb hmore =>
      have hfirst : Spells d q (fun _ => True) (a ++ [.text sep]) (la ++ lb) :=
        append ha hsep (fun cs _ => by rw [Dialect.chars_text]; exact hA cs)
      exact append hfirst ih (fun _ _ => trivial)

theorem map {α : Type} {l : List α} {f : α → Sql} {g : α → List Lexeme} (h : ∀ x ∈ l, Spells d q A (f x) (g x)) :
    List.Forall₂ (Spells d q A) (l.map f) (l.map g) :=
  List.forall₂_map_left_iff.mpr (List.forall₂_map_right_iff.mpr (List.forall₂_same.mpr h))

theorem commas {parts : List Sql} {ls : List (List Lexeme)} (h : List.Forall₂ (Spells d q Ends) parts ls) :
    Spells d q Ends (Sql.commas parts) (Lexeme.commas ls) := by
  refine between ?_ (fun cs => ends_cons (by decide)) h
  intro cs rest _ hl
  rw [Dialect.chars_text]
  exact .comma (.blank hl)

theorem parenthesized (h : Spells d q Ends a la) :
    Spells d q (fun _ => True) (Condition.parenthesized a) (Lexeme.enclosed la) := by
  intro cs rest _ hl
  have hin := h (')' :: cs) (.closing :: rest) (ends_cons (by decide)) (.closing hl)
  have hchars : d.chars (Condition.parenthesized a) ++ cs = '(' :: (d.chars a ++ ')' :: cs) := by
    simp [Condition.parenthesized,Dialect.renderToken]
  rw [hchars]
  simpa [Lexeme.enclosed] using Lexes.opening hin

theorem tupled {parts : List Sql} {ls : List (List Lexeme)} (h : List.Forall₂ (Spells d q Ends) parts ls) :
    Spells d q (fun _ => True) (Condition.tupled parts) (Lexeme.tupled ls) :=
  parenthesized (commas h)

end Spells

/-! ## Predicates -/

def EndsSign (cs : List Char) : Prop := ∀ c rest, cs = c :: rest → Reader.isSign c = false

theorem Operand.spells (hq : IsQuote q) {o : Operand String} (h : ∀ name ∈ o.values, Readable name) :
    Spells d q Ends o.sql o.lexemes := by
  intro cs rest hcs hl
  cases o with
  | null =>
    have hup : ∀ c more, cs = c :: more → c.isUpper = false := by
      intro c more hc
      have hn := hcs c more hc
      simp only [Reader.isNameEnd,Bool.or_eq_true,beq_iff_eq] at hn
      rcases hn with (rfl | rfl) | rfl <;> decide
    rw [show d.chars null.sql = "NULL".toList from Dialect.chars_text _]
    exact Lexes.word (w := "NULL") hq (by decide) (by decide) hup hl
  | bound name =>
    have hname := Lexes.placeholder d (h name (.head _)) hcs hl
    simpa [sql,lexemes,Dialect.renderToken] using hname

/-- No operand starts with a sign. -/
theorem Operand.endsSign (o : Operand String) (cs : List Char) : EndsSign (d.chars o.sql ++ cs) := by
  intro c rest h
  cases o with
  | null =>
    rw [show d.chars null.sql = "NULL".toList from Dialect.chars_text _] at h
    cases h
    decide
  | bound name =>
    simp only [sql,Dialect.chars_cons,Dialect.renderToken,Dialect.placeholder] at h
    cases hp : d.placeholders with
    | colon =>
      simp [hp] at h
      rw [← h.1]
      decide
    | percent =>
      simp [hp] at h
      rw [← h.1]
      decide

theorem Spells.sign (hq : IsQuote q) (c : Comparison) : Spells d q EndsSign [.text c.token] [.sign c.token] := by
  intro cs rest hcs hl
  rw [Dialect.chars_text]
  exact Lexes.sign hq (by cases c <;> decide) (by cases c <;> decide) hcs hl

theorem Spells.test (hq : IsQuote q) (negated : Bool) (test yes no : String) (hw : IsWord test)
    (hno : no.toList = " NOT ".toList ++ test.toList ++ [' ']) (hyes : yes.toList = ' ' :: test.toList ++ [' ']) :
    Spells d q (fun _ => True) [.text (if negated then no else yes)] ((testWords negated test).map .word) := by
  cases negated with
  | false =>
    refine Spells.words hq [test] ?_ (by simpa using hw)
    simpa using hyes
  | true =>
    refine Spells.words hq ["NOT",test] ?_ ?_
    · rw [if_pos rfl,hno]
      simp
    · intro w hm
      rcases List.mem_cons.mp hm with rfl | hm
      · decide
      · rw [List.mem_singleton.mp hm]
        exact hw

theorem endsColumn_cons (hq : IsQuote q) {c : Char} (hc : c ≠ '\x22' ∧ c ≠ '\x60' ∧ c ≠ '.') (cs : List Char) :
    EndsColumn q (c :: cs) := by
  rintro _ _ ⟨⟩
  rcases hq with rfl | rfl
  · exact ⟨hc.1,hc.2.2⟩
  · exact ⟨hc.2.1,hc.2.2⟩

/-- A column and a test word. -/
theorem Spells.tested (hq : IsQuote q) (hd : d.quote = some q) {p : Path} (hp : p.Proper) {t : String}
    {ls : List Lexeme} (ht : ∃ w, t.toList = ' ' :: w) (h : Spells d q (fun _ => True) [.text t] ls) :
    Spells d q (fun _ => True) ([.path p] ++ [.text t]) (.column p :: ls) := by
  refine Spells.append (Spells.path hq hd hp) h (fun cs _ => ?_)
  obtain ⟨w,hw⟩ := ht
  rw [Dialect.chars_text,hw]
  exact endsColumn_cons hq (by decide) _

theorem Spells.isNull (hq : IsQuote q) : Spells d q Ends [.text " IS NULL"] [.word "IS",.word "NULL"] := by
  intro cs rest hcs hl
  have hnull := Operand.spells (d := d) (o := .null) hq nofun cs rest hcs hl
  rw [show d.chars Operand.null.sql = "NULL".toList from Dialect.chars_text _] at hnull
  rw [Dialect.chars_text]
  exact .blank (Lexes.words hq ["IS"] (by decide) hnull)

theorem Predicate.spells (hq : IsQuote q) (hd : d.quote = some q) {p : Predicate String} (h : p.Legible) :
    Spells d q Ends p.sql p.lexemes := by
  cases p with
  | isNull p =>
    refine Spells.append (Spells.path hq hd (h.proper p (.head _))) (Spells.isNull hq) (fun cs _ => ?_)
    rw [Dialect.chars_text]
    exact endsColumn_cons hq (by decide) _
  | compare c p o =>
    have hsign : Spells d q EndsSign ([.path p] ++ [.text c.token]) [.column p,.sign c.token] := by
      refine Spells.append (Spells.path hq hd (h.proper p (.head _))) (Spells.sign hq c) (fun cs _ => ?_)
      rw [Dialect.chars_text]
      cases c <;> exact endsColumn_cons hq (by decide) _
    exact Spells.append hsign (Operand.spells hq h.readable) (fun cs _ => o.endsSign cs)
  | between negated p low high =>
    have htest := Spells.tested hq hd (h.proper p (.head _)) (by cases negated <;> exact ⟨_,rfl⟩)
      (Spells.test hq negated "BETWEEN" " BETWEEN " " NOT BETWEEN " (by decide) rfl rfl)
    have hlow : Spells d q Ends low.sql low.lexemes :=
      Operand.spells hq (fun name hn => h.readable name (List.mem_append_left _ hn))
    have hhigh : Spells d q Ends high.sql high.lexemes :=
      Operand.spells hq (fun name hn => h.readable name (List.mem_append_right _ hn))
    have hand : Spells d q (fun _ => True) [.text " AND "] [.word "AND"] :=
      Spells.words hq ["AND"] rfl (by decide)
    have hfirst := Spells.append htest hlow (fun _ _ => trivial)
    have hsecond := Spells.append hfirst hand (fun cs _ => by rw [Dialect.chars_text]; exact ends_cons (by decide))
    have hall := Spells.append hsecond hhigh (fun _ _ => trivial)
    simpa [sql,lexemes] using hall
  | member negated p values =>
    have htest := Spells.tested hq hd (h.proper p (.head _)) (by cases negated <;> exact ⟨_,rfl⟩)
      (Spells.test hq negated "IN" " IN " " NOT IN " (by decide) rfl rfl)
    have hlist : List.Forall₂ (Spells d q Ends) (values.map Operand.sql) (values.map Operand.lexemes) :=
      Spells.map (fun o ho => Operand.spells hq (fun name hn => h.readable name (List.mem_flatMap.mpr ⟨o,ho,hn⟩)))
    exact Spells.weaken (Spells.append htest (Spells.tupled hlist) (fun _ _ => trivial)) (fun _ _ => trivial)
  | rowMember negated ps rows =>
    have hcolumns : List.Forall₂ (Spells d q Ends) (ps.map (fun p => [.path p])) (ps.map (fun p => [.column p])) :=
      Spells.map (fun p hp => Spells.weaken (Spells.path hq hd (h.proper p hp)) (fun _ hcs => hcs.column hq))
    have htest :=
      Spells.test (d := d) hq negated "IN" " IN " " NOT IN " (by decide) rfl rfl
    have hrows : List.Forall₂ (Spells d q Ends) (rows.map (fun row => Condition.tupled (row.map Operand.sql)))
        (rows.map (fun row => Lexeme.tupled (row.map Operand.lexemes))) := by
      refine Spells.map (fun row hr => Spells.weaken (Spells.tupled (Spells.map (fun o ho => ?_))) (fun _ _ => trivial))
      refine Operand.spells hq (fun name hn => h.readable name ?_)
      exact List.mem_flatMap.mpr ⟨row,hr,List.mem_flatMap.mpr ⟨o,ho,hn⟩⟩
    have hfirst := Spells.append (Spells.parenthesized (Spells.commas hcolumns)) htest (fun _ _ => trivial)
    exact Spells.weaken (Spells.append hfirst (Spells.tupled hrows) (fun _ _ => trivial)) (fun _ _ => trivial)
  | like negated p o =>
    have htest := Spells.tested hq hd (h.proper p (.head _)) (by cases negated <;> exact ⟨_,rfl⟩)
      (Spells.test hq negated "LIKE" " LIKE " " NOT LIKE " (by decide) rfl rfl)
    exact Spells.append htest (Operand.spells hq h.readable) (fun _ _ => trivial)

/-! ## Layouts -/

theorem isWord_connective (any : Bool) : IsWord (connective any) := by cases any <;> decide

/-- Groups are written with one parenthesis pair for each part. -/
theorem between_enclosed (w : Lexeme) (l : List Lexeme) (ls : List (List Lexeme)) :
    Text.between [w] ((l :: ls).map Lexeme.enclosed) =
      Lexeme.enclosed (Text.between [.closing,w,.opening] (l :: ls)) := by
  induction ls generalizing l with
  | nil => rfl
  | cons l' ls ih =>
    have htail := ih l'
    simp only [List.map_cons,Text.between,Lexeme.enclosed,List.cons_append,List.append_assoc,List.nil_append]
      at htail ⊢
    rw [htail]

theorem Layout.lexemesAll_eq (xs : List (Layout String)) : lexemesAll xs = xs.map lexemes := by
  induction xs with
  | nil => rfl
  | cons x xs ih => simp only [lexemesAll,ih,List.map_cons]

theorem Layout.sqls_eq (xs : List (Layout String)) : sqls xs = xs.map sql := by
  induction xs with
  | nil => rfl
  | cons x xs ih => simp only [sqls,ih,List.map_cons]

theorem Spells.grouped (hq : IsQuote q) (any : Bool) {a : Sql} {parts : List Sql} {l : List Lexeme}
    {ls : List (List Lexeme)} (h : List.Forall₂ (Spells d q Ends) (a :: parts) (l :: ls)) :
    Spells d q (fun _ => True) (Condition.grouped (connective any) (a :: parts))
      (Text.between [.word (connective any)] ((l :: ls).map Lexeme.enclosed)) := by
  rw [between_enclosed]
  have hsep : Spells d q (fun _ => True) [.text (") " ++ connective any ++ " (")]
      [.closing,.word (connective any),.opening] := by
    intro cs rest _ hl
    have hchars : (") " ++ connective any ++ " (").toList ++ cs =
        ')' :: ' ' :: ([connective any].flatMap (fun w => w.toList ++ [' ']) ++ '(' :: cs) := by simp
    rw [Dialect.chars_text,hchars]
    have hword := Lexes.words hq [connective any] (by simpa using isWord_connective any) (.opening hl)
    exact .closing (.blank hword)
  refine Spells.parenthesized (Spells.between hsep (fun cs => ?_) h)
  rw [show (") " ++ connective any ++ " (").toList = ')' :: (" " ++ connective any ++ " (").toList by simp]
  exact ends_cons (by decide)

namespace Layout

theorem legibleAll_iff (xs : List (Layout String)) : LegibleAll xs ↔ ∀ x ∈ xs, x.Legible := by
  induction xs with
  | nil => simp [LegibleAll]
  | cons x xs ih => simp [LegibleAll,ih]

theorem spells (hq : IsQuote q) (hd : d.quote = some q) (x : Layout String) (h : x.Legible) :
    Spells d q Ends x.sql x.lexemes := by
  induction x using induct with
  | atom p => exact Predicate.spells hq hd h
  | never =>
    intro cs rest hcs hl
    exact (Dialect.chars_text (d := d) "0=1") ▸ Lexes.never hq hcs hl
  | row any first second more =>
    have hsep : Spells d q (fun _ => True) [.text (if any then " OR " else " AND ")] [.word (connective any)] :=
      Spells.words hq [connective any] (by cases any <;> rfl) (by simpa using isWord_connective any)
    refine Spells.between hsep (fun cs => ?_) ?_
    · cases any <;> exact ends_cons (by decide)
    · exact Spells.map (l := first :: second :: more) (fun p hp => Predicate.spells hq hd (h p hp))
  | group any first second more ihf ihs ihm =>
    obtain ⟨hf,hs,hm⟩ := h
    have hmore : List.Forall₂ (Spells d q Ends) (more.map sql) (more.map lexemes) := by
      rw [List.forall₂_map_left_iff,List.forall₂_map_right_iff,List.forall₂_same]
      exact fun x hx => ihm x hx ((legibleAll_iff more).mp hm x hx)
    have hgroup := Spells.grouped hq any (.cons (ihf hf) (.cons (ihs hs) hmore))
    rw [sql,lexemes,lexemesAll_eq,sqls_eq]
    exact Spells.weaken hgroup (fun _ _ => trivial)

/-- The text of a layout is cut into its lexemes. -/
theorem lex_sql (hq : IsQuote q) (hd : d.quote = some q) {x : Layout String} (h : x.Legible) {n : Nat}
    (hn : (d.chars x.sql).length ≤ n) : Reader.lex q n (d.chars x.sql) = some x.lexemes := by
  have hx := spells hq hd x h [] [] ends_nil .nil
  rw [List.append_nil,List.append_nil] at hx
  exact lex_of_lexes hx hn

end Layout

end SqlCompose
