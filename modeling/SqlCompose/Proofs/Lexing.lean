import SqlCompose.Proofs.Cutting
import SqlCompose.Proofs.Reader

/-! # Lexemes of rendered pieces

Each piece that a condition is rendered from is cut into its lexemes again, provided that what follows does not go on
with the same piece.
-/
namespace SqlCompose

def IsQuote (q : Char) : Prop := q = '\x22' ∨ q = '\x60'

/-- A text of which these are the lexemes. -/
inductive Lexes (q : Char) : List Char → List Lexeme → Prop where
  | nil : Lexes q [] []
  | blank {cs : List Char} {ls : List Lexeme} (h : Lexes q cs ls) : Lexes q (' ' :: cs) ls
  | cons {c : Char} {w cs : List Char} {l : Lexeme} {ls : List Lexeme} (hc : c ≠ ' ')
    (hl : Reader.lexeme? q (c :: (w ++ cs)) = some (l,cs)) (h : Lexes q cs ls) : Lexes q (c :: (w ++ cs)) (l :: ls)

/-- What ends a name: nothing more, a blank, a comma or a closing parenthesis. -/
def Ends (cs : List Char) : Prop := ∀ c rest, cs = c :: rest → Reader.isNameEnd c

def EndsColumn (q : Char) (cs : List Char) : Prop := ∀ c rest, cs = c :: rest → c ≠ q ∧ c ≠ '.'

variable {q : Char} {cs : List Char} {ls : List Lexeme} {n : Nat}

theorem lex_of_lexes (h : Lexes q cs ls) (hn : cs.length ≤ n) : Reader.lex q n cs = some ls := by
  induction h generalizing n with
  | nil => cases n <;> rfl
  | @blank cs ls _ ih =>
    cases n with
    | zero => cases hn
    | succ n =>
      have := ih (Nat.le_of_succ_le_succ hn)
      simpa [Reader.lex] using this
  | @cons c w cs l ls hc hl _ ih =>
    cases n with
    | zero => cases hn
    | succ n =>
      have hlen : cs.length ≤ n := by
        simp only [List.length_cons,List.length_append] at hn
        omega
      simp only [Reader.lex,hc,if_false,hl,ih hlen,Option.map_some]

theorem ends_nil : Ends [] := nofun

theorem ends_cons {c : Char} (h : Reader.isNameEnd c) : Ends (c :: cs) := by
  rintro _ _ ⟨⟩
  exact h

namespace Lexes

theorem opening (h : Lexes q cs ls) : Lexes q ('(' :: cs) (.opening :: ls) := .cons (w := []) (by decide) rfl h

theorem closing (h : Lexes q cs ls) : Lexes q (')' :: cs) (.closing :: ls) := .cons (w := []) (by decide) rfl h

theorem comma (h : Lexes q cs ls) : Lexes q (',' :: cs) (.comma :: ls) := .cons (w := []) (by decide) rfl h

end Lexes

/-! ## Runs -/

theorem run_append {p : Char → Bool} {make : String → Lexeme} {w : List Char} (hw : w.all p)
    (hcs : ∀ c rest, cs = c :: rest → p c = false) :
    Reader.run p make (w ++ cs) = some (make (String.ofList w),cs) := by
  have hhead : ∀ c ∈ cs.head?, ¬ p c := by
    cases cs with
    | nil => nofun
    | cons c rest =>
      rintro _ ⟨⟩
      simp [hcs c rest rfl]
  obtain ⟨ht,hd⟩ := Text.takeWhile_append_of (List.all_eq_true.mp hw) hhead
  simp only [Reader.run,ht,hd]

def isMark (c : Char) : Bool := ['(',')',',','*',':','%'].contains c

theorem lexeme?_of_not_mark {c : Char} (h : isMark c = false) (rest : List Char) :
    Reader.lexeme? q (c :: rest) =
      if c = q then
        (Reader.segments? q (rest.length + 1) rest).map (fun ((s,starred),r) => (.column ⟨s,starred⟩,r))
      else if Reader.isSign c then Reader.run Reader.isSign .sign (c :: rest)
      else if c.isDigit then Reader.run Char.isDigit .number (c :: rest)
      else if c.isUpper then Reader.run Char.isUpper .word (c :: rest)
      else none := by
  unfold Reader.lexeme?
  split
  · next heq => cases heq
  all_goals first
    | next heq =>
      cases heq
      cases h
    | next heq =>
      cases heq
      rfl

theorem not_mark {p : Char → Bool} (hp : ['(',')',',','*',':','%'].any p = false) {c : Char} (h : p c) :
    isMark c = false := by
  cases hm : isMark c with
  | false => rfl
  | true => exact absurd h (List.any_eq_false.mp hp c (List.contains_iff_mem.mp hm))

theorem ne_quote {p : Char → Bool} (hp : p '\x22' = false ∧ p '\x60' = false) (hq : IsQuote q) {c : Char} (h : p c) :
    c ≠ q := by
  rintro rfl
  rcases hq with rfl | rfl
  · rw [hp.1] at h
    cases h
  · rw [hp.2] at h
    cases h

theorem ne_blank {p : Char → Bool} (hp : p ' ' = false) {c : Char} (h : p c) : c ≠ ' ' := by
  rintro rfl
  rw [hp] at h
  cases h

theorem not_sign_of_isUpper {c : Char} (h : c.isUpper) : Reader.isSign c = false := by
  cases hs : Reader.isSign c with
  | false => rfl
  | true =>
    simp only [Reader.isSign,Bool.or_eq_true,beq_iff_eq] at hs
    rcases hs with ((rfl | rfl) | rfl) | rfl <;> exact absurd h (by decide)

theorem not_digit_of_isUpper {c : Char} (h : c.isUpper) : c.isDigit = false := by
  have h65 : (65 : UInt32) ≤ c.val := (of_decide_eq_true h).1
  simp only [Char.isDigit,Bool.and_eq_false_iff,decide_eq_false_iff_not]
  right
  intro h57
  have := UInt32.le_trans h65 h57
  revert this
  decide

namespace Lexes
variable {w : String}

/-- A word in capitals, before anything that is no capital. -/
theorem word (hq : IsQuote q) (hw : w.toList.all Char.isUpper) (hne : w ≠ "")
    (hcs : ∀ c rest, cs = c :: rest → c.isUpper = false) (h : Lexes q cs ls) :
    Lexes q (w.toList ++ cs) (.word w :: ls) := by
  cases hl : w.toList with
  | nil => exact absurd (String.toList_eq_nil_iff.mp hl) hne
  | cons c rest =>
    have hc : c.isUpper := List.all_eq_true.mp hw c (by rw [hl]; exact .head _)
    have hrun : Reader.run Char.isUpper .word (w.toList ++ cs) = some (.word w,cs) := by
      rw [run_append hw hcs,String.ofList_toList]
    rw [hl] at hrun
    refine .cons (ne_blank (by decide) hc) ?_ h
    rw [lexeme?_of_not_mark (not_mark (by decide) hc),if_neg (ne_quote (by decide) hq hc),
      if_neg (by simp [not_sign_of_isUpper hc]),if_neg (by simp [not_digit_of_isUpper hc]),if_pos hc]
    exact hrun

/-- A comparison sign, before anything that is none. -/
theorem sign (hq : IsQuote q) (hw : w.toList.all Reader.isSign) (hne : w ≠ "")
    (hcs : ∀ c rest, cs = c :: rest → Reader.isSign c = false) (h : Lexes q cs ls) :
    Lexes q (w.toList ++ cs) (.sign w :: ls) := by
  cases hl : w.toList with
  | nil => exact absurd (String.toList_eq_nil_iff.mp hl) hne
  | cons c rest =>
    have hc : Reader.isSign c := List.all_eq_true.mp hw c (by rw [hl]; exact .head _)
    have hrun : Reader.run Reader.isSign .sign (w.toList ++ cs) = some (.sign w,cs) := by
      rw [run_append hw hcs,String.ofList_toList]
    rw [hl] at hrun
    refine .cons (ne_blank (by decide) hc) ?_ h
    rw [lexeme?_of_not_mark (not_mark (by decide) hc),if_neg (ne_quote (by decide) hq hc),if_pos hc]
    exact hrun

/-- The constant that is false for every row. -/
theorem never (hq : IsQuote q) (hcs : Ends cs) (h : Lexes q cs ls) :
    Lexes q ("0=1".toList ++ cs) (.number "0" :: .sign "=" :: .number "1" :: ls) := by
  have hdigit : ∀ c rest, cs = c :: rest → c.isDigit = false := by
    intro c rest hc
    have hn := hcs c rest hc
    simp only [Reader.isNameEnd,Bool.or_eq_true,beq_iff_eq] at hn
    rcases hn with (rfl | rfl) | rfl <;> decide
  have hq' : ('0' : Char) ≠ q ∧ ('1' : Char) ≠ q := by
    rcases hq with rfl | rfl <;> decide
  have hone : Lexes q ('1' :: ([] ++ cs)) (.number "1" :: ls) := by
    refine .cons (by decide) ?_ h
    rw [lexeme?_of_not_mark (by decide),if_neg hq'.2,if_neg (by decide),if_pos (by decide)]
    exact run_append (w := ['1']) (by decide) hdigit
  have hsign : Lexes q ("=".toList ++ '1' :: ([] ++ cs)) (.sign "=" :: .number "1" :: ls) := by
    refine sign hq (by decide) (by decide) ?_ hone
    rintro _ _ ⟨⟩
    decide
  have htext : "0=1".toList ++ cs = '0' :: ([] ++ ("=".toList ++ '1' :: ([] ++ cs))) := rfl
  rw [htext]
  refine .cons (by decide) ?_ hsign
  rw [lexeme?_of_not_mark (by decide),if_neg hq'.1,if_neg (by decide),if_pos (by decide)]
  refine run_append (w := ['0']) (by decide) ?_
  rintro _ _ ⟨⟩
  decide

end Lexes

/-! ## Placeholders -/

/-- Whether a name can be read back: it has no blank, no comma and no parenthesis. -/
def Readable (name : String) : Prop := ∀ c ∈ name.toList, Reader.isNameEnd c = false

theorem lexeme?_colon (rest : List Char) :
    Reader.lexeme? q (':' :: rest) = Reader.run (fun c => !Reader.isNameEnd c) .placeholder rest := rfl

theorem Lexes.placeholder (d : Dialect) {name : String} (hn : Readable name) (hcs : Ends cs) (h : Lexes q cs ls) :
    Lexes q ((d.placeholder name).toList ++ cs) (.placeholder name :: ls) := by
  have hw : name.toList.all (fun c => !Reader.isNameEnd c) := by
    refine List.all_eq_true.mpr (fun c hc => ?_)
    simp [hn c hc]
  unfold Dialect.placeholder
  cases d.placeholders with
  | colon =>
    have hl : (":" ++ name).toList ++ cs = ':' :: (name.toList ++ cs) := by simp
    dsimp only
    rw [hl]
    refine .cons (by decide) ?_ h
    rw [lexeme?_colon,run_append hw (fun c rest hc => by simp [hcs c rest hc]),String.ofList_toList]
  | percent =>
    have hl : ("%(" ++ name ++ ")s").toList ++ cs = '%' :: (('(' :: name.toList ++ [')','s']) ++ cs) := by simp
    dsimp only
    rw [hl]
    refine .cons (by decide) ?_ h
    have hname : (name.toList ++ ')' :: 's' :: cs).takeWhile (fun c => !Reader.isNameEnd c) = name.toList ∧
        (name.toList ++ ')' :: 's' :: cs).dropWhile (fun c => !Reader.isNameEnd c) = ')' :: 's' :: cs :=
      Text.takeWhile_append_of (List.all_eq_true.mp hw) (by rintro _ ⟨⟩; decide)
    obtain ⟨ht,hd⟩ := hname
    have happ : name.toList ++ [')','s'] ++ cs = name.toList ++ ')' :: 's' :: cs := by simp
    simp only [List.cons_append,happ,Reader.lexeme?,ht,hd,String.ofList_toList]

/-! ## Columns -/

def quotedRest (q : Char) (s : String) : List Char := s.toList.flatMap (fun c => if c == q then [q,q] else [c]) ++ [q]

theorem identifier?_append (s : String) (hcs : ∀ c rest, cs = c :: rest → c ≠ q) :
    Reader.identifier? q (quotedRest q s ++ cs) = some (s.toList,cs) := by
  unfold quotedRest
  induction s.toList with
  | nil =>
    cases cs with
    | nil => simp [Reader.identifier?]
    | cons c rest => simp [Reader.identifier?,hcs c rest rfl]
  | cons c s ih =>
    by_cases hc : c = q
    · subst hc
      simp only [List.flatMap_cons,beq_self_eq_true,if_true,List.cons_append,List.nil_append,Reader.identifier?]
      rw [ih]
      rfl
    · have hb : (c == q) = false := by simp [hc]
      simp only [List.flatMap_cons,hb,List.cons_append,List.nil_append,Bool.false_eq_true,if_false]
      rw [Reader.identifier?.eq_def]
      simp only [if_neg hc]
      rw [ih]
      rfl

def pathRest (q : Char) (starred : Bool) : List String → List Char
  | [] => []
  | [s] => quotedRest q s ++ if starred then ['.','*'] else []
  | s :: more => quotedRest q s ++ ['.',q] ++ pathRest q starred more

theorem segments?_append {starred : Bool} (hq : IsQuote q) (hcs : EndsColumn q cs) {segments : List String}
    (hne : segments ≠ []) {limit : Nat} (hl : segments.length ≤ limit) :
    Reader.segments? q limit (pathRest q starred segments ++ cs) = some ((segments,starred),cs) := by
  induction limit generalizing segments with
  | zero => exact absurd (List.length_eq_zero_iff.mp (Nat.le_zero.mp hl)) hne
  | succ limit ih =>
    have hdot : ('.' : Char) ≠ q := by
      rcases hq with rfl | rfl <;> decide
    cases segments with
    | nil => exact absurd rfl hne
    | cons s more =>
      cases more with
      | nil =>
        cases starred with
        | true =>
          have happ : pathRest q true [s] ++ cs = quotedRest q s ++ '.' :: '*' :: cs := by simp [pathRest]
          rw [happ,Reader.segments?,identifier?_append s (by rintro _ _ ⟨⟩; exact hdot)]
          simp only [String.ofList_toList]
        | false =>
          have happ : pathRest q false [s] ++ cs = quotedRest q s ++ cs := by simp [pathRest]
          rw [happ,Reader.segments?,identifier?_append s (fun c rest h => (hcs c rest h).1)]
          cases cs with
          | nil => simp only [String.ofList_toList]
          | cons c rest =>
            have hc := (hcs c rest rfl).2
            dsimp only
            split
            · next heq =>
              cases heq
              exact absurd rfl hc
            · next heq =>
              cases heq
              exact absurd rfl hc
            · simp only [String.ofList_toList]
      | cons t more =>
        have happ : pathRest q starred (s :: t :: more) ++ cs =
            quotedRest q s ++ '.' :: q :: (pathRest q starred (t :: more) ++ cs) := by simp [pathRest]
        have hstar : ¬ q = '*' := by
          rcases hq with rfl | rfl <;> decide
        rw [happ,Reader.segments?,identifier?_append s (by rintro _ _ ⟨⟩; exact hdot)]
        dsimp only
        split
        · next heq =>
          cases heq
          exact absurd rfl hstar
        · next heq =>
          cases heq
          rw [if_pos rfl,ih (by simp) (by simpa using hl)]
          simp only [Option.map_some,String.ofList_toList]
        · next h1 h2 => exact absurd rfl (h2 _ _)

theorem length_le_pathRest (q : Char) (starred : Bool) (segments : List String) :
    segments.length ≤ (pathRest q starred segments).length := by
  induction segments with
  | nil => simp
  | cons s more ih =>
    cases more with
    | nil =>
      simp only [pathRest,quotedRest,List.length_append,List.length_cons,List.length_nil]
      omega
    | cons t more =>
      simp only [pathRest,List.length_append,List.length_cons,List.length_nil] at ih ⊢
      omega

def pathChars (q : Char) (p : Path) : List Char :=
  if p.segments = [] then ['*'] else q :: pathRest q p.starred p.segments

def Path.Proper (p : Path) : Prop := p.segments = [] → p.starred = true

theorem Lexes.column (hq : IsQuote q) {p : Path} (hp : p.Proper) (hcs : EndsColumn q cs) (h : Lexes q cs ls) :
    Lexes q (pathChars q p ++ cs) (.column p :: ls) := by
  unfold pathChars
  split
  · next hs =>
    have hstar : p = ⟨[],true⟩ := by
      obtain ⟨segments,starred⟩ := p
      cases hs
      cases hp rfl
      rfl
    rw [hstar]
    exact .cons (w := []) (by decide) rfl h
  · next hs =>
    have hqm : isMark q = false ∧ q ≠ ' ' := by
      rcases hq with rfl | rfl <;> decide
    refine .cons hqm.2 ?_ h
    have hlen : p.segments.length ≤ (pathRest q p.starred p.segments ++ cs).length + 1 := by
      have := length_le_pathRest q p.starred p.segments
      rw [List.length_append]
      omega
    rw [lexeme?_of_not_mark hqm.1,if_pos rfl,segments?_append hq hcs hs hlen]
    rfl

theorem quoteIdentifier_toList {d : Dialect} (hq : d.quote = some q) (s : String) :
    (d.quoteIdentifier s).toList = q :: quotedRest q s := by
  simp [Dialect.quoteIdentifier,hq,quotedRest]

theorem intercalate_toList {d : Dialect} (hq : d.quote = some q) (starred : Bool) {segments : List String}
    (hne : segments ≠ []) :
    (".".intercalate (segments.map d.quoteIdentifier ++ if starred then ["*"] else [])).toList =
      q :: pathRest q starred segments := by
  induction segments with
  | nil => exact absurd rfl hne
  | cons s more ih =>
    cases more with
    | nil =>
      cases starred with
      | true => simp [String.intercalate_cons_cons,quoteIdentifier_toList hq,pathRest]
      | false => simp [quoteIdentifier_toList hq,pathRest]
    | cons t more =>
      have hcons := ih (by simp)
      simp only [List.map_cons,List.cons_append] at hcons ⊢
      rw [String.intercalate_cons_cons,String.toList_append,String.toList_append,hcons,quoteIdentifier_toList hq]
      simp [pathRest]

theorem renderPath_toList {d : Dialect} (hq : d.quote = some q) {p : Path} (hp : p.Proper) :
    (d.renderPath p).toList = pathChars q p := by
  unfold Dialect.renderPath pathChars
  by_cases hs : p.segments = []
  · rw [if_pos hs,hs,hp hs]
    simp
  · rw [if_neg hs]
    exact intercalate_toList hq p.starred hs

theorem splitOn_ne_nil (sep : Char) (cs : List Char) : Text.splitOn sep cs ≠ [] := by
  induction cs with
  | nil => simp [Text.splitOn]
  | cons c rest ih =>
    unfold Text.splitOn
    split
    · simp
    · split <;> simp

theorem proper_ofTable (name : String) : (Path.ofTable name).Proper := by
  intro h
  exact absurd (List.map_eq_nil_iff.mp h) (splitOn_ne_nil _ _)

theorem proper_ofColumn (name : String) : (Path.ofColumn name).Proper := by
  unfold Path.ofColumn
  split
  · intro _
    rfl
  · exact proper_ofTable name
  · split
    · intro _
      rfl
    · intro h
      cases h

end SqlCompose
