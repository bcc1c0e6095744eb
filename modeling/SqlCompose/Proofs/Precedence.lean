import SqlCompose.Proofs.Spelling

/-! # Layouts are read back

The lexemes of a layout are read as its formula: a predicate takes exactly its own lexemes, a row is one chain of
predicates, and what stands in parentheses is never mistaken for a list of columns.
-/
namespace SqlCompose
open Reader

variable {α : Type} {rest : List Lexeme} {limit : Nat}

/-! ## Predicates -/

theorem operand?_lexemes (o : Operand String) (rest : List Lexeme) : operand? (o.lexemes ++ rest) = some (o,rest) := by
  cases o <;> rfl

theorem listed?_commas {item? : List Lexeme → Option (α × List Lexeme)} {g : α → List Lexeme}
    {l : List α} (h : ∀ a ∈ l, ∀ r, item? (g a ++ r) = some (a,r)) (hne : l ≠ []) (hl : l.length ≤ limit) :
    listed? item? limit (Lexeme.commas (l.map g) ++ .closing :: rest) = some (l,rest) := by
  induction limit generalizing l with
  | zero => exact absurd (List.length_eq_zero_iff.mp (Nat.le_zero.mp hl)) hne
  | succ limit ih =>
    cases l with
    | nil => exact absurd rfl hne
    | cons a l =>
      cases l with
      | nil =>
        have hcommas : Lexeme.commas ([a].map g) = g a := rfl
        rw [hcommas,listed?,h a (.head _)]
      | cons b l =>
        have hcommas : Lexeme.commas ((a :: b :: l).map g) ++ .closing :: rest =
            g a ++ .comma :: (Lexeme.commas ((b :: l).map g) ++ .closing :: rest) := by
          simp [Lexeme.commas,Text.between]
        have htail := ih (l := b :: l) (fun x hx => h x (.tail _ hx)) (List.cons_ne_nil _ _) (by simpa using hl)
        rw [hcommas,listed?,h a (.head _)]
        dsimp only
        rw [htail]
        rfl

theorem length_le_commas (ls : List (List Lexeme)) : ls.length ≤ (Lexeme.commas ls).length + 1 := by
  unfold Lexeme.commas
  induction ls with
  | nil => simp
  | cons l ls ih =>
    cases ls with
    | nil => simp
    | cons l' ls =>
      simp only [Text.between,List.length_append,List.length_cons,List.length_nil] at ih ⊢
      omega

theorem inParentheses?_tupled {item? : List Lexeme → Option (α × List Lexeme)} {g : α → List Lexeme}
    {l : List α} (h : ∀ a ∈ l, ∀ r, item? (g a ++ r) = some (a,r)) (hne : l ≠ []) (rest : List Lexeme) :
    inParentheses? item? (Lexeme.tupled (l.map g) ++ rest) = some (l,rest) := by
  have htupled : Lexeme.tupled (l.map g) ++ rest =
      .opening :: (Lexeme.commas (l.map g) ++ .closing :: rest) := by simp [Lexeme.tupled,Lexeme.enclosed]
  rw [htupled,inParentheses?]
  refine listed?_commas h hne ?_
  have hlen := length_le_commas (l.map g)
  rw [List.length_map] at hlen
  rw [List.length_append,List.length_cons]
  omega

theorem comparison?_token (c : Comparison) : comparison? c.token = some c := by cases c <;> decide

theorem behindColumn?_test (p : Path) (negated : Bool) {test : String} (ht : test ∈ ["BETWEEN","IN","LIKE"])
    (rest : List Lexeme) :
    behindColumn? p ((testWords negated test).map .word ++ rest) = worded? p negated (.word test :: rest) := by
  cases negated with
  | true => rfl
  | false =>
    simp only [List.mem_cons,List.not_mem_nil,or_false] at ht
    rcases ht with rfl | rfl | rfl <;> rfl

theorem behindColumns?_test (ps : List Path) (negated : Bool) (rest : List Lexeme) :
    behindColumns? ps ((testWords negated "IN").map .word ++ rest) =
      (inParentheses? (inParentheses? operand?) rest).map (fun (rows,r) => (.rowMember negated ps rows,r)) := by
  cases negated <;> rfl

theorem predicate?_column (p : Path) (rest : List Lexeme) :
    predicate? (.column p :: rest) = (behindColumn? p rest).map (fun (a,r) => (.atom a,r)) := rfl

theorem predicate?_opening (ls : List (List Lexeme)) (rest : List Lexeme) :
    predicate? (Lexeme.tupled ls ++ rest) =
      match inParentheses? column? (Lexeme.tupled ls ++ rest) with
      | some (ps,rest) => (behindColumns? ps rest).map (fun (a,r) => (.atom a,r))
      | none => none := rfl

theorem Predicate.read {p : Predicate String} (h : p.Listed) (rest : List Lexeme) :
    predicate? (p.lexemes ++ rest) = some (.atom p,rest) := by
  cases p with
  | isNull p => rfl
  | compare c p o =>
    have hbehind : behindColumn? p (.sign c.token :: (o.lexemes ++ rest)) = some (.compare c p o,rest) := by
      rw [behindColumn?,comparison?_token,operand?_lexemes]
      rfl
    rw [lexemes,List.cons_append,List.cons_append,predicate?_column,hbehind]
    rfl
  | between negated p low high =>
    have hbounds : bounds? (low.lexemes ++ .word "AND" :: (high.lexemes ++ rest)) = some ((low,high),rest) := by
      rw [bounds?,operand?_lexemes]
      show Option.map _ (operand? (high.lexemes ++ rest)) = _
      rw [operand?_lexemes]
      rfl
    have hsplit : (between negated p low high).lexemes ++ rest = .column p ::
        ((testWords negated "BETWEEN").map .word ++ (low.lexemes ++ .word "AND" :: (high.lexemes ++ rest))) := by
      simp [lexemes]
    rw [hsplit,predicate?_column,behindColumn?_test p negated (by decide),worded?,hbounds]
    rfl
  | member negated p values =>
    have hsplit : (member negated p values).lexemes ++ rest = .column p ::
        ((testWords negated "IN").map .word ++ (Lexeme.tupled (values.map Operand.lexemes) ++ rest)) := by
      simp [lexemes]
    rw [hsplit,predicate?_column,behindColumn?_test p negated (by decide),worded?,
      inParentheses?_tupled (fun o _ => operand?_lexemes o) h]
    rfl
  | rowMember negated ps rows =>
    obtain ⟨hps,hrows,hrow⟩ := h
    have hsplit : (rowMember negated ps rows).lexemes ++ rest = Lexeme.tupled (ps.map (fun p => [.column p])) ++
        ((testWords negated "IN").map .word ++
          (Lexeme.tupled (rows.map (fun row => Lexeme.tupled (row.map Operand.lexemes))) ++ rest)) := by
      simp [lexemes]
    have hcolumn : ∀ p ∈ ps, ∀ r, column? ([.column p] ++ r) = some (p,r) := fun _ _ _ => rfl
    have htuple : ∀ row ∈ rows, ∀ r,
        inParentheses? operand? (Lexeme.tupled (row.map Operand.lexemes) ++ r) = some (row,r) :=
      fun row hr r => inParentheses?_tupled (fun o _ => operand?_lexemes o) (hrow row hr) r
    rw [hsplit,predicate?_opening,inParentheses?_tupled hcolumn hps]
    dsimp only
    rw [behindColumns?_test,inParentheses?_tupled htuple hrows]
    rfl
  | like negated p o =>
    have hsplit : (like negated p o).lexemes ++ rest = .column p ::
        ((testWords negated "LIKE").map .word ++ (o.lexemes ++ rest)) := by simp [lexemes]
    rw [hsplit,predicate?_column,behindColumn?_test p negated (by decide),worded?,operand?_lexemes]
    rfl

/-! ## Chains -/

def Stops (any : Bool) (rest : List Lexeme) : Prop := ∀ w r, rest = .word w :: r → w ≠ connective any

def Closes (rest : List Lexeme) : Prop := ∀ l r, rest = l :: r → l = .closing

theorem Closes.stops {any : Bool} (h : Closes rest) : Stops any rest := by
  rintro w r rfl
  exact nomatch h _ _ rfl

theorem closes_nil : Closes [] := nofun

theorem closes_closing : Closes (.closing :: rest) := by
  rintro _ _ ⟨⟩
  rfl

section Chains
variable {any : Bool} {item? : List Lexeme → Option (Formula String × List Lexeme)} {g : α → List Lexeme}
  {f : α → Formula String} {l : List α} {F : List Lexeme → Prop}

theorem chain?_one {ts : List Lexeme} {x : Formula String} (h : item? ts = some (x,rest)) (hs : Stops any rest) :
    chain? (connective any) item? (limit + 1) ts = some ([x],rest) := by
  rw [chain?,h]
  dsimp only
  split
  · next w r =>
    rw [if_neg (hs w r rfl)]
  · rfl

theorem chain?_between (hne : l ≠ []) (hl : l.length ≤ limit)
    (h : ∀ a ∈ l, ∀ r, F r → item? (g a ++ r) = some (f a,r)) (hF : ∀ r, F (.word (connective any) :: r))
    (hrest : F rest) (hs : Stops any rest) :
    chain? (connective any) item? limit (Text.between [.word (connective any)] (l.map g) ++ rest) =
      some (l.map f,rest) := by
  induction limit generalizing l with
  | zero => exact absurd (List.length_eq_zero_iff.mp (Nat.le_zero.mp hl)) hne
  | succ limit ih =>
    cases l with
    | nil => exact absurd rfl hne
    | cons a l =>
      cases l with
      | nil =>
        have hone : Text.between [.word (connective any)] ([a].map g) = g a := rfl
        rw [hone,chain?_one (h a (.head _) rest hrest) hs]
        rfl
      | cons b l =>
        have hmany : Text.between [.word (connective any)] ((a :: b :: l).map g) ++ rest =
            g a ++ .word (connective any) :: (Text.between [.word (connective any)] ((b :: l).map g) ++ rest) := by
          simp [Text.between]
        have htail := ih (l := b :: l) (List.cons_ne_nil _ _) (by simpa using hl) (fun x hx => h x (.tail _ hx))
        rw [hmany,chain?,h a (.head _) _ (hF _)]
        dsimp only
        rw [if_pos rfl,htail]
        rfl

theorem length_le_between {w : Lexeme} {ls : List (List Lexeme)} (h : ∀ l ∈ ls, l ≠ []) :
    ls.length ≤ (Text.between [w] ls).length := by
  induction ls with
  | nil => simp
  | cons l ls ih =>
    have hl : 0 < l.length := List.length_pos_iff.mpr (h l (.head _))
    cases ls with
    | nil => simpa [Text.between] using Nat.succ_le_of_lt hl
    | cons l' ls =>
      have htail := ih (fun x hx => h x (.tail _ hx))
      simp only [Text.between,List.length_append,List.length_cons,List.length_nil] at htail ⊢
      omega

/-- A sole item. -/
theorem chained?_one {ts : List Lexeme} {x : Formula String} (hts : ts ≠ []) (h : item? ts = some (x,rest))
    (hs : Stops any rest) : chained? any item? ts = some (x,rest) := by
  cases ts with
  | nil => exact absurd rfl hts
  | cons t ts =>
    rw [chained?,List.length_cons,chain?_one h hs]
    rfl

theorem chained?_many (h2 : 2 ≤ l.length) (hne : ∀ a ∈ l, g a ≠ [])
    (h : ∀ a ∈ l, ∀ r, F r → item? (g a ++ r) = some (f a,r)) (hF : ∀ r, F (.word (connective any) :: r))
    (hrest : F rest) (hs : Stops any rest) :
    chained? any item? (Text.between [.word (connective any)] (l.map g) ++ rest) =
      some (if any then .any (l.map f) else .all (l.map f),rest) := by
  have hlen : l.length ≤ (Text.between [.word (connective any)] (l.map g) ++ rest).length := by
    have hparts : (l.map g).length ≤ (Text.between [.word (connective any)] (l.map g)).length :=
      length_le_between (by simpa using hne)
    rw [List.length_map] at hparts
    rw [List.length_append]
    omega
  have hl : l ≠ [] := by
    rintro rfl
    cases h2
  have hgather : Formula.gather any (l.map f) = some (if any then .any (l.map f) else .all (l.map f)) := by
    match l, h2 with
    | a :: b :: l, _ => rfl
  rw [chained?,chain?_between hl hlen h hF hrest hs]
  simp only [Option.bind_some,hgather,Option.map_some]

end Chains

/-! ## Formulas -/

def Unlisted (ls : List Lexeme) : Prop := ∀ limit r, listed? column? limit (ls ++ r) = none

theorem unlisted_opening (ls : List Lexeme) : Unlisted (.opening :: ls) := by
  intro limit r
  cases limit <;> rfl

theorem Unlisted.append {ls : List Lexeme} (h : Unlisted ls) (more : List Lexeme) : Unlisted (ls ++ more) := by
  intro limit r
  rw [List.append_assoc]
  exact h limit (more ++ r)

theorem Predicate.unlisted (p : Predicate String) : Unlisted p.lexemes := by
  intro limit r
  cases limit with
  | zero => rfl
  | succ limit =>
    cases p with
    | between negated p low high => cases negated <;> rfl
    | member negated p values => cases negated <;> rfl
    | like negated p o => cases negated <;> rfl
    | _ => rfl

theorem Layout.unlisted (x : Layout String) : Unlisted x.lexemes := by
  cases x with
  | atom p => exact p.unlisted
  | never =>
    intro limit r
    cases limit <;> rfl
  | row any first second more => exact (first.unlisted.append _).append _
  | group any first second more => exact unlisted_opening _

theorem factor?_enclosed {nested : List Lexeme → Option (Formula String × List Lexeme)} {ls : List Lexeme} {x : Formula String} (hu : Unlisted ls)
    (h : nested (ls ++ .closing :: rest) = some (x,.closing :: rest)) :
    factor? nested (Lexeme.enclosed ls ++ rest) = some (x,rest) := by
  have hsplit : Lexeme.enclosed ls ++ rest = .opening :: (ls ++ .closing :: rest) := by simp [Lexeme.enclosed]
  have hpredicate : predicate? (.opening :: (ls ++ .closing :: rest)) = none := by
    rw [predicate?,inParentheses?,hu]
  rw [hsplit,factor?,hpredicate]
  dsimp only
  rw [h]

theorem factor?_predicate {nested : List Lexeme → Option (Formula String × List Lexeme)} {p : Predicate String}
    (h : p.Listed) (rest : List Lexeme) : factor? nested (p.lexemes ++ rest) = some (.atom p,rest) := by
  unfold factor?
  rw [Predicate.read h]

theorem append_ne_nil {ls : List Lexeme} (h : ls ≠ []) : ls ++ rest ≠ [] := fun h' => h (List.append_eq_nil_iff.mp h').1

section Formulas
variable {any : Bool} {n : Nat} {g : α → List Lexeme} {f : α → Formula String} {l : List α}

theorem formula?_factor {ts : List Lexeme} {x : Formula String} (hts : ts ≠ [])
    (h : factor? (formula? n) ts = some (x,rest)) (hc : Closes rest) : formula? (n + 1) ts = some (x,rest) :=
  chained?_one hts (chained?_one hts h hc.stops) hc.stops

/-- Factors under one connective. -/
theorem formula?_between (h2 : 2 ≤ l.length) (hne : ∀ a ∈ l, g a ≠ [])
    (h : ∀ a ∈ l, ∀ r, factor? (formula? n) (g a ++ r) = some (f a,r)) (hc : Closes rest) :
    formula? (n + 1) (Text.between [.word (connective any)] (l.map g) ++ rest) =
      some (if any then .any (l.map f) else .all (l.map f),rest) := by
  cases any with
  | true =>
    -- each factor is a conjunction of its own, which the `OR` behind it ends
    have hconjunction : ∀ a ∈ l, ∀ r, Stops false r →
        chained? false (factor? (formula? n)) (g a ++ r) = some (f a,r) := by
      intro a ha r hs
      exact chained?_one (append_ne_nil (hne a ha)) (h a ha r) hs
    refine chained?_many h2 hne hconjunction ?_ hc.stops hc.stops
    rintro r w r' ⟨⟩
    decide
  | false =>
    have hall : chained? false (factor? (formula? n)) (Text.between [.word (connective false)] (l.map g) ++ rest) =
        some (.all (l.map f),rest) :=
      chained?_many (F := fun _ => True) h2 hne (fun a ha r _ => h a ha r) (fun _ => trivial) trivial hc.stops
    refine chained?_one ?_ hall hc.stops
    intro hnil
    rw [hnil] at hall
    exact nomatch hall

end Formulas

theorem length_le_of_mem {w : Lexeme} {l : List Lexeme} {ls : List (List Lexeme)} (h : l ∈ ls) :
    l.length ≤ (Text.between [w] ls).length := by
  induction ls with
  | nil => cases h
  | cons l' ls ih =>
    cases ls with
    | nil =>
      rw [List.mem_singleton.mp h]
      exact Nat.le_refl _
    | cons l'' ls =>
      simp only [Text.between,List.length_append,List.length_cons,List.length_nil] at ih ⊢
      rcases List.mem_cons.mp h with rfl | hm
      · omega
      · have := ih hm
        omega

theorem Predicate.lexemes_ne_nil (p : Predicate String) : p.lexemes ≠ [] := by
  cases p <;> exact List.cons_ne_nil _ _

namespace Layout

def ReadsBack (x : Layout String) : Prop :=
  ∀ n, x.lexemes.length < n → ∀ rest, Closes rest → formula? n (x.lexemes ++ rest) = some (x.formula,rest)

theorem readsBack_atom {p : Predicate String} (h : p.Legible) : (atom p).ReadsBack := by
  intro n hn rest hc
  cases n with
  | zero => cases hn
  | succ n => exact formula?_factor (append_ne_nil p.lexemes_ne_nil) (factor?_predicate h.listed rest) hc

theorem readsBack_never : never.ReadsBack := by
  intro n hn rest hc
  cases n with
  | zero => cases hn
  | succ n => exact formula?_factor (List.cons_ne_nil _ _) rfl hc

theorem readsBack_row (any : Bool) {first second : Predicate String} {more : List (Predicate String)}
    (h : ∀ p ∈ first :: second :: more, p.Legible) : (row any first second more).ReadsBack := by
  intro n hn rest hc
  cases n with
  | zero => cases hn
  | succ n =>
    exact formula?_between (l := first :: second :: more) (by simp) (fun p _ => p.lexemes_ne_nil)
      (fun p hp r => factor?_predicate (h p hp).listed r) hc

theorem readsBack_group (any : Bool) {first second : Layout String} {more : List (Layout String)}
    (h : ∀ x ∈ first :: second :: more, x.ReadsBack) : (group any first second more).ReadsBack := by
  intro n hn rest hc
  cases n with
  | zero => cases hn
  | succ n =>
    have hlexemes : (group any first second more).lexemes =
        Text.between [.word (connective any)] ((first :: second :: more).map (fun x => Lexeme.enclosed x.lexemes)) := by
      rw [lexemes,lexemesAll_eq]
      simp [Function.comp_def]
    have hfactor : ∀ x ∈ first :: second :: more, ∀ r,
        factor? (formula? n) (Lexeme.enclosed x.lexemes ++ r) = some (x.formula,r) := by
      intro x hx r
      have hlen := length_le_of_mem (w := .word (connective any))
        (List.mem_map_of_mem (f := fun x : Layout String => Lexeme.enclosed x.lexemes) hx)
      rw [← hlexemes] at hlen
      simp only [Lexeme.enclosed,List.length_append,List.length_cons,List.length_nil] at hlen
      exact factor?_enclosed x.unlisted (h x hx n (by omega) _ closes_closing)
    rw [hlexemes,formula,formulas_eq_map]
    exact formula?_between (l := first :: second :: more) (by simp) (fun _ _ => List.cons_ne_nil _ _) hfactor hc

theorem readsBack (x : Layout String) (h : x.Legible) : x.ReadsBack := by
  induction x using induct with
  | atom p => exact readsBack_atom h
  | never => exact readsBack_never
  | row any first second more => exact readsBack_row any h
  | group any first second more ihf ihs ihm =>
    obtain ⟨hf,hs,hm⟩ := h
    have hmore := (legibleAll_iff more).mp hm
    refine readsBack_group any (fun x hx => ?_)
    rcases List.mem_cons.mp hx with rfl | hx
    · exact ihf hf
    · rcases List.mem_cons.mp hx with rfl | hx
      · exact ihs hs
      · exact ihm x hx (hmore x hx)

/-- The text of a layout is read as what the layout says. -/
theorem read_render {d : Dialect} {q : Char} (hq : IsQuote q) (hd : d.quote = some q) {x : Layout String}
    (h : x.Legible) : Reader.read q (d.render x.sql) = some (some x.formula) := by
  have hlex := lex_sql hq hd h (n := (d.chars x.sql).length) (Nat.le_refl _)
  have hformula := readsBack x h (x.lexemes.length + 1) (Nat.lt_succ_self _) [] closes_nil
  rw [List.append_nil] at hformula
  unfold Reader.read
  rw [Dialect.render_toList,hlex]
  cases hls : x.lexemes with
  | nil =>
    rw [hls] at hformula
    exact nomatch hformula
  | cons l ls =>
    rw [hls] at hformula
    dsimp only
    rw [hformula]

end Layout

end SqlCompose
