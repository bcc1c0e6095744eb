import SqlCompose.Proofs.CanonicalNames
import SqlCompose.Text.Alias

/-! # Places where an item is cut

An item is cut at the leftmost place where the rest is a tail. A tail starts with a run of blanks, and what is read behind
it leaves no choice: there is one way to write a text as a text that ends with no blank, blanks, and a word.
-/
namespace SqlCompose.Text

variable {c l : Char} {a r s w x y before rest word letters : List Char}

def Blanks (w : List Char) : Prop := ∀ c ∈ w, isBlank c

structure Run (w : List Char) : Prop where
  ne_nil : w ≠ []
  blanks : Blanks w

def Solid (s : List Char) : Prop := ∀ c ∈ s, ¬ isBlank c

/-! ## Blanks and word characters -/

/-- The blanks beyond ASCII are no word characters. -/
theorem wordIntervals_skip_blanks : ∀ n ∈ [0x85,0xa0,0x1680,0x2000,0x2001,0x2002,0x2003,0x2004,0x2005,0x2006,0x2007,0x2008,
    0x2009,0x200a,0x2028,0x2029,0x202f,0x205f,0x3000], Interval.covers wordIntervals n = false := by decide +kernel

theorem not_isBlank_of_isWordChar (h : isWordChar c) : ¬ isBlank c := by
  intro hb
  simp only [isBlank,Bool.or_eq_true,Bool.and_eq_true,decide_eq_true_eq,beq_iff_eq] at hb
  simp only [isWordChar] at h
  split at h
  · simp only [isAsciiLetter,isAsciiDigit,Bool.or_eq_true,Bool.and_eq_true,decide_eq_true_eq,beq_iff_eq] at h
    rcases h with (h | h) | rfl
    · omega
    · omega
    · have hline : '_'.toNat = 95 := rfl
      omega
  · have hskip : Interval.covers wordIntervals c.toNat = false := by
      refine wordIntervals_skip_blanks _ ?_
      simp only [List.mem_cons,List.not_mem_nil,or_false]
      omega
    rw [hskip] at h
    cases h

/-! ## Runs at either end -/

/-- A run of characters of one kind goes as far as to the first other character. -/
theorem takeWhile_append_of {p : Char → Bool} (hw : ∀ c ∈ w, p c) (hrest : ∀ c ∈ rest.head?, ¬ p c) :
    (w ++ rest).takeWhile p = w ∧ (w ++ rest).dropWhile p = rest := by
  rw [List.takeWhile_append_of_pos hw,List.dropWhile_append_of_pos hw]
  cases rest with
  | nil => simp
  | cons c rest =>
    have hc : ¬ p c := hrest c rfl
    rw [List.takeWhile_cons_of_neg hc,List.dropWhile_cons_of_neg hc,List.append_nil]
    exact ⟨rfl,rfl⟩

theorem Blanks.not_mem (hw : Blanks w) (hc : ¬ isBlank c) : c ∉ w := fun hmem => hc (hw c hmem)

theorem trimLeft_append (hw : Blanks w) : trimLeft (w ++ s) = trimLeft s := List.dropWhile_append_of_pos hw

theorem trimLeft_eq_self (h : ∀ c ∈ s.head?, ¬ isBlank c) : trimLeft s = s := by
  cases s with
  | nil => rfl
  | cons c s => exact List.dropWhile_cons_of_neg (h c rfl)

theorem Solid.head (h : Solid s) : ∀ c ∈ s.head?, ¬ isBlank c := fun c hc => h c (List.mem_of_mem_head? hc)

theorem Solid.getLast (h : Solid s) : ∀ c ∈ s.getLast?, ¬ isBlank c := fun c hc => h c (List.mem_of_mem_getLast? hc)

theorem Solid.getLast_append (h : Solid s) (hne : s ≠ []) : ∀ c ∈ (x ++ s).getLast?, ¬ isBlank c := by
  rw [List.getLast?_append_of_ne_nil _ hne]
  exact h.getLast

theorem Run.getLast (h : Run w) : ∀ c ∈ w.getLast?, ¬ ¬ isBlank c :=
  fun c hc => not_not_intro (h.blanks c (List.mem_of_mem_getLast? hc))

theorem Run.getLast_append (h : Run w) : ∀ c ∈ (x ++ w).getLast?, ¬ ¬ isBlank c := by
  rw [List.getLast?_append_of_ne_nil _ h.ne_nil]
  exact h.getLast

theorem getLast?_of_suffix (h : r <:+ s) (hne : r ≠ []) : r.getLast? = s.getLast? := by
  obtain ⟨before,rfl⟩ := h
  exact (List.getLast?_append_of_ne_nil _ hne).symm

/-- What ends in blanks but does not consist of them has a last character before them. -/
theorem not_blanks_append (hne : r ≠ []) (hr : ∀ c ∈ r.getLast?, ¬ isBlank c) : ¬ Blanks (r ++ w) := by
  intro hblanks
  obtain ⟨c,hc⟩ := Option.isSome_iff_exists.mp (List.getLast?_isSome.mpr hne)
  exact hr c hc (hblanks c (List.mem_append_left _ (List.mem_of_mem_getLast? hc)))

/-- A run at the end goes as far to the left as it can. -/
theorem append_inj_of_run {p : Char → Prop} {b : List Char} (ha : ∀ c ∈ a, p c) (hb : ∀ c ∈ b, p c)
    (hx : ∀ c ∈ x.getLast?, ¬ p c) (hy : ∀ c ∈ y.getLast?, ¬ p c) (h : x ++ a = y ++ b) : x = y ∧ a = b := by
  rcases List.append_eq_append_iff.mp h with ⟨u,rfl,rfl⟩ | ⟨u,rfl,rfl⟩
  · rcases List.eq_nil_or_concat u with rfl | ⟨u,c,rfl⟩
    · simp
    · exact absurd (ha c (by simp)) (hy c (by simp))
  · rcases List.eq_nil_or_concat u with rfl | ⟨u,c,rfl⟩
    · simp
    · exact absurd (hb c (by simp)) (hx c (by simp))

/-! ## Words in any letter case -/

theorem toNat_upperChar (c : Char) : (upperChar c).toNat =
    if 97 ≤ c.toNat ∧ c.toNat ≤ 122 then c.toNat - 32
    else if c.toNat = 305 then 73 else if c.toNat = 383 then 83 else c.toNat := by
  have hi : c = 'ı' ↔ c.toNat = 305 := ⟨fun h => by rw [h]; rfl,fun h => Char.toNat_inj.mp h⟩
  have hs : c = 'ſ' ↔ c.toNat = 383 := ⟨fun h => by rw [h]; rfl,fun h => Char.toNat_inj.mp h⟩
  unfold upperChar
  simp only [Bool.and_eq_true,decide_eq_true_eq,beq_iff_eq,hi,hs]
  split
  · exact toNat_ofNat (.inl (by omega))
  · split
    · rfl
    · split <;> rfl

def IsLetter (l : Char) : Prop := 97 ≤ l.toNat ∧ l.toNat ≤ 122 ∧ l ≠ 'i'

theorem upperChar_eq_iff (hl : IsLetter l) :
    upperChar c = upperChar l ↔ (c = l ∨ c.toNat + 32 = l.toNat) ∨ (c = 'ſ' ∧ l = 's') := by
  obtain ⟨hlow,hhigh,hi⟩ := hl
  have hi : l.toNat ≠ 105 := fun h => hi (Char.toNat_inj.mp h)
  have hl : ∀ n : Char, l = n ↔ l.toNat = n.toNat := fun n => Char.toNat_inj.symm
  have hc : ∀ n : Char, c = n ↔ c.toNat = n.toNat := fun n => Char.toNat_inj.symm
  have hlong : 'ſ'.toNat = 383 := rfl
  have hsmall : 's'.toNat = 115 := rfl
  rw [← Char.toNat_inj,toNat_upperChar,toNat_upperChar,hc,hc,hl,hlong,hsmall]
  split_ifs <;> omega

theorem afterLetter?_cons (hl : IsLetter l) :
    afterLetter? l (c :: rest) = if upperChar c = upperChar l then some rest else none := by
  simp only [afterLetter?,upperChar_eq_iff hl,Bool.or_eq_true,Bool.and_eq_true,beq_iff_eq]

theorem afterWord?_cons (l : Char) (letters s : List Char) :
    afterWord? (l :: letters) s = (afterLetter? l s).bind (afterWord? letters) := by
  have hnone : ∀ letters : List Char,
      letters.foldl (fun rest letter => rest.bind (afterLetter? letter)) none = none := by
    intro letters
    induction letters with
    | nil => rfl
    | cons l letters ih => exact ih
  have hstep : afterWord? (l :: letters) s =
      letters.foldl (fun rest letter => rest.bind (afterLetter? letter)) (afterLetter? l s) := rfl
  rw [hstep]
  cases afterLetter? l s with
  | none => exact hnone letters
  | some rest => rfl

/-- A word is read in any letter case. -/
theorem afterWord?_eq_some (hl : ∀ l ∈ letters, IsLetter l) :
    afterWord? letters s = some rest ↔ ∃ word, s = word ++ rest ∧ keyword word = keyword letters := by
  induction letters generalizing s with
  | nil =>
    constructor
    · rintro ⟨⟩
      exact ⟨[],rfl,rfl⟩
    · rintro ⟨word,rfl,hw⟩
      rw [List.map_eq_nil_iff.mp hw]
      rfl
  | cons l letters ih =>
    obtain ⟨hl,hletters⟩ := List.forall_mem_cons.mp hl
    rw [afterWord?_cons]
    cases s with
    | nil =>
      have hno : ¬ ∃ word, ([] : List Char) = word ++ rest ∧ keyword word = keyword (l :: letters) := by
        rintro ⟨word,hw,hk⟩
        rw [(List.append_eq_nil_iff.mp hw.symm).1] at hk
        cases hk
      exact ⟨nofun,fun h => absurd h hno⟩
    | cons c s =>
      rw [afterLetter?_cons hl]
      constructor
      · intro h
        split at h
        · next hc =>
          obtain ⟨word,rfl,hw⟩ := (ih hletters).mp h
          exact ⟨c :: word,rfl,by rw [keyword,List.map_cons,hc,← keyword,hw]; rfl⟩
        · cases h
      · rintro ⟨word,hw,hk⟩
        cases word with
        | nil => cases hk
        | cons d word =>
          obtain ⟨rfl,rfl⟩ := List.cons.inj hw
          obtain ⟨hc,hk⟩ := List.cons.inj hk
          rw [if_pos hc]
          exact (ih hletters).mpr ⟨word,rfl,hk⟩

theorem not_mem_of_keyword {capitals : List Char} (h : keyword word = capitals) (hc : upperChar c ∉ capitals) : c ∉ word :=
  fun hmem => hc (h ▸ List.mem_map_of_mem hmem)

/-- A word in capitals has no blanks in any letter case. -/
theorem solid_of_keyword {capitals : List Char} (hc : ∀ c ∈ capitals, 65 ≤ c.toNat ∧ c.toNat ≤ 90)
    (h : keyword word = capitals) : Solid word := by
  intro c hmem hblank
  have hupper := hc (upperChar c) (h ▸ List.mem_map_of_mem hmem)
  rw [toNat_upperChar] at hupper
  simp only [isBlank,Bool.or_eq_true,Bool.and_eq_true,decide_eq_true_eq,beq_iff_eq] at hblank
  split_ifs at hupper <;> omega

/-! ## What is read behind blanks -/

theorem afterBlanks?_append (hw : Run w) (hs : ∀ c ∈ s.head?, ¬ isBlank c) : afterBlanks? (w ++ s) = some s := by
  obtain ⟨c,w',rfl⟩ := List.exists_cons_of_ne_nil hw.ne_nil
  have htrim : trimLeft (c :: w' ++ s) = s := by rw [trimLeft_append hw.blanks,trimLeft_eq_self hs]
  rw [List.cons_append] at htrim ⊢
  rw [afterBlanks?,if_pos (hw.blanks c (.head _)),htrim]

theorem afterBlanks?_of_head (hs : ∀ c ∈ s.head?, ¬ isBlank c) : afterBlanks? s = none := by
  cases s with
  | nil => rfl
  | cons c s => simp [afterBlanks?,hs c rfl]

theorem of_afterBlanks? (h : afterBlanks? s = some rest) : ∃ w, Run w ∧ s = w ++ rest := by
  cases s with
  | nil => cases h
  | cons c s =>
    rw [afterBlanks?] at h
    split at h
    · next hc =>
      cases h
      have hsplit := List.takeWhile_append_dropWhile (p := isBlank) (l := c :: s)
      exact ⟨(c :: s).takeWhile isBlank,⟨by simp [hc],fun d hd => List.mem_takeWhile_imp hd⟩,hsplit.symm⟩
    · cases h

theorem isEnd_iff : isEnd s ↔ s = [] ∨ s = ['\n'] := by simp [isEnd]

/-- A run up to the end, which one final line feed may follow. -/
theorem run_to_end {p : Char → Bool} (h : isEnd (s.dropWhile p)) : s = s.takeWhile p ∨ s = s.takeWhile p ++ ['\n'] := by
  have hsplit := List.takeWhile_append_dropWhile (p := p) (l := s)
  rcases isEnd_iff.mp h with he | he
  · rw [he,List.append_nil] at hsplit
    exact .inl hsplit.symm
  · rw [he] at hsplit
    exact .inr hsplit.symm

/-- A final line feed that is let through is no part of a text that ends otherwise. -/
theorem eq_of_end (h : s = a ∨ s = a ++ ['\n']) (hs : ∀ c ∈ s.getLast?, ¬ isBlank c) : s = a := by
  rcases h with h | h
  · exact h
  · exact absurd (by decide) (hs '\n' (by simp [h]))

/-! ## The leftmost place -/

section Cut
variable {α : Type} {tail? : List Char → Option α} {t : α}

/-- An item is cut where its rest is a tail, if the rest is none at any place before. -/
theorem cutWhere?_append (hline : '\n' ∉ before) (hs : s ≠ [])
    (hno : ∀ r, r <:+ before → r ≠ [] → tail? (r ++ s) = none) (h : tail? s = some t) :
    cutWhere? tail? (before ++ s) = some (before,t) := by
  induction before with
  | nil =>
    obtain ⟨c,s,rfl⟩ := List.exists_cons_of_ne_nil hs
    rw [List.nil_append,cutWhere?,h]
  | cons c before ih =>
    rw [List.mem_cons,not_or] at hline
    have hc : (c == '\n') = false := by simpa using Ne.symm hline.1
    have hhere := hno (c :: before) List.suffix_rfl (by simp)
    have hrest := ih hline.2 (fun r hr => hno r (hr.trans (List.suffix_cons c before)))
    rw [List.cons_append] at hhere ⊢
    rw [cutWhere?,hhere]
    simp [hc,hrest]

theorem cutWhere?_eq_none (h : ∀ r, r <:+ s → tail? r = none) : cutWhere? tail? s = none := by
  induction s with
  | nil => rfl
  | cons c s ih =>
    rw [cutWhere?,h _ List.suffix_rfl,ih (fun r hr => h r (hr.trans (List.suffix_cons c s)))]
    simp

theorem of_cutWhere? (h : cutWhere? tail? s = some (before,t)) :
    ∃ rest, s = before ++ rest ∧ tail? rest = some t ∧ '\n' ∉ before ∧
      ∀ r, r <:+ before → r ≠ [] → tail? (r ++ rest) = none := by
  induction s generalizing before with
  | nil => cases h
  | cons c s ih =>
    rw [cutWhere?] at h
    split at h
    · next b hb =>
      cases h
      exact ⟨c :: s,rfl,hb,List.not_mem_nil,fun r hr hne => absurd (List.suffix_nil.mp hr) hne⟩
    · next hnone =>
      split at h
      · cases h
      · next hc =>
        obtain ⟨⟨more,b⟩,hmore,hcut⟩ := Option.map_eq_some_iff.mp h
        cases hcut
        obtain ⟨rest,rfl,hb,hline,hno⟩ := ih hmore
        have hne : '\n' ≠ c := fun he => hc (by simp [← he])
        refine ⟨rest,rfl,hb,List.not_mem_cons_of_ne_of_not_mem hne hline,fun r hr hr' => ?_⟩
        rcases List.suffix_cons_iff.mp hr with rfl | hr
        · exact hnone
        · exact hno r hr hr'

end Cut

end SqlCompose.Text
