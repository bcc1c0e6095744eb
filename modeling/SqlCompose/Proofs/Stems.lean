import SqlCompose.Options
import SqlCompose.Proofs.Cutting
import SqlCompose.Proofs.Entries

/-! # Stems of placeholders

The options accept an identifier as the stem of the placeholders, and also an identifier with a line feed behind it. A
placeholder is named by the stem and a number. It consists of word characters exactly if the stem is an identifier; the line
feed of any other accepted stem goes into every name and into the text of every placeholder.
-/
namespace SqlCompose
open Text

variable {c : Char} {p name : String} {n : Nat}

inductive IsIdentifier : List Char → Prop where
  | mk {c : Char} {rest : List Char} (hfirst : isAsciiLetter c ∨ c = '_') (hrest : ∀ d ∈ rest, isWordChar d) :
    IsIdentifier (c :: rest)

/-- A character that stays within one word of a text: no white space, no quote and no parenthesis. -/
def Inert (c : Char) : Prop := ¬ isBlank c ∧ c ∉ ['\x22','\x27','\x60','(',')']

/-! ## Word characters -/

theorem isWordChar_of_first (h : isAsciiLetter c ∨ c = '_') : isWordChar c := by
  rcases h with h | rfl
  · have hascii : c.toNat < 128 := by
      simp only [isAsciiLetter,Bool.or_eq_true,Bool.and_eq_true,decide_eq_true_eq] at h
      omega
    simp [isWordChar,hascii,h]
  · decide

theorem isWordChar_of_isDigit (h : c.isDigit) : isWordChar c := by
  have hrange : 48 ≤ c.toNat ∧ c.toNat ≤ 57 := by
    simpa [Char.isDigit,UInt32.le_iff_toNat_le] using h
  have hascii : c.toNat < 128 := by omega
  simp [isWordChar,isAsciiDigit,hascii,hrange]

theorem inert_of_isWordChar (h : isWordChar c) : Inert c := by
  have hmarks : ['\x22','\x27','\x60','(',')'].all (fun d => !isWordChar d) := by decide
  refine ⟨not_isBlank_of_isWordChar h,fun hmem => ?_⟩
  have hnot := List.all_eq_true.mp hmarks c hmem
  simp [h] at hnot

theorem IsIdentifier.word {s : List Char} (h : IsIdentifier s) : ∀ c ∈ s, isWordChar c := by
  cases h with
  | mk hfirst hrest => exact List.forall_mem_cons.mpr ⟨isWordChar_of_first hfirst,hrest⟩

/-! ## The stems that options accept -/

namespace Options

/-- An accepted stem is an identifier, or an identifier with a line feed behind it. -/
theorem isStem_iff : isStem p ↔ IsIdentifier p.toList ∨ ∃ s, IsIdentifier s ∧ p.toList = s ++ ['\n'] := by
  unfold isStem
  cases hp : p.toList with
  | nil =>
    refine ⟨nofun,?_⟩
    rintro (h | ⟨s,-,hs⟩)
    · cases h
    · simp at hs
  | cons c rest =>
    simp only [Bool.and_eq_true,Bool.or_eq_true,beq_iff_eq]
    constructor
    · rintro ⟨hfirst,hrest⟩
      have hident : IsIdentifier (c :: rest.takeWhile isWordChar) := .mk hfirst (fun d hd => List.mem_takeWhile_imp hd)
      obtain hall | hall := run_to_end (isEnd_iff.mpr hrest)
      · rw [← hall] at hident
        exact .inl hident
      · exact .inr ⟨_,hident,congrArg (c :: ·) hall⟩
    · rintro (⟨hfirst,hrest⟩ | ⟨_,⟨hfirst,hword⟩,heq⟩)
      · exact ⟨hfirst,.inl (List.dropWhile_eq_nil_iff.mpr hrest)⟩
      · obtain ⟨rfl,rfl⟩ := List.cons.inj heq
        have hdrop : (_ ++ ['\n']).dropWhile isWordChar = ['\n'].dropWhile isWordChar := List.dropWhile_append_of_pos hword
        exact ⟨hfirst,.inr (hdrop.trans (by decide))⟩

/-- The characters of an accepted stem. -/
theorem mem_stem (h : isStem p) (hc : c ∈ p.toList) : isWordChar c ∨ c = '\n' := by
  obtain hident | ⟨s,hident,hs⟩ := isStem_iff.mp h
  · exact .inl (hident.word c hc)
  · rw [hs] at hc
    rcases List.mem_append.mp hc with hc | hc
    · exact .inl (hident.word c hc)
    · exact .inr (List.mem_singleton.mp hc)

def ofStem (m : Memory) (p : String) : Except Fault Options := ofValue m (.mapping [(.text "param_prefix",.text p)])

theorem ofStem_eq (m : Memory) (p : String) : ofStem m p =
    if isStem p then .ok { stem := p } else .error (.invalidRecord .options ["param_prefix"]) := by
  have hargs : Record.arguments m (.mapping [(.text "param_prefix",.text p)]) = .ok [(.text "param_prefix",.text p)] := rfl
  have hentries : ofEntries m [(.text "param_prefix",.text p)] =
      if isStem p then .ok { stem := p } else .error ["param_prefix"] := by
    have hread : readStem? (.text p) = if isStem p then some p else none := by
      simp [readStem?,Value.readText?,Value.text?,Option.filter]
    have hunknown : Entries.unknown m ["separator","param_prefix","type_map"] [(.text "param_prefix",.text p)] = [] := rfl
    unfold ofEntries
    simp only [Entries.field?_cons,Entries.field?_nil,hunknown,Value.text?]
    by_cases h : isStem p <;> simp [hread,h,Checked.ofFields]
  calc ofStem m p = (ofEntries m [(.text "param_prefix",.text p)]).orFault .options := by rw [ofStem,ofValue,hargs]; rfl
    _ = if isStem p then .ok { stem := p } else .error (.invalidRecord .options ["param_prefix"]) := by
      rw [hentries]
      split <;> rfl

end Options

/-! ## Placeholders -/

theorem Number.writeInt_natCast (n : Nat) : writeInt n = String.ofList (Nat.toDigits 10 n) := by
  have hn : ¬ (n : Int) < 0 := by omega
  simp [writeInt,hn]

theorem Number.isDigit_of_mem_writeInt (h : c ∈ (writeInt n).toList) : c.isDigit := by
  rw [writeInt_natCast,String.toList_ofList] at h
  exact Nat.isDigit_of_mem_toDigits (by decide) (by decide) h

theorem Dialect.placeholder_around (d : Dialect) (name : String) :
    ∃ before after, (before,after) ∈ [(":",""),("%(",")s")] ∧ d.placeholder name = before ++ name ++ after := by
  unfold placeholder
  cases d.placeholders with
  | colon => exact ⟨":","",by simp,by simp⟩
  | percent => exact ⟨"%(",")s",by simp,rfl⟩

/-- Characters that all word characters are, and a line feed is not, are those of the names exactly if the stem is an
identifier. -/
theorem Setting.forall_placeholderName_iff {s : Setting} {P : Char → Prop} (hword : ∀ c, isWordChar c → P c)
    (hbreak : ¬ P '\n') (h : Options.isStem s.stem) (n : Nat) :
    (∀ c ∈ (s.placeholderName n).toList, P c) ↔ IsIdentifier s.stem.toList := by
  have hname : (s.placeholderName n).toList = s.stem.toList ++ (Number.writeInt n).toList := String.toList_append
  rw [hname]
  constructor
  · intro hall
    obtain hident | ⟨t,-,ht⟩ := Options.isStem_iff.mp h
    · exact hident
    · exact absurd (hall '\n' (by simp [ht])) hbreak
  · intro hident c hc
    rcases List.mem_append.mp hc with hc | hc
    · exact hword c (hident.word c hc)
    · exact hword c (isWordChar_of_isDigit (Number.isDigit_of_mem_writeInt hc))

/-- The stems that options accept are the identifiers, also with one line feed behind them; all others are rejected by the
field they are given for. A placeholder is named by the stem and a number, and is written as the name with nothing but the
marks of the dialect around it. Its name consists of word characters, and has no white space, quote or parenthesis, exactly
if the stem is an identifier: a line feed behind it stays in the name. -/
theorem Options.stems_accepted (m : Memory) (p : String) :
    ((∃ o, ofStem m p = .ok o) ↔ IsIdentifier p.toList ∨ ∃ s, IsIdentifier s ∧ p.toList = s ++ ['\n']) ∧
    ((∀ o, ofStem m p ≠ .ok o) → ofStem m p = .error (.invalidRecord .options ["param_prefix"])) ∧
    ∀ o, ofStem m p = .ok o → ∀ (d : Dialect) (n : Nat), ∃ name before after,
      name = (o.setting d).placeholderName n ∧ name = p ++ Number.writeInt n ∧
      (before,after) ∈ [(":",""),("%(",")s")] ∧ d.placeholder name = before ++ name ++ after ∧
      ((∀ c ∈ name.toList, isWordChar c) ↔ IsIdentifier p.toList) ∧
      ((∀ c ∈ name.toList, Inert c) ↔ IsIdentifier p.toList) := by
  rw [ofStem_eq,← isStem_iff]
  by_cases h : isStem p
  · refine ⟨by simp [h],fun hnone => absurd (if_pos h) (hnone _),fun o ho d n => ?_⟩
    rw [if_pos h] at ho
    cases ho
    have hstem : isStem ((setting { stem := p } d).stem) := h
    obtain ⟨before,after,hmarks,hplaceholder⟩ := d.placeholder_around ((setting { stem := p } d).placeholderName n)
    exact ⟨_,before,after,rfl,rfl,hmarks,hplaceholder,
      Setting.forall_placeholderName_iff (fun _ => id) (by decide) hstem n,
      Setting.forall_placeholderName_iff (fun _ => inert_of_isWordChar) (fun hc => hc.1 (by decide)) hstem n⟩
  · refine ⟨by simp [h],fun _ => if_neg h,fun o ho => ?_⟩
    rw [if_neg h] at ho
    cases ho

/-- A stem with an accented letter. -/
theorem Options.stems_accepted_accented : IsIdentifier "qé_1".toList ∧ ∃ o, ofStem {} "qé_1" = .ok o ∧
    ∀ (d : Dialect) (n : Nat), (∀ c ∈ ((o.setting d).placeholderName n).toList, isWordChar c) ∧
      ∀ c ∈ ((o.setting d).placeholderName n).toList, Inert c := by
  have hident : IsIdentifier "qé_1".toList := @IsIdentifier.mk 'q' ['é','_','1'] (by decide) (List.all_eq_true.mp (by decide))
  obtain ⟨haccepted,-,hnames⟩ := stems_accepted {} "qé_1"
  obtain ⟨o,ho⟩ := haccepted.mpr (.inl hident)
  refine ⟨hident,o,ho,fun d n => ?_⟩
  obtain ⟨name,_,_,rfl,-,-,-,hword,hinert⟩ := hnames o ho d n
  exact ⟨hword.mpr hident,hinert.mpr hident⟩

/-- A line feed that comes into a placeholder. -/
theorem Options.line_feed_accepted : ¬ IsIdentifier "qp\n".toList ∧ ofStem {} "qp\n" = .ok { stem := "qp\n" } ∧
    Dialect.sqlite.placeholder ((setting { stem := "qp\n" } .sqlite).placeholderName 0) = ":qp\n0" :=
  ⟨fun h => absurd (h.word '\n' (by decide)) (by decide),(ofStem_eq {} _).trans (if_pos (by decide)),by decide⟩

end SqlCompose
