import SqlCompose.Registry
import Mathlib.Data.List.DropRight
import Mathlib.Data.List.TakeWhile

/-! # Names in their canonical form

A name in lower case stays as it is when it is written in lower case again, and no blanks come to stand around it. So
the canonical form of a name is its own canonical form.
-/
namespace SqlCompose

namespace Text
variable {c x : Char} {n : Nat} {l before : List Char} {r q : Shift}

/-! ## Shifts -/

def untouched : List Interval := [
  (9, 13), (28, 32), (65, 90), (0x85, 0x85), (0xa0, 0xa0), (304, 304), (0x1680, 0x1680), (0x2000, 0x200a),
  (0x2028, 0x2029), (0x202f, 0x202f), (0x205f, 0x205f), (0x3000, 0x3000), (0xd800, 0xdfff)]

namespace Shift

def target (r : Shift) (n : Nat) : Nat := (n + r.distance).toNat

def Moves (r : Shift) (n : Nat) : Prop := r.first ≤ n ∧ n ≤ r.last ∧ (n - r.first) % r.step = 0

def leadsOut (r : Shift) : Bool :=
  (0 ≤ r.first + r.distance) && Nat.blt (r.target r.last) 0x110000 &&
    untouched.all (fun i => Nat.blt (r.target r.last) i.1 || Nat.blt i.2 (r.target r.first))

def apart (r q : Shift) : Bool :=
  (Nat.blt q.last (r.target r.first) || Nat.blt (r.target r.last) q.first) ||
    (q.step == 2 && (r.step == 2 || r.first == r.last) && r.target r.first % 2 != q.first % 2)

end Shift

theorem all_leadOut : lowerShifts.all Shift.leadsOut := by decide +kernel

theorem all_apart : lowerShifts.all (fun r => lowerShifts.all r.apart) := by decide +kernel

namespace Shift

theorem target_cast (hr : r.leadsOut) (hm : r.Moves n) : (r.target n : Int) = n + r.distance := by
  simp only [leadsOut,Bool.and_eq_true,decide_eq_true_eq] at hr
  obtain ⟨hfirst,-,-⟩ := hm
  unfold target
  omega

theorem first_le_target (hm : r.Moves n) : r.target r.first ≤ r.target n := by
  obtain ⟨hfirst,-,-⟩ := hm
  unfold target
  omega

theorem target_le_last (hm : r.Moves n) : r.target n ≤ r.target r.last := by
  obtain ⟨-,hlast,-⟩ := hm
  unfold target
  omega

theorem not_mem_untouched (hr : r.leadsOut) (hm : r.Moves n) {i : Interval} (hi : i ∈ untouched) :
    r.target n < i.1 ∨ i.2 < r.target n := by
  simp only [leadsOut,Bool.and_eq_true,List.all_eq_true,Bool.or_eq_true,Nat.blt_eq] at hr
  have hlow := first_le_target hm
  have hhigh := target_le_last hm
  rcases hr.2 i hi with h | h
  · exact .inl (by omega)
  · exact .inr (by omega)

theorem isValidChar_target (hr : r.leadsOut) (hm : r.Moves n) : (r.target n).isValidChar := by
  have hgap := not_mem_untouched hr hm (i := (0xd800,0xdfff)) (by simp [untouched])
  have hhigh := target_le_last hm
  simp only [leadsOut,Bool.and_eq_true,Nat.blt_eq] at hr
  unfold Nat.isValidChar
  omega

def passes (r : Shift) (n : Nat) : Bool := Nat.blt n r.first || Nat.blt r.last n || (n - r.first) % r.step != 0

theorem not_moves_of_passes (h : r.passes n) : ¬ r.Moves n := by
  rintro ⟨hfirst,hlast,hstep⟩
  simp only [passes,Bool.or_eq_true,Nat.blt_eq,bne_iff_ne] at h
  omega

/-- What one shift gives, no other moves. -/
theorem not_moves_target (hr : r.leadsOut) (hapart : r.apart q) (hm : r.Moves n) : ¬ q.Moves (r.target n) := by
  rintro ⟨hfirst,hlast,hstep⟩
  have hlow := first_le_target hm
  have hhigh := target_le_last hm
  simp only [apart,Bool.or_eq_true,Bool.and_eq_true,Nat.blt_eq,beq_iff_eq,bne_iff_ne] at hapart
  rcases hapart with (h | h) | ⟨⟨hq,hsecond⟩,hparity⟩
  · omega
  · omega
  · -- both numbers have the parity of the first one that the shift gives
    have hsame : r.target n % 2 = r.target r.first % 2 := by
      have hn := target_cast hr hm
      have hf := target_cast hr (n := r.first) ⟨Nat.le_refl _,hm.1.trans hm.2.1,by simp⟩
      obtain ⟨hle,hge,hmod⟩ := hm
      rcases hsecond with hs | hs
      · rw [hs] at hmod
        omega
      · have hone : n = r.first := by omega
        rw [hone]
    rw [hq] at hstep
    omega

end Shift

/-! ## Lower case -/

def Settled (c : Char) : Prop := lowerChar c = c ∧ c ≠ 'İ'

theorem not_settled_sigma : ¬ Settled 'Σ' := by
  rintro ⟨h,-⟩
  revert h
  decide +kernel

/-- A character is its own lower case, a capital of ASCII, or moved by a shift. -/
theorem lowerChar_cases (c : Char) : lowerChar c = c ∨
    (65 ≤ c.toNat ∧ c.toNat ≤ 90 ∧ lowerChar c = Char.ofNat (c.toNat + 32)) ∨
    ∃ r ∈ lowerShifts, r.Moves c.toNat ∧ lowerChar c = Char.ofNat (r.target c.toNat) := by
  unfold lowerChar
  dsimp only
  split
  · split
    · next h =>
      simp only [Bool.and_eq_true,decide_eq_true_eq] at h
      exact .inr (.inl ⟨h.1,h.2,rfl⟩)
    · exact .inl rfl
  · split
    · next r hr =>
      have hmoves := List.find?_some hr
      simp only [Bool.and_eq_true,decide_eq_true_eq,beq_iff_eq] at hmoves
      exact .inr (.inr ⟨r,List.mem_of_find?_eq_some hr,⟨hmoves.1.1,hmoves.1.2,hmoves.2⟩,rfl⟩)
    · exact .inl rfl

/-- A character of ASCII that is no capital, and any that no shift moves, is its own lower case. -/
theorem lowerChar_eq_self (h : c.toNat < 65 ∨ 90 < c.toNat)
    (hr : 128 ≤ c.toNat → ∀ r ∈ lowerShifts, ¬ r.Moves c.toNat) : lowerChar c = c := by
  unfold lowerChar
  dsimp only
  split
  · rw [if_neg]
    simp only [Bool.and_eq_true,decide_eq_true_eq]
    omega
  · next hn =>
    have hnone : lowerShifts.find?
        (fun r => r.first ≤ c.toNat && c.toNat ≤ r.last && (c.toNat - r.first) % r.step == 0) = none := by
      rw [List.find?_eq_none]
      intro r hmem hmoves
      simp only [Bool.and_eq_true,decide_eq_true_eq,beq_iff_eq] at hmoves
      exact hr (by omega) r hmem ⟨hmoves.1.1,hmoves.1.2,hmoves.2⟩
    rw [hnone]

theorem toNat_ofNat (h : n.isValidChar) : (Char.ofNat n).toNat = n := by
  unfold Char.ofNat
  rw [dif_pos h]
  rfl

theorem settled_lowerChar (h : c ≠ 'İ') : Settled (lowerChar c) := by
  rcases lowerChar_cases c with he | ⟨hlow,hhigh,he⟩ | ⟨r,hr,hm,he⟩
  · exact ⟨by rw [he,he],by rwa [he]⟩
  · have hn : (lowerChar c).toNat = c.toNat + 32 := by
      rw [he]
      exact toNat_ofNat (.inl (by omega))
    refine ⟨lowerChar_eq_self (by omega) (by omega),?_⟩
    rintro hdotted
    rw [hdotted] at hn
    have hvalue : 'İ'.toNat = 304 := rfl
    omega
  · have hout := List.all_eq_true.mp all_leadOut r hr
    have hn : (lowerChar c).toNat = r.target c.toNat := by
      rw [he]
      exact toNat_ofNat (Shift.isValidChar_target hout hm)
    have hcapital := Shift.not_mem_untouched hout hm (i := (65,90)) (by simp [untouched])
    refine ⟨lowerChar_eq_self (by rwa [hn]) (fun _ q hq => ?_),?_⟩
    · rw [hn]
      exact Shift.not_moves_target hout (List.all_eq_true.mp (List.all_eq_true.mp all_apart r hr) q hq) hm
    · rintro hdotted
      have hi := Shift.not_mem_untouched hout hm (i := (304,304)) (by simp [untouched])
      rw [← hn,hdotted] at hi
      have hvalue : 'İ'.toNat = 304 := rfl
      omega

/-- No blank is the lower case of anything else. -/
theorem isBlank_of_lowerChar (h : isBlank (lowerChar c)) : isBlank c := by
  rcases lowerChar_cases c with he | ⟨hlow,hhigh,he⟩ | ⟨r,hr,hm,he⟩
  · rwa [he] at h
  · have hn : (lowerChar c).toNat = c.toNat + 32 := by
      rw [he]
      exact toNat_ofNat (.inl (by omega))
    simp only [isBlank,hn,Bool.or_eq_true,Bool.and_eq_true,decide_eq_true_eq,beq_iff_eq] at h
    omega
  · exfalso
    have hout := List.all_eq_true.mp all_leadOut r hr
    have hn : (lowerChar c).toNat = r.target c.toNat := by
      rw [he]
      exact toNat_ofNat (Shift.isValidChar_target hout hm)
    have hi : ∀ i ∈ untouched, (lowerChar c).toNat < i.1 ∨ i.2 < (lowerChar c).toNat := by
      intro i hi
      rw [hn]
      exact Shift.not_mem_untouched hout hm hi
    simp only [untouched,List.forall_mem_cons] at hi
    simp only [isBlank,Bool.or_eq_true,Bool.and_eq_true,decide_eq_true_eq,beq_iff_eq] at h
    omega

/-- The shifts pass the two small sigmas and the dot above by. -/
theorem all_pass : ∀ n ∈ [775,962,963], lowerShifts.all (fun r => r.passes n) := by decide +kernel

theorem lowerChar_of_pass (hn : 90 < c.toNat) (h : lowerShifts.all (fun r => r.passes c.toNat)) : lowerChar c = c :=
  lowerChar_eq_self (.inr hn) (fun _ r hr => Shift.not_moves_of_passes (List.all_eq_true.mp h r hr))

/-- What the two special characters become. -/
theorem settled_special : ∀ x ∈ ['ς','σ','i','\u0307'], lowerChar x = x ∧ x ≠ 'İ' ∧ isBlank x = false := by
  have hfinal : lowerChar 'ς' = 'ς' := lowerChar_of_pass (by decide) (all_pass 962 (by simp))
  have hsigma : lowerChar 'σ' = 'σ' := lowerChar_of_pass (by decide) (all_pass 963 (by simp))
  have hdot : lowerChar '\u0307' = '\u0307' := lowerChar_of_pass (by decide) (all_pass 775 (by simp))
  simp only [List.forall_mem_cons]
  exact ⟨⟨hfinal,by decide,by decide⟩,⟨hsigma,by decide,by decide⟩,⟨by decide,by decide,by decide⟩,
    ⟨hdot,by decide,by decide⟩,nofun⟩

/-- The lower case of a text is that of its first character, in its place, followed by that of the others. -/
theorem lowerFrom_cons (before : List Char) (c : Char) (l : List Char) :
    ∃ w, lowerFrom before (c :: l) = w ++ lowerFrom (c :: before) l ∧ w ≠ [] ∧
      ∀ x ∈ w, Settled x ∧ (isBlank x → isBlank c) := by
  have hspecial : ∀ x ∈ ['ς','σ','i','\u0307'], Settled x ∧ (isBlank x → isBlank c) := by
    intro x hx
    obtain ⟨hlower,hdotted,hblank⟩ := settled_special x hx
    exact ⟨⟨hlower,hdotted⟩,fun h => by rw [hblank] at h; cases h⟩
  rw [lowerFrom]
  refine ⟨_,rfl,?_⟩
  split
  · split
    · exact ⟨by simp,List.forall_mem_singleton.mpr (hspecial _ (by simp))⟩
    · exact ⟨by simp,List.forall_mem_singleton.mpr (hspecial _ (by simp))⟩
  · split
    · refine ⟨by simp,fun x hx => hspecial x ?_⟩
      simp only [List.mem_cons,List.not_mem_nil,or_false] at hx ⊢
      exact .inr (.inr hx)
    · next hdotted =>
      exact ⟨by simp,List.forall_mem_singleton.mpr ⟨settled_lowerChar (by simpa using hdotted),isBlank_of_lowerChar⟩⟩

theorem settled_of_mem_lowerFrom (h : x ∈ lowerFrom before l) : Settled x := by
  induction l generalizing before with
  | nil => cases h
  | cons c l ih =>
    obtain ⟨w,hw,-,hall⟩ := lowerFrom_cons before c l
    rw [hw] at h
    rcases List.mem_append.mp h with h | h
    · exact (hall x h).1
    · exact ih h

/-- Characters in lower case stay as they are. -/
theorem lowerFrom_eq_self (h : ∀ c ∈ l, Settled c) : lowerFrom before l = l := by
  induction l generalizing before with
  | nil => rfl
  | cons c l ih =>
    obtain ⟨hc,hl⟩ := List.forall_mem_cons.mp h
    have hsigma : c ≠ 'Σ' := fun he => not_settled_sigma (he ▸ hc)
    rw [lowerFrom]
    simp only [beq_iff_eq,hsigma,hc.2,hc.1,if_false,ih hl,List.cons_append,List.nil_append]

/-! ## Blanks around a text -/

def Trimmed (l : List Char) : Prop := (∀ c ∈ l.head?, ¬ isBlank c) ∧ ∀ c ∈ l.getLast?, ¬ isBlank c

theorem trimmed_trim (l : List Char) : Trimmed (trim l) := by
  have hright : trim l = (l.dropWhile isBlank).rdropWhile isBlank := rfl
  constructor
  · intro c hc
    -- what is cut off on the right leaves the first character
    obtain ⟨tail,htail⟩ := List.rdropWhile_prefix isBlank (l := l.dropWhile isBlank)
    obtain ⟨rest,hrest⟩ := List.head?_eq_some_iff.mp hc
    rw [← hright,hrest,List.cons_append] at htail
    have hlen : 0 < (l.dropWhile isBlank).length := by simp [← htail]
    have hfirst := List.dropWhile_get_zero_not isBlank l hlen
    simpa [← htail] using hfirst
  · intro c hc
    obtain ⟨hne,rfl⟩ := List.mem_getLast?_eq_getLast hc
    exact List.rdropWhile_last_not isBlank (l.dropWhile isBlank) hne

theorem trim_eq_self (h : Trimmed l) : trim l = l := by
  have hleft : l.dropWhile isBlank = l := by
    rw [List.dropWhile_eq_self_iff]
    intro hl
    exact h.1 _ (by simp [List.head?_eq_getElem?])
  have hright : l.rdropWhile isBlank = l := by
    rw [List.rdropWhile_eq_self_iff]
    intro hl
    exact h.2 _ (List.getLast?_eq_some_getLast hl)
  have htrim : trim l = (l.dropWhile isBlank).rdropWhile isBlank := rfl
  rw [htrim,hleft,hright]

theorem blank_last_of_lowerFrom (hx : x ∈ (lowerFrom before l).getLast?) (hb : isBlank x) :
    ∃ c ∈ l.getLast?, isBlank c := by
  induction l generalizing before with
  | nil => cases hx
  | cons c l ih =>
    obtain ⟨w,hw,hne,hall⟩ := lowerFrom_cons before c l
    rw [hw,List.getLast?_append] at hx
    cases hl : (lowerFrom (c :: before) l).getLast? with
    | none =>
      -- nothing follows the first character
      rw [hl,Option.none_or] at hx
      have hempty : l = [] := by
        cases l with
        | nil => rfl
        | cons d l =>
          obtain ⟨w',hw',hne',-⟩ := lowerFrom_cons (c :: before) d l
          rw [List.getLast?_eq_none_iff,hw',List.append_eq_nil_iff] at hl
          exact absurd hl.1 hne'
      subst hempty
      exact ⟨c,rfl,(hall x (List.mem_of_mem_getLast? hx)).2 hb⟩
    | some y =>
      rw [hl,Option.some_or] at hx
      rw [← hl] at hx
      obtain ⟨d,hd,hblank⟩ := ih hx
      refine ⟨d,?_,hblank⟩
      rw [Option.mem_def] at hd
      rw [List.getLast?_cons,hd]
      rfl

/-- Lower case makes no blanks at either end. -/
theorem trimmed_lowerFrom (before : List Char) (h : Trimmed l) : Trimmed (lowerFrom before l) := by
  constructor
  · intro x hx hb
    cases l with
    | nil => cases hx
    | cons c l =>
      obtain ⟨w,hw,hne,hall⟩ := lowerFrom_cons before c l
      rw [hw,List.head?_append_of_ne_nil _ hne] at hx
      exact h.1 c rfl ((hall x (List.mem_of_mem_head? hx)).2 hb)
  · intro x hx hb
    obtain ⟨c,hc,hblank⟩ := blank_last_of_lowerFrom hx hb
    exact h.2 c hc hblank

end Text

namespace Registry

/-- The canonical form of a name is its own canonical form. -/
theorem canonical_canonical (name : String) : canonical (canonical name) = canonical name := by
  unfold canonical Text.lower
  simp only [String.toList_ofList]
  have hlower := Text.trimmed_lowerFrom [] (Text.trimmed_trim name.toList)
  rw [Text.trim_eq_self hlower,Text.lowerFrom_eq_self (fun _ hc => Text.settled_of_mem_lowerFrom hc)]

end Registry

end SqlCompose
