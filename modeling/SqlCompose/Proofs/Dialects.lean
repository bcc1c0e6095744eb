import SqlCompose.Proofs.Renaming

/-! # Dialects and stems

Dialects differ in spelling alone: what one of them composes as text, every other composes from the same pieces, with
the same bindings, and they fail alike. A change of stem renames the placeholders, in the text and in the bindings.
-/
namespace SqlCompose
open Relation Build

/-- A piece of SQL before it is spelled: a text as it stands, the path of a name, or a numbered placeholder. -/
inductive Piece where
  | text (s : String)
  | path (p : Path)
  | placeholder (n : Nat)

namespace Dialect

def spellPiece (d : Dialect) (stem : String) : Piece → String
  | .text s => s
  | .path p => d.renderPath p
  | .placeholder n => d.placeholder (stem ++ Number.writeInt n)

def spell (d : Dialect) (stem : String) (pieces : List Piece) : String := String.join (pieces.map (d.spellPiece stem))

theorem spell_cons (d : Dialect) (stem : String) (piece : Piece) (pieces : List Piece) :
    d.spell stem (piece :: pieces) = d.spellPiece stem piece ++ d.spell stem pieces := by
  simp [spell]

/-- Quotes only add characters. -/
theorem sublist_quoteIdentifier (d : Dialect) (s : String) : s.toList.Sublist (d.quoteIdentifier s).toList := by
  unfold quoteIdentifier
  split
  · exact List.Sublist.refl _
  · next q _ =>
    have hinner : s.toList.Sublist (s.toList.flatMap (fun c => if c == q then [q,q] else [c])) := by
      induction s.toList with
      | nil => exact List.Sublist.refl _
      | cons c cs ih =>
        have hc : [c].Sublist (if c == q then [q,q] else [c]) := by
          split
          · next hq => simp [eq_of_beq hq]
          · exact List.Sublist.refl _
        exact hc.append ih
    have hquoted := (hinner.trans (List.sublist_append_right [q] _)).trans (List.sublist_append_left _ [q])
    rwa [String.toList_ofList]

theorem sublist_intercalate {xs ys : List String} (h : List.Forall₂ (fun x y => x.toList.Sublist y.toList) xs ys) :
    (".".intercalate xs).toList.Sublist (".".intercalate ys).toList := by
  induction h with
  | nil => exact List.Sublist.refl _
  | @cons x y xs ys hxy hrest ih =>
    cases hrest with
    | nil => simpa using hxy
    | cons _ _ =>
      rw [String.intercalate_cons_cons,String.intercalate_cons_cons]
      simp only [String.toList_append]
      exact (hxy.append (List.Sublist.refl _)).append ih

theorem sublist_renderPath (d : Dialect) (p : Path) : (plain.renderPath p).toList.Sublist (d.renderPath p).toList := by
  refine sublist_intercalate (List.rel_append ?_ (List.forall₂_same.mpr (fun _ _ => List.Sublist.refl _)))
  rw [List.forall₂_map_left_iff,List.forall₂_map_right_iff]
  exact List.forall₂_same.mpr (fun s _ => d.sublist_quoteIdentifier s)

/-- Without quotes a text is written with fewer characters, and these in the same order. -/
theorem sublist_spell {d : Dialect} (hd : d.placeholders = .colon) (stem : String) (pieces : List Piece) :
    (plain.spell stem pieces).toList.Sublist (d.spell stem pieces).toList := by
  induction pieces with
  | nil => exact List.Sublist.refl _
  | cons piece pieces ih =>
    have hpiece : (plain.spellPiece stem piece).toList.Sublist (d.spellPiece stem piece).toList := by
      cases piece with
      | text s => exact List.Sublist.refl _
      | path p => exact d.sublist_renderPath p
      | placeholder n =>
        unfold spellPiece placeholder
        rw [hd]
        exact List.Sublist.refl _
    rw [spell_cons,spell_cons,String.toList_append,String.toList_append]
    exact hpiece.append ih

end Dialect

/-- SQL with numbered placeholders is made of pieces, and every dialect spells them. -/
theorem Sql.exists_pieces {stem : String} {sql : Sql}
    (h : ∀ name ∈ sql.placeholders, ∃ n : Nat, name = stem ++ Number.writeInt n) :
    ∃ pieces : List Piece, ∀ (d : Dialect) (f : String → String) (stem' : String),
      (∀ n : Nat, f (stem ++ Number.writeInt n) = stem' ++ Number.writeInt n) →
        d.render (sql.rename f) = d.spell stem' pieces := by
  induction sql with
  | nil => exact ⟨[],fun _ _ _ _ => rfl⟩
  | cons t sql ih =>
    have hrest : ∀ name ∈ placeholders sql, name ∈ placeholders (t :: sql) := by
      intro name hn
      obtain ⟨u,hu,heq⟩ := List.mem_filterMap.mp hn
      exact List.mem_filterMap.mpr ⟨u,.tail _ hu,heq⟩
    obtain ⟨pieces,hp⟩ := ih (fun name hn => h name (hrest name hn))
    have hcons : ∀ piece : Piece, (∀ (d : Dialect) (f : String → String) (stem' : String),
        (∀ n : Nat, f (stem ++ Number.writeInt n) = stem' ++ Number.writeInt n) →
          d.renderToken (t.rename f) = d.spellPiece stem' piece) → ∃ pieces : List Piece,
        ∀ (d : Dialect) (f : String → String) (stem' : String),
          (∀ n : Nat, f (stem ++ Number.writeInt n) = stem' ++ Number.writeInt n) →
            d.render (rename f (t :: sql)) = d.spell stem' pieces := by
      intro piece ht
      refine ⟨piece :: pieces,fun d f stem' hf => ?_⟩
      rw [rename_cons,d.render_cons,d.spell_cons,hp d f stem' hf,ht d f stem' hf]
    cases t with
    | text s => exact hcons (.text s) (fun _ _ _ _ => rfl)
    | path p => exact hcons (.path p) (fun _ _ _ _ => rfl)
    | symbol s label => exact hcons (.text s) (fun _ _ _ _ => rfl)
    | placeholder name =>
      obtain ⟨n,rfl⟩ := h name (.head _)
      exact hcons (.placeholder n) (fun d f stem' hf => congrArg d.placeholder (hf n))

namespace Request
variable {s s' : Setting} {m : Memory} {r : Request} {d : Draft} {f : String → String}

def answer (s : Setting) (m : Memory) (r : Request) : Except Fault (String × Value) × Memory :=
  (r.perform s m).map (Except.map (fun a => (s.dialect.render a.1,a.2))) id

/-! ## Numbered placeholders -/

theorem comesTo_final (hs : s.collection = .own) (hc : r.Collects m) : r.ComesTo s m (r.final s m) :=
  steps (covers_extent hs hc) within_extent

theorem ComesTo.numbered (hd : r.ComesTo s m d) : ∀ g ∈ d.given, ∃ n : Nat, g.1 = s.stem ++ Number.writeInt n := by
  induction hd with
  | refl =>
    rw [start_given]
    exact fun _ h => nomatch h
  | @tail b c _ st ih =>
    cases st with
    | bind _ =>
      intro g hg
      rcases List.mem_append.mp hg with hg | hg
      · exact ih g hg
      · rw [List.mem_singleton.mp hg]
        exact ⟨_,placeholderName_setting b.bindings.length⟩
    | _ => exact ih

theorem numbered_placeholders (hs : s.collection = .own) (hc : r.Collects m) {sql : Sql}
    (ho : (r.outcome s m).1 = .ok sql) : ∀ name ∈ sql.placeholders, ∃ n : Nat, name = s.stem ++ Number.writeInt n := by
  intro name hn
  obtain ⟨names,hg,hl,hsql⟩ := Request.logs m r sql (r.final s m) (Prod.ext ho rfl)
  have hnames : sql.placeholders = names := hsql
  have hgiven : name ∈ (r.final s m).given.map (·.1) := by
    rw [hg,start_given,List.nil_append,List.map_fst_zip (Nat.le_of_eq hl),← hnames]
    exact hn
  obtain ⟨g,hg,rfl⟩ := List.mem_map.mp hgiven
  exact (comesTo_final hs hc).numbered g hg

/-! ## Another dialect -/

theorem spokenIn_setting (h : r.SpokenIn s.dialect) : r.SpokenIn (r.setting s m).dialect := by
  rw [setting_eq]
  exact h

theorem outcome_respelled (hs : s.collection = .own) (hs' : s'.collection = .own) (hstem : s'.stem = s.stem)
    (hsep : s'.separator = s.separator) (hc : r.Collects m) (hp : r.Ordinary (r.Sees s m) (fun _ => True) m)
    (hd : r.SpokenIn s.dialect) (hd' : r.SpokenIn s'.dialect) : r.outcome s' m = r.outcome s m := by
  have h := mirrors (M := respelled hs hs' hstem hsep hc) hs rfl rfl id (fun _ _ => trivial) (fun _ => trivial) hp
    (spokenIn_setting hd) (spokenIn_setting hd')
  have hrun : r.outcome s' m = ((r.outcome s m).1.map (Sql.rename id),(r.outcome s m).2) := by
    unfold outcome
    rw [start_eq]
    exact (h .refl).1
  rw [hrun]
  rcases r.outcome s m with ⟨x | sql,e⟩
  · rfl
  · rw [Except.map,Sql.rename_id]

/-! ## Another stem -/

theorem outcome_restemmed (hs : s.collection = .own) (hs' : s'.collection = .own) (hsep : s'.separator = s.separator)
    (hc : r.Collects m) (hu : Unnumbered (r.extent m) s (r.start s m)) (hu' : Unnumbered (r.extent m) s' (r.start s m))
    (hp : r.Ordinary (r.Sees s m) (fun home => ¬ r.Extends m home) m) (hd : r.SpokenIn s.dialect)
    (hd' : r.SpokenIn s'.dialect) :
    r.outcome s' m = ((r.outcome s m).1.map (Sql.rename (renumber s.stem s'.stem)),
      (r.final s m).rename (renumber s.stem s'.stem) (r.Extends m)) := by
  have h := mirrors (M := restemmed hs hs' hsep hc hu hu') hs rfl rfl id (fun _ h => h) (fun _ => trivial) hp
    (spokenIn_setting hd) (spokenIn_setting hd')
  have hrun := (h .refl).1
  simp only [restemmed,stem_setting] at hrun
  rw [start_rename hc hu] at hrun
  unfold final outcome
  rw [start_eq]
  exact hrun

/-! ## Answers -/

def shownParams (m : Memory) (d : Draft) : Request → Value
  | .query _ => .mapping d.bindings
  | r => (Build.closing (r.params m) d).1

theorem answer_eq (hc : r.Collects m) :
    r.answer s m = (((r.outcome s m).1.map s.dialect.render).map (fun text => (text,r.shownParams m (r.final s m))),
      (Build.closing (r.params m) (r.final s m)).2) := by
  have hperform : r.perform s m = ((r.outcome s m).1.map (fun sql => (sql,r.shownParams m (r.final s m))),
      (Build.closing (r.params m) (r.final s m)).2) := by
    cases r with
    | query cell => exact perform_query cell
    | _ => exact perform_other hc nofun
  unfold answer
  rw [hperform]
  rcases (r.outcome s m).1 with x | sql <;> rfl

/-- A request fails, or it is composed of pieces that every dialect and every stem spells. -/
theorem exists_spelled (hs : s.collection = .own) (hc : r.Collects m) :
    ∃ spelled : Except Fault (List Piece),
      (∀ d : Dialect, (r.outcome s m).1.map d.render = spelled.map (d.spell s.stem)) ∧
      ∀ (d : Dialect) (stem : String), ((r.outcome s m).1.map (Sql.rename (renumber s.stem stem))).map d.render =
        spelled.map (d.spell stem) := by
  cases ho : (r.outcome s m).1 with
  | error x => exact ⟨.error x,fun _ => rfl,fun _ _ => rfl⟩
  | ok sql =>
    obtain ⟨pieces,hp⟩ := Sql.exists_pieces (numbered_placeholders hs hc ho)
    refine ⟨.ok pieces,fun d => ?_,fun d stem => ?_⟩
    · have htext := hp d id s.stem (fun _ => rfl)
      rw [Sql.rename_id] at htext
      exact congrArg Except.ok htext
    · exact congrArg Except.ok (hp d (renumber s.stem stem) stem renumber_append)

/-- A collection that is renamed closes over renamed bindings. -/
theorem closing_rename (hc : r.Collects m) :
    Build.closing (r.params m) (d.rename f (r.Extends m)) =
      ((Build.closing (r.params m) d).1.renameKeys f,(Build.closing (r.params m) d).2.rename f (r.Extends m)) := by
  rcases hc with ⟨es,hp⟩ | ⟨home,hp,-⟩
  · rw [hp]
    rfl
  · have hext : r.Extends m home := .inl hp
    rw [hp]
    exact congrArg (Prod.mk _) (Memory.setMapping_rename hext)

theorem shownParams_rename (hc : r.Collects m) :
    r.shownParams m (d.rename f (r.Extends m)) = (r.shownParams m d).renameKeys f := by
  cases r with
  | query cell => rfl
  | _ => exact congrArg Prod.fst (closing_rename hc)

end Request

/-- Let all names of a request be texts. Then there is one list of pieces, whatever the dialect, whose spelling is the
text that a dialect gives; parameters, memory and faults are the same in all dialects that have the statement. Another
stem only renames the placeholders in the text and in the parameters, if no name that comes in is numbered behind
either of the two stems and no mapping that the request extends is looked into. -/
theorem dialects_spell (o : Options) (dialect : Dialect) (m : Memory) (r : Request) (hc : r.Collects m)
    (hd : r.SpokenIn dialect) (hn : r.Ordinary (r.Sees (o.setting dialect) m) (fun _ => True) m) :
    ∃ (result : Except Fault (List Piece × Value)) (m' : Memory),
      (∀ d, r.SpokenIn d → r.answer (o.setting d) m = (result.map (fun a => (d.spell o.stem a.1,a.2)),m')) ∧
      ∀ stem, Unnumbered (r.extent m) (o.setting dialect) (r.start (o.setting dialect) m) →
        Unnumbered (r.extent m) ({ o with stem }.setting dialect) (r.start (o.setting dialect) m) →
        r.Ordinary (r.Sees (o.setting dialect) m) (fun home => ¬ r.Extends m home) m →
        ∀ d, r.SpokenIn d → r.answer ({ o with stem }.setting d) m =
          (result.map (fun a => (d.spell stem a.1,a.2.renameKeys (renumber o.stem stem))),
            m'.rename (renumber o.stem stem) (r.Extends m)) := by
  have hs : (o.setting dialect).collection = .own := rfl
  obtain ⟨spelled,hspelled,hrenamed⟩ := Request.exists_spelled hs hc
  let final := r.final (o.setting dialect) m
  refine ⟨spelled.map (fun pieces => (pieces,r.shownParams m final)),(Build.closing (r.params m) final).2,?_,?_⟩
  · intro d hd'
    have hout : r.outcome (o.setting d) m = r.outcome (o.setting dialect) m :=
      Request.outcome_respelled hs rfl rfl rfl hc hn hd hd'
    rw [Request.answer_eq hc,Request.final,hout,hspelled]
    cases spelled <;> rfl
  · intro stem hu hu' hp d hd'
    have hunder : Unnumbered (r.extent m) ({ o with stem }.setting d) (r.start (o.setting dialect) m) :=
      ⟨hu'.collection,hu'.expression,hu'.member⟩
    have hs' : ({ o with stem }.setting d).collection = .own := rfl
    have hout := Request.outcome_restemmed hs hs' rfl hc hu hunder hp hd hd'
    rw [Request.answer_eq hc,Request.final,hout,Request.closing_rename hc,Request.shownParams_rename hc,hrenamed]
    cases spelled <;> rfl

def Request.sample : Request :=
  .delete (.text "t") (.list [.text "and",.mapping [(.text "a",.int 1)],
    .list [.text "in",.text "b",.list [.int 2,.int 3]]]) (.mapping [(.text "p",.int 5)])

theorem Request.ordinary_sample (seen : Memory → Prop) (free : Home → Prop) : Request.sample.Ordinary seen free {} := by
  refine ⟨rfl,?_⟩
  have ht : Condition.tests (.list [.text "and",.mapping [(.text "a",.int 1)],
      .list [.text "in",.text "b",.list [.int 2,.int 3]]]) =
      [.simple (.mapping [(.text "a",.int 1)]),
        .operation (.member false) [.text "b",.list [.int 2,.int 3]]] := rfl
  rw [ht]
  simp only [List.mem_cons,List.not_mem_nil,or_false,forall_eq_or_imp,forall_eq]
  refine ⟨⟨by rintro c ⟨⟩,by rintro home ⟨⟩,by rintro m - home ⟨⟩⟩,?_,by rintro home ⟨⟩,?_⟩
  · intro c hc
    exact ⟨"b",List.mem_singleton.mp hc⟩
  · intro m _ home hr
    simp [Condition.Test.rows,Value.listed,Value.listsValues,Value.elements?,Value.text?,Value.sequence?] at hr

theorem dialects_spell_sample :
    Request.sample.Collects {} ∧
      Request.sample.Ordinary (Request.sample.Sees (({} : Options).setting .sqlite) {})
        (fun home => ¬ Request.sample.Extends {} home) {} ∧
      ∃ pieces : List Piece,
        Dialect.sqlite.spell "qp" pieces =
          "DELETE FROM \x22t\x22 WHERE (\x22a\x22=:qp1) AND (\x22b\x22 IN (:qp2, :qp3))" ∧
        (∀ d, Request.sample.answer (({} : Options).setting d) {} = (.ok (d.spell "qp" pieces,
          .mapping [(.text "p",.int 5),(.text "qp1",.int 1),(.text "qp2",.int 2),(.text "qp3",.int 3)]),{})) ∧
        ∀ d, Request.sample.answer (({ stem := "zz" } : Options).setting d) {} = (.ok (d.spell "zz" pieces,
          .mapping [(.text "p",.int 5),(.text "zz1",.int 1),(.text "zz2",.int 2),(.text "zz3",.int 3)]),{}) := by
  have hc : Request.sample.Collects {} := .inl ⟨_,rfl⟩
  have hordinary := Request.ordinary_sample
  have hu : ∀ {s : Setting}, ¬ s.stem.toList <+: "p".toList →
      Unnumbered (Request.sample.extent {}) s (Request.sample.start s {}) := by
    intro s hs
    refine Request.unnumbered_of_bare nofun (by simp [Memory.bare,Memory.everyExpression]) (by decide) (fun n hn => ?_)
    exact Setting.ne_placeholderName hs (List.mem_singleton.mp hn).symm
  obtain ⟨result,m',hall,hstem⟩ := dialects_spell {} .sqlite {} Request.sample hc trivial (hordinary _ _)
  have hsqlite : Request.sample.answer (({} : Options).setting .sqlite) {} =
      (.ok ("DELETE FROM \x22t\x22 WHERE (\x22a\x22=:qp1) AND (\x22b\x22 IN (:qp2, :qp3))",
        .mapping [(.text "p",.int 5),(.text "qp1",.int 1),(.text "qp2",.int 2),(.text "qp3",.int 3)]),{}) := rfl
  have hzz := hstem "zz" (hu (by decide)) (hu (by decide)) (hordinary _ _)
  have hfirst := hall .sqlite trivial
  rw [hsqlite] at hfirst
  rcases result with x | ⟨pieces,params⟩
  · cases hfirst
  · obtain ⟨hresult,rfl⟩ := Prod.mk.inj hfirst
    obtain ⟨htext,rfl⟩ := Prod.mk.inj (Except.ok.inj hresult)
    refine ⟨hc,hordinary _ _,pieces,htext.symm,fun d => hall d trivial,fun d => ?_⟩
    rw [hzz d trivial]
    have hparams : Value.renameKeys (renumber "qp" "zz") (.mapping [(.text "p",.int 5),(.text "qp1",.int 1),
        (.text "qp2",.int 2),(.text "qp3",.int 3)]) =
        .mapping [(.text "p",.int 5),(.text "zz1",.int 1),(.text "zz2",.int 2),(.text "zz3",.int 3)] := rfl
    have hmemory : Memory.rename (renumber "qp" "zz") (Request.sample.Extends {}) {} = {} := by
      simp [Memory.rename]
    rw [Except.map,hparams,hmemory]

def Request.directionColumn : Request := .delete (.text "t") (.list [.text "=",.direction .ascending,.int 1]) .null

def Request.selfRow : Request :=
  .delete (.text "t") (.list [.text "and",.list [.text "=",.text "a",.int 1],
    .list [.text "in",.text "qp0",.list [.shared (.cell 0)]]]) (.shared (.cell 0))

/-- Where no quotes are put, a sort direction in a column's place is shown by another text than its own, so there are
no pieces for both texts. Where a collection is looked into when it has a placeholder that is named by the one stem,
nothing is found under the other stem, and the collection has one binding less, so renaming does not lead from the one
to the other. -/
theorem spelled_apart :
    (∀ stem pieces params, (Request.directionColumn.answer (({} : Options).setting .plain) {}).1 =
        .ok (Dialect.plain.spell stem pieces,params) →
      (Request.directionColumn.answer (({} : Options).setting .sqlite) {}).1 ≠
        .ok (Dialect.sqlite.spell stem pieces,params)) ∧
      (∀ s, Unnumbered (Request.selfRow.extent { mappings := #[[]] }) s (Request.selfRow.start s { mappings := #[[]] })) ∧
      (∀ seen, Request.selfRow.Ordinary seen (fun _ => True) { mappings := #[[]] }) ∧
      ∀ f, (Request.selfRow.answer (({ stem := "zz" } : Options).setting .sqlite) { mappings := #[[]] }).2.mapping
          (.cell 0) ≠
        ((Request.selfRow.answer (({} : Options).setting .sqlite) { mappings := #[[]] }).2.mapping (.cell 0)).rename
          f := by
  have ht : Condition.tests (.list [.text "and",.list [.text "=",.text "a",.int 1],
      .list [.text "in",.text "qp0",.list [.shared (.cell 0)]]]) =
      [.operation (.compare .eq) [.text "a",.int 1],
        .operation (.member false) [.text "qp0",.list [.shared (.cell 0)]]] := rfl
  refine ⟨fun stem pieces params hplain hsqlite => ?_,fun s => ?_,fun seen => ⟨rfl,?_⟩,fun f h => ?_⟩
  · have htext : (Request.directionColumn.answer (({} : Options).setting .plain) {}).1 =
        .ok ("DELETE FROM t WHERE SortDirection.ASC=:qp0",.mapping [(.text "qp0",.int 1)]) := rfl
    have hquoted : (Request.directionColumn.answer (({} : Options).setting .sqlite) {}).1 =
        .ok ("DELETE FROM \x22t\x22 WHERE \x22ASC\x22=:qp0",.mapping [(.text "qp0",.int 1)]) := rfl
    rw [htext] at hplain
    rw [hquoted] at hsqlite
    have hsub := Dialect.sqlite.sublist_spell rfl stem pieces
    rw [← (Prod.mk.inj (Except.ok.inj hplain)).1,← (Prod.mk.inj (Except.ok.inj hsqlite)).1] at hsub
    revert hsub
    decide
  · refine Request.unnumbered_of_bare ?_ (by simp [Memory.bare,Memory.everyExpression,Value.everyExpressionUnder]) (by decide) ?_
    · rintro cell ⟨⟩
    · rintro n ⟨⟩
  · rw [ht]
    simp only [List.mem_cons,List.not_mem_nil,or_false,forall_eq_or_imp,forall_eq]
    refine ⟨⟨?_,fun _ _ => trivial,fun _ _ _ _ => trivial⟩,?_,fun _ _ => trivial,fun _ _ _ _ => trivial⟩
    · intro c hc
      exact ⟨"a",List.mem_singleton.mp hc⟩
    · intro c hc
      exact ⟨"qp0",List.mem_singleton.mp hc⟩
  · have hlength := congrArg List.length h
    have hzz : ((Request.selfRow.answer (({ stem := "zz" } : Options).setting .sqlite) { mappings := #[[]] }).2.mapping
        (.cell 0)).length = 1 := rfl
    have hqp : ((Request.selfRow.answer (({} : Options).setting .sqlite) { mappings := #[[]] }).2.mapping
        (.cell 0)).length = 2 := rfl
    rw [Entries.rename,List.length_map,hzz,hqp] at hlength
    cases hlength

end SqlCompose
