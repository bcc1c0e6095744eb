import SqlCompose.Proofs.Shorthand
import SqlCompose.Proofs.SortOrders
import SqlCompose.Proofs.StatementSteps

/-! # Parentheses in texts

A text with an opening parenthesis is an expression and not a list of names. Where columns or tables are listed it is
kept whole. Where a query sorts, the text is cut at every comma before anything else, so that a part in parentheses stays
in one piece exactly if it has no comma; then it lies in one column, and a column with a parenthesis is kept as it is.
-/
namespace SqlCompose

variable {s : Setting} {text : String}

namespace Text
variable {c : Char} {x y part rest before inner after item : List Char} {items : List (List Char)}

inductive Balanced : List Char → Prop where
  | nil : Balanced []
  | plain {c : Char} {rest : List Char} (h : c ≠ '(' ∧ c ≠ ')') (hrest : Balanced rest) : Balanced (c :: rest)
  | group {inner rest : List Char} (hinner : Balanced inner) (hrest : Balanced rest) :
    Balanced ('(' :: inner ++ ')' :: rest)

theorem balanced_of_plain (h : ∀ c ∈ x, c ≠ '(' ∧ c ≠ ')') : Balanced x := by
  induction x with
  | nil => exact .nil
  | cons c x ih =>
    obtain ⟨hc,hx⟩ := List.forall_mem_cons.mp h
    exact .plain hc (ih hx)

/-- A part in parentheses that lies in no other: what stands before it, in it and behind it is balanced. -/
inductive Outermost : List Char → List Char → Prop where
  | mk {before inner after : List Char} (hbefore : Balanced before) (hinner : Balanced inner) (hafter : Balanced after) :
    Outermost (before ++ ('(' :: inner ++ [')']) ++ after) ('(' :: inner ++ [')'])

structure Encloses (part : List Char) : Prop where
  opens : part.head? = some '('
  closes : part.getLast? = some ')'

theorem Outermost.encloses (h : Outermost x part) : Encloses part := by
  cases h
  exact ⟨rfl,List.getLast?_concat⟩

theorem Outermost.within (h : Outermost x part) : part <:+: x := by
  cases h
  exact List.infix_append _ _ _

/-! ## Parts of pieces -/

namespace Encloses

theorem mem (h : Encloses part) : '(' ∈ part := List.mem_of_mem_head? h.opens

/-- What has no opening parenthesis does not reach into the part from before. -/
theorem infix_right (h : Encloses part) (hx : '(' ∉ x) (hpart : part <:+: x ++ y) : part <:+: y := by
  rcases List.infix_append_iff.mp hpart with hleft | hright | ⟨l,r,rfl,hl,hr⟩
  · exact absurd (hleft.subset h.mem) hx
  · exact hright
  · cases l with
    | nil => exact hr.isInfix
    | cons c l =>
      have hc : c = '(' := Option.some.inj h.opens
      exact absurd (hl.subset (hc ▸ .head _)) hx

/-- What has no closing parenthesis does not reach into the part from behind. -/
theorem infix_left (h : Encloses part) (hy : ')' ∉ y) (hpart : part <:+: x ++ y) : part <:+: x := by
  rcases List.infix_append_iff.mp hpart with hleft | hright | ⟨l,r,rfl,hl,hr⟩
  · exact hleft
  · exact absurd (hright.subset (List.mem_of_mem_getLast? h.closes)) hy
  · rcases List.eq_nil_or_concat r with rfl | ⟨r,c,rfl⟩
    · rw [List.append_nil]
      exact hl.isInfix
    · have hc : c = ')' := by simpa using h.closes
      exact absurd (hr.subset (by simp [hc])) hy

end Encloses

/-- A part without a separator lies on one side of it. -/
theorem infix_of_not_mem (hc : c ∉ part) (hpart : part <:+: x ++ c :: y) : part <:+: x ∨ part <:+: y := by
  have hfront : ∀ r, c ∉ r → r <+: c :: y → r = [] := by
    intro r hr hfront
    cases r with
    | nil => rfl
    | cons d r => exact absurd (List.cons_prefix_cons.mp hfront).1.symm (fun hd => hr (hd ▸ .head _))
  rcases List.infix_append_iff.mp hpart with hleft | hright | ⟨l,r,rfl,hl,hr⟩
  · exact .inl hleft
  · rcases List.infix_cons_iff.mp hright with hnil | hright
    · rw [hfront part hc hnil]
      exact .inl (List.nil_infix ..)
    · exact .inr hright
  · rw [hfront r (fun hmem => hc (List.mem_append_right _ hmem)) hr,List.append_nil]
    exact .inl hl.isInfix

/-- A part without commas lies in one item. -/
theorem Encloses.mem_item (h : Encloses part) (hcomma : ',' ∉ part) (hlists : Lists x items) (hpart : part <:+: x) :
    ∃ item ∈ items, part <:+: item := by
  have hpiece : ∀ {piece : List Char} {items : List (List Char)}, Part piece items → part <:+: piece →
      ∃ item ∈ items, part <:+: item := by
    intro piece items hp hpart
    cases hp with
    | blank hw => exact absurd (hw _ (hpart.subset h.mem)) (by decide)
    | @item left item right hl hr =>
      have hleft : '(' ∉ left := hl.not_mem (by decide)
      have hright : ')' ∉ right := hr.not_mem (by decide)
      exact ⟨item,.head _,h.infix_right hleft (h.infix_left hright hpart)⟩
  induction hlists with
  | last hp => exact hpiece hp hpart
  | cons hp _ ih =>
    rcases infix_of_not_mem hcomma hpart with hpart | hpart
    · obtain ⟨item,hmem,hitem⟩ := hpiece hp hpart
      exact ⟨item,List.mem_append_left _ hmem,hitem⟩
    · obtain ⟨item,hmem,hitem⟩ := ih hpart
      exact ⟨item,List.mem_append_right _ hmem,hitem⟩

/-! ## Sort columns -/

/-- The direction that is cut off has no parenthesis. -/
theorem Encloses.infix_column {b : Bool} (h : Encloses part) (hcut : sortItem? x = some (before,b)) (hpart : part <:+: x) :
    part <:+: before := by
  obtain ⟨rest,rfl,hrest,-⟩ := of_cutWhere? hcut
  obtain ⟨w,word,d,hw,hword,hend⟩ := of_directionTail? hrest
  refine h.infix_left ?_ hpart
  have hblanks : ')' ∉ w := hw.blanks.not_mem (by decide)
  have hletters : ')' ∉ word := hword.not_mem (by decide)
  rcases hend with rfl | rfl <;> simp [hblanks,hletters]

end Text

namespace SortKey
variable {part : List Char}

theorem exists_orderOf {keys : List (String × SortKey)} (h : ∀ e ∈ keys, ∃ d, e.2 = .direction d) :
    ∃ pairs, keys = orderOf pairs := by
  induction keys with
  | nil => exact ⟨[],rfl⟩
  | cons e keys ih =>
    obtain ⟨⟨d,hd⟩,hkeys⟩ := List.forall_mem_cons.mp h
    obtain ⟨pairs,rfl⟩ := ih hkeys
    have he : e = (e.1,.direction d) := by rw [← hd]
    exact ⟨(e.1,d) :: pairs,congrArg (· :: orderOf pairs) he⟩

/-- An item is read as a direction, and as a column which is a piece of it that keeps all parentheses. -/
theorem ofItem_column (item : String) : (∃ d, (ofItem item).2 = .direction d) ∧
    (ofItem item).1.toList <:+: item.toList ∧
    ∀ part, Text.Encloses part → part <:+: item.toList → part <:+: (ofItem item).1.toList := by
  unfold ofItem
  split
  · next column descending hcut =>
    obtain ⟨rest,hitem,-⟩ := Text.of_cutWhere? hcut
    rw [String.toList_ofList,hitem]
    refine ⟨⟨_,rfl⟩,(List.prefix_append column rest).isInfix,fun part hpart hmem => ?_⟩
    exact hpart.infix_column hcut (hitem ▸ hmem)
  · exact ⟨⟨_,rfl⟩,List.infix_rfl,fun _ _ h => h⟩

/-- The columns of a text: none has a comma, and each part in parentheses that has none lies in one of them. -/
theorem exists_columns (text : String) : ∃ pairs, ofText text = orderOf pairs ∧ (∀ p ∈ pairs, ',' ∉ p.1.toList) ∧
    ∀ part, Text.Encloses part → ',' ∉ part → part <:+: text.toList → ∃ p ∈ pairs, part <:+: p.1.toList := by
  have hnames := Text.names_eq_iff.mp (rfl : Text.names text = Text.names text)
  have hall : ∀ e ∈ ofText text, (∃ d, e.2 = .direction d) ∧ ',' ∉ e.1.toList := by
    refine Condition.forall_putAll nofun (fun e he => ?_)
    obtain ⟨item,hitem,rfl⟩ := List.mem_map.mp he
    obtain ⟨hdirection,hpiece,-⟩ := ofItem_column item
    exact ⟨hdirection,fun hc => (hnames.2 item hitem).uncut (hpiece.subset hc)⟩
  obtain ⟨pairs,hpairs⟩ := exists_orderOf (fun e he => (hall e he).1)
  refine ⟨pairs,hpairs,fun p hp => ?_,fun part hpart hcomma hmem => ?_⟩
  · exact (hall (p.1,.direction p.2) (hpairs ▸ List.mem_map_of_mem hp)).2
  · obtain ⟨piece,hpiece,hin⟩ := hpart.mem_item hcomma hnames.1 hmem
    obtain ⟨item,hitem,rfl⟩ := List.mem_map.mp hpiece
    have hcolumn : (ofItem item).1 ∈ (ofText text).map (·.1) :=
      Text.mem_names_putAll (.inr (List.mem_map_of_mem (List.mem_map_of_mem hitem)))
    rw [hpairs] at hcolumn
    obtain ⟨e,he,heq⟩ := List.mem_map.mp hcolumn
    obtain ⟨p,hp,rfl⟩ := List.mem_map.mp he
    exact ⟨p,hp,heq ▸ (ofItem_column item).2.2 part hpart hin⟩

end SortKey

/-! ## Clauses -/

theorem infix_intercalate {separator : String} {texts : List String} (h : text ∈ texts) :
    text.toList <:+: (separator.intercalate texts).toList := by
  induction texts with
  | nil => cases h
  | cons first texts ih =>
    cases texts with
    | nil =>
      rw [List.mem_singleton.mp h]
      simp
    | cons next texts =>
      rw [String.intercalate_cons_cons,String.toList_append,String.toList_append,List.append_assoc]
      rcases List.mem_cons.mp h with rfl | h
      · exact (List.prefix_append ..).isInfix
      · exact (ih h).trans ((List.suffix_append _ _).trans (List.suffix_append _ _)).isInfix

namespace Query
variable {q : Query} {part : List Char}

/-- Every outermost part in parentheses of a text is found again in the clause that the text is given for, in every
dialect. Where columns or tables are listed, the whole text is there. Where it is sorted by, this holds of the parts
without commas: such a part lies in one column, which is written as it is, and no column has a comma. -/
theorem parentheses_kept (h : Text.Outermost text.toList part) :
    (∀ c : ItemClause, Contributes c.key (.text text) (c.put [.name text]) ∧ ∀ (s : Setting) (q : Query),
      c.items q = [.name text] → ∃ sql, c.compile s q = pure sql ∧ s.dialect.render sql = c.opening q ++ text ∧
        part <:+: (s.dialect.render sql).toList) ∧
    ∃ pairs : List (String × Direction),
      Contributes "ORDER_BY" (.text text) (fun q => { q with order := SortKey.orderOf pairs }) ∧
      (∀ p ∈ pairs, ',' ∉ p.1.toList) ∧
      (',' ∉ part → (∃ p ∈ pairs, part <:+: p.1.toList ∧ Sql.column p.1 = [.text p.1]) ∧
        ∀ (s : Setting) (q : Query), q.order = SortKey.orderOf pairs → ∃ sql, orderClause s q = pure sql ∧
          part <:+: (s.dialect.render sql).toList) := by
  have hmem : '(' ∈ text.toList := h.within.subset h.encloses.mem
  refine ⟨fun c => ⟨contributes_items c (Item.readAll_expression hmem),fun s q hq => ?_⟩,?_⟩
  · have hrender : s.dialect.render [.text (c.opening q),.text text] = c.opening q ++ text := by
      simp [Dialect.render,Dialect.renderToken]
    refine ⟨_,ItemClause.compile_expression hmem hq,hrender,?_⟩
    rw [hrender,String.toList_append]
    exact h.within.trans (List.suffix_append ..).isInfix
  · obtain ⟨pairs,hpairs,hcommas,hkept⟩ := SortKey.exists_columns text
    have hread : ∀ m, SortKey.readAll m (.text text) = .ok (some (SortKey.orderOf pairs)) :=
      fun _ => by rw [SortKey.readAll_ofText,hpairs]
    refine ⟨pairs,contributes_order hread,hcommas,fun hcomma => ?_⟩
    obtain ⟨p,hp,hpart⟩ := hkept part h.encloses hcomma h.within
    have hcolumn : Sql.column p.1 = [.text p.1] := Sql.column_of_mem (hpart.subset h.encloses.mem)
    refine ⟨⟨p,hp,hpart,hcolumn⟩,fun s q hq => ?_⟩
    obtain ⟨sql,hsql,hrender⟩ := orderClause_eq (s := s) hq (List.ne_nil_of_mem hp)
    refine ⟨sql,hsql,?_⟩
    let written (p : String × Direction) : String :=
      s.dialect.render (Sql.column p.1) ++ if p.2 = .descending then " DESC" else ""
    have hwritten : part <:+: (written p).toList := by
      show part <:+: (s.dialect.render (Sql.column p.1) ++ _).toList
      rw [hcolumn,Dialect.render_cons,String.append_assoc,String.toList_append]
      exact hpart.trans (List.prefix_append ..).isInfix
    have hlist : (written p).toList <:+: (", ".intercalate (pairs.map written)).toList :=
      infix_intercalate (List.mem_map_of_mem hp)
    rw [hrender,String.toList_append]
    exact hwritten.trans (hlist.trans (List.suffix_append ..).isInfix)

/-- A call with one argument among the columns, and sorted by. -/
theorem parentheses_kept_of_call :
    (∃ sql, selectClause (Options.setting {} .sqlite) { columns := [.name "MAX(a) DESC, b"] } = pure sql ∧
      Dialect.sqlite.render sql = "SELECT MAX(a) DESC, b") ∧
    ∃ pairs : List (String × Direction),
      Contributes "ORDER_BY" (.text "MAX(a) DESC, b") (fun q => { q with order := SortKey.orderOf pairs }) ∧
      ∀ s : Setting, ∃ sql, orderClause s { order := SortKey.orderOf pairs } = pure sql ∧
        "(a)".toList <:+: (s.dialect.render sql).toList := by
  have hcall : Text.Outermost ("MAX".toList ++ ('(' :: ['a'] ++ [')']) ++ " DESC, b".toList) ('(' :: ['a'] ++ [')']) :=
    .mk (Text.balanced_of_plain (by simp)) (Text.balanced_of_plain (by simp)) (Text.balanced_of_plain (by simp))
  have htext : "MAX(a) DESC, b".toList = "MAX".toList ++ ('(' :: ['a'] ++ [')']) ++ " DESC, b".toList := by decide
  rw [← htext] at hcall
  obtain ⟨hlisted,pairs,hpairs,-,hkept⟩ := parentheses_kept hcall
  let q : Query := { columns := [.name "MAX(a) DESC, b"] }
  refine ⟨?_,pairs,hpairs,fun s => (hkept (by decide)).2 s _ rfl⟩
  obtain ⟨sql,hsql,hrender,-⟩ := (hlisted .columns).2 (Options.setting {} .sqlite) q rfl
  exact ⟨sql,hsql,hrender.trans (by decide)⟩

/-- A call with two arguments that is sorted by: it is cut at the comma, and its second argument is quoted. -/
theorem sorted_call_torn :
    Text.Outermost "COALESCE(a, b)".toList "(a, b)".toList ∧
    ∃ keys, Contributes "ORDER_BY" (.text "COALESCE(a, b)") (fun q => { q with order := keys }) ∧
      ∃ sql, orderClause (Options.setting {} .sqlite) { order := keys } = pure sql ∧
        Dialect.sqlite.render sql = "ORDER BY COALESCE(a, \"b)\"" ∧
        ¬ "(a, b)".toList <:+: (Dialect.sqlite.render sql).toList := by
  have hcall : Text.Outermost "COALESCE(a, b)".toList "(a, b)".toList := by
    have htext : "COALESCE(a, b)".toList = "COALESCE".toList ++ ('(' :: "a, b".toList ++ [')']) ++ [] := by decide
    have hpart : "(a, b)".toList = '(' :: "a, b".toList ++ [')'] := by decide
    rw [htext,hpart]
    exact .mk (Text.balanced_of_plain (by simp)) (Text.balanced_of_plain (by simp)) .nil
  let pairs : List (String × Direction) := [("COALESCE(a",.ascending),("b)",.ascending)]
  have hnames : Text.names "COALESCE(a, b)" = ["COALESCE(a","b)"] := by decide
  have hbare : ∀ item ∈ ["COALESCE(a","b)"], Text.sortItem? item.toList = none := by decide
  have hitem : ∀ item ∈ ["COALESCE(a","b)"], SortKey.ofItem item = (item,.direction .ascending) := by
    intro item hmem
    unfold SortKey.ofItem
    rw [hbare item hmem]
  have hitems : ["COALESCE(a","b)"].map SortKey.ofItem = SortKey.orderOf pairs := (List.map_congr_left hitem).trans rfl
  have hcolumns : SortKey.ofText "COALESCE(a, b)" = SortKey.orderOf pairs := by
    rw [SortKey.ofText,hnames,hitems,SortKey.putAll_orderOf (by decide)]
  have hread : ∀ m, SortKey.readAll m (.text "COALESCE(a, b)") = .ok (some (SortKey.orderOf pairs)) :=
    fun _ => by rw [SortKey.readAll_ofText,hcolumns]
  refine ⟨hcall,_,contributes_order hread,?_⟩
  obtain ⟨sql,hsql,hrender⟩ := orderClause_eq (s := Options.setting {} .sqlite)
    (q := { order := SortKey.orderOf pairs }) rfl (by decide)
  have hwritten : Dialect.sqlite.render sql = "ORDER BY COALESCE(a, \"b)\"" := hrender.trans (by decide)
  refine ⟨sql,hsql,hwritten,?_⟩
  rw [hwritten]
  decide +kernel

end Query

end SqlCompose
