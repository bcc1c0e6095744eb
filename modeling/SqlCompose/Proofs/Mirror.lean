import SqlCompose.Proofs.StatementSteps

/-! # Mirrored runs

A mirror turns the drafts of one setting into drafts of another. A step is mirrored if from the image of a draft it does
what it does from the draft itself, up to the names of placeholders. Here are mirrors, and the steps that bind values or
go through what a value lists.
-/
namespace SqlCompose
open Relation Build

variable {α β γ δ : Type}

/-! ## Renamed placeholders -/

def Token.rename (f : String → String) : Token → Token
  | .placeholder name => .placeholder (f name)
  | t => t

namespace Sql
variable {f : String → String}

def rename (f : String → String) (sql : Sql) : Sql := sql.map (Token.rename f)

@[simp] theorem rename_nil : rename f [] = [] := rfl

@[simp] theorem rename_cons (t : Token) (sql : Sql) : rename f (t :: sql) = t.rename f :: sql.rename f := rfl

@[simp] theorem rename_append (a b : Sql) : rename f (a ++ b) = a.rename f ++ b.rename f := List.map_append

@[simp] theorem rename_text (t : String) : Token.rename f (.text t) = .text t := rfl

theorem rename_id (sql : Sql) : sql.rename id = sql := by
  unfold rename
  rw [List.map_congr_left (fun t _ => (by cases t <;> rfl : t.rename id = id t)),List.map_id]

@[simp] theorem isEmpty_rename (sql : Sql) : (sql.rename f).isEmpty = sql.isEmpty := by
  induction sql with
  | nil => rfl
  | cons t sql ih =>
    have ht : (t.rename f).isEmpty = t.isEmpty := by cases t <;> rfl
    unfold isEmpty at ih ⊢
    rw [rename_cons,List.all_cons,List.all_cons,ht,ih]

@[simp] theorem rename_join (separator : String) (parts : List Sql) :
    (join separator parts).rename f = join separator (parts.map (rename f)) := by
  unfold join
  induction parts with
  | nil => rfl
  | cons a parts ih =>
    cases parts with
    | nil => rfl
    | cons b parts =>
      simp only [Text.between,List.map_cons,rename_append,rename_cons,rename_text,rename_nil] at ih ⊢
      rw [ih]

@[simp] theorem rename_commas (parts : List Sql) : (commas parts).rename f = commas (parts.map (rename f)) :=
  rename_join ", " parts

@[simp] theorem rename_alone (sql : Sql) : sql.alone.rename f = (sql.rename f).alone := by
  rcases sql with _ | ⟨t,_ | ⟨u,sql⟩⟩
  · rfl
  · cases t <;> rfl
  · cases t <;> rfl

@[simp] theorem rename_column (name : String) : (column name).rename f = column name := by
  unfold column
  split <;> rfl

@[simp] theorem rename_table (name : String) : (table name).rename f = table name := by
  unfold table
  split <;> rfl

@[simp] theorem rename_aliasedColumn (name : String) : (aliasedColumn name).rename f = aliasedColumn name := by
  unfold aliasedColumn
  split
  · rfl
  · split <;> simp

@[simp] theorem rename_aliasedTable (name : String) : (aliasedTable name).rename f = aliasedTable name := by
  unfold aliasedTable
  split
  · rfl
  · split <;> simp

/-- The parts that say something are the same. -/
theorem filter_rename (parts : List Sql) : (parts.map (rename f)).filter (fun part => !part.isEmpty) =
    (parts.filter (fun part => !part.isEmpty)).map (rename f) := by
  rw [List.filter_map]
  congr 1
  exact List.filter_congr (fun part _ => by simp)

end Sql

namespace Dialect

theorem render_cons (d : Dialect) (t : Token) (a : Sql) : d.render (t :: a) = d.renderToken t ++ d.render a := by
  simp [render]

theorem render_append (d : Dialect) (a b : Sql) : d.render (a ++ b) = d.render a ++ d.render b := by
  simp [render,String.join_append]

theorem render_join (d : Dialect) (separator : String) (parts : List Sql) :
    d.render (Sql.join separator parts) = separator.intercalate (parts.map d.render) := by
  unfold Sql.join
  induction parts with
  | nil => rfl
  | cons a parts ih =>
    cases parts with
    | nil => simp [Text.between]
    | cons b parts =>
      have hcons : Text.between [Token.text separator] (a :: b :: parts) =
          a ++ [Token.text separator] ++ Text.between [Token.text separator] (b :: parts) := rfl
      rw [hcons,render_append,render_append,ih]
      simp [render,renderToken]

end Dialect

/-! ## Mirrors -/

/-- A way to turn the drafts of one setting into drafts of another. A draft that fits is covered by an extent. Mappings
and streams are open to being looked into if their images show the same; the mappings that take the bindings may be
two, if neither is open. A value that is no text may name a column if it is written alike in both settings. -/
structure Mirror where
  extent : Extent
  left : Setting
  right : Setting
  /-- How placeholders are renamed. -/
  name : String → String
  image : Draft → Draft
  Fits : Draft → Prop
  home : Home → Prop
  cell : Nat → Prop
  names : Value → Prop
  collection : right.collection = left.collection ∨
    ∃ h h', left.collection = .shared h ∧ right.collection = .shared h' ∧ ¬ home h ∧ ¬ home h'
  separator : right.separator = left.separator
  covers : ∀ {d}, Fits d → extent.Covers left d
  keeps : ∀ {d e}, Fits d → extent.Step left d e → Fits e
  nextName : ∀ {d}, Fits d → (image d).nextName right = name (d.nextName left)
  bound : ∀ {d} v, Fits d → (image d).bound right v = image (d.bound left v)
  adopted : ∀ {d sql params}, Fits d → extent.value (.expression sql params) →
    (image d).adopted params = image (d.adopted params)
  taken : ∀ {d c}, Fits d → extent.member c →
    (image d).adopted (((image d).view right).params c) = image (d.adopted ((d.view left).params c))
  handed : ∀ {d c}, Fits d → extent.member c → Query.handed right c (image d) = image (Query.handed left c d)
  drained : ∀ {d n} items, Fits d → cell n → (image d).drained n items = image (d.drained n items)
  stream : ∀ {d n}, Fits d → cell n → (image d).memory.stream n = d.memory.stream n
  own : ∀ {d h}, Fits d → left.collection = .shared h → home h → (image d).bindings = d.bindings
  mapping : ∀ {d h}, Fits d → home h → ((image d).view right).mapping h = (d.view left).mapping h
  query : ∀ {d} n, Fits d → extent.query n ∨ extent.value (.query n) →
    ∃ es, (image d).memory.query n = { d.memory.query n with params := es }
  quote : ∀ {v}, names v → right.dialect.quote = left.dialect.quote
  looked : ∀ {d v}, Fits d → names v →
    extent.value v ∧ (∀ h, v = .shared h → home h) ∧ ∀ n, v = .stream n → cell n
  display : ∀ {d v}, Fits d → names v → ((image d).view right).display v = (d.view left).display v

namespace Mirror
variable {M : Mirror} {d e : Draft} {v : Value}

def Open (M : Mirror) : Value → Prop
  | .shared h => M.home h
  | .stream n => M.cell n
  | _ => True

def Row (M : Mirror) (v : Value) : Prop := ∀ h, v = .shared h → M.home h

theorem row_of_open (h : M.Open v) : M.Row v := by
  rintro home rfl
  exact h

theorem keepsAll (hd : M.Fits d) (st : ReflTransGen (M.extent.Step M.left) d e) : M.Fits e :=
  Extent.keep_steps (fun _ _ st hd => M.keeps hd st) st hd

theorem entries (hd : M.Fits d) (h : M.Row v) : v.entries? ((M.image d).view M.right) = v.entries? (d.view M.left) := by
  cases v with
  | shared home => exact congrArg some (M.mapping hd (h home rfl))
  | _ => rfl

theorem fields (hd : M.Fits d) (hv : M.extent.value v) : v.fields? ((M.image d).view M.right) = v.fields? (d.view M.left) := by
  cases v with
  | query n =>
    have hfields : (M.image d).memory.fields n = d.memory.fields n :=
      Memory.fields_of_query (M.query n hd (.inr hv))
    simp only [Value.fields?,Draft.view_fields,hfields]
  | _ => rfl

theorem sequence (hd : M.Fits d) (h : M.Open v) :
    v.sequence? ((M.image d).view M.right) = v.sequence? (d.view M.left) := by
  cases v with
  | stream n => simp only [Value.sequence?,Draft.view_stream,M.stream hd h]
  | _ => rfl

theorem elements (hd : M.Fits d) (h : M.Open v) (hv : M.extent.value v) :
    v.elements? ((M.image d).view M.right) = v.elements? (d.view M.left) := by
  have hs := sequence hd h
  have he := entries hd (row_of_open h)
  have hf : v.fields? ((M.image d).view M.right) = v.fields? (d.view M.left) := fields hd hv
  cases v <;> first | rfl | simp only [Value.elements?,Value.text?,hs,he,hf]

theorem held (hd : M.Fits d) (h : M.Open v) (hv : M.extent.value v) :
    v.held ((M.image d).view M.right) = v.held (d.view M.left) := by
  unfold Value.held
  split
  · rfl
  · rw [elements hd h hv]

theorem length (hd : M.Fits d) (h : M.Open v) (hv : M.extent.value v) :
    v.length ((M.image d).view M.right) = v.length (d.view M.left) := by
  have he := elements hd h hv
  cases v <;> first | rfl | simp only [Value.length,Value.fields?,he]

theorem isTruthy (hd : M.Fits d) (h : M.Open v) :
    v.isTruthy ((M.image d).view M.right) = v.isTruthy (d.view M.left) := by
  cases v with
  | shared home => simp only [Value.isTruthy,M.mapping hd h]
  | _ => rfl

theorem binds_right (h : M.left.Binds) : M.right.Binds := by
  rcases M.collection with hc | ⟨_,h',_,hr,_⟩
  · unfold Setting.Binds
    rwa [hc]
  · exact .inr ⟨h',hr⟩

/-- What takes no bindings takes none on the other side either. -/
theorem collection_eq (h : ¬ M.left.Binds) : M.right.collection = M.left.collection := by
  rcases M.collection with hc | ⟨home,_,hl,_⟩
  · exact hc
  · exact absurd (.inr ⟨home,hl⟩) h

theorem receives (h : M.Row v) : M.right.receives v = M.left.receives v := by
  rcases M.collection with hc | ⟨left,right,hl,hr,hn,hn'⟩
  · unfold Setting.receives
    rw [hc]
  · cases v with
    | shared home =>
      have hopen := h home rfl
      have hleft : left ≠ home := by
        rintro rfl
        exact hn hopen
      have hright : right ≠ home := by
        rintro rfl
        exact hn' hopen
      simp [Setting.receives,hl,hr,hleft,hright]
    | _ => rfl

end Mirror

def Mirrors (M : Mirror) (d : Draft) (p : Build α) (p' : Build β) (f : α → β) (P : α → Prop) : Prop :=
  M.Fits d → p'.runOn (M.image d) = ((p.runOn d).1.map f,M.image (p.runOn d).2) ∧
    ReflTransGen (M.extent.Step M.left) d (p.runOn d).2 ∧ ∀ a, (p.runOn d).1 = .ok a → P a

namespace Mirrors
variable {M : Mirror} {d : Draft} {p : Build α} {p' : Build β} {f : α → β} {P : α → Prop} {g : α → Build γ}
  {g' : β → Build δ} {h : γ → δ} {Q : γ → Prop}

theorem pure {a : α} {b : β} (hb : b = f a) (ha : P a) : Mirrors M d (Pure.pure a) (Pure.pure b) f P := by
  intro _
  refine ⟨by rw [hb]; rfl,.refl,?_⟩
  rintro a' ⟨⟩
  exact ha

theorem fail (x : Fault) : Mirrors M d (Build.fail x) (Build.fail x) f P :=
  fun _ => ⟨rfl,.refl,fun _ h => nomatch h⟩

theorem misuse (x : Misuse) : Mirrors M d (Build.misuse x) (Build.misuse x) f P :=
  fun _ => ⟨rfl,.refl,fun _ h => nomatch h⟩

/-- What follows a step may know by which steps the draft has come. -/
theorem follow (hp : Mirrors M d p p' f P)
    (hg : ∀ a e, ReflTransGen (M.extent.Step M.left) d e → P a → Mirrors M e (g a) (g' (f a)) h Q) :
    Mirrors M d (p >>= g) (p' >>= g') h Q := by
  intro hd
  obtain ⟨hrun,hsteps,hP⟩ := hp hd
  rw [runOn_bind,runOn_bind,hrun]
  revert hsteps hP
  rcases p.runOn d with ⟨x | a,e⟩
  · intro hsteps _
    exact ⟨rfl,hsteps,fun _ h => nomatch h⟩
  · intro hsteps hP
    obtain ⟨hrun',hsteps',hQ⟩ := hg a e hsteps (hP a rfl) (M.keepsAll hd hsteps)
    exact ⟨hrun',hsteps.trans hsteps',hQ⟩

theorem bind (hp : Mirrors M d p p' f P) (hg : ∀ a e, P a → Mirrors M e (g a) (g' (f a)) h Q) :
    Mirrors M d (p >>= g) (p' >>= g') h Q :=
  hp.follow (fun a e _ ha => hg a e ha)

theorem map {k : α → γ} {k' : β → δ} (hp : Mirrors M d p p' f P) (hk : ∀ a, P a → k' (f a) = h (k a) ∧ Q (k a)) :
    Mirrors M d (do return k (← p)) (do return k' (← p')) h Q :=
  hp.bind (fun a _ ha => .pure (hk a ha).1 (hk a ha).2)

theorem weaken {P' : α → Prop} (hp : Mirrors M d p p' f P) (h : ∀ a, P a → P' a) : Mirrors M d p p' f P' :=
  fun hd => ⟨(hp hd).1,(hp hd).2.1,fun a ha => h a ((hp hd).2.2 a ha)⟩

theorem fitting (h : M.Fits d → Mirrors M d p p' f P) : Mirrors M d p p' f P := fun hd => h hd hd

/-- Steps that look at the draft first. -/
theorem get {g : Draft → Build γ} {g' : Draft → Build δ} (hg : M.Fits d → Mirrors M d (g d) (g' (M.image d)) h Q) :
    Mirrors M d (MonadState.get >>= g) (MonadState.get >>= g') h Q := by
  intro hd
  rw [runOn_bind,runOn_bind,runOn_get,runOn_get]
  exact hg hd hd

/-- Steps that look at the memory first. -/
theorem view {g : Memory → Build γ} {g' : Memory → Build δ}
    (hg : M.Fits d → Mirrors M d (g (d.view M.left)) (g' ((M.image d).view M.right)) h Q) :
    Mirrors M d (Build.view M.left >>= g) (Build.view M.right >>= g') h Q := by
  intro hd
  rw [runOn_bind,runOn_bind,runOn_view,runOn_view]
  exact hg hd hd

/-- One step on each side. -/
theorem step {a : α} {b : β} {e : Draft} (hp : p.runOn d = (.ok a,e))
    (hp' : M.Fits d → p'.runOn (M.image d) = (.ok b,M.image e)) (hb : M.Fits d → b = f a)
    (hs : M.Fits d → M.extent.Step M.left d e) (ha : M.Fits d → P a) : Mirrors M d p p' f P := by
  intro hd
  rw [hp,hp' hd,hb hd]
  refine ⟨rfl,.single (hs hd),?_⟩
  rintro a' ⟨⟩
  exact ha hd

theorem mapM {l : List α} {g g' : α → Build γ} {h : γ → γ}
    (hg : ∀ a ∈ l, ∀ e, ReflTransGen (M.extent.Step M.left) d e → Mirrors M e (g a) (g' a) h Q) :
    Mirrors M d (l.mapM g) (l.mapM g') (List.map h) (fun cs => ∀ c ∈ cs, Q c) := by
  induction l generalizing d with
  | nil =>
    rw [List.mapM_nil,List.mapM_nil]
    exact .pure rfl (by simp)
  | cons a l ih =>
    rw [List.mapM_cons,List.mapM_cons]
    refine follow (hg a (.head _) d .refl) (fun c e hs hc => ?_)
    refine bind (ih (fun a ha e' hs' => hg a (.tail _ ha) e' (hs.trans hs'))) (fun cs e' hcs => ?_)
    exact .pure rfl (by simpa [hc] using hcs)

end Mirrors

/-! ## Streams and keys along a run -/

namespace Extent
variable {x : Extent} {s : Setting} {d e : Draft}

/-- No stream gets new items. -/
theorem Step.stream (st : x.Step s d e) (n : Nat) : ∀ v ∈ e.memory.stream n, v ∈ d.memory.stream n := by
  intro v hv
  cases st with
  | hand _ => rwa [Query.stream_handed] at hv
  | drain hi => exact Draft.mem_stream_drained hi hv
  | _ => exact hv

theorem stream_of_steps (st : ReflTransGen (x.Step s) d e) (n : Nat) :
    ∀ v ∈ e.memory.stream n, v ∈ d.memory.stream n :=
  keep_steps (P := fun e => ∀ v ∈ e.memory.stream n, v ∈ d.memory.stream n)
    (fun _ _ st h v hv => h v (st.stream n v hv)) st (fun _ hv => hv)

/-- All queries keep their clauses. -/
theorem fields_of_steps (st : ReflTransGen (x.Step s) d e) (n : Nat) : e.memory.fields n = d.memory.fields n :=
  Memory.fields_of_query (query_of_steps st n)

/-- A binding keeps its place. -/
theorem keys_of_steps (st : ReflTransGen (x.Step s) d e) : d.bindings.keys <+: e.bindings.keys := by
  induction st with
  | refl => exact List.prefix_rfl
  | tail _ st ih =>
    refine ih.trans ?_
    cases st with
    | bind _ => exact Entries.keys_prefix_put
    | adopt _ => exact Entries.keys_prefix_merge
    | take _ => exact Entries.keys_prefix_merge
    | hand _ => exact List.prefix_rfl
    | drain _ => exact List.prefix_rfl

end Extent

/-! ## Binding values and listing them -/

def Value.Yields (m : Memory) (v w : Value) : Prop := ∃ items, v.elements? m = some items ∧ w ∈ items

namespace Build
variable {M : Mirror} {d : Draft} {v : Value} {P : α → Prop} {g : α → α}

theorem mirror_bindValue (hv : M.extent.value v) :
    Mirrors M d (bindValue M.left v) (bindValue M.right v) M.name (fun _ => True) := by
  by_cases hb : M.left.Binds
  · refine .step (runOn_bindValue hb) (fun hd => ?_) M.nextName (fun _ => .bind d hv) (fun _ => trivial)
    rw [runOn_bindValue (M.binds_right hb),M.bound v hd]
  · obtain ⟨x,hx⟩ := bindValue_of_not_binds hb
    rw [hx M.left rfl,hx M.right (M.collection_eq hb)]
    exact .misuse x

theorem mirror_adopt {more more' : Entries} (hm : M.Fits d → (M.image d).adopted more' = M.image (d.adopted more))
    (hs : M.Fits d → M.extent.Step M.left d (d.adopted more)) :
    Mirrors M d (adopt M.left more) (adopt M.right more') id (fun _ => True) := by
  by_cases hb : M.left.Binds
  · refine .step (runOn_adopt hb more) (fun hd => ?_) (fun _ => rfl) hs (fun _ => trivial)
    rw [runOn_adopt (M.binds_right hb),hm hd]
  · have hright : ¬ M.right.Binds := by
      unfold Setting.Binds
      rwa [M.collection_eq hb]
    rw [adopt_of_not_binds hb,adopt_of_not_binds hright]
    exact .misuse _

/-- What an expression brings. -/
theorem mirror_brought {sql : String} {params : Entries} (hv : M.extent.value (.expression sql params)) :
    Mirrors M d (adopt M.left params) (adopt M.right params) id (fun _ => True) :=
  mirror_adopt (fun hd => M.adopted hd hv) (fun _ => .adopt d hv)

theorem mirror_rendered (hv : M.extent.value v) :
    Mirrors M d (rendered M.left v) (rendered M.right v) (Sql.rename M.name) (fun _ => True) := by
  unfold rendered
  split
  · exact (mirror_brought hv).map (fun _ _ => ⟨rfl,trivial⟩)
  · exact (mirror_bindValue hv).map (fun _ _ => ⟨rfl,trivial⟩)

theorem mirror_next? {n : Nat} (hn : M.cell n) :
    Mirrors M d (next? n) (next? n) id (fun o => ∀ v, o = some v → v ∈ d.memory.stream n) := by
  unfold next?
  refine .get (fun hd => ?_)
  unfold Memory.next?
  rw [M.stream hd hn]
  cases hs : d.memory.stream n with
  | nil => exact .pure rfl nofun
  | cons v rest =>
    refine .step (e := d.drained n rest) (a := some v) (b := some v) rfl (fun hd => ?_) (fun _ => rfl) (fun _ => .drain d ?_)
      (fun _ => ?_)
    · rw [← M.drained rest hd hn]
      rfl
    · intro w hw
      rw [hs]
      exact .tail _ hw
    · rintro w ⟨⟩
      exact .head _

/-- What is held at once is what is listed. -/
theorem elements_of_held {m : Memory} {items : List Value} (h : v.held m = .ok items) : v.elements? m = some items := by
  unfold Value.held at h
  split at h
  · next start stop step =>
    dsimp only at h
    split at h
    · cases h
    · split at h
      · cases h
      · cases h
        rfl
  · cases he : v.elements? m with
    | none =>
      rw [he] at h
      cases h
    | some items' =>
      rw [he] at h
      cases h
      rfl

theorem mirror_elements (ho : M.Open v) (hv : M.extent.value v) :
    Mirrors M d (elements M.left v) (elements M.right v) id
      (fun items => v.elements? (d.view M.left) = some items ∧ ∀ w ∈ items, M.extent.value w) := by
  unfold elements
  refine .view (fun hd => ?_)
  rw [M.held hd ho hv]
  cases hh : v.held (d.view M.left) with
  | error x => exact .misuse x
  | ok items =>
    have hi := elements_of_held hh
    have hitems : v.elements? (d.view M.left) = some items ∧ ∀ w ∈ items, M.extent.value w :=
      ⟨hi,(M.covers hd).elements hv hi⟩
    cases v with
    | stream n =>
      refine Mirrors.bind (f := id) (P := fun _ => True) ?_ (fun _ _ _ => .pure rfl hitems)
      refine .step rfl (fun hd => ?_) (fun _ => rfl) (fun _ => .drain d (by simp)) (fun _ => trivial)
      rw [← M.drained [] hd ho]
      rfl
    | _ => exact .pure rfl hitems

section Each
variable {f f' : Value → Build α}

theorem mirror_eachOfStream {n limit : Nat} {items : List Value} (hn : M.cell n)
    (hi : ∀ w ∈ d.memory.stream n, w ∈ items) (hf : ∀ w ∈ items, ∀ e, Mirrors M e (f w) (f' w) g P) :
    Mirrors M d (eachOfStream f n limit) (eachOfStream f' n limit) (List.map g) (fun as => ∀ a ∈ as, P a) := by
  induction limit generalizing d with
  | zero => exact .pure rfl (by simp)
  | succ limit ih =>
    unfold eachOfStream
    refine .follow (mirror_next? hn) (fun o e hs ho => ?_)
    cases o with
    | none => exact .pure rfl (by simp)
    | some v =>
      refine .follow (hf v (hi v (ho v rfl)) e) (fun a e' hs' ha => ?_)
      refine .bind (ih (fun w hw => hi w (Extent.stream_of_steps (hs.trans hs') n w hw))) (fun as e'' has => ?_)
      exact .pure rfl (by simpa [ha] using has)

theorem mirror_eachOfRange {first step : Int} {left : Nat}
    (hf : ∀ (k : Nat), k < left → ∀ e, Mirrors M e (f (.int (first + k * step))) (f' (.int (first + k * step))) g P) :
    Mirrors M d (eachOfRange f first step left) (eachOfRange f' first step left) (List.map g)
      (fun as => ∀ a ∈ as, P a) := by
  induction left generalizing d first with
  | zero => exact .pure rfl (by simp)
  | succ left ih =>
    unfold eachOfRange
    have hfirst := hf 0 (Nat.succ_pos left) d
    simp only [Int.natCast_zero,Int.zero_mul,Int.add_zero] at hfirst
    refine .bind hfirst (fun a e ha => ?_)
    refine .bind (ih (fun k hk e => ?_)) (fun as e' has => ?_)
    · have hnext := hf (k + 1) (Nat.succ_lt_succ hk) e
      have hsum : first + ((k + 1 : Nat) : Int) * step = first + step + k * step := by
        rw [Int.natCast_succ,Int.add_mul,Int.one_mul]
        omega
      rwa [hsum] at hnext
    · exact .pure rfl (by simpa [ha] using has)

theorem mirror_eachBinding {f f' : Value × Value → Build α} {home : Home} {keys : List Value} {left : Nat}
    (hc : M.left.collection = .shared home) (ho : M.home home) (hx : M.extent.value (.shared home))
    (hk : keys <+: d.bindings.keys) (hl : left ≤ keys.length)
    (hf : ∀ b, b.1 ∈ keys → M.extent.value b.1 → M.extent.value b.2 → ∀ e, Mirrors M e (f b) (f' b) g P) :
    Mirrors M d (eachBinding f keys.length left) (eachBinding f' keys.length left) (List.map g)
      (fun as => ∀ a ∈ as, P a) := by
  induction left generalizing d with
  | zero => exact .pure rfl (by simp)
  | succ left ih =>
    unfold eachBinding
    refine .get (fun hd => ?_)
    rw [M.own hd hc ho]
    cases hb : d.bindings[keys.length - (left + 1)]? with
    | none => exact .pure rfl (by simp)
    | some b =>
      have hm := (M.covers hd).own home hc hx b (List.mem_of_getElem? hb)
      have hkey : b.1 ∈ keys := by
        have hlt : keys.length - (left + 1) < keys.length := by omega
        have hget : d.bindings.keys[keys.length - (left + 1)]? = some b.1 := by
          rw [Entries.keys,List.getElem?_map,hb]
          rfl
        rw [List.prefix_iff_getElem?.mp hk _ hlt,Option.some.injEq] at hget
        rw [← hget]
        exact List.getElem_mem hlt
      refine .follow (hf b hkey hm.1 hm.2 d) (fun a e hs ha => ?_)
      refine .get (fun he => ?_)
      rw [M.own he hc ho]
      split
      · exact .misuse _
      · refine .bind (ih (hk.trans (Extent.keys_of_steps hs)) (Nat.le_of_succ_le hl)) (fun as e' has => ?_)
        exact .pure rfl (by simpa [ha] using has)

/-- The bindings show, from the first on, as the mapping that receives them. -/
theorem keys_own {s : Setting} {home : Home} (hc : s.collection = .shared home) :
    ((d.view s).mapping home).keys <+: d.bindings.keys := by
  by_cases hh : d.memory.Holds home
  · exact Draft.view_mapping_own hc hh ▸ List.prefix_rfl
  · rw [Draft.view_mapping_other (fun h => hh h.2),Memory.mapping_of_not_holds hh]
    exact List.nil_prefix

theorem mirror_eachEntry {f f' : Value × Value → Build α} (ho : M.Row v) (hv : M.extent.value v)
    (hf : ∀ b es, v.entries? (d.view M.left) = some es → b.1 ∈ es.keys → M.extent.value b.1 → M.extent.value b.2 →
      ∀ e, Mirrors M e (f b) (f' b) g P) :
    Mirrors M d (eachEntry M.left v f) (eachEntry M.right v f') (List.map g) (fun as => ∀ a ∈ as, P a) := by
  unfold eachEntry
  refine .view (fun hd => ?_)
  rw [M.entries hd ho,M.receives ho]
  cases he : v.entries? (d.view M.left) with
  | none => exact .misuse _
  | some es =>
    by_cases hr : M.left.receives v
    · obtain ⟨home,rfl,hc⟩ := receives_iff.mp hr
      simp only [hr,if_true]
      cases he
      have hall := mirror_eachBinding hc (ho home rfl) hv
        (keys_own hc) (Nat.le_refl _) (fun b hb => hf b _ rfl hb)
      simpa [Entries.keys] using hall
    · simp only [hr]
      have hes := (M.covers hd).entries hv he
      exact .mapM (fun b hb e _ => hf b es he (List.mem_map_of_mem hb) (hes b hb).1 (hes b hb).2 e)

theorem mirror_each (ho : M.Open v) (hv : M.extent.value v)
    (hf : ∀ w, v.Yields (d.view M.left) w → M.extent.value w → ∀ e, Mirrors M e (f w) (f' w) g P) :
    Mirrors M d (each M.left v f) (each M.right v f') (List.map g) (fun as => ∀ a ∈ as, P a) := by
  unfold each
  split
  · next n =>
    refine .get (fun hd => ?_)
    rw [M.stream hd ho]
    have hstream : Value.elements? (d.view M.left) (.stream n) = some (d.memory.stream n) := by
      rw [← Draft.view_stream M.left]
      rfl
    have hall : ∀ w ∈ d.memory.stream n, w ∈ d.memory.stream n := fun _ h => h
    refine mirror_eachOfStream ho hall (fun w hw => ?_)
    exact hf w ⟨_,hstream,hw⟩ ((M.covers hd).elements hv hstream w hw)
  · next start stop step =>
    refine mirror_eachOfRange (fun k hk => hf _ ⟨_,rfl,?_⟩ (M.extent.int _))
    exact List.mem_map.mpr ⟨k,List.mem_range.mpr hk,rfl⟩
  · refine .view (fun hd => ?_)
    rw [M.elements hd ho hv,M.receives (Mirror.row_of_open ho)]
    cases he : v.elements? (d.view M.left) with
    | none => exact .misuse _
    | some items =>
      by_cases hr : M.left.receives v
      · obtain ⟨home,rfl,hc⟩ := receives_iff.mp hr
        simp only [hr,if_true]
        cases he
        exact mirror_eachBinding hc ho hv (keys_own hc) (Nat.le_refl _) (fun b hb hk _ => hf b.1 ⟨_,rfl,hb⟩ hk)
      · simp only [hr]
        exact .mapM (fun w hw e _ => hf w ⟨items,he,hw⟩ ((M.covers hd).elements hv he w hw) e)

end Each

/-! ## Names -/

/-- A list of names, each of them as it is or missing. -/
theorem mirror_nameList {names : List (Option Sql)} :
    Mirrors M d (nameList names) (nameList (names.map (Option.map (Sql.rename M.name)))) (Sql.rename M.name)
      (fun _ => True) := by
  have hnames : (names.map (Option.map (Sql.rename M.name))).mapM id =
      (names.mapM id).map (List.map (Sql.rename M.name)) := by
    induction names with
    | nil => rfl
    | cons o names ih =>
      rw [List.map_cons,List.mapM_cons,List.mapM_cons,ih]
      cases o with
      | none => rfl
      | some sql => cases names.mapM id <;> rfl
  unfold nameList
  rw [hnames]
  cases names.mapM id with
  | none => exact .misuse _
  | some sqls => exact .pure (Sql.rename_commas sqls).symm trivial

end Build

def Value.IsText (v : Value) : Prop := ∃ t, v = .text t

def Mirror.Names (M : Mirror) (v : Value) : Prop := v.IsText ∨ M.names v

namespace Build
variable {M : Mirror} {d : Draft} {v : Value}

theorem mirror_soughtInStream {wanted : String} {n limit : Nat} (hn : M.cell n) :
    Mirrors M d (soughtInStream wanted n limit) (soughtInStream wanted n limit) id (fun _ => True) := by
  induction limit generalizing d with
  | zero => exact .pure rfl trivial
  | succ limit ih =>
    unfold soughtInStream
    refine .bind (mirror_next? hn) (fun o e _ => ?_)
    cases o with
    | none => exact .pure rfl trivial
    | some v =>
      dsimp only [id]
      split
      · exact .pure rfl trivial
      · exact ih

theorem mirror_holds {needle : Char} (ho : M.Open v) (hv : M.extent.value v) :
    Mirrors M d (holds M.left needle v) (holds M.right needle v) id (fun _ => True) := by
  unfold holds
  dsimp only
  split
  · exact .pure rfl trivial
  · split
    · exact .pure rfl trivial
    · exact .pure rfl trivial
    · exact .pure rfl trivial
    · exact .pure rfl trivial
    · exact .pure rfl trivial
    · exact .pure rfl trivial
    · exact .misuse _
    · refine .get (fun hd => ?_)
      rw [M.stream hd ho]
      exact mirror_soughtInStream ho
    · exact (mirror_elements ho hv).map (fun _ _ => ⟨rfl,trivial⟩)

theorem mirror_shown (h : M.names v) :
    Mirrors M d (shown M.left v) (shown M.right v) (Sql.rename M.name) (fun _ => True) := by
  refine .view (fun hd => .pure ?_ trivial)
  rw [M.display hd h]
  rfl

theorem open_of_names (hd : M.Fits d) (h : M.names v) : M.Open v := by
  obtain ⟨-,hshared,hstream⟩ := M.looked hd h
  cases v with
  | shared home => exact hshared home rfl
  | stream n => exact hstream n rfl
  | _ => trivial

theorem mirror_columnName (h : M.Names v) :
    Mirrors M d (columnName M.left v) (columnName M.right v) (Sql.rename M.name) (fun _ => True) := by
  rcases h with ⟨t,rfl⟩ | h
  · exact .pure (Sql.rename_column t).symm trivial
  · refine .fitting (fun hd => ?_)
    have ho := open_of_names hd h
    have hv := (M.looked hd h).1
    unfold columnName
    split
    · next name => exact .pure (Sql.rename_column name).symm trivial
    · refine .bind (mirror_holds ho hv) (fun open? e _ => ?_)
      dsimp only [id]
      split
      · exact mirror_shown h
      · refine .bind (mirror_holds ho hv) (fun point? e _ => ?_)
        dsimp only [id]
        rw [M.quote h]
        split
        · exact .misuse _
        · split
          · exact mirror_shown h
          · next name _ _ => exact .pure (Sql.rename_column name).symm trivial
          · exact .misuse _

theorem mirror_listedColumn (h : M.Names v) :
    Mirrors M d (listedColumn M.left v) (listedColumn M.right v) (Option.map (Sql.rename M.name)) (fun _ => True) := by
  rcases h with ⟨t,rfl⟩ | h
  · exact .pure (congrArg some (Sql.rename_column t).symm) trivial
  · refine .fitting (fun hd => ?_)
    unfold listedColumn
    split
    · next name => exact .pure (congrArg some (Sql.rename_column name).symm) trivial
    · refine .bind (mirror_holds (open_of_names hd h) (M.looked hd h).1) (fun open? e _ => ?_)
      dsimp only [id]
      split
      · exact .pure rfl trivial
      · exact (mirror_columnName (.inr h)).map (fun _ _ => ⟨rfl,trivial⟩)

theorem mirror_tableName (h : v.text?.isSome) :
    Mirrors M d (tableName M.left v) (tableName M.right v) (Sql.rename M.name) (fun _ => True) := by
  obtain ⟨t,ht⟩ := Option.isSome_iff_exists.mp h
  unfold tableName
  rw [ht]
  exact .pure (Sql.rename_table t).symm trivial

end Build

end SqlCompose
