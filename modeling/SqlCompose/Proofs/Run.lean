import SqlCompose.Statement

/-! # Runs of composition steps

How a step that is put together from others runs: what it gives, and the draft it leaves. All other proofs
take a step apart by these equations alone.
-/
namespace SqlCompose
variable {α β : Type}

theorem bind_eq_ok {ε : Type} {x : Except ε α} {f : α → Except ε β} {b : β} :
    (x >>= f) = .ok b ↔ ∃ a, x = .ok a ∧ f a = .ok b := by
  cases x <;> simp [bind,Except.bind]

namespace Build

@[simp] theorem runOn_pure (a : α) (d : Draft) : (pure a : Build α).runOn d = (.ok a,d) := rfl

theorem runOn_bind (p : Build α) (f : α → Build β) (d : Draft) :
    (p >>= f).runOn d = match p.runOn d with
      | (.ok a,e) => (f a).runOn e
      | (.error x,e) => (.error x,e) := by
  unfold runOn
  simp only [ExceptT.run_bind,StateT.run_bind,Id.run_bind]
  rcases Id.run (StateT.run p.run d) with ⟨x | a,e⟩ <;> rfl

@[simp] theorem runOn_fail (x : Fault) (d : Draft) : (fail x : Build α).runOn d = (.error x,d) := rfl

@[simp] theorem runOn_misuse (x : Misuse) (d : Draft) :
    (misuse x : Build α).runOn d = (.error (.misuse x),d) := rfl

@[simp] theorem runOn_get (d : Draft) : (get : Build Draft).runOn d = (.ok d,d) := rfl

@[simp] theorem runOn_set (d e : Draft) : (set e : Build PUnit).runOn d = (.ok ⟨⟩,e) := rfl

@[simp] theorem runOn_modify (f : Draft → Draft) (d : Draft) :
    (modify f : Build PUnit).runOn d = (.ok ⟨⟩,f d) := rfl

@[simp] theorem runOn_view (s : Setting) (d : Draft) : (view s).runOn d = (.ok (d.view s),d) := rfl

/-- A sequence gives a result exactly if its first step does and the rest does from there. -/
theorem runOn_bind_ok {p : Build α} {f : α → Build β} {d e : Draft} {b : β} :
    (p >>= f).runOn d = (.ok b,e) ↔ ∃ a c, p.runOn d = (.ok a,c) ∧ (f a).runOn c = (.ok b,e) := by
  rw [runOn_bind]
  rcases p.runOn d with ⟨x | a,c⟩
  · simp
  · constructor
    · intro h
      exact ⟨a,c,rfl,h⟩
    · rintro ⟨a',c',h,h'⟩
      cases h
      exact h'

theorem nameList_some (names : List Sql) : nameList (names.map some) = pure (Sql.commas names) := by
  have hnames : (names.map some).mapM id = some names := by
    induction names with
    | nil => rfl
    | cons a names ih => simp [ih]
  rw [nameList,hnames]

end Build

variable {s : Setting} {d : Draft} {v : Value}

def Setting.Binds (s : Setting) : Prop := s.collection = .own ∨ ∃ home, s.collection = .shared home

namespace Build

theorem runOn_bindValue (h : s.Binds) : (bindValue s v).runOn d = (.ok (d.nextName s),d.bound s v) := by
  rcases h with h | ⟨home,h⟩ <;> simp only [bindValue,h] <;> rfl

theorem runOn_adopt (h : s.Binds) (more : Entries) : (adopt s more).runOn d = (.ok ⟨⟩,d.adopted more) := by
  rcases h with h | ⟨home,h⟩ <;> simp only [adopt,h] <;> rfl

/-- Without a mapping that takes bindings no value is bound. -/
theorem bindValue_of_not_binds (h : ¬ s.Binds) :
    ∃ x, ∀ s' : Setting, s'.collection = s.collection → ∀ v, bindValue s' v = misuse x := by
  cases hc : s.collection with
  | own => exact absurd (.inl hc) h
  | shared home => exact absurd (.inr ⟨home,hc⟩) h
  | fixed refusal => exact ⟨refusal,fun s' hs v => by rw [bindValue,hs]⟩
  | missing => exact ⟨.noSuchOperation,fun s' hs v => by rw [bindValue,hs]⟩

/-- Without a mapping that takes bindings no bindings are taken over. -/
theorem adopt_of_not_binds (h : ¬ s.Binds) (more : Entries) : adopt s more = misuse .noSuchOperation := by
  unfold adopt
  cases hc : s.collection with
  | own => exact absurd (.inl hc) h
  | shared home => exact absurd (.inr ⟨home,hc⟩) h
  | fixed refusal => rfl
  | missing => rfl

/-- Without a mapping that takes bindings both ways of binding fail, and the draft stays. -/
theorem runOn_of_not_binds (h : ¬ s.Binds) (more : Entries) :
    (∃ x, (bindValue s v).runOn d = (.error x,d)) ∧ ∃ x, (adopt s more).runOn d = (.error x,d) := by
  obtain ⟨x,hx⟩ := bindValue_of_not_binds h
  rw [hx s rfl,adopt_of_not_binds h]
  exact ⟨⟨_,runOn_misuse x d⟩,⟨_,runOn_misuse _ d⟩⟩

end Build

end SqlCompose
