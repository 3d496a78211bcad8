import Mathlib.Logic.Basic

/-! # Computations that can fail

Rules for `Except`: what a sequence returns (`bind_eq_ok`), and which faults it can end with.
`FaultsIn P x` says that a fault of `x` satisfies `P`; it holds of a sequence when it holds of the
steps (`FaultsIn.bind`), and of a loop when it holds of the body (`FaultsIn.mapM`). -/

namespace HfiWebserver.Lib.Fallible

variable {ε α β γ : Type} {x : Except ε α} {f : α → Except ε β}

@[simp] theorem ok_bind (a : α) (f : α → Except ε β) : (Except.ok a >>= f) = f a := rfl

@[simp] theorem error_bind (e : ε) (f : α → Except ε β) :
    ((Except.error e : Except ε α) >>= f) = .error e := rfl

@[simp] theorem pure_eq (a : α) : (pure a : Except ε α) = .ok a := rfl

@[simp] theorem throw_eq (e : ε) : (throw e : Except ε α) = .error e := rfl

@[simp] theorem map_ok (g : α → β) (a : α) :
    (Except.ok a : Except ε α).map g = .ok (g a) := rfl

@[simp] theorem map_error (g : α → β) (e : ε) :
    (Except.error e : Except ε α).map g = .error e := rfl

theorem bind_eq_ok {b : β} : x >>= f = .ok b ↔ ∃ a, x = .ok a ∧ f a = .ok b := by
  cases x <;> simp

theorem bind_eq_error {e : ε} :
    x >>= f = .error e ↔ x = .error e ∨ ∃ a, x = .ok a ∧ f a = .error e := by
  cases x <;> simp

theorem map_eq_ok {g : α → β} {b : β} : x.map g = .ok b ↔ ∃ a, x = .ok a ∧ g a = b := by
  cases x <;> simp

theorem map_eq_error {g : α → β} {e : ε} : x.map g = .error e ↔ x = .error e := by
  cases x <;> simp

theorem exists_map_eq_ok (h : ∃ a, x = .ok a) (g : α → β) : ∃ b, x.map g = .ok b := by
  obtain ⟨a, rfl⟩ := h
  exact ⟨g a, rfl⟩

/-! ### Faults -/

/-- Every fault of `x` satisfies `P`. -/
def FaultsIn (P : ε → Prop) (x : Except ε α) : Prop := ∀ e, x = .error e → P e

variable {P : ε → Prop}

@[simp] theorem faultsIn_ok (a : α) : FaultsIn P (Except.ok a) := fun _ h => nomatch h

@[simp] theorem faultsIn_error {e : ε} : FaultsIn P (Except.error e : Except ε α) ↔ P e := by
  constructor
  · intro h
    exact h e rfl
  · rintro h _ ⟨⟩
    exact h

theorem FaultsIn.bind (hx : FaultsIn P x) (hf : ∀ a, x = .ok a → FaultsIn P (f a)) :
    FaultsIn P (x >>= f) := by
  intro e h
  rcases bind_eq_error.mp h with h | ⟨a, ha, h⟩
  · exact hx e h
  · exact hf a ha e h

theorem FaultsIn.map {g : α → β} (hx : FaultsIn P x) : FaultsIn P (x.map g) := fun e h =>
  hx e (map_eq_error.mp h)

theorem FaultsIn.mapM {l : List α} (h : ∀ a ∈ l, FaultsIn P (f a)) : FaultsIn P (l.mapM f) := by
  induction l with
  | nil => exact faultsIn_ok []
  | cons a l ih =>
    rw [List.mapM_cons]
    refine FaultsIn.bind (h a List.mem_cons_self) fun b _ => ?_
    exact FaultsIn.bind (ih fun c hc => h c (List.mem_cons_of_mem a hc)) fun bs _ => faultsIn_ok _

/-- A loop whose steps all succeed succeeds. -/
theorem exists_mapM_eq_ok {l : List α} (h : ∀ a ∈ l, ∃ b, f a = .ok b) :
    ∃ bs, l.mapM f = .ok bs := by
  rcases hm : l.mapM f with e | bs
  · have hfalse : FaultsIn (fun _ => False) (l.mapM f) := FaultsIn.mapM fun a ha e he => by
      obtain ⟨b, hb⟩ := h a ha
      rw [hb] at he
      cases he
    exact absurd hm (hfalse e)
  · exact ⟨bs, rfl⟩

theorem exists_ok_of_mapM_eq_ok {l : List α} {bs : List β} (h : l.mapM f = .ok bs) :
    ∀ a ∈ l, ∃ b, f a = .ok b := by
  induction l generalizing bs with
  | nil => simp
  | cons a l ih =>
    rw [List.mapM_cons] at h
    obtain ⟨b, hb, h⟩ := bind_eq_ok.mp h
    obtain ⟨bs', hbs, -⟩ := bind_eq_ok.mp h
    intro c hc
    rcases List.mem_cons.mp hc with rfl | hc
    · exact ⟨b, hb⟩
    · exact ih hbs c hc

end HfiWebserver.Lib.Fallible
