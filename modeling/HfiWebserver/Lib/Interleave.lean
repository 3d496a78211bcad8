import Mathlib.Logic.Function.Basic
import Mathlib.Data.List.Basic

/-! # Runs of a machine, and interleavings of several copies of it

A machine is a partial step function on labels. `run` folds it over a list of labels; `run_inv` is
the induction rule, for an invariant that may also speak of the labels run so far.

Several copies of one machine, one for each thread, run side by side by `stepAt`: each label names
the thread that takes it, and no other thread moves. `run_stepAt` projects a run of all threads to
each of them: whatever the others do in between, a thread ends where its own labels (`own`) alone
take it. -/

namespace HfiWebserver.Lib.Interleave

variable {σ α Tid : Type}

/-- Runs a list of labels, as long as every step is possible. -/
def run (step : σ → α → Option σ) (s : σ) (as : List α) : Option σ := as.foldlM step s

variable {step : σ → α → Option σ}

@[simp] theorem run_nil (s : σ) : run step s [] = some s := rfl

@[simp] theorem run_cons (s : σ) (a : α) (as : List α) :
    run step s (a :: as) = (step s a).bind fun s' => run step s' as := rfl

theorem run_append (s : σ) (as bs : List α) :
    run step s (as ++ bs) = (run step s as).bind fun s' => run step s' bs :=
  List.foldlM_append

theorem run_trans {s s1 s2 : σ} {as bs : List α} (h1 : run step s as = some s1)
    (h2 : run step s1 bs = some s2) : run step s (as ++ bs) = some s2 := by
  rw [run_append, h1]; exact h2

/-- **An invariant of every run**: `I as s` relates the labels run so far to the state. -/
theorem run_inv {I : List α → σ → Prop} {s s' : σ} {as : List α} (h0 : I [] s)
    (hstep : ∀ bs s1 a s2, I bs s1 → step s1 a = some s2 → I (bs ++ [a]) s2)
    (h : run step s as = some s') : I as s' := by
  suffices key : ∀ (as bs : List α) (s1 : σ), I bs s1 → run step s1 as = some s' →
      I (bs ++ as) s' from key as [] s h0 h
  intro as
  induction as with
  | nil =>
    intro bs s1 hI h
    rw [run_nil, Option.some.injEq] at h
    rw [List.append_nil, ← h]; exact hI
  | cons a as ih =>
    intro bs s1 hI h
    rw [run_cons, Option.bind_eq_some_iff] at h
    obtain ⟨s2, h1, h2⟩ := h
    have := ih _ s2 (hstep bs s1 a s2 hI h1) h2
    rwa [List.append_assoc, List.singleton_append] at this

/-- A run fails when one of its labels does, if no label's failure depends on the state. -/
theorem run_eq_none_iff {bad : α → Prop} {as : List α}
    (hbad : ∀ a ∈ as, ∀ s, step s a = none ↔ bad a) (s : σ) :
    run step s as = none ↔ ∃ a ∈ as, bad a := by
  induction as generalizing s with
  | nil => simp
  | cons a as ih =>
    have ih := ih fun b hb => hbad b (List.mem_cons_of_mem a hb)
    rw [run_cons, List.exists_mem_cons_iff, ← hbad a List.mem_cons_self s]
    rcases hs : step s a with _ | s'
    · simp
    · simp [ih s']

/-- **A map of the states that goes through each step goes through a run.** -/
theorem run_map_state {τ : Type} {step' : τ → α → Option τ} {φ : σ → τ}
    (h : ∀ s a, step' (φ s) a = (step s a).map φ) (s : σ) (as : List α) :
    run step' (φ s) as = (run step s as).map φ := by
  induction as generalizing s with
  | nil => rfl
  | cons a as ih =>
    rw [run_cons, run_cons, h]
    rcases step s a with _ | s'
    · rfl
    · exact ih s'

theorem run_map {β : Type} (f : β → α) (s : σ) (bs : List β) :
    run step s (bs.map f) = run (fun s b => step s (f b)) s bs := by
  induction bs generalizing s with
  | nil => rfl
  | cons b bs ih => simp [ih]

/-! ### Threads -/

variable [DecidableEq Tid]

/-- One step of one thread. -/
def stepAt (step : σ → α → Option σ) (s : Tid → σ) (a : Tid × α) : Option (Tid → σ) :=
  (step (s a.1) a.2).map (Function.update s a.1)

/-- The labels a thread takes itself. -/
def own (t : Tid) (as : List (Tid × α)) : List α := (as.filter fun a => a.1 = t).map Prod.snd

@[simp] theorem own_nil (t : Tid) : own t ([] : List (Tid × α)) = [] := rfl

theorem own_cons_self (t : Tid) (a : α) (as : List (Tid × α)) :
    own t ((t, a) :: as) = a :: own t as := by simp [own]

theorem own_cons_ne {t u : Tid} (h : u ≠ t) (a : α) (as : List (Tid × α)) :
    own t ((u, a) :: as) = own t as := by simp [own, h]

theorem mem_own {t : Tid} {a : α} {as : List (Tid × α)} : a ∈ own t as ↔ (t, a) ∈ as := by
  simp [own]

theorem stepAt_eq_some {s s' : Tid → σ} {a : Tid × α} :
    stepAt step s a = some s' ↔ ∃ x, step (s a.1) a.2 = some x ∧ s' = Function.update s a.1 x := by
  simp [stepAt, eq_comm]

/-- **The other threads do not matter**: a thread ends where its own labels take it. -/
theorem run_stepAt {s s' : Tid → σ} {as : List (Tid × α)}
    (h : run (stepAt step) s as = some s') (t : Tid) :
    run step (s t) (own t as) = some (s' t) := by
  induction as generalizing s with
  | nil =>
    rw [run_nil, Option.some.injEq] at h
    rw [own_nil, run_nil, h]
  | cons a as ih =>
    obtain ⟨u, a⟩ := a
    rw [run_cons, Option.bind_eq_some_iff] at h
    obtain ⟨s1, h1, h2⟩ := h
    obtain ⟨x, hx, rfl⟩ := stepAt_eq_some.mp h1
    have := ih h2
    by_cases hu : u = t
    · subst hu
      rw [Function.update_self] at this
      rw [own_cons_self, run_cons, hx]; exact this
    · rw [Function.update_of_ne (Ne.symm hu)] at this
      rw [own_cons_ne hu]; exact this

end HfiWebserver.Lib.Interleave
