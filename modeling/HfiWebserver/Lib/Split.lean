import HfiWebserver.Lib.ByteStrings
import Mathlib.Data.List.DropRight

/-! # Searching and splitting

`find p s` is where the pattern `p` occurs first in `s` (`std::string::find`), `split p s` the
parts of `s` between the occurrences of a separator, found from left to right, and
`replaceAll old new s` puts another text in their place. `trim q s` drops the elements with `q`
from both ends.

A pattern is found where it was put if no occurrence starts earlier: `find_append`, with the
converse `exists_of_find`. So `split` cuts off a part that does not run into the separator
(`split_append`), and replacing joins the parts with the new text (`replaceAll_eq`). -/

namespace HfiWebserver.Lib.Split

variable {α : Type} {p s l r : List α} {i : ℕ} {a b c : α}

/-! ### Patterns of two elements -/

theorem infix_pair_append :
    [a, b] <:+: l ++ r ↔
      [a, b] <:+: l ∨ [a, b] <:+: r ∨ l.getLast? = some a ∧ r.head? = some b := by
  induction l with
  | nil => simp
  | cons x l ih =>
    rw [List.cons_append, List.infix_cons_iff, ih, List.infix_cons_iff]
    cases l with
    | nil =>
      have hno : ¬ [a, b] <:+: ([] : List α) := by simp
      have hpre : [a, b] <+: x :: ([] ++ r) ↔ a = x ∧ r.head? = some b := by
        cases r with
        | nil => simp [List.cons_prefix_cons]
        | cons y r => simp [List.cons_prefix_cons, eq_comm]
      rw [hpre]
      simp [hno, List.cons_prefix_cons, eq_comm, or_comm]
    | cons y l =>
      have hpre : [a, b] <+: x :: (y :: l ++ r) ↔ [a, b] <+: x :: y :: l := by
        simp [List.cons_prefix_cons]
      rw [hpre, List.getLast?_cons_cons, or_assoc]

theorem infix_pair_concat :
    [a, b] <:+: l ++ [c] ↔ [a, b] <:+: l ∨ b = c ∧ l.getLast? = some a := by
  have hone : ¬ [a, b] <:+: [c] := fun h => by simpa using h.length_le
  rw [infix_pair_append, List.head?_cons, Option.some.injEq, and_comm, eq_comm (a := c)]
  simp only [hone, false_or]

/-- Two different elements do not run into their own pattern. -/
theorem not_infix_pair (hab : a ≠ b) (h : ¬ [a, b] <:+: l) : ¬ [a, b] <:+: l ++ [a, b].dropLast := by
  show ¬ [a, b] <:+: l ++ [a]
  rw [infix_pair_concat]
  rintro (hc | ⟨hc, -⟩)
  · exact h hc
  · exact hab hc.symm

/-- A text that does not end with `a` does not run into the pattern `aa`. -/
theorem not_infix_twice (h : ¬ [a, a] <:+: l) (hlast : l.getLast? ≠ some a) :
    ¬ [a, a] <:+: l ++ [a, a].dropLast := by
  show ¬ [a, a] <:+: l ++ [a]
  rw [infix_pair_concat]
  rintro (hc | ⟨-, hc⟩)
  · exact h hc
  · exact hlast hc

/-! ### Trimming -/

/-- `s` without the elements with `q` at its ends. -/
def trim (q : α → Bool) (s : List α) : List α := (s.dropWhile q).rdropWhile q

/-- **A text without `q` at its ends is what is left when it stands between elements with `q`.** -/
theorem trim_padded {q : α → Bool} {l w r : List α} (hl : ∀ x ∈ l, q x = true)
    (hr : ∀ x ∈ r, q x = true) (hhead : ∀ x, w.head? = some x → q x = false)
    (hlast : ∀ x, w.getLast? = some x → q x = false) : trim q (l ++ (w ++ r)) = w := by
  have hself : ∀ v : List α, (∀ x, v.head? = some x → q x = false) → v.dropWhile q = v := by
    intro v hv
    cases v with
    | nil => rfl
    | cons x v => exact List.dropWhile_cons_of_neg (by simp [hv x rfl])
  rw [trim, List.dropWhile_append_of_pos hl]
  rcases List.eq_nil_or_concat w with rfl | ⟨v, x, rfl⟩
  · rw [List.nil_append, List.dropWhile_eq_nil_iff.mpr hr, List.rdropWhile_nil]
  · have hdrop : (v.concat x ++ r).dropWhile q = v.concat x ++ r := by
      refine hself _ fun y hy => hhead y ?_
      rwa [List.head?_append_of_ne_nil _ (by simp)] at hy
    rw [hdrop, List.rdropWhile, List.reverse_append, List.dropWhile_append_of_pos, hself,
      List.reverse_reverse]
    · intro y hy
      refine hlast y ?_
      rwa [List.head?_reverse] at hy
    · intro y hy
      exact hr y (List.mem_reverse.mp hy)

/-! ### Joining -/

theorem head?_intercalate (p : List α) {w : List α} (hw : w ≠ []) (ws : List (List α)) :
    (p.intercalate (w :: ws)).head? = w.head? := by
  cases ws with
  | nil => rw [List.intercalate_singleton]
  | cons u ws =>
    rw [List.intercalate_cons_of_ne_nil (List.cons_ne_nil u ws), List.append_assoc,
      List.head?_append_of_ne_nil _ hw]

theorem getLast?_intercalate (p : List α) {w : List α} (hw : w ≠ []) (ws : List (List α)) :
    (p.intercalate (ws ++ [w])).getLast? = w.getLast? := by
  induction ws with
  | nil => rw [List.nil_append, List.intercalate_singleton]
  | cons u ws ih =>
    have hne : p.intercalate (ws ++ [w]) ≠ [] := by
      rw [← List.getLast?_isSome, ih, List.getLast?_isSome]
      exact hw
    rw [List.cons_append, List.intercalate_cons_of_ne_nil (by simp),
      List.getLast?_append_of_ne_nil _ hne, ih]

theorem mem_of_mem_intercalate {x : α} {ws : List (List α)} (hx : x ∈ p.intercalate ws) :
    x ∈ p ∨ ∃ w ∈ ws, x ∈ w := by
  induction ws with
  | nil => simp at hx
  | cons w ws ih =>
    cases ws with
    | nil =>
      rw [List.intercalate_singleton] at hx
      exact Or.inr ⟨w, List.mem_singleton_self w, hx⟩
    | cons u ws =>
      rw [List.intercalate_cons_of_ne_nil (List.cons_ne_nil u ws), List.mem_append,
        List.mem_append] at hx
      rcases hx with (hx | hx) | hx
      · exact Or.inr ⟨w, List.mem_cons_self, hx⟩
      · exact Or.inl hx
      · rcases ih hx with h | ⟨v, hv, hxv⟩
        · exact Or.inl h
        · exact Or.inr ⟨v, List.mem_cons_of_mem w hv, hxv⟩

/-! ### The first occurrence of a pattern -/

variable [DecidableEq α]

/-- Where `p` occurs first. -/
def find (p : List α) : List α → Option ℕ
  | [] => if p = [] then some 0 else none
  | c :: s => if p.isPrefixOf (c :: s) then some 0 else (find p s).map (· + 1)

theorem find_eq_none_iff : find p s = none ↔ ¬ p <:+: s := by
  induction s with
  | nil => simp [find]
  | cons c s ih =>
    rw [List.infix_cons_iff, not_or, ← ih, find]
    by_cases hp : p <+: c :: s
    · simp [hp]
    · simp [hp]

/-- **A pattern is found where it was put, if no occurrence starts earlier.** -/
theorem find_append (hp : p ≠ []) (h : ¬ p <:+: l ++ p.dropLast) (r : List α) :
    find p (l ++ (p ++ r)) = some l.length := by
  induction l with
  | nil =>
    obtain ⟨a, p, rfl⟩ := List.exists_cons_of_ne_nil hp
    simp [find]
  | cons c l ih =>
    have hlen : p.length ≤ (c :: l ++ p.dropLast).length := by
      simp only [List.length_append, List.length_cons, List.length_dropLast]
      omega
    have hpre : c :: l ++ p.dropLast <+: c :: l ++ (p ++ r) :=
      (List.prefix_append_right_inj _).mpr ((List.dropLast_prefix p).trans (List.prefix_append p r))
    have hno : ¬ p <+: c :: (l ++ (p ++ r)) := fun hc =>
      h (List.prefix_of_prefix_length_le hc hpre hlen).isInfix
    have htail : ¬ p <:+: l ++ p.dropLast := fun hc => h (List.infix_cons hc)
    rw [List.cons_append, find, if_neg (by simpa using hno), ih htail]
    rfl

theorem exists_of_find (hp : p ≠ []) (h : find p s = some i) :
    ∃ l r, s = l ++ (p ++ r) ∧ l.length = i ∧ ¬ p <:+: l ++ p.dropLast := by
  have hshort : ¬ p <:+: p.dropLast := fun hc => by
    have := hc.length_le
    have := List.length_pos_iff.mpr hp
    rw [List.length_dropLast] at *
    omega
  induction s generalizing i with
  | nil => simp [find, hp] at h
  | cons c s ih =>
    rw [find] at h
    split_ifs at h with hpre
    · obtain ⟨r, hr⟩ := List.isPrefixOf_iff_prefix.mp hpre
      cases h
      exact ⟨[], r, hr.symm, rfl, by rwa [List.nil_append]⟩
    · obtain ⟨j, hj, rfl⟩ := Option.map_eq_some_iff.mp h
      obtain ⟨l, r, hs, hl, hno⟩ := ih hj
      refine ⟨c :: l, r, by rw [hs]; rfl, by rw [← hl]; rfl, ?_⟩
      rw [List.cons_append, List.infix_cons_iff, not_or]
      refine ⟨fun hc => hpre (List.isPrefixOf_iff_prefix.mpr (hc.trans ?_)), hno⟩
      rw [hs]
      exact (List.prefix_append_right_inj (c :: l)).mpr
        ((List.dropLast_prefix p).trans (List.prefix_append p r))

/-- The end of an occurrence lies in the text. -/
theorem find_add_length_le (h : find p s = some i) : i + p.length ≤ s.length := by
  by_cases hp : p = []
  · subst hp
    have h0 : find [] s = some 0 := by cases s <;> simp [find]
    rw [h0] at h
    cases h
    exact Nat.zero_le _
  · obtain ⟨l, r, rfl, rfl, -⟩ := exists_of_find hp h
    simp only [List.length_append]
    omega

/-! ### Splitting -/

/-- The parts of `s` between the separators. -/
def split (p s : List α) : List (List α) :=
  match _h : find p s with
  | none => [s]
  | some i =>
    -- with an empty separator the loop would not end
    if _hp : p = [] then [s] else s.take i :: split p (s.drop (i + p.length))
termination_by s.length
decreasing_by
  have := find_add_length_le _h
  have := List.length_pos_iff.mpr _hp
  rw [List.length_drop]
  omega

theorem split_of_absent (h : ¬ p <:+: s) : split p s = [s] := by
  rw [split, find_eq_none_iff.mpr h]

theorem split_ne_nil : split p s ≠ [] := by
  rw [split]
  split
  · simp
  · split_ifs <;> simp

/-- **A part that does not run into the separator is cut off.** -/
theorem split_append (hp : p ≠ []) (h : ¬ p <:+: l ++ p.dropLast) (r : List α) :
    split p (l ++ (p ++ r)) = l :: split p r := by
  rw [split]
  split
  · next hf => rw [find_append hp h] at hf; cases hf
  · next i hf =>
    rw [find_append hp h] at hf
    cases hf
    rw [dif_neg hp, List.take_left, ← List.append_assoc, ← List.length_append, List.drop_left]

/-- A text has no separator, or its first part ends where the separator occurs first. -/
theorem split_cases (hp : p ≠ []) (s : List α) :
    (¬ p <:+: s ∧ split p s = [s]) ∨
      ∃ l r, s = l ++ (p ++ r) ∧ ¬ p <:+: l ++ p.dropLast ∧
        split p s = l :: split p r := by
  rcases hf : find p s with _ | i
  · have h := find_eq_none_iff.mp hf
    exact Or.inl ⟨h, split_of_absent h⟩
  · obtain ⟨l, r, rfl, -, hno⟩ := exists_of_find hp hf
    exact Or.inr ⟨l, r, rfl, hno, split_append hp hno r⟩

/-- The rule of the loop: the last part, and one part before the rest. -/
theorem split_induction {motive : List α → Prop} (hp : p ≠ [])
    (last : ∀ s, ¬ p <:+: s → motive s)
    (cut : ∀ l r, ¬ p <:+: l ++ p.dropLast → motive r → motive (l ++ (p ++ r)))
    (s : List α) : motive s := by
  induction hn : s.length using Nat.strong_induction_on generalizing s with
  | _ n ih =>
    rcases split_cases hp s with ⟨h, -⟩ | ⟨l, r, rfl, hno, -⟩
    · exact last s h
    · refine cut l r hno (ih r.length ?_ r rfl)
      have := List.length_pos_iff.mpr hp
      simp only [List.length_append] at hn
      omega

/-- A separator of one element splits as `List.splitOn`. -/
theorem split_singleton (a : α) (s : List α) : split [a] s = s.splitOn a := by
  have hne : [a] ≠ [] := List.cons_ne_nil a []
  induction s using split_induction hne with
  | last s h =>
    rw [split_of_absent h, List.splitOn_eq_singleton]
    rwa [List.singleton_infix_iff] at h
  | cut l r hno ih =>
    have hl : a ∉ l := by simpa [List.singleton_infix_iff] using hno
    rw [split_append hne hno, ih]
    show _ = (l ++ a :: r).splitOn a
    rw [List.splitOn_append_cons_self_of_not_mem hl]

/-! ### Replacing -/

/-- `s` with `new` for every `old`. -/
def replaceAll (old new s : List α) : List α :=
  match _h : find old s with
  | none => s
  | some i =>
    if _hold : old = [] then s
    else s.take i ++ new ++ replaceAll old new (s.drop (i + old.length))
termination_by s.length
decreasing_by
  have := find_add_length_le _h
  have := List.length_pos_iff.mpr _hold
  rw [List.length_drop]
  omega

/-- **Replacing joins the parts with the new text.** -/
theorem replaceAll_eq {old new : List α} (hold : old ≠ []) (s : List α) :
    replaceAll old new s = new.intercalate (split old s) := by
  induction s using split_induction hold with
  | last s h =>
    rw [split_of_absent h, List.intercalate_singleton, replaceAll, find_eq_none_iff.mpr h]
  | cut l r hno ih =>
    rw [split_append hold hno, List.intercalate_cons_of_ne_nil split_ne_nil, ← ih, replaceAll]
    split
    · next hf => rw [find_append hold hno] at hf; cases hf
    · next i hf =>
      rw [find_append hold hno] at hf
      cases hf
      rw [dif_neg hold, List.take_left, ← List.append_assoc, ← List.length_append, List.drop_left]

/-- Deleting one element. -/
theorem replaceAll_singleton (a : α) (s : List α) :
    replaceAll [a] [] s = s.filter (· ≠ a) := by
  have hne : [a] ≠ [] := List.cons_ne_nil a []
  rw [replaceAll_eq hne]
  induction s using split_induction hne with
  | last s h =>
    rw [split_of_absent h, List.intercalate_singleton, List.filter_eq_self.mpr]
    intro b hb
    rw [List.singleton_infix_iff] at h
    simpa using ne_of_mem_of_not_mem hb h
  | cut l r hno ih =>
    have hl : a ∉ l := by simpa [List.singleton_infix_iff] using hno
    have hfl : l.filter (· ≠ a) = l :=
      List.filter_eq_self.mpr fun b hb => by simpa using ne_of_mem_of_not_mem hb hl
    rw [split_append hne hno, List.intercalate_cons_of_ne_nil split_ne_nil, ih, List.filter_append,
      hfl, List.append_nil]
    simp

end HfiWebserver.Lib.Split
