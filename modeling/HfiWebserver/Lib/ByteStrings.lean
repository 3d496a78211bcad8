import Mathlib.Data.List.Infix

/-! # Byte strings

A string is the list of its bytes: Rust strings, OS strings and C strings are all lists of `UInt8`,
and `Valid` says which of them are UTF-8 (the validity rule of a Rust `String`). `contains` is the
substring test. The last two sections say where a pattern can occur in a concatenation: it cannot
cross a byte it does not have (`infix_append_cons_iff`), and when it starts with a separator it has
only once, it lies left of that separator, at it, or right of it (`infix_sep_iff`). -/

namespace HfiWebserver.Lib.ByteStrings

abbrev Bytes := List UInt8

/-- The bytes of a string literal. -/
def lit (s : String) : Bytes := s.toByteArray.data.toList

/-! ### UTF-8 -/

/-- **Well-formed UTF-8**: the encoding of a list of Unicode scalar values. -/
def Valid (b : Bytes) : Prop := b.toByteArray.IsValidUTF8

instance (b : Bytes) : Decidable (Valid b) :=
  inferInstanceAs (Decidable (ByteArray.IsValidUTF8 _))

theorem valid_nil : Valid [] := by decide

theorem Valid.append {a b : Bytes} (ha : Valid a) (hb : Valid b) : Valid (a ++ b) := by
  unfold Valid
  rw [List.toByteArray_append]
  exact ByteArray.IsValidUTF8.append ha hb

/-- ASCII text is UTF-8. -/
theorem valid_replicate {c : UInt8} (hc : Valid [c]) (n : ℕ) : Valid (List.replicate n c) := by
  induction n with
  | zero => exact valid_nil
  | succ n ih => exact hc.append ih

theorem continuation_ge (x : UInt8) : ¬ (x ||| 128) < 128 := by
  rw [UInt8.lt_iff_toNat_lt, UInt8.toNat_or]
  exact Nat.not_lt.mpr Nat.right_le_or

theorem Valid.of_append_singleton {a : Bytes} {c : UInt8} (hc : c < 128)
    (h : Valid (a ++ [c])) : Valid a := by
  obtain ⟨m, hm⟩ := h
  rcases List.eq_nil_or_concat m with rfl | ⟨m, d, rfl⟩
  · rw [List.utf8Encode, List.toByteArray_inj] at hm; simp at hm
  · rw [List.concat_eq_append, List.utf8Encode, List.toByteArray_inj, List.flatMap_append,
      List.flatMap_singleton] at hm
    have hlast := congrArg List.getLast? hm
    rw [List.getLast?_concat] at hlast
    have hd : d.utf8Size = 1 := by
      rcases d.utf8Size_eq with h | h | h | h
      · exact h
      all_goals
        first
        | rw [String.utf8EncodeChar_eq_cons_cons h] at hlast
        | rw [String.utf8EncodeChar_eq_cons_cons_cons h] at hlast
        | rw [String.utf8EncodeChar_eq_cons_cons_cons_cons h] at hlast
        simp only [List.getLast?_append, List.getLast?_cons_cons, List.getLast?_singleton,
          Option.some_or, Option.some.injEq] at hlast
        rw [hlast] at hc
        exact absurd hc (continuation_ge _)
    rw [String.utf8EncodeChar_eq_singleton hd] at hm
    exact ⟨m, by rw [(List.append_inj' hm rfl).1, List.utf8Encode]⟩

/-- What stands before ASCII text in UTF-8 is UTF-8. -/
theorem Valid.of_append {a b : Bytes} (hb : b.all (· < 128) = true) (h : Valid (a ++ b)) :
    Valid a := by
  induction b using List.reverseRecOn with
  | nil => rwa [List.append_nil] at h
  | append_singleton b c ih =>
    rw [List.all_append, Bool.and_eq_true] at hb
    have hc : c < 128 := by simpa using hb.2
    rw [← List.append_assoc] at h
    exact ih hb.1 (h.of_append_singleton hc)

/-- An ASCII byte in the encoding of a character is all of it. -/
theorem utf8EncodeChar_of_mem {c : UInt8} {d : Char} (hc : c < 128)
    (h : c ∈ String.utf8EncodeChar d) : String.utf8EncodeChar d = [c] := by
  have hor : ∀ x y : UInt8, 128 ≤ y → c ≠ x ||| y := by
    rintro x y hy rfl
    rw [UInt8.lt_iff_toNat_lt, UInt8.toNat_or] at hc
    have hle := UInt8.le_iff_toNat_le.mp hy
    exact absurd (hle.trans Nat.right_le_or) (Nat.not_le.mpr hc)
  rcases d.utf8Size_eq with hd | hd | hd | hd
  · rw [String.utf8EncodeChar_eq_singleton hd] at h ⊢
    rw [List.mem_singleton.mp h]
  · rw [String.utf8EncodeChar_eq_cons_cons hd, List.mem_pair] at h
    rcases h with h | h <;> exact absurd h (hor _ _ (by decide))
  · rw [String.utf8EncodeChar_eq_cons_cons_cons hd, List.mem_cons, List.mem_pair] at h
    rcases h with h | h | h <;> exact absurd h (hor _ _ (by decide))
  · rw [String.utf8EncodeChar_eq_cons_cons_cons_cons hd, List.mem_cons, List.mem_cons,
      List.mem_pair] at h
    rcases h with h | h | h | h <;> exact absurd h (hor _ _ (by decide))

theorem valid_iff {b : Bytes} : Valid b ↔ ∃ m : List Char, b = m.flatMap String.utf8EncodeChar := by
  constructor
  · rintro ⟨m, hm⟩
    rw [List.utf8Encode, List.toByteArray_inj] at hm
    exact ⟨m, hm⟩
  · rintro ⟨m, rfl⟩
    exact ⟨m, rfl⟩

theorem valid_ascii {c : UInt8} (hc : c < 128) : Valid [c] := by
  have h : ∀ n < 128, Valid [UInt8.ofNat n] := by decide +kernel
  have hn := h c.toNat (UInt8.lt_iff_toNat_lt.mp hc)
  rwa [UInt8.ofNat_toNat] at hn

/-- **UTF-8 is UTF-8 on both sides of an ASCII byte.** -/
theorem valid_append_cons_iff {a b : Bytes} {c : UInt8} (hc : c < 128) :
    Valid (a ++ c :: b) ↔ Valid a ∧ Valid b := by
  constructor
  · intro h
    obtain ⟨m, hm⟩ := valid_iff.mp h
    clear h
    induction m generalizing a with
    | nil => simp at hm
    | cons d m ih =>
      rw [List.flatMap_cons] at hm
      rcases List.append_eq_append_iff.mp hm with ⟨a', hd, hm'⟩ | ⟨a', rfl, hm'⟩
      · rcases a' with _ | ⟨x, a'⟩
        · obtain ⟨-, hb⟩ := ih (a := []) hm'
          exact ⟨valid_iff.mpr ⟨[d], by simp [hd]⟩, hb⟩
        · obtain ⟨rfl, rfl⟩ := List.cons.inj hm'
          rw [utf8EncodeChar_of_mem hc (by rw [hd]; simp)] at hd
          have hlen := congrArg List.length hd
          simp only [List.length_append, List.length_cons, List.length_nil] at hlen
          obtain rfl : a = [] := List.eq_nil_of_length_eq_zero (by omega)
          obtain rfl : a' = [] := List.eq_nil_of_length_eq_zero (by omega)
          exact ⟨valid_nil, valid_iff.mpr ⟨m, rfl⟩⟩
      · obtain ⟨ha, hb⟩ := ih hm'.symm
        exact ⟨(valid_iff.mpr ⟨[d], by simp⟩ : Valid (String.utf8EncodeChar d)).append ha, hb⟩
  · rintro ⟨ha, hb⟩
    exact ha.append ((valid_ascii hc).append hb)

theorem valid_cons_iff {c : UInt8} (hc : c < 128) {b : Bytes} : Valid (c :: b) ↔ Valid b := by
  have h := valid_append_cons_iff (a := []) (b := b) hc
  rw [List.nil_append] at h
  rw [h]
  exact and_iff_right valid_nil

theorem valid_ascii_append_iff {a b : Bytes} (ha : ∀ c ∈ a, c < 128) :
    Valid (a ++ b) ↔ Valid b := by
  induction a with
  | nil => exact Iff.rfl
  | cons c a ih =>
    rw [List.cons_append, valid_cons_iff (ha c List.mem_cons_self)]
    exact ih fun d hd => ha d (List.mem_cons_of_mem c hd)

/-! ### Substrings -/

/-- The substring test `s.contains(p)`. -/
def contains (s p : Bytes) : Bool := decide (p <:+: s)

theorem contains_iff {s p : Bytes} : contains s p = true ↔ p <:+: s := by simp [contains]

variable {α : Type} {x : α} {q l r : List α}

/-- A prefix of `l ++ x :: r` without an `x` is a prefix of `l`. -/
theorem prefix_append_cons_iff (hx : x ∉ q) : q <+: l ++ x :: r ↔ q <+: l := by
  induction l generalizing q with
  | nil =>
    cases q with
    | nil => simp
    | cons a q =>
      simp only [List.nil_append, List.cons_prefix_cons, List.prefix_nil, reduceCtorEq, iff_false]
      rintro ⟨rfl, -⟩
      simp at hx
  | cons b l ih =>
    cases q with
    | nil => simp
    | cons a q =>
      simp only [List.mem_cons, not_or] at hx
      rw [List.cons_append, List.cons_prefix_cons, List.cons_prefix_cons, ih hx.2]

/-- **A pattern without `x` does not cross an `x`.** -/
theorem infix_append_cons_iff (hx : x ∉ q) : q <:+: l ++ x :: r ↔ q <:+: l ∨ q <:+: r := by
  induction l with
  | nil =>
    have h := prefix_append_cons_iff (l := []) (r := r) hx
    rw [List.nil_append] at h
    rw [List.nil_append, List.infix_cons_iff, h, List.prefix_nil, List.infix_nil]
  | cons b l ih =>
    rw [List.cons_append, List.infix_cons_iff, ih, List.infix_cons_iff, ← List.cons_append,
      prefix_append_cons_iff hx, or_assoc]

/-- **Where a pattern that starts with its only separator occurs around that separator.** -/
theorem infix_sep_iff (hx : x ∉ q) :
    x :: q <:+: l ++ x :: r ↔ x :: q <:+: l ∨ q <+: r ∨ x :: q <:+: r := by
  induction l with
  | nil => rw [List.nil_append, List.infix_cons_iff]; simp
  | cons b l ih =>
    rw [List.cons_append, List.infix_cons_iff, ih, List.infix_cons_iff, List.cons_prefix_cons,
      List.cons_prefix_cons, prefix_append_cons_iff hx, or_assoc]

/-! ### The last occurrence of a byte -/

/-- The parts before and after the last `x`. -/
def rsplit [DecidableEq α] (x : α) : List α → Option (List α × List α)
  | [] => none
  | c :: l =>
    match rsplit x l with
    | some (b, a) => some (c :: b, a)
    | none => if c = x then some ([], l) else none

theorem rsplit_eq_none [DecidableEq α] : ∀ {l : List α}, x ∉ l → rsplit x l = none
  | [], _ => rfl
  | c :: l, h => by
    simp only [List.mem_cons, not_or] at h
    simp [rsplit, rsplit_eq_none h.2, Ne.symm h.1]

theorem rsplit_append_cons [DecidableEq α] (hr : x ∉ r) :
    ∀ l : List α, rsplit x (l ++ x :: r) = some (l, r)
  | [] => by simp [rsplit, rsplit_eq_none hr]
  | c :: l => by simp [rsplit, rsplit_append_cons hr l]

theorem eq_of_rsplit [DecidableEq α] :
    ∀ {l b a : List α}, rsplit x l = some (b, a) → l = b ++ x :: a
  | c :: l, b, a, h => by
    unfold rsplit at h
    rcases hl : rsplit x l with _ | ⟨b', a'⟩ <;> rw [hl] at h
    · split_ifs at h with hc
      simp only [Option.some.injEq, Prod.mk.injEq] at h
      rw [← h.1, ← h.2, hc, List.nil_append]
    · simp only [Option.some.injEq, Prod.mk.injEq] at h
      rw [← h.1, ← h.2, eq_of_rsplit hl, List.cons_append]

theorem not_mem_of_rsplit_eq_none [DecidableEq α] : ∀ {l : List α}, rsplit x l = none → x ∉ l
  | [], _ => by simp
  | c :: l, h => by
    unfold rsplit at h
    rcases hl : rsplit x l with _ | ⟨b, a⟩ <;> rw [hl] at h
    · have hc : c ≠ x := by rintro rfl; simp at h
      simp [not_mem_of_rsplit_eq_none hl, hc.symm]
    · simp at h

theorem not_mem_of_rsplit [DecidableEq α] :
    ∀ {l b a : List α}, rsplit x l = some (b, a) → x ∉ a
  | c :: l, b, a, h => by
    unfold rsplit at h
    rcases hl : rsplit x l with _ | ⟨b', a'⟩ <;> rw [hl] at h
    · have ha : l = a := by
        by_cases hc : c = x
        · simp [hc] at h
          exact h.2
        · simp [hc] at h
      rw [← ha]
      exact not_mem_of_rsplit_eq_none hl
    · have ha : a' = a := by
        simp at h
        exact h.2
      rw [← ha]
      exact not_mem_of_rsplit hl

theorem rsplit_eq_some_iff [DecidableEq α] {l b a : List α} :
    rsplit x l = some (b, a) ↔ l = b ++ x :: a ∧ x ∉ a := by
  constructor
  · intro h
    exact ⟨eq_of_rsplit h, not_mem_of_rsplit h⟩
  · rintro ⟨rfl, ha⟩
    exact rsplit_append_cons ha b

end HfiWebserver.Lib.ByteStrings
