import HfiWebserver.Lib.ByteStrings
import Mathlib.Logic.Function.Basic

/-! # Strings in C buffers

A `Buffer` is an allocated block of bytes, uninitialised at first, with the history of the offsets
stored to it; a store outside the block is recorded like any other. `sprintf` stores a text and a
NUL, `snprintf` at most as many bytes as it is given. `string_at` reads a string up to its NUL, and
is `none` when the reading comes to an uninitialised byte or to the end of the block.

* `holds_write`, `Holds.write_append`: what a buffer holds after one write, and after a write behind
  what it held;
* `string_at_of_holds`: a text and a NUL are read as the text. -/

namespace HfiWebserver.Lib.CBuffer

open HfiWebserver.Lib.ByteStrings

structure Buffer where
  size : ℕ
  bytes : ℕ → Option UInt8
  stores : List ℕ

namespace Buffer

def alloc (size : ℕ) : Buffer := ⟨size, fun _ => none, []⟩

def store (k : ℕ) (c : UInt8) (b : Buffer) : Buffer :=
  { b with bytes := Function.update b.bytes k (some c), stores := k :: b.stores }

/-- Stores some bytes from offset `k` on. -/
def write (k : ℕ) : Bytes → Buffer → Buffer
  | [], b => b
  | c :: cs, b => write (k + 1) cs (b.store k c)

/-- `sprintf(b + k, …)`, on the formatted text. -/
def sprintf (k : ℕ) (text : Bytes) (b : Buffer) : Buffer := b.write k (text ++ [0])

/-- `snprintf(b, n, …)`, on the formatted text. -/
def snprintf (n : ℕ) (text : Bytes) (b : Buffer) : Buffer :=
  if n = 0 then b else b.write 0 (text.take (n - 1) ++ [0])

/-- Reads up to the NUL, over at most `n` bytes. -/
def scan (b : Buffer) : ℕ → ℕ → Option Bytes
  | 0, _ => none
  | n + 1, k =>
    match b.bytes k with
    | none => none
    | some c => if c = 0 then some [] else (scan b n (k + 1)).map (c :: ·)

/-- The string at offset `k`. -/
def string_at (k : ℕ) (b : Buffer) : Option Bytes := b.scan (b.size - k) k

/-- The buffer has the bytes `cs` from offset `k` on. -/
def Holds (b : Buffer) (k : ℕ) (cs : Bytes) : Prop := ∀ i < cs.length, b.bytes (k + i) = cs[i]?

/-! ### Writes -/

@[simp] theorem size_write (k : ℕ) (cs : Bytes) (b : Buffer) : (b.write k cs).size = b.size := by
  induction cs generalizing k b with
  | nil => rfl
  | cons c cs ih => simp [write, ih, store]

theorem bytes_write (k : ℕ) (cs : Bytes) (b : Buffer) (j : ℕ) : (b.write k cs).bytes j =
    if k ≤ j ∧ j < k + cs.length then cs[j - k]? else b.bytes j := by
  induction cs generalizing k b with
  | nil =>
    have hj : ¬ (k ≤ j ∧ j < k + ([] : Bytes).length) := by
      rw [List.length_nil]
      omega
    rw [if_neg hj, write]
  | cons c cs ih =>
    rw [write, ih]
    by_cases hj : k + 1 ≤ j ∧ j < k + 1 + cs.length
    · have hlen : k ≤ j ∧ j < k + (c :: cs).length := by
        rw [List.length_cons]
        omega
      have hsub : j - k = (j - (k + 1)) + 1 := by omega
      rw [if_pos hj, if_pos hlen, hsub, List.getElem?_cons_succ]
    · rw [if_neg hj]
      by_cases hk : j = k
      · subst hk
        simp [store]
      · have hlen : ¬ (k ≤ j ∧ j < k + (c :: cs).length) := by
          rw [List.length_cons]
          omega
        rw [if_neg hlen]
        exact Function.update_of_ne hk _ _

theorem mem_stores_write {k : ℕ} {cs : Bytes} {b : Buffer} {j : ℕ} :
    j ∈ (b.write k cs).stores ↔ j ∈ b.stores ∨ k ≤ j ∧ j < k + cs.length := by
  induction cs generalizing k b with
  | nil =>
    have h : ¬ (k ≤ j ∧ j < k) := by omega
    simp [write, h]
  | cons c cs ih =>
    rw [write, ih]
    simp only [store, List.mem_cons, List.length_cons]
    constructor
    · rintro ((rfl | h) | h)
      · exact Or.inr (by omega)
      · exact Or.inl h
      · exact Or.inr (by omega)
    · rintro (h | h)
      · exact Or.inl (Or.inr h)
      · by_cases hk : j = k
        · exact Or.inl (Or.inl hk)
        · exact Or.inr (by omega)

/-- **A buffer holds what was written.** -/
theorem holds_write (k : ℕ) (cs : Bytes) (b : Buffer) : (b.write k cs).Holds k cs := by
  intro i hi
  rw [bytes_write, if_pos (by omega), Nat.add_sub_cancel_left]

/-- **A write behind what a buffer held** leaves both. -/
theorem Holds.write_append {b : Buffer} {k : ℕ} {cs : Bytes} (h : b.Holds k cs) (ds : Bytes) :
    (b.write (k + cs.length) ds).Holds k (cs ++ ds) := by
  intro i hi
  rw [List.length_append] at hi
  rw [bytes_write]
  by_cases hc : i < cs.length
  · rw [if_neg (by omega), h i hc, List.getElem?_append_left hc]
  · have hsub : k + i - (k + cs.length) = i - cs.length := by omega
    rw [if_pos (by omega), hsub, List.getElem?_append_right (by omega)]

theorem Holds.left {b : Buffer} {k : ℕ} {cs ds : Bytes} (h : b.Holds k (cs ++ ds)) :
    b.Holds k cs := by
  intro i hi
  rw [h i (by rw [List.length_append]; omega), List.getElem?_append_left hi]

theorem Holds.right {b : Buffer} {k : ℕ} {cs ds : Bytes} (h : b.Holds k (cs ++ ds)) :
    b.Holds (k + cs.length) ds := by
  intro i hi
  rw [Nat.add_assoc, h (cs.length + i) (by rw [List.length_append]; omega),
    List.getElem?_append_right (by omega), Nat.add_sub_cancel_left]

theorem Holds.append_singleton {b : Buffer} {k : ℕ} {cs : Bytes} {c : UInt8} (h : b.Holds k cs)
    (hc : b.bytes (k + cs.length) = some c) : b.Holds k (cs ++ [c]) := by
  intro i hi
  rw [List.length_append, List.length_singleton] at hi
  rcases Nat.lt_succ_iff_lt_or_eq.mp hi with hi | rfl
  · rw [h i hi, List.getElem?_append_left hi]
  · rw [hc, List.getElem?_concat_length]

/-! ### Strings -/

theorem scan_of_holds {b : Buffer} {k : ℕ} {s : Bytes} (h : b.Holds k (s ++ [0])) (h0 : 0 ∉ s)
    {n : ℕ} (hn : s.length < n) : b.scan n k = some s := by
  induction s generalizing k n with
  | nil =>
    obtain ⟨n, rfl⟩ := Nat.exists_eq_succ_of_ne_zero (Nat.ne_of_gt hn)
    have hk : b.bytes k = some 0 := h 0 (by simp)
    simp [scan, hk]
  | cons c s ih =>
    obtain ⟨n, rfl⟩ := Nat.exists_eq_succ_of_ne_zero (Nat.ne_of_gt (Nat.zero_lt_of_lt hn))
    have hk : b.bytes k = some c := h 0 (by simp)
    have hc : c ≠ 0 := by
      rintro rfl
      simp at h0
    have htail : b.Holds (k + 1) (s ++ [0]) := by
      intro i hi
      have hi' := h (i + 1) (by simpa using hi)
      rw [Nat.add_assoc, Nat.add_comm 1 i, hi', List.cons_append, List.getElem?_cons_succ]
    have hrest := ih htail (fun hs => h0 (List.mem_cons_of_mem c hs)) (Nat.lt_of_succ_lt_succ hn)
    simp [scan, hk, hc, hrest]

/-- **A text and a NUL inside the block are read as the text.** -/
theorem string_at_of_holds {b : Buffer} {k : ℕ} {s : Bytes} (h : b.Holds k (s ++ [0])) (h0 : 0 ∉ s)
    (hsize : k + s.length < b.size) : b.string_at k = some s :=
  scan_of_holds h h0 (by omega)

@[simp] theorem size_snprintf (n : ℕ) (text : Bytes) (b : Buffer) :
    (b.snprintf n text).size = b.size := by
  unfold snprintf
  split_ifs
  · rfl
  · exact size_write _ _ b

/-- What `snprintf` leaves: the text, cut to the size. -/
theorem string_at_snprintf {n : ℕ} (hn : 0 < n) {text : Bytes} (h0 : 0 ∉ text) :
    ((alloc n).snprintf n text).string_at 0 = some (text.take (n - 1)) := by
  unfold snprintf
  rw [if_neg (by omega)]
  refine string_at_of_holds (holds_write _ _ _) (fun h => h0 (List.mem_of_mem_take h)) ?_
  have hsize : (alloc n).size = n := rfl
  rw [size_write, hsize, List.length_take]
  omega

theorem stores_snprintf_lt {n : ℕ} {text : Bytes} :
    ∀ k ∈ ((alloc n).snprintf n text).stores, k < n := by
  intro k hk
  unfold snprintf at hk
  split_ifs at hk with hn
  · simp [alloc] at hk
  · rw [mem_stores_write, List.length_append, List.length_take, List.length_singleton] at hk
    rcases hk with hk | hk
    · simp [alloc] at hk
    · omega

end Buffer

end HfiWebserver.Lib.CBuffer
