import Mathlib.Algebra.Order.Ring.Nat
import Mathlib.Tactic.Ring

/-! # Mapped memory and row-major indices

A `Region` is a block of cells mapped at an address; `load` answers `none` outside it, and `loadN`
reads `n` cells in a row, so it answers exactly when all of them are mapped (`loadN_eq`).

The second part has 32-bit arithmetic (`u32`), and the index `r * s + i` of column `i < s` in row
`r`: it fills exactly the indices below `h * s` (`rowMajor_lt`, `exists_rowMajor`). -/

namespace HfiWebserver.Lib.Memory

variable {β : Type}

structure Region (β : Type) where
  base : ℕ
  cells : List β

namespace Region

def load (m : Region β) (a : ℕ) : Option β :=
  if m.base ≤ a then m.cells[a - m.base]? else none

/-- Reads `n` cells from address `a` on. -/
def loadN (m : Region β) (a : ℕ) : ℕ → Option (List β)
  | 0 => some []
  | n + 1 => (m.load a).bind fun b => (m.loadN (a + 1) n).map (b :: ·)

variable (m : Region β)

theorem load_base_add (o : ℕ) : m.load (m.base + o) = m.cells[o]? := by simp [load]

/-- **A run of cells is read exactly when it is mapped**, or empty. -/
theorem loadN_eq (n o : ℕ) : m.loadN (m.base + o) n =
    if n = 0 ∨ o + n ≤ m.cells.length then some ((m.cells.drop o).take n) else none := by
  induction n generalizing o with
  | zero => simp [loadN]
  | succ n ih =>
    have hnext := ih (o + 1)
    rw [← Nat.add_assoc] at hnext
    rw [loadN, load_base_add, hnext]
    by_cases ho : o < m.cells.length
    · rw [List.getElem?_eq_getElem ho, Option.bind_some, List.drop_eq_getElem_cons ho]
      by_cases hn : n = 0 ∨ o + 1 + n ≤ m.cells.length
      · rw [if_pos hn, if_pos (by omega), Option.map_some, List.take_succ_cons]
      · rw [if_neg hn, if_neg (by omega), Option.map_none]
    · rw [List.getElem?_eq_none (by omega), Option.bind_none, if_neg (by omega)]

end Region

/-! ### 32-bit arithmetic -/

/-- An unsigned 32-bit number. -/
def u32 (n : ℕ) : ℕ := n % 2 ^ 32

theorem u32_of_lt {n : ℕ} (h : n < 2 ^ 32) : u32 n = n := Nat.mod_eq_of_lt h

theorem u32_lt (n : ℕ) : u32 n < 2 ^ 32 := Nat.mod_lt _ (by omega)

/-! ### Row-major indices -/

theorem rowMajor_lt {h s r i : ℕ} (hr : r < h) (hi : i < s) : r * s + i < h * s := by
  calc r * s + i < r * s + s := by omega
    _ = (r + 1) * s := by ring
    _ ≤ h * s := Nat.mul_le_mul_right _ hr

theorem exists_rowMajor {h s k : ℕ} (hk : k < h * s) : ∃ r < h, ∃ i < s, r * s + i = k := by
  have hs : 0 < s := Nat.pos_of_ne_zero fun h0 => by simp [h0] at hk
  exact ⟨k / s, Nat.div_lt_of_lt_mul (by rwa [Nat.mul_comm]), k % s, Nat.mod_lt _ hs,
    Nat.div_add_mod' k s⟩

end HfiWebserver.Lib.Memory
