import HfiWebserver.Lib.ByteStrings
import Mathlib.Data.Nat.Log
import Mathlib.Tactic.IntervalCases

/-! # Positional numerals

`numeral b p n` are the lowest `p` digits of `n` in a base `b` up to 16, most significant first and
with upper-case letters: `%02X` prints `numeral 16 2`. `decimal` is the decimal text of a number,
without leading zeros (`%u`). `value` reads digits back.

* `value_numeral`: a numeral has the value of its number modulo `b ^ p`;
* `value_decimal`, `length_decimal_le`: a decimal text has the value of its number, and as many
  digits as that needs. -/

namespace HfiWebserver.Lib.Numeral

open HfiWebserver.Lib.ByteStrings

def digitChar (d : ℕ) : UInt8 := if d < 10 then UInt8.ofNat (48 + d) else UInt8.ofNat (55 + d)

def digitValue (c : UInt8) : ℕ := if c.toNat < 65 then c.toNat - 48 else c.toNat - 55

/-- The lowest `p` digits of `n` in base `b`. -/
def numeral (b : ℕ) : ℕ → ℕ → Bytes
  | 0, _ => []
  | p + 1, n => numeral b p (n / b) ++ [digitChar (n % b)]

/-- The number some digits in base `b` stand for. -/
def value (b : ℕ) (ds : Bytes) : ℕ := ds.foldl (fun n c => b * n + digitValue c) 0

/-- The decimal text of a number. -/
def decimal (n : ℕ) : Bytes := numeral 10 (Nat.log 10 n + 1) n

theorem digitValue_digitChar {d : ℕ} (hd : d < 16) : digitValue (digitChar d) = d := by
  interval_cases d <;> rfl

theorem toNat_digitChar_le {d : ℕ} (hd : d < 16) : 48 ≤ (digitChar d).toNat := by
  interval_cases d <;> decide

theorem digitChar_lt {d : ℕ} (hd : d < 16) : digitChar d < 128 := by
  interval_cases d <;> decide

theorem value_append_singleton (b : ℕ) (ds : Bytes) (c : UInt8) :
    value b (ds ++ [c]) = b * value b ds + digitValue c := by
  unfold value
  rw [List.foldl_append]
  rfl

variable {b : ℕ}

@[simp] theorem length_numeral (b p n : ℕ) : (numeral b p n).length = p := by
  induction p generalizing n with
  | zero => rfl
  | succ p ih => simp [numeral, ih]

section

variable (hb : 0 < b) (hb16 : b ≤ 16)
include hb hb16

/-- **A numeral is the number modulo `b ^ p`.** -/
theorem value_numeral (p n : ℕ) : value b (numeral b p n) = n % b ^ p := by
  induction p generalizing n with
  | zero =>
    rw [Nat.pow_zero, Nat.mod_one]
    rfl
  | succ p ih =>
    have hd : n % b < 16 := lt_of_lt_of_le (Nat.mod_lt n hb) hb16
    rw [numeral, value_append_singleton, ih, digitValue_digitChar hd, Nat.pow_succ', Nat.mod_mul,
      Nat.add_comm]

/-- The characters of a numeral are digits or letters. -/
theorem le_of_mem_numeral {p n : ℕ} {c : UInt8} (hc : c ∈ numeral b p n) : 48 ≤ c.toNat := by
  induction p generalizing n with
  | zero => simp [numeral] at hc
  | succ p ih =>
    rw [numeral, List.mem_append, List.mem_singleton] at hc
    rcases hc with hc | rfl
    · exact ih hc
    · exact toNat_digitChar_le (lt_of_lt_of_le (Nat.mod_lt n hb) hb16)

theorem not_mem_numeral {p n : ℕ} {c : UInt8} (hc : c.toNat < 48) : c ∉ numeral b p n := by
  intro hmem
  have := le_of_mem_numeral hb hb16 hmem
  omega

/-- A numeral is ASCII. -/
theorem lt_of_mem_numeral {p n : ℕ} {c : UInt8} (hc : c ∈ numeral b p n) : c < 128 := by
  induction p generalizing n with
  | zero => simp [numeral] at hc
  | succ p ih =>
    rw [numeral, List.mem_append, List.mem_singleton] at hc
    rcases hc with hc | rfl
    · exact ih hc
    · exact digitChar_lt (lt_of_lt_of_le (Nat.mod_lt n hb) hb16)

end

/-! ### Decimal texts -/

theorem value_decimal (n : ℕ) : value 10 (decimal n) = n := by
  have hlt : n < 10 ^ (Nat.log 10 n + 1) := Nat.lt_pow_succ_log_self (by omega) n
  rw [decimal, value_numeral (by omega) (by omega), Nat.mod_eq_of_lt hlt]

theorem length_decimal_le {n k : ℕ} (hk : 0 < k) (hn : n < 10 ^ k) : (decimal n).length ≤ k := by
  rw [decimal, length_numeral]
  by_cases h0 : n = 0
  · subst h0
    rw [Nat.log_zero_right]
    omega
  · exact Nat.log_lt_of_lt_pow h0 hn

theorem not_mem_decimal {n : ℕ} {c : UInt8} (hc : c.toNat < 48) : c ∉ decimal n :=
  not_mem_numeral (by omega) (by omega) hc

example : decimal 40960 = lit "40960" := by decide

example : numeral 16 2 175 = lit "AF" := by decide

end HfiWebserver.Lib.Numeral
