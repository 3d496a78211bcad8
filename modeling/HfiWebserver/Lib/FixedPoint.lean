import HfiWebserver.Lib.Numeral
import Mathlib.Algebra.Order.Floor.Semiring
import Mathlib.Algebra.Order.Field.Basic
import Mathlib.Data.Int.Log
import Mathlib.Tactic.FieldSimp
import Mathlib.Tactic.Linarith
import Mathlib.Tactic.Positivity
import Mathlib.Tactic.Ring

/-! # Decimal texts, with a number of places or of digits

`fixed p x` is the text of `x` with `p` places behind the point, and without a point if `p = 0`; the
last place is rounded to the nearest, ties to even (`%.2f` prints `fixed 2`). `number` is the number
a text stands for. `significant d x` is the number that is left of `x` in a text of `d` digits
(`%g` prints `significant 6`).

Both are `rounded`, to a multiple of a unit: `rounded_error`, `even_of_tie`.

* `even_le_roundHalfEven_iff`: where the rounding reaches an even number;
* `number_fixed_error`, `number_fixed_tie`: a text is off by half a unit of its last place at most,
  and its digits are even when it is off by that much;
* `significant_error`: the same for digits, relative to the number. -/

namespace HfiWebserver.Lib.FixedPoint

open HfiWebserver.Lib.ByteStrings HfiWebserver.Lib.Numeral

variable {K : Type} [Field K] [LinearOrder K]

section

variable [FloorSemiring K]

/-- The nearest natural number, the even one of two. -/
def roundHalfEven (x : K) : ℕ :=
  let f := ⌊x⌋₊
  if 2 * x < 2 * f + 1 then f
  else if 2 * f + 1 < 2 * x then f + 1
  else if Even f then f else f + 1

/-- The nearest multiple of a unit, the even one of two. -/
def rounded (unit x : K) : K :=
  (if x < 0 then -1 else 1) * (roundHalfEven (|x| / unit) * unit)

/-- The text of `n / 10 ^ p`. -/
def point (p n : ℕ) : Bytes :=
  decimal (n / 10 ^ p) ++ if p = 0 then [] else 46 :: numeral 10 p (n % 10 ^ p)

/-- `x` with `p` places. -/
def fixed (p : ℕ) (x : K) : Bytes :=
  let text := point p (roundHalfEven (|x| * 10 ^ p))
  if x < 0 then 45 :: text else text

/-- The place of the last of `d` digits. -/
def digitUnit (d : ℕ) (x : K) : K := 10 ^ (Int.log 10 |x| + 1 - d)

/-- `x` with `d` digits, from the first one that is not a zero. -/
def significant (d : ℕ) (x : K) : K := rounded (digitUnit d x) x

end

/-- The digits behind the point. -/
def fraction (s : Bytes) : Bytes := (s.dropWhile (· ≠ 46)).drop 1

/-- The number of digits behind the point. -/
def places (s : Bytes) : ℕ := (fraction s).length

def magnitude (s : Bytes) : K :=
  value 10 (s.takeWhile (· ≠ 46)) + value 10 (fraction s) / 10 ^ places s

/-- The number a text stands for. -/
def number : Bytes → K
  | 45 :: t => -magnitude t
  | t => magnitude t

/-! ### Rounding -/

section

variable [IsStrictOrderedRing K] [FloorSemiring K]

theorem roundHalfEven_error {x : K} (hx : 0 ≤ x) : |(roundHalfEven x : K) - x| ≤ 1 / 2 := by
  have hle := Nat.floor_le hx
  have hlt := Nat.lt_floor_add_one x
  simp only [roundHalfEven]
  rw [abs_le]
  split_ifs with h1 h2 h3
  · constructor <;> linarith
  · push_cast
    constructor <;> linarith
  · constructor <;> linarith
  · push_cast
    constructor <;> linarith

/-- A tie is rounded to an even number. -/
theorem even_roundHalfEven {x : K} (h : |(roundHalfEven x : K) - x| = 1 / 2) :
    Even (roundHalfEven x) := by
  have hno : ∀ y : K, -(1 / 2) < y → y < 1 / 2 → |y| ≠ 1 / 2 := fun y h1 h2 =>
    (abs_lt.mpr ⟨h1, h2⟩).ne
  rcases lt_or_ge x 0 with hx | hx
  · have h0 : ⌊x⌋₊ = 0 := Nat.floor_of_nonpos hx.le
    have hzero : roundHalfEven x = 0 := by
      simp only [roundHalfEven, h0, Nat.cast_zero]
      rw [if_pos (by linarith)]
    rw [hzero]
    exact Even.zero
  have hle := Nat.floor_le hx
  have hlt := Nat.lt_floor_add_one x
  simp only [roundHalfEven] at h ⊢
  split_ifs at h ⊢ with h1 h2 h3
  · exact absurd h (hno _ (by linarith) (by linarith))
  · push_cast at h
    exact absurd h (hno _ (by linarith) (by linarith))
  · exact h3
  · exact Nat.even_add_one.mpr h3

/-- **Where the rounding reaches an even number.** -/
theorem even_le_roundHalfEven_iff {x : K} (hx : 0 ≤ x) {k : ℕ} (hk : Even k) :
    k ≤ roundHalfEven x ↔ (k : K) - 1 / 2 ≤ x := by
  have hle := Nat.floor_le hx
  have hlt := Nat.lt_floor_add_one x
  by_cases hf : k ≤ ⌊x⌋₊
  · have hfk : (k : K) ≤ ⌊x⌋₊ := by exact_mod_cast hf
    have hround : ⌊x⌋₊ ≤ roundHalfEven x := by
      simp only [roundHalfEven]
      split_ifs <;> omega
    exact ⟨fun _ => by linarith, fun _ => le_trans hf hround⟩
  by_cases hk1 : k = ⌊x⌋₊ + 1
  · -- `k` is even, so the floor is odd and a tie goes up
    have hodd : ¬ Even ⌊x⌋₊ := by
      intro he
      rw [hk1, Nat.even_add_one] at hk
      exact hk he
    have hcast : (k : K) = ⌊x⌋₊ + 1 := by exact_mod_cast hk1
    simp only [roundHalfEven]
    rw [if_neg hodd, hcast]
    split_ifs with h1 h2
    · exact ⟨fun h => absurd h (by omega), fun h => absurd h1 (by linarith)⟩
    · exact ⟨fun _ => by linarith, fun _ => le_of_eq hk1⟩
    · exact ⟨fun _ => by linarith, fun _ => le_of_eq hk1⟩
  · have hround : roundHalfEven x ≤ ⌊x⌋₊ + 1 := by
      simp only [roundHalfEven]
      split_ifs <;> omega
    have hcast : (⌊x⌋₊ : K) + 2 ≤ k := by exact_mod_cast (by omega : ⌊x⌋₊ + 2 ≤ k)
    exact ⟨fun h => absurd h (by omega), fun h => absurd h (by linarith)⟩

section

variable {unit : K} (hunit : 0 < unit) (x : K)
include hunit

theorem abs_rounded_sub :
    |rounded unit x - x| = abs ((roundHalfEven (|x| / unit) : K) - |x| / unit) * unit := by
  have hscale : (roundHalfEven (|x| / unit) : K) * unit - |x| =
      ((roundHalfEven (|x| / unit) : K) - |x| / unit) * unit := by
    field_simp
  have habs : abs ((roundHalfEven (|x| / unit) : K) * unit - |x|) =
      abs ((roundHalfEven (|x| / unit) : K) - |x| / unit) * unit := by
    rw [hscale, abs_mul, abs_of_pos hunit]
  rw [← habs, rounded]
  split_ifs with hx
  · have hflip : -1 * ((roundHalfEven (|x| / unit) : K) * unit) - x =
        -((roundHalfEven (|x| / unit) : K) * unit - |x|) := by
      rw [abs_of_neg hx]
      ring
    rw [hflip, abs_neg]
  · rw [abs_of_nonneg (not_lt.mp hx), one_mul]

/-- **The rounded number is off by half a unit at most.** -/
theorem rounded_error : |rounded unit x - x| ≤ 1 / 2 * unit := by
  rw [abs_rounded_sub hunit]
  exact mul_le_mul_of_nonneg_right (roundHalfEven_error (by positivity)) hunit.le

/-- **When it is off by half a unit, it is an even multiple.** -/
theorem even_of_tie (h : |rounded unit x - x| = 1 / 2 * unit) :
    ∃ n : ℕ, Even n ∧ |rounded unit x| = n * unit := by
  rw [abs_rounded_sub hunit] at h
  refine ⟨_, even_roundHalfEven (mul_right_cancel₀ hunit.ne' h), ?_⟩
  have hnonneg : (0 : K) ≤ roundHalfEven (|x| / unit) * unit := by positivity
  rw [rounded]
  split_ifs
  · rw [neg_one_mul, abs_neg, abs_of_nonneg hnonneg]
  · rw [one_mul, abs_of_nonneg hnonneg]

end

/-- **A number with `d` digits is off by five of the digit behind them at most.** -/
theorem significant_error (d : ℕ) (x : K) :
    |significant d x - x| ≤ 1 / 2 * (|x| * 10 ^ (1 - d : ℤ)) := by
  have hten : (0 : K) < 10 := by norm_num
  have hunit : 0 < digitUnit d x := zpow_pos hten _
  rcases eq_or_ne x 0 with rfl | hx
  · simp [significant, rounded, roundHalfEven]
  have hpos : 0 < |x| := abs_pos.mpr hx
  have hlog : (10 : K) ^ Int.log 10 |x| ≤ |x| := by
    exact_mod_cast Int.zpow_log_le_self (b := 10) (by norm_num) hpos
  have hle : digitUnit d x ≤ |x| * 10 ^ (1 - d : ℤ) := by
    rw [digitUnit, show Int.log 10 |x| + 1 - d = Int.log 10 |x| + (1 - d : ℤ) by ring,
      zpow_add₀ hten.ne']
    exact mul_le_mul_of_nonneg_right hlog (zpow_pos hten _).le
  calc |significant d x - x| ≤ 1 / 2 * digitUnit d x := rounded_error hunit x
    _ ≤ 1 / 2 * (|x| * 10 ^ (1 - d : ℤ)) := mul_le_mul_of_nonneg_left hle (by norm_num)

end

/-! ### The text -/

theorem not_mem_point {c : UInt8} (hc : c.toNat < 46) (p n : ℕ) : c ∉ point p n := by
  intro hmem
  rw [point, List.mem_append] at hmem
  rcases hmem with hmem | hmem
  · exact not_mem_decimal (by omega) hmem
  · split_ifs at hmem with hp
    · simp at hmem
    · rcases List.mem_cons.mp hmem with rfl | hmem
      · exact absurd hc (by decide)
      · exact not_mem_numeral (by omega) (by omega) (by omega) hmem

theorem decimal_no_point {n : ℕ} : ∀ c ∈ decimal n, decide (c ≠ 46) = true := by
  intro c hc
  have : c ≠ 46 := by
    rintro rfl
    exact not_mem_decimal (by decide) hc
  simpa using this

theorem fraction_point (p n : ℕ) : fraction (point p n) = numeral 10 p (n % 10 ^ p) := by
  rw [fraction, point, List.dropWhile_append_of_pos decimal_no_point]
  split_ifs with hp
  · subst hp
    rfl
  · rfl

theorem takeWhile_point (p n : ℕ) :
    (point p n).takeWhile (· ≠ 46) = decimal (n / 10 ^ p) := by
  rw [point, List.takeWhile_append_of_pos decimal_no_point]
  split_ifs with hp
  · exact List.append_nil _
  · exact List.append_nil _

theorem places_point (p n : ℕ) : places (point p n) = p := by
  rw [places, fraction_point, length_numeral]

theorem places_fixed [FloorSemiring K] (p : ℕ) (x : K) : places (fixed p x) = p := by
  simp only [fixed]
  split_ifs
  · exact places_point p _
  · exact places_point p _

section

variable [IsStrictOrderedRing K]

theorem magnitude_point (p n : ℕ) : (magnitude (point p n) : K) = n / 10 ^ p := by
  have hmod : n % 10 ^ p < 10 ^ p := Nat.mod_lt _ (Nat.pow_pos (by omega))
  have hdiv : ((n / 10 ^ p : ℕ) : K) * 10 ^ p + (n % 10 ^ p : ℕ) = n := by
    exact_mod_cast Nat.div_add_mod' n (10 ^ p)
  rw [magnitude, takeWhile_point, places_point, fraction_point, value_decimal,
    value_numeral (by omega) (by omega), Nat.mod_eq_of_lt hmod]
  field_simp
  exact hdiv

theorem number_point (p n : ℕ) : (number (point p n) : K) = n / 10 ^ p := by
  rw [← magnitude_point]
  unfold number
  split
  · next t ht =>
    have hmem : (45 : UInt8) ∈ point p n := ht ▸ List.mem_cons_self
    exact absurd hmem (not_mem_point (by decide) p n)
  · rfl

variable [FloorSemiring K]

/-- The number of a text is the rounded number, with its sign. -/
theorem number_fixed (p : ℕ) (x : K) : (number (fixed p x) : K) =
    (if x < 0 then -1 else 1) * ((roundHalfEven (|x| * 10 ^ p) : K) / 10 ^ p) := by
  simp only [fixed]
  split_ifs
  · rw [number, magnitude_point, neg_one_mul]
  · rw [number_point, one_mul]

theorem number_fixed_eq_rounded (p : ℕ) (x : K) :
    (number (fixed p x) : K) = rounded (1 / 10 ^ p) x := by
  rw [number_fixed, rounded, div_div_eq_mul_div, div_one, mul_one_div]

/-- **A text is off by half a unit of its last place at most.** -/
theorem number_fixed_error (p : ℕ) (x : K) :
    |number (fixed p x) - x| ≤ 1 / 2 * (1 / 10 ^ p) := by
  rw [number_fixed_eq_rounded]
  exact rounded_error (by positivity) x

/-- **When it is off by half a unit, its digits are even.** -/
theorem number_fixed_tie {p : ℕ} {x : K} (h : |number (fixed p x) - x| = 1 / 2 * (1 / 10 ^ p)) :
    ∃ n : ℕ, Even n ∧ |(number (fixed p x) : K)| = n * (1 / 10 ^ p) := by
  rw [number_fixed_eq_rounded] at h ⊢
  exact even_of_tie (by positivity) x h

end

end HfiWebserver.Lib.FixedPoint
