import HfiWebserver.Lib.ByteStrings
import Mathlib.Data.List.TakeWhile

/-! # C strings and numbers

`strtol` in base 10 on a C string without its terminator: it skips white space, takes a sign and the
digits that follow, and clamps the value to a 32-bit `long`. Digits of a number in the range of
`int` are read as that number (`atoi_digits`). -/

namespace HfiWebserver.Lib.CString

open HfiWebserver.Lib.ByteStrings

def isspace (c : UInt8) : Bool := c == 32 || (9 ≤ c && c ≤ 13)

def isdigit (c : UInt8) : Bool := 48 ≤ c && c ≤ 57

/-- The value of decimal digits. -/
def digitsValue (ds : Bytes) : ℕ := ds.foldl (fun n c => 10 * n + (c.toNat - 48)) 0

/-- A sign and what follows. -/
def signed : Bytes → Bool × Bytes
  | 45 :: t => (true, t)
  | 43 :: t => (false, t)
  | t => (false, t)

def LONG_MAX : ℤ := 0x7FFFFFFF

def LONG_MIN : ℤ := -0x80000000

/-- `strtol(s, &end, 10)`. -/
def strtol (s : Bytes) : ℤ :=
  let (neg, t) := signed (s.dropWhile isspace)
  let n : ℤ := digitsValue (t.takeWhile isdigit)
  if neg then max (-n) LONG_MIN else min n LONG_MAX

/-- `atoi`: an `int` has the size of a `long`. -/
def atoi (s : Bytes) : ℤ := strtol s

theorem isspace_of_isdigit {c : UInt8} (h : isdigit c = true) : isspace c = false := by
  simp only [isdigit, isspace, Bool.and_eq_true, decide_eq_true_eq] at *
  grind

theorem signed_of_isdigit {c : UInt8} (h : isdigit c = true) (t : Bytes) :
    signed (c :: t) = (false, c :: t) := by
  unfold signed
  split
  · simp_all [isdigit]
  · simp_all [isdigit]
  · rfl

/-- Digits are read as the number they are. -/
theorem atoi_digits {ds : Bytes} (hds : ds.all isdigit = true)
    (hle : (digitsValue ds : ℤ) ≤ LONG_MAX) : atoi ds = digitsValue ds := by
  have hdigit : ∀ c ∈ ds, isdigit c = true := by rwa [List.all_eq_true] at hds
  have hspace : ds.dropWhile isspace = ds := by
    cases ds with
    | nil => rfl
    | cons c t =>
      have hc := hdigit c List.mem_cons_self
      exact List.dropWhile_cons_of_neg (by simp [isspace_of_isdigit hc])
  have hsign : signed ds = (false, ds) := by
    cases ds with
    | nil => rfl
    | cons c t => exact signed_of_isdigit (hdigit c List.mem_cons_self) t
  have htake : ds.takeWhile isdigit = ds := List.takeWhile_eq_self_iff.mpr hdigit
  simp only [atoi, strtol]
  rw [hspace, hsign, htake]
  exact Int.min_eq_left hle

example : strtol (lit " -75%") = -75 := by decide

end HfiWebserver.Lib.CString
