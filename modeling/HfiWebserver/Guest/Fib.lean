import HfiWebserver.Lib.CBuffer
import HfiWebserver.Lib.CString
import HfiWebserver.Lib.Numeral
import Mathlib.Data.Nat.Fib.Basic
import Mathlib.Logic.Relation

/-! # The Fibonacci module `fib_c`

`fib` recurses twice on 32-bit numbers: its argument goes down by one and by two, its sum wraps. The
test of its argument keeps every call of the recursion at a positive argument, so the differences do
not wrap (`sub_one_toNat`, `sub_two_toNat`), and the sums wrap as the Fibonacci numbers modulo `2 ^
32` do (`toNat_fib`). `main` prints the result of its argument into a buffer of 100 bytes.

* `mem_calls_traced`: the calls that an evaluation of `fib` makes;
* `fib_reports`: what the recursion does from a positive argument, and what `main` reports. -/

namespace HfiWebserver.Guest.Fib

open HfiWebserver.Lib.ByteStrings HfiWebserver.Lib.CBuffer HfiWebserver.Lib.CString
open HfiWebserver.Lib.Numeral

/-! ### Differences -/

theorem toNat_of_not_le {n : UInt32} (h : ¬ n ≤ 2) : 2 < n.toNat := by
  rw [UInt32.le_iff_toNat_le, show (2 : UInt32).toNat = 2 from rfl] at h
  omega

theorem sub_toNat {n k : UInt32} (h : ¬ n ≤ 2) (hk : k ≤ 2) : (n - k).toNat = n.toNat - k.toNat :=
  UInt32.toNat_sub_of_le n k (UInt32.le_trans hk (UInt32.le_of_lt (UInt32.not_le.mp h)))

/-- `n - 1` does not wrap. -/
theorem sub_one_toNat {n : UInt32} (h : ¬ n ≤ 2) : (n - 1).toNat = n.toNat - 1 :=
  sub_toNat h (by decide)

/-- `n - 2` does not wrap. -/
theorem sub_two_toNat {n : UInt32} (h : ¬ n ≤ 2) : (n - 2).toNat = n.toNat - 2 :=
  sub_toNat h (by decide)

theorem sub_one_lt {n : UInt32} (h : ¬ n ≤ 2) : (n - 1).toNat < n.toNat := by
  have := toNat_of_not_le h
  rw [sub_one_toNat h]
  omega

theorem sub_two_lt {n : UInt32} (h : ¬ n ≤ 2) : (n - 2).toNat < n.toNat := by
  have := toNat_of_not_le h
  rw [sub_two_toNat h]
  omega

/-! ### The program -/

/-- `fib`. -/
def fib (n : UInt32) : UInt32 :=
  if _h : n ≤ 2 then 1 else fib (n - 1) + fib (n - 2)
termination_by n.toNat
decreasing_by
  · exact sub_one_lt _h
  · exact sub_two_lt _h

/-- A call of `fib` that ended: its result, and the arguments of all calls, its own first. -/
structure Trace where
  result : UInt32
  calls : List UInt32

/-- `fib`, with the calls it makes. -/
def traced (n : UInt32) : Trace :=
  if _h : n ≤ 2 then ⟨1, [n]⟩
  else
    let a := traced (n - 1)
    let b := traced (n - 2)
    ⟨a.result + b.result, n :: (a.calls ++ b.calls)⟩
termination_by n.toNat
decreasing_by
  · exact sub_one_lt _h
  · exact sub_two_lt _h

/-- The call of `fib` on `n` makes the call on `m`. -/
def Calls (n m : UInt32) : Prop := ¬ n ≤ 2 ∧ (m = n - 1 ∨ m = n - 2)

/-- What `main` reports, and its buffer. -/
structure Report where
  text : Bytes
  output : Buffer

/-- `main`; `none` is an abort. -/
def main (argv : List Bytes) : Option Report :=
  match argv with
  | [_, arg] =>
    let n := UInt32.ofInt (atoi arg)
    let results := fib n
    let output := (Buffer.alloc 100).snprintf 100 (decimal results.toNat ++ lit "\n")
    (output.string_at 0).map fun text => ⟨text, output⟩
  | _ => none

/-! ### The recursion -/

/-- What a call of the recursion is made on. -/
theorem toNat_of_calls {n m : UInt32} (h : Calls n m) :
    2 < n.toNat ∧ (m.toNat + 1 = n.toNat ∨ m.toNat + 2 = n.toNat) := by
  obtain ⟨hn, rfl | rfl⟩ := h
  · have hlt := toNat_of_not_le hn
    rw [sub_one_toNat hn]
    omega
  · have hlt := toNat_of_not_le hn
    rw [sub_two_toNat hn]
    omega

theorem toNat_lt_of_calls {n m : UInt32} (h : Calls n m) : m.toNat < n.toNat := by
  have := toNat_of_calls h
  omega

theorem result_traced (n : UInt32) : (traced n).result = fib n := by
  induction n using fib.induct with
  | case1 n h => rw [traced, fib, dif_pos h, dif_pos h]
  | case2 n h ih1 ih2 =>
    rw [traced, fib, dif_neg h, dif_neg h, ← ih1, ← ih2]

/-- **The calls of an evaluation** are those that `Calls` reaches from its own. -/
theorem mem_calls_traced {n m : UInt32} :
    m ∈ (traced n).calls ↔ Relation.ReflTransGen Calls n m := by
  induction n using fib.induct with
  | case1 n h =>
    rw [traced, dif_pos h, List.mem_singleton, Relation.ReflTransGen.cases_head_iff]
    constructor
    · exact fun hm => Or.inl hm.symm
    · rintro (hm | ⟨k, hk, -⟩)
      · exact hm.symm
      · exact absurd h hk.1
  | case2 n h ih1 ih2 =>
    rw [Relation.ReflTransGen.cases_head_iff, traced, dif_neg h]
    show m ∈ n :: ((traced (n - 1)).calls ++ (traced (n - 2)).calls) ↔ _
    rw [List.mem_cons, List.mem_append, ih1, ih2]
    constructor
    · rintro (hm | hm | hm)
      · exact Or.inl hm.symm
      · exact Or.inr ⟨n - 1, ⟨h, Or.inl rfl⟩, hm⟩
      · exact Or.inr ⟨n - 2, ⟨h, Or.inr rfl⟩, hm⟩
    · rintro (hm | ⟨k, ⟨-, rfl | rfl⟩, hm⟩)
      · exact Or.inl hm.symm
      · exact Or.inr (Or.inl hm)
      · exact Or.inr (Or.inr hm)

/-- **The recursion ends.** -/
theorem calls_wf : WellFounded fun m n => Calls n m :=
  Subrelation.wf toNat_lt_of_calls (InvImage.wf UInt32.toNat Nat.lt_wfRel.wf)

/-- Every call of the recursion has a positive argument. -/
theorem pos_of_calls_star {n m : UInt32} (hn : 1 ≤ n.toNat)
    (h : Relation.ReflTransGen Calls n m) : 1 ≤ m.toNat := by
  induction h with
  | refl => exact hn
  | tail _ hcall _ =>
    have := toNat_of_calls hcall
    omega

/-- **`fib` computes the Fibonacci numbers modulo `2 ^ 32`.** -/
theorem toNat_fib {n : UInt32} (hn : 1 ≤ n.toNat) : (fib n).toNat = Nat.fib n.toNat % 2 ^ 32 := by
  induction n using fib.induct with
  | case1 n h =>
    have hle : n.toNat ≤ 2 := by rwa [UInt32.le_iff_toNat_le] at h
    rw [fib, dif_pos h]
    obtain h1 | h2 : n.toNat = 1 ∨ n.toNat = 2 := by omega
    · rw [h1]
      rfl
    · rw [h2]
      rfl
  | case2 n h ih1 ih2 =>
    have hlt := toNat_of_not_le h
    obtain ⟨k, hk⟩ : ∃ k, n.toNat = k + 2 := ⟨n.toNat - 2, by omega⟩
    have h1 := ih1 (by rw [sub_one_toNat h]; omega)
    have h2 := ih2 (by rw [sub_two_toNat h]; omega)
    rw [sub_one_toNat h, hk, show k + 2 - 1 = k + 1 by omega] at h1
    rw [sub_two_toNat h, hk, Nat.add_sub_cancel] at h2
    -- the sum of the residues, reduced once more, is the residue of the sum
    rw [fib, dif_neg h, UInt32.toNat_add, h1, h2, hk, Nat.fib_add_two, ← Nat.add_mod, Nat.add_comm]

/-- What `fib` computes, before the reduction to 32 bits. -/
def number (n : ℕ) : ℕ := if n = 0 then 1 else Nat.fib n

theorem toNat_fib_eq (n : UInt32) : (fib n).toNat = number n.toNat % 2 ^ 32 := by
  unfold number
  split_ifs with h
  · obtain rfl : n = 0 := UInt32.toNat_inj.mp h
    rw [fib, dif_pos (by decide)]
    rfl
  · exact toNat_fib (by omega)

/-! ### The text -/

/-- A text of a 32-bit number and a newline fits the buffer. -/
theorem string_at_output (r : UInt32) :
    ((Buffer.alloc 100).snprintf 100 (decimal r.toNat ++ lit "\n")).string_at 0 =
      some (decimal r.toNat ++ lit "\n") := by
  have hlen : (decimal r.toNat).length ≤ 10 :=
    length_decimal_le (by omega) (lt_trans r.toNat_lt (by omega))
  have hnul : (0 : UInt8) ∉ decimal r.toNat ++ lit "\n" := by
    rw [List.mem_append]
    rintro (h | h)
    · exact not_mem_decimal (by decide) h
    · exact absurd h (by decide)
  rw [Buffer.string_at_snprintf (by omega) hnul, List.take_of_length_le]
  rw [List.length_append, show (lit "\n").length = 1 by decide]
  omega

theorem main_eq (name arg : Bytes) : main [name, arg] =
    some ⟨decimal (fib (UInt32.ofInt (atoi arg))).toNat ++ lit "\n",
      (Buffer.alloc 100).snprintf 100
        (decimal (fib (UInt32.ofInt (atoi arg))).toNat ++ lit "\n")⟩ := by
  simp only [main]
  rw [string_at_output, Option.map_some]

theorem toNat_ofInt {k : ℕ} (hk : k < 2 ^ 32) : (UInt32.ofInt k).toNat = k := by
  rw [UInt32.ofInt, UInt32.toNat_ofNat']
  omega

/-- The argument of `fib`, from the digits of an `int`. -/
theorem toNat_atoi {ds : Bytes} (hds : ds.all isdigit = true) (h : digitsValue ds < 2 ^ 31) :
    (UInt32.ofInt (atoi ds)).toNat = digitsValue ds := by
  have hmax : (digitsValue ds : ℤ) ≤ LONG_MAX := by
    rw [LONG_MAX]
    omega
  rw [atoi_digits hds hmax, toNat_ofInt (by omega)]

/-- **The module `fib_c`.** From a positive argument the recursion ends, no difference of it wraps,
and it computes the Fibonacci number modulo `2 ^ 32`; on the digits of a positive `int`, `main`
reports that number in decimal and a newline, out of its buffer of 100 bytes. The recursion is the
one that an evaluation of `fib` goes through. -/
theorem fib_reports :
    (∀ n : UInt32, 1 ≤ n.toNat →
      Acc (fun m k => Calls k m) n ∧
      (∀ m, Relation.ReflTransGen Calls n m → 1 ≤ m.toNat ∧ (¬ m ≤ 2 →
        (m - 1).toNat + 1 = m.toNat ∧ (m - 2).toNat + 2 = m.toNat)) ∧
      (fib n).toNat = Nat.fib n.toNat % 2 ^ 32) ∧
    (∀ (name ds : Bytes), ds.all isdigit = true → 1 ≤ digitsValue ds → digitsValue ds ≤ 2 ^ 31 - 1 →
      ∃ r, main [name, ds] = some r ∧
        r.text = decimal (Nat.fib (digitsValue ds) % 2 ^ 32) ++ lit "\n" ∧
        r.output.size = 100 ∧ ∀ k ∈ r.output.stores, k < 100) ∧
    ∀ n, (traced n).result = fib n ∧
      ∀ m, m ∈ (traced n).calls ↔ Relation.ReflTransGen Calls n m := by
  refine ⟨fun n hn => ⟨calls_wf.apply n, fun m hreach => ?_, toNat_fib hn⟩,
    fun name ds hds h1 h2 => ?_, fun n => ⟨result_traced n, fun m => mem_calls_traced⟩⟩
  · refine ⟨pos_of_calls_star hn hreach, fun hm => ?_⟩
    have hlt := toNat_of_not_le hm
    rw [sub_one_toNat hm, sub_two_toNat hm]
    omega
  · have hn := toNat_atoi hds (by omega)
    refine ⟨_, main_eq name ds, ?_, ?_, ?_⟩
    · rw [toNat_fib (by omega), hn]
    · exact Buffer.size_snprintf _ _ _
    · exact Buffer.stores_snprintf_lt

/-- The request of the smoke test. -/
theorem fib_reports_four : (fib 4).toNat = 3 ∧
    ∃ r, main [lit "fib_c", lit "4"] = some r ∧ r.text = lit "3\n" := by
  obtain ⟨hfib, hmain, -⟩ := fib_reports
  obtain ⟨r, hr, htext, -⟩ := hmain (lit "fib_c") (lit "4") (by decide) (by decide) (by decide)
  exact ⟨(hfib 4 (by decide)).2.2.trans (by decide), r, hr, htext.trans (by decide)⟩

end HfiWebserver.Guest.Fib
