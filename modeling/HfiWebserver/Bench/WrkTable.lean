import HfiWebserver.Bench.WrkAnalysis
import HfiWebserver.Lib.FixedPoint
import Mathlib.Data.Rat.Floor
import Mathlib.Tactic.NormNum

/-! # The tables of `wrk_analysis.py`

`format_num` and `format_num_fewer_digits` scale a number down by thousands and print it with few
places; `write_table` takes the thousands as an index into the units of the metric. Numbers are
rationals here, without the rounding of binary floats.

The scale is chosen before the rounding, so a number just below a power of a thousand is printed as
1000 of the smaller unit, and the units of a metric end: `sound_iff` says that nothing else goes
wrong. -/

namespace HfiWebserver.Bench.WrkTable

open HfiWebserver.Lib.ByteStrings HfiWebserver.Lib.Numeral HfiWebserver.Lib.FixedPoint
open HfiWebserver.Bench.WrkAnalysis

/-! ### Numbers -/

theorem floor_div_lt {num : ℚ} (h : ¬ num < 1000) : ⌊num / 1000⌋₊ < ⌊num⌋₊ := by
  rw [not_lt] at h
  have hdiv : num / 1000 + 1 ≤ num := by linarith
  have hle : ⌊num / 1000⌋₊ + 1 ≤ ⌊num⌋₊ := by
    rw [← Nat.floor_add_one (by linarith)]
    exact Nat.floor_le_floor hdiv
  omega

/-- A number below a thousand, with `digits num` places, and the thousands taken out of it. -/
def scaled (digits : ℚ → ℕ) (num : ℚ) : Bytes × ℕ :=
  if _h : num < 1000 then (fixed (digits num) num, 0)
  else
    let (res, dep) := scaled digits (num / 1000)
    (res, dep + 1)
termination_by ⌊num⌋₊
decreasing_by exact floor_div_lt _h

/-- `format_num`. -/
def format_num : ℚ → Bytes × ℕ :=
  scaled fun num => if num < 10 then 2 else if num < 100 then 1 else 0

/-- `format_num_fewer_digits`. -/
def format_num_fewer_digits : ℚ → Bytes × ℕ := scaled fun num => if num < 100 then 1 else 0

def latency_suffixes : List Bytes := [lit "us", lit "ms", lit "s"]

def thruput_suffixes : List Bytes := [[], lit "k", lit "m"]

def binsize_suffixes : List Bytes := [lit "B", lit "KB", lit "MB", lit "GB"]

def suffixes : Metric → List Bytes
  | .avg_lat_microseconds | .tail_lat_microseconds => latency_suffixes
  | .throughput => thruput_suffixes
  | .bin_size => binsize_suffixes

/-! ### The table -/

/-- `replace('_', '\_')`. -/
def escape (s : Bytes) : Bytes := s.flatMap fun c => if c = 95 then [92, 95] else [c]

def latex_name_of_config (config : Bytes) : Bytes :=
  if config = lit "stock" then lit "Stock --- unsafe"
  else if config = lit "spectre_sfi_aslr" then lit "\\sysDesignOne ASLR"
  else if config = lit "spectre_sfi_full" then lit "\\sysDesignOne Det"
  else if config = lit "spectre_cet_aslr" then lit "\\sysDesignTwo ASLR"
  else if config = lit "spectre_cet_full" then lit "\\sysDesignTwo Det"
  else if config = lit "spectre_sfi_breakout" then lit "Swivel-SFI"
  else if config = lit "spectre_hfi_breakout" then lit "HFI"
  else escape config

def latex_name_of_workload (workload : Bytes) : Bytes :=
  if workload = lit "msghash_check_c" then lit "\\cdnHash"
  else if workload = lit "html_template" then lit "\\cdnTemplatedHTML"
  else if workload = lit "xml_to_json" then lit "\\cdnXMLtoJSON"
  else if workload = lit "jpeg_resize_c" then lit "\\cdnJpgQuality"
  else if workload = lit "tflite" then lit "\\cdnML"
  else if workload = lit "echo_server" then lit "\\cdnEcho"
  else escape workload

def latex_name_of_metric : Metric → Bytes
  | .avg_lat_microseconds => lit "Avg Lat"
  | .tail_lat_microseconds => lit "Tail Lat"
  | .throughput => lit "Thru-put"
  | .bin_size => lit "Bin size"

/-- `s.ljust(n)`. -/
def ljust (s : Bytes) (n : ℕ) : Bytes := s ++ List.replicate (n - s.length) 32

/-- `float(v)`. -/
def to_float : Value ℚ → ℚ
  | .float x => x
  | .int n => n

/-- The number of a metric and its thousands. -/
def format (m : Metric) (lres : ℚ) : Bytes × ℕ :=
  if m ≠ .bin_size then format_num lres else format_num_fewer_digits lres

/-- What is written for one number; `none` is an index out of range. -/
def write_cell (m : Metric) (lres : ℚ) : Option Bytes :=
  let (form, dep) := format m lres
  (suffixes m)[dep]?.map fun suffix => ljust (lit " & " ++ form ++ suffix) 15

/-- A loop that writes; it fails where an iteration does. -/
def writes {α : Type} (f : α → Option Bytes) : List α → Option Bytes
  | [] => some []
  | a :: as => (f a).bind fun s => (writes f as).map (s ++ ·)

/-- The loops over the data, without the end of each line. -/
def write_row (results : Results ℚ) (workloads : List Bytes) (r : Bytes) : Option Bytes :=
  (writes (fun w =>
    (writes (fun m => do
      let lres ← (results r w).bind fun result => result m
      write_cell m (to_float lres)) metrics).map (· ++ lit "\n")) workloads).map fun cells =>
    latex_name_of_config r ++ lit "\n" ++ cells ++ lit "\\\\\\hline\n\n"

/-- All that is written before the data. -/
def header (workloads : List Bytes) : Bytes :=
  lit "\\footnotesize\n" ++ lit "\\begin\x7btabular\x7d\x7bp\x7b2.2cm\x7d\n" ++
  (workloads.flatMap fun _ =>
    lit "  |" ++ (metrics.flatMap fun _ => lit "p\x7b0.55cm\x7d") ++ lit "\n") ++
  lit "\x7d\n\n" ++
  lit "\\multirow\x7b2\x7d\x7b1cm\x7d\x7b\\textbf\x7b\\pbox\x7b\\textwidth\x7d" ++
  lit "\x7b\\sys Protection\x7d\x7d\x7d\n" ++
  (workloads.zipIdx.flatMap fun (w, i) =>
    lit " & \\multicolumn\x7b" ++ decimal metrics.length ++ lit "\x7d\x7bc" ++
    (if i = workloads.length - 1 then [] else lit "|") ++ lit "\x7d\x7b" ++
    latex_name_of_workload w ++ lit "\x7d\n") ++
  lit "\\\\\\cline\x7b2-" ++ decimal (workloads.length * metrics.length + 1) ++ lit "\x7d\n\n" ++
  (workloads.flatMap fun _ =>
    (metrics.flatMap fun m => lit " & " ++ latex_name_of_metric m ++ lit "\t") ++ lit "\n") ++
  lit "\\\\\\hline\n\n"

/-- `write_table`; `none` is an exception. -/
def write_table (results : Results ℚ) (workloads : List Bytes) : Option Bytes :=
  if configurations.length = 0 ∨ workloads.length = 0 ∨ metrics.length = 0 then none
  else (writes (write_row results workloads) configurations).map fun rows =>
    header workloads ++ rows ++ lit "\\end\x7btabular\x7d\n"

/-! ### The scale -/

/-- **What the scaling does**: it prints the number below a thousand that the thousands leave. -/
theorem scaled_spec (digits : ℚ → ℕ) (x : ℚ) : ∃ y d, scaled digits x = (fixed (digits y) y, d) ∧
    x = y * 1000 ^ d ∧ y < 1000 ∧ (0 < d → 1 ≤ y) := by
  fun_induction scaled digits x with
  | case1 x h => exact ⟨x, 0, rfl, by ring, h, fun h0 => absurd h0 (Nat.lt_irrefl 0)⟩
  | case2 x h res dep heq ih =>
    obtain ⟨y, d, hyd, hx, hy, hd⟩ := ih
    obtain ⟨rfl, rfl⟩ := Prod.mk.inj (heq.symm.trans hyd)
    refine ⟨y, dep + 1, rfl, ?_, hy, fun _ => ?_⟩
    · rw [pow_succ, ← mul_assoc, ← hx]
      ring
    · rcases Nat.eq_zero_or_pos dep with rfl | h0
      · rw [pow_zero, mul_one] at hx
        rw [← hx]
        linarith
      · exact hd h0

/-- A scaled number below a thousand stays below the next power. -/
theorem mul_pow_lt {y : ℚ} (hy : y < 1000) (d : ℕ) : y * 1000 ^ d < 1000 ^ (d + 1) := by
  calc y * 1000 ^ d < 1000 * 1000 ^ d := mul_lt_mul_of_pos_right hy (by positivity)
    _ = 1000 ^ (d + 1) := by ring

/-- A scaled number from one on reaches its power. -/
theorem pow_le_mul_pow {y : ℚ} (hy : 1 ≤ y) {k d : ℕ} (hkd : k ≤ d) :
    1000 ^ k ≤ y * 1000 ^ d := by
  calc (1000 : ℚ) ^ k ≤ 1000 ^ d := pow_le_pow_right₀ (by norm_num) hkd
    _ = 1 * 1000 ^ d := by ring
    _ ≤ y * 1000 ^ d := mul_le_mul_of_nonneg_right hy (by positivity)

/-- The thousands of a number, below a bound. -/
theorem dep_lt_iff (digits : ℚ → ℕ) (x : ℚ) {k : ℕ} (hk : 0 < k) :
    (scaled digits x).2 < k ↔ x < 1000 ^ k := by
  obtain ⟨y, d, hyd, rfl, hy, hd⟩ := scaled_spec digits x
  rw [hyd]
  constructor
  · intro hlt
    exact lt_of_lt_of_le (mul_pow_lt hy d) (pow_le_pow_right₀ (by norm_num) hlt)
  · intro hlt
    by_contra hge
    have hkd : k ≤ d := not_lt.mp hge
    exact absurd hlt (not_lt.mpr (pow_le_mul_pow (hd (by omega)) hkd))

/-! ### The rounding -/

/-- Where the rounding reaches a thousand, when the numbers from a hundred on have no places. -/
theorem number_lt_iff {digits : ℚ → ℕ} (hdigits : ∀ y, 100 ≤ y → digits y = 0) (y : ℚ) :
    number (fixed (digits y) y) < (1000 : ℚ) ↔ y < 1999 / 2 := by
  by_cases h100 : 100 ≤ y
  · have hpos : ¬ y < 0 := by linarith
    have hround := even_le_roundHalfEven_iff (x := y) (by linarith) (k := 1000) (by decide)
    rw [hdigits y h100, number_fixed, if_neg hpos, abs_of_nonneg (not_lt.mp hpos), pow_zero,
      mul_one, one_mul, div_one, ← not_le, ← not_le (a := 1999 / 2)]
    have hcast : (1000 : ℚ) ≤ (roundHalfEven y : ℚ) ↔ 1000 ≤ roundHalfEven y := by
      exact_mod_cast Iff.rfl
    rw [hcast, hround]
    norm_num
  · have herr := abs_le.mp (number_fixed_error (digits y) y)
    have hunit : (1 : ℚ) / 10 ^ digits y ≤ 1 :=
      div_le_one_of_le₀ (one_le_pow₀ (by norm_num)) (by positivity)
    exact ⟨fun _ => by linarith, fun _ => by linarith [herr.2]⟩

/-- A number less than half a unit below a power of a thousand. -/
def JustBelow (x : ℚ) : Prop := ∃ d : ℕ, 1999 / 2 * 1000 ^ d ≤ x ∧ x < 1000 ^ (d + 1)

theorem justBelow_iff {y : ℚ} {d : ℕ} (hy : y < 1000) (hd : 0 < d → 1 ≤ y) :
    JustBelow (y * 1000 ^ d) ↔ 1999 / 2 ≤ y := by
  have hpos : (0 : ℚ) < 1000 ^ d := by positivity
  have hhi := mul_pow_lt hy d
  constructor
  · rintro ⟨e, he, he'⟩
    have hone : (1000 : ℚ) ^ e ≤ y * 1000 ^ d := by
      have : (0 : ℚ) < 1000 ^ e := by positivity
      linarith
    have hed : e < d + 1 :=
      (pow_lt_pow_iff_right₀ (by norm_num : (1 : ℚ) < 1000)).mp (lt_of_le_of_lt hone hhi)
    have hde : d ≤ e := by
      by_contra hlt
      have hle : 1000 ^ (e + 1) ≤ y * 1000 ^ d := pow_le_mul_pow (hd (by omega)) (by omega)
      exact absurd he' (not_lt.mpr hle)
    obtain rfl : e = d := by omega
    exact le_of_mul_le_mul_right he hpos
  · exact fun h => ⟨d, mul_le_mul_of_nonneg_right h hpos.le, hhi⟩

/-- **A text and thousands denote a number**: the text is below a thousand, and off by half a unit
of its last place at most; when it is off by that much, its digits are even. -/
structure Denotes (p : Bytes × ℕ) (x : ℚ) : Prop where
  below : number p.1 < (1000 : ℚ)
  close : |number p.1 * 1000 ^ p.2 - x| ≤ 1 / 2 * (1 / 10 ^ places p.1) * 1000 ^ p.2
  even : |number p.1 * 1000 ^ p.2 - x| = 1 / 2 * (1 / 10 ^ places p.1) * 1000 ^ p.2 →
    ∃ n : ℕ, Even n ∧ |(number p.1 : ℚ)| = n * (1 / 10 ^ places p.1)

theorem denotes_iff {digits : ℚ → ℕ} (hdigits : ∀ y, 100 ≤ y → digits y = 0) (x : ℚ) :
    Denotes (scaled digits x) x ↔ ¬ JustBelow x := by
  obtain ⟨y, d, hyd, rfl, hy, hd⟩ := scaled_spec digits x
  have hpos : (0 : ℚ) < 1000 ^ d := by positivity
  have hscale : |number (fixed (digits y) y) * 1000 ^ d - y * 1000 ^ d| =
      |number (fixed (digits y) y) - y| * 1000 ^ d := by
    rw [← sub_mul, abs_mul, abs_of_pos hpos]
  rw [hyd, justBelow_iff hy hd, not_le, ← number_lt_iff hdigits y]
  refine ⟨fun h => h.below, fun h => ⟨h, ?_, fun htie => ?_⟩⟩
  · rw [hscale, places_fixed]
    exact mul_le_mul_of_nonneg_right (number_fixed_error (digits y) y) hpos.le
  · rw [hscale, places_fixed] at htie
    rw [places_fixed]
    exact number_fixed_tie (mul_right_cancel₀ hpos.ne' htie)

theorem format_num_denotes_iff (x : ℚ) : Denotes (format_num x) x ↔ ¬ JustBelow x := by
  refine denotes_iff (fun y hy => ?_) x
  rw [if_neg (by linarith), if_neg (by linarith)]

theorem format_num_fewer_digits_denotes_iff (x : ℚ) :
    Denotes (format_num_fewer_digits x) x ↔ ¬ JustBelow x :=
  denotes_iff (fun _ hy => if_neg (not_lt.mpr hy)) x

/-! ### The units -/

/-- Where the units of a metric end. -/
def limit : Metric → ℚ
  | .bin_size => 1000000000000
  | _ => 1000000000

theorem pow_length_suffixes (m : Metric) : (1000 : ℚ) ^ (suffixes m).length = limit m := by
  cases m
  all_goals
    unfold limit
    norm_num [suffixes, latency_suffixes, thruput_suffixes, binsize_suffixes]

theorem format_dep_lt_iff (m : Metric) (x : ℚ) :
    (format m x).2 < (suffixes m).length ↔ x < limit m := by
  have hpos : 0 < (suffixes m).length := by cases m <;> decide
  rw [← pow_length_suffixes]
  unfold format
  split_ifs
  · exact dep_lt_iff _ x hpos
  · exact dep_lt_iff _ x hpos

theorem write_cell_isSome_iff (m : Metric) (x : ℚ) :
    (write_cell m x).isSome = true ↔ x < limit m := by
  simp only [write_cell]
  rw [Option.isSome_map, ← format_dep_lt_iff, isSome_getElem?]

theorem writes_isSome_iff {α : Type} (f : α → Option Bytes) (as : List α) :
    (writes f as).isSome = true ↔ ∀ a ∈ as, (f a).isSome = true := by
  induction as with
  | nil => simp [writes]
  | cons a as ih =>
    rw [List.forall_mem_cons, ← ih, writes]
    cases f a with
    | none => simp
    | some s => simp

/-- **`write_table` succeeds** when there is a workload, every number is there, and none is at the
limit of its metric. -/
theorem write_table_isSome_iff (results : Results ℚ) (workloads : List Bytes) :
    (write_table results workloads).isSome = true ↔ workloads ≠ [] ∧
      ∀ r ∈ configurations, ∀ w ∈ workloads, ∀ m, ∃ v,
        ((results r w).bind fun result => result m) = some v ∧ to_float v < limit m := by
  unfold write_table
  split_ifs with h
  · have hnil : workloads = [] := by simpa [configurations, metrics] using h
    simp [hnil]
  · have hne : workloads ≠ [] := by
      rintro rfl
      simp at h
    rw [Option.isSome_map, writes_isSome_iff]
    simp only [write_row, Option.isSome_map, writes_isSome_iff]
    refine ⟨fun hall => ⟨hne, fun r hr w hw m => ?_⟩, fun hall r hr w hw m _ => ?_⟩
    · have hm : m ∈ metrics := by cases m <;> decide
      have hcell := hall r hr w hw m hm
      cases hv : (results r w).bind fun result => result m with
      | none => simp [hv] at hcell
      | some v =>
        rw [hv] at hcell
        exact ⟨v, rfl, (write_cell_isSome_iff m _).mp hcell⟩
    · obtain ⟨v, hv, hlt⟩ := hall.2 r hr w hw m
      rw [hv]
      exact (write_cell_isSome_iff m _).mpr hlt

/-! ### Soundness -/

/-- **Formatting is sound** for a number of a metric: both functions print what denotes it, and the
thousands index a unit. -/
structure Sound (m : Metric) (x : ℚ) : Prop where
  num : Denotes (format_num x) x
  fewer_digits : Denotes (format_num_fewer_digits x) x
  index : (format m x).2 < (suffixes m).length

/-- **Where formatting is sound**: away from the powers of a thousand from below, and below the
limit of the metric; and where the numbers are below their limits, `write_table` writes them. -/
theorem sound_iff (m : Metric) (x : ℚ) :
    (Sound m x ↔ ¬ JustBelow x ∧ x < limit m) ∧
    ∀ (results : Results ℚ) (workloads : List Bytes), workloads ≠ [] →
      (∀ r ∈ configurations, ∀ w ∈ workloads, ∀ m, ∃ v,
        ((results r w).bind fun result => result m) = some v) →
      ((write_table results workloads).isSome = true ↔
        ∀ r ∈ configurations, ∀ w ∈ workloads, ∀ m v,
          ((results r w).bind fun result => result m) = some v → to_float v < limit m) := by
  refine ⟨⟨fun h => ?_, fun h => ?_⟩, fun results workloads hne hall => ?_⟩
  · exact ⟨(format_num_denotes_iff x).mp h.num, (format_dep_lt_iff m x).mp h.index⟩
  · exact ⟨(format_num_denotes_iff x).mpr h.1, (format_num_fewer_digits_denotes_iff x).mpr h.1,
      (format_dep_lt_iff m x).mpr h.2⟩
  · rw [write_table_isSome_iff]
    refine ⟨fun h r hr w hw m v hv => ?_, fun h => ⟨hne, fun r hr w hw m => ?_⟩⟩
    · obtain ⟨v', hv', hlt⟩ := h.2 r hr w hw m
      rw [hv, Option.some.injEq] at hv'
      rwa [hv']
    · obtain ⟨v, hv⟩ := hall r hr w hw m
      exact ⟨v, hv, h r hr w hw m v hv⟩

/-- A latency just below a millisecond is printed as `1000us`, and one of a thousand seconds has no
unit. -/
theorem thousand_microseconds :
    format_num (4998 / 5) = (lit "1000", 0) ∧ ¬ Sound .avg_lat_microseconds (4998 / 5) ∧
      write_cell .avg_lat_microseconds 1000000000 = none := by
  have hnum : format_num (4998 / 5) = (lit "1000", 0) := by
    rw [format_num, scaled, dif_pos (by norm_num)]
    decide +kernel
  refine ⟨hnum, fun h => ?_, ?_⟩
  · have hbelow := h.num.below
    rw [hnum] at hbelow
    exact absurd hbelow (by decide +kernel)
  · rw [← Option.not_isSome_iff_eq_none, write_cell_isSome_iff]
    norm_num [limit]

end HfiWebserver.Bench.WrkTable
