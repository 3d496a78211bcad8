import HfiWebserver.Bench.WrkTable

/-! # The reports of `wrk_analysis.py`

`main` reads the folders, takes the workloads of the first configuration and writes the tables of
two groups of them. What it reads are texts of `%g`, so its numbers have six digits (`percent_g`).

`reports_of_runs` follows a number from the run that measured it to the cell it is printed in: from
the scripts of wrk through the file names to the tables. -/

namespace HfiWebserver.Bench.WrkReports

open HfiWebserver.Lib.ByteStrings HfiWebserver.Lib.FixedPoint HfiWebserver.Lib.StdPath
open HfiWebserver.Lib.OsPath
open HfiWebserver.Server.ServiceDirectory HfiWebserver.Server.WasmModule
open HfiWebserver.Bench.WrkScripts HfiWebserver.Bench.WrkAnalysis HfiWebserver.Bench.WrkTable

/-! ### The keys of a dictionary -/

/-- The keys of a dictionary, in their order, after an assignment. -/
def assign (keys : List Bytes) (w : Bytes) : List Bytes :=
  if keys.contains w then keys else keys ++ [w]

theorem foldl_assign (ws : List Bytes) : (ws.foldl assign []).Nodup ∧
    ∀ w, w ∈ ws.foldl assign [] ↔ w ∈ ws := by
  induction ws using List.reverseRecOn with
  | nil => exact ⟨List.nodup_nil, fun _ => Iff.rfl⟩
  | append_singleton ws w ih =>
    obtain ⟨hnodup, hmem⟩ := ih
    simp only [List.foldl_append, List.foldl_cons, List.foldl_nil, assign, List.contains_iff_mem]
    split_ifs with hw
    · refine ⟨hnodup, fun w' => ?_⟩
      rw [List.mem_append, List.mem_singleton, hmem]
      exact ⟨Or.inl, fun h => h.elim id fun h => h ▸ (hmem w).mp hw⟩
    · refine ⟨List.nodup_append.mpr ⟨hnodup, List.nodup_singleton w, ?_⟩, fun w' => ?_⟩
      · rintro a ha b hb rfl
        exact hw (List.mem_singleton.mp hb ▸ ha)
      · rw [List.mem_append, List.mem_append, hmem]

/-- The workload a file is booked at under a configuration. -/
def workload_of (config file : Bytes) : Option Bytes :=
  if endswith file (suffix_of config) then
    some (match rfind (suffix_of config) file with
      | some i => file.take i
      | none => file.dropLast)
  else none

theorem workload_of_eq_some_iff {config file w : Bytes} :
    workload_of config file = some w ↔ file = w ++ suffix_of config := by
  have happend : ∀ w, workload_of config (w ++ suffix_of config) = some w := by
    intro w
    have h : endswith (w ++ suffix_of config) (suffix_of config) = true :=
      endswith_iff.mpr ⟨w, rfl⟩
    simp only [workload_of, h, if_true, rfind_append, List.take_left']
  constructor
  · intro h
    have he : endswith file (suffix_of config) = true := by
      by_contra he
      rw [workload_of, if_neg he] at h
      cases h
    obtain ⟨w', rfl⟩ := endswith_iff.mp he
    rw [Option.some.inj ((happend w').symm.trans h)]
  · rintro rfl
    exact happend w

/-! ### The script -/

def workloads_to_go_in_output_file_2 : List Bytes := [lit "tflite"]

def in_file_2 (w : Bytes) : Bool := workloads_to_go_in_output_file_2.contains w

/-- `[w for w in results[config]]`: the workloads in the order in which they were first booked. -/
def workloads (disk : Disk ℚ) (folders : List Bytes) (config : Bytes) : List Bytes :=
  (folders.flatMap fun folder =>
    ((disk.listdir folder).getD []).filterMap (workload_of config)).foldl assign []

/-- The two output files; `none` is one that is not written. -/
structure Reports where
  o1 : Option Bytes
  o2 : Option Bytes

def write_report (results : Results ℚ) (ws : List Bytes) : Option (Option Bytes) :=
  if 0 < ws.length then (write_table results ws).map some else some none

/-- The number that the text of `%g` stands for. -/
def percent_g (x : ℚ) : ℚ := significant 6 x

example : percent_g 999999700 = 1000000000 := by decide +kernel

/-- `main`, without the file of the metrics, on a disk with the numbers that `%g` printed; `none` is
an exception. -/
def main (disk : Disk ℚ) (folders : List Bytes) (sofolder : Bytes) : Option Reports := do
  let results ← parse_results (disk.map percent_g) folders sofolder
  let ws := workloads disk folders (lit "stock")
  let workloads_for_file_2 := ws.filter in_file_2
  let workloads_for_file_1 := ws.filter fun w => !in_file_2 w
  let o1 ← write_report results workloads_for_file_1
  let o2 ← write_report results workloads_for_file_2
  pure ⟨o1, o2⟩

/-! ### The table of some numbers -/

section

variable (number : Bytes → Bytes → Metric → ℚ)

/-- What is written for a number that has a unit. -/
def cell (m : Metric) (x : ℚ) : Bytes := (write_cell m x).getD []

/-- The row of a configuration. -/
def row (ws : List Bytes) (r : Bytes) : Bytes :=
  latex_name_of_config r ++ lit "\n" ++
    (ws.flatMap fun w => (metrics.flatMap fun m => cell m (number r w m)) ++ lit "\n") ++
    lit "\\\\\\hline\n\n"

/-- **The table of some numbers**, by configuration, workload and metric. -/
def table (ws : List Bytes) : Bytes :=
  header ws ++ configurations.flatMap (row number ws) ++ lit "\\end\x7btabular\x7d\n"

end

theorem writes_eq {α : Type} {f : α → Option Bytes} {g : α → Bytes} {as : List α}
    (h : ∀ a ∈ as, f a = some (g a)) : writes f as = some (as.flatMap g) := by
  induction as with
  | nil => rfl
  | cons a as ih =>
    rw [List.forall_mem_cons] at h
    rw [writes, h.1, ih h.2]
    rfl

/-- **`write_table` writes the table of its numbers.** -/
theorem write_table_eq {results : Results ℚ} {number : Bytes → Bytes → Metric → ℚ}
    {ws : List Bytes} (hne : ws ≠ [])
    (h : ∀ r ∈ configurations, ∀ w ∈ ws, ∀ m, number r w m < limit m ∧
      ((results r w).bind fun result => result m).map to_float = some (number r w m)) :
    write_table results ws = some (table number ws) := by
  have hcell : ∀ r ∈ configurations, ∀ w ∈ ws, ∀ m, (do
      let lres ← (results r w).bind fun result => result m
      write_cell m (to_float lres)) = some (cell m (number r w m)) := by
    intro r hr w hw m
    obtain ⟨hlt, hnum⟩ := h r hr w hw m
    obtain ⟨v, hv, hto⟩ := Option.map_eq_some_iff.mp hnum
    obtain ⟨text, htext⟩ := Option.isSome_iff_exists.mp ((write_cell_isSome_iff m _).mpr hlt)
    rw [hv, Option.bind_eq_bind, Option.bind_some, hto, cell, htext]
    rfl
  have hrow : ∀ r ∈ configurations, write_row results ws r = some (row number ws r) := by
    intro r hr
    rw [write_row, writes_eq fun w hw => by
      rw [writes_eq fun m _ => hcell r hr w hw m, Option.map_some]]
    rfl
  have hnot : ¬ (configurations.length = 0 ∨ ws.length = 0 ∨ metrics.length = 0) := by
    simpa [configurations, metrics] using hne
  rw [write_table, if_neg hnot, writes_eq hrow]
  rfl

/-! ### From the runs to the tables -/

/-- What a run measured, with the size of its binary. -/
def measured (r : Run ℚ) (size : ℕ) : Metric → ℚ
  | .avg_lat_microseconds => r.summary.mean
  | .tail_lat_microseconds => r.summary.percentile_99
  | .throughput => throughput r.summary
  | .bin_size => size

/-- What is read back of it: the size is in no file. -/
def read_back (r : Run ℚ) (size : ℕ) (m : Metric) : ℚ :=
  if m = .bin_size then measured r size m else percent_g (measured r size m)

theorem percent_g_error (x : ℚ) : |percent_g x - x| ≤ |x| / 200000 := by
  have h := significant_error 6 x
  have hpow : (10 : ℚ) ^ (1 - 6 : ℤ) = 1 / 100000 := by norm_num
  calc |percent_g x - x| ≤ 1 / 2 * (|x| * (10 : ℚ) ^ (1 - 6 : ℤ)) := h
    _ = |x| / 200000 := by
      rw [hpow]
      ring

/-- **A number is read back to six digits.** -/
theorem read_back_error (r : Run ℚ) (size : ℕ) (m : Metric) :
    |read_back r size m - measured r size m| ≤ |measured r size m| / 200000 := by
  unfold read_back
  split_ifs
  · rw [sub_self, abs_zero]
    positivity
  · exact percent_g_error _

variable (disk : Disk ℚ) (so_folder : Bytes) (runs : List (Run ℚ))

/-- **What the runs say** at an entry: what is read back of the last one that landed there. -/
def said (c w : Bytes) (m : Metric) : Option ℚ :=
  (last_landed runs c w).bind fun r =>
    (disk.st_size (join so_folder (so_name r.stem))).map fun size => read_back r size m

/-- Under some configuration a number is missing, or it is at the limit of its metric. -/
def Unreportable (w : Bytes) : Prop :=
  ∃ c ∈ configurations, ∃ m, ∀ x, said disk so_folder runs c w m = some x → limit m ≤ x

/-- The table of what the runs say about some workloads, if there are any. -/
def report (ws : List Bytes) : Option Bytes :=
  if ws = [] then none
  else some (table (fun c w m => (said disk so_folder runs c w m).getD 0) ws)

variable {disk runs}

section

variable {results : Results ℚ} (hsaid : ∀ c w m,
  ((results c w).bind fun result => result m).map to_float = said disk so_folder runs c w m)
include hsaid

/-- A table is written when everything can be reported. -/
theorem write_report_eq {ws : List Bytes} (hall : ∀ w ∈ ws, ¬ Unreportable disk so_folder runs w) :
    write_report results ws = some (report disk so_folder runs ws) := by
  unfold write_report report
  rcases eq_or_ne ws [] with rfl | hne
  · rfl
  rw [if_pos (List.length_pos_iff.mpr hne), if_neg hne, write_table_eq hne]
  · rfl
  intro c hc w hw m
  have hnot := hall w hw
  unfold Unreportable at hnot
  push Not at hnot
  obtain ⟨x, hx, hlt⟩ := hnot c hc m
  rw [hsaid, hx]
  exact ⟨hlt, rfl⟩

/-- And a workload that cannot be reported makes it fail. -/
theorem write_report_eq_none {ws : List Bytes} {w : Bytes} (hw : w ∈ ws)
    (hbad : Unreportable disk so_folder runs w) : write_report results ws = none := by
  obtain ⟨c, hc, m, hbad⟩ := hbad
  unfold write_report
  rw [if_pos (List.length_pos_iff.mpr (List.ne_nil_of_mem hw)), Option.map_eq_none_iff,
    ← Option.not_isSome_iff_eq_none, write_table_isSome_iff]
  rintro ⟨-, hall⟩
  obtain ⟨v, hv, hlt⟩ := hall c hc w hw m
  have hx := hsaid c w m
  rw [hv, Option.map_some] at hx
  exact absurd hlt (not_lt.mpr (hbad _ hx.symm))

variable {folders : List Bytes}
  (hp : parse_results (disk.map percent_g) folders so_folder = some results)
include hp

omit hsaid in
theorem main_eq : main disk folders so_folder =
    (write_report results ((workloads disk folders (lit "stock")).filter fun w =>
      !in_file_2 w)).bind fun o1 =>
        (write_report results ((workloads disk folders (lit "stock")).filter in_file_2)).bind
          fun o2 => some ⟨o1, o2⟩ := by
  rw [main, hp]
  rfl

/-- The second table can fail after the first. -/
theorem main_eq_none {w : Bytes} (hw : w ∈ workloads disk folders (lit "stock"))
    (hbad : Unreportable disk so_folder runs w) : main disk folders so_folder = none := by
  rw [main_eq so_folder hp, Option.bind_eq_none_iff]
  intro o1 ho1
  by_cases htflite : in_file_2 w = true
  · rw [write_report_eq_none so_folder hsaid (List.mem_filter.mpr ⟨hw, htflite⟩) hbad]
    rfl
  · have hother : (!in_file_2 w) = true := by simpa using htflite
    rw [write_report_eq_none so_folder hsaid (List.mem_filter.mpr ⟨hw, hother⟩) hbad] at ho1
    cases ho1

theorem main_eq_some (hall : ∀ w ∈ workloads disk folders (lit "stock"),
    ¬ Unreportable disk so_folder runs w) : main disk folders so_folder =
      some ⟨report disk so_folder runs
          ((workloads disk folders (lit "stock")).filter fun w => !in_file_2 w),
        report disk so_folder runs ((workloads disk folders (lit "stock")).filter in_file_2)⟩ := by
  rw [main_eq so_folder hp,
    write_report_eq so_folder hsaid fun w hw => hall w (List.mem_filter.mp hw).1, Option.bind_some,
    write_report_eq so_folder hsaid fun w hw => hall w (List.mem_filter.mp hw).1, Option.bind_some]

end

variable {batches : List (Batch ℚ)} (h : ∀ b ∈ batches, disk.Holds b)
include h

theorem said_of_parse {results : Results ℚ}
    (hp : parse_results (disk.map percent_g) (batches.map Batch.path) so_folder = some results)
    (c w : Bytes) (m : Metric) : ((results c w).bind fun result => result m).map to_float =
      said disk so_folder (batches.flatMap Batch.runs) c w m := by
  rw [parse_results_map, Option.map_eq_some_iff] at hp
  obtain ⟨exact_results, hp, rfl⟩ := hp
  rw [Results.map, of_parse_results so_folder h hp, said]
  rcases last_landed (batches.flatMap Batch.runs) c w with _ | r
  · rfl
  rw [Option.bind_some, Option.bind_some, stored]
  rcases disk.st_size (join so_folder (so_name r.stem)) with _ | size
  · rfl
  · cases m <;> rfl

theorem parse_eq_none_iff :
    parse_results (disk.map percent_g) (batches.map Batch.path) so_folder = none ↔
      ∃ r ∈ batches.flatMap Batch.runs, (∃ c w, Lands r c w) ∧
        disk.st_size (join so_folder (so_name r.stem)) = none := by
  rw [parse_results_map, Option.map_eq_none_iff]
  exact parse_results_eq_none_iff so_folder h

/-- The workloads are those that a run landed at. -/
theorem mem_workloads {c : Bytes} (hc : c ∈ configurations) (w : Bytes) :
    w ∈ workloads disk (batches.map Batch.path) c ↔
      ∃ r ∈ batches.flatMap Batch.runs, Lands r c w := by
  unfold workloads
  rw [(foldl_assign _).2, List.flatMap_map, List.mem_flatMap]
  have hbatch : ∀ b ∈ batches, (w ∈ ((disk.listdir b.path).getD []).filterMap (workload_of c) ↔
      ∃ r ∈ b.runs, Lands r c w) := by
    intro b hb
    obtain ⟨⟨files, hl, hfiles⟩, -⟩ := h b hb
    rw [hl, Option.getD_some, List.mem_filterMap]
    simp only [workload_of_eq_some_iff, exists_eq_right, hfiles, after_isSome, append_suffix_of,
      Lands, hc, true_and]
  constructor
  · rintro ⟨b, hb, hw⟩
    obtain ⟨r, hr, hland⟩ := (hbatch b hb).mp hw
    exact ⟨r, List.mem_flatMap.mpr ⟨b, hb, hr⟩, hland⟩
  · rintro ⟨r, hr, hland⟩
    obtain ⟨b, hb, hr⟩ := List.mem_flatMap.mp hr
    exact ⟨b, hb, (hbatch b hb).mpr ⟨r, hr, hland⟩⟩

omit h in
/-- A run of a configuration lands at its workload. -/
theorem lands_echo {p c w : Bytes} {h0 : 0 ∉ p} (hp : p ∈ configurations)
    (hland : Lands (echo p h0) c w) : w = lit "echo_server" := by
  obtain ⟨hc, -, hstem⟩ := lands_iff.mp hland
  exact (module_name_inj_of_mem hp hc hstem).2.symm

/-- A run under each configuration. -/
def complete : Batch ℚ where
  path := lit "results"
  runs := configured.runs ++ [echo (lit "spectre_sfi_breakout") (by decide)]

end HfiWebserver.Bench.WrkReports
