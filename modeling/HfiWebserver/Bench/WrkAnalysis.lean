import Mathlib.Algebra.Order.Ring.Unbundled.Rat
import HfiWebserver.Bench.WrkScripts
import HfiWebserver.Lib.Interleave
import HfiWebserver.Lib.OsPath

/-! # Reading the results back

`wrk_analysis.py` reads the results files of some folders. A file is booked under each configuration
`c` such that its name ends in `_c.txt`, at the workload that stands before it, with the numbers of
its lines and the size of the `.so` file of the same stem.

The name of a file is all that is left of its workload and protection, so the runs booked under `c`
and `w` are those whose module is called `w_c` (`Lands`): the runs of `w` under `c`, and runs under
no configuration at all whose name happens to end so.

* `parse_folder_eq_none_iff`, `of_parse_folder`: reading one folder, from one file to all;
* `results_of_runs`: each entry of `results` is that of the last run that lands there; a run of a
  configuration lands at its own entry only;
* `parse_results_map`: what is read of files with other numbers in them. -/

namespace HfiWebserver.Bench.WrkAnalysis

open HfiWebserver.Lib.ByteStrings HfiWebserver.Lib.StdPath HfiWebserver.Lib.OsPath
open HfiWebserver.Lib.Interleave HfiWebserver.Server.ServiceDirectory HfiWebserver.Server.WasmModule
open HfiWebserver.Bench.WrkScripts

def configurations : List Bytes :=
  [lit "stock", lit "spectre_sfi_breakout", lit "spectre_hfi_breakout"]

inductive Metric
  | avg_lat_microseconds
  | tail_lat_microseconds
  | throughput
  | bin_size
  deriving DecidableEq, Repr

def metrics : List Metric :=
  [.avg_lat_microseconds, .tail_lat_microseconds, .throughput, .bin_size]

/-- A Python number. -/
inductive Value (Num : Type)
  | float (x : Num)
  | int (n : ℕ)
  deriving DecidableEq, Repr

variable {Num : Type}

/-- The dictionary of a file. -/
abbrev Result (Num : Type) := Metric → Option (Value Num)

/-- `results`: by configuration, then by workload. -/
abbrev Results (Num : Type) := Bytes → Bytes → Option (Result Num)

/-- What the script sees of the file system; `none` is an exception. -/
structure Disk (Num : Type) where
  listdir : Bytes → Option (List Bytes)
  lines : Bytes → Option (Content Num)
  st_size : Bytes → Option ℕ

/-! ### The script -/

/-- `float(f.readline())`, on the next line if there is one; only the numbers of `%g` are read. -/
def float : Option (Line Num) → Option Num
  | some [.num x] => some x
  | _ => none

def get_bin_size_bytes (disk : Disk Num) (so_folder results_filename : Bytes) : Option ℕ :=
  let (stem, ext) := splitext (basename results_filename)
  if ext = lit ".txt" then
    let so_filename := stem ++ lit ".so"
    let so_path := join so_folder so_filename
    disk.st_size so_path
  else none

/-- One iteration of the loop of `parse_result_from_file`, on the dictionary and the lines left. -/
def read_metric (disk : Disk Num) (so_folder filename : Bytes) :
    Result Num × Content Num → Metric → Option (Result Num × Content Num)
  | (result, f), metric =>
    if metric = .bin_size then do
      let size ← get_bin_size_bytes disk so_folder filename
      pure (Function.update result metric (some (.int size)), f)
    else do
      let x ← float f.head?
      pure (Function.update result metric (some (.float x)), f.tail)

def parse_result_from_file (disk : Disk Num) (so_folder filename : Bytes) :
    Option (Result Num) := do
  let f ← disk.lines filename
  let (result, _) ← run (read_metric disk so_folder filename) (fun _ => none, f.tail) metrics
  pure result

/-- The end of the names of a configuration's files. -/
def suffix_of (config : Bytes) : Bytes := lit "_" ++ config ++ lit ".txt"

/-- The innermost loop of `parse_results`: one file and one configuration. -/
def book (disk : Disk Num) (so_folder folder file : Bytes) (results : Results Num)
    (config : Bytes) : Option (Results Num) :=
  let suffix := suffix_of config
  if endswith file suffix then do
    let workload := match rfind suffix file with
      | some i => file.take i
      | none => file.dropLast
    let result ← parse_result_from_file disk so_folder (join folder file)
    pure (Function.update results config (Function.update (results config) workload (some result)))
  else pure results

/-- One file, under every configuration. -/
def parse_file (disk : Disk Num) (so_folder folder : Bytes) (results : Results Num)
    (file : Bytes) : Option (Results Num) :=
  run (book disk so_folder folder file) results configurations

/-- The files of one folder. -/
def parse_folder (disk : Disk Num) (so_folder : Bytes) (results : Results Num)
    (folder : Bytes) : Option (Results Num) := do
  let files ← disk.listdir folder
  run (parse_file disk so_folder folder) results files

/-- `parse_results`. -/
def parse_results (disk : Disk Num) (folders : List Bytes) (so_folder : Bytes) :
    Option (Results Num) :=
  run (parse_folder disk so_folder) (fun _ _ => none) folders

/-! ### Names -/

theorem append_suffix_of (w c : Bytes) : w ++ suffix_of c = txt_name (module_name w c) := by
  simp [suffix_of, txt_name, module_name]

theorem txt_name_inj {s t : Bytes} (h : txt_name s = txt_name t) : s = t :=
  List.append_cancel_right h

theorem module_name_right_inj {w w' c : Bytes} (h : module_name w c = module_name w' c) :
    w = w' := by
  unfold module_name at h
  rw [List.append_assoc, List.append_assoc] at h
  exact List.append_cancel_right h

/-- If two module names are equal, one protection ends in the other, after an underscore. -/
theorem suffix_of_module_name_eq {w w' p c : Bytes} (h : module_name w p = module_name w' c)
    (hne : p ≠ c) : lit "_" ++ c <:+ p ∨ lit "_" ++ p <:+ c := by
  have hp : lit "_" ++ p <:+ module_name w p := ⟨w, by simp [module_name]⟩
  have hc : lit "_" ++ c <:+ module_name w p := ⟨w', by rw [h]; simp [module_name]⟩
  have key : ∀ q r : Bytes, lit "_" ++ q <:+ module_name w p → lit "_" ++ r <:+ module_name w p →
      q ≠ r → q.length ≤ r.length → lit "_" ++ q <:+ r := by
    intro q r hq hr hqr hlen
    obtain ⟨x, hx⟩ := List.suffix_of_suffix_length_le hq hr (by simpa using hlen)
    rcases x with _ | ⟨a, x⟩
    · rw [List.nil_append] at hx
      exact absurd (List.append_cancel_left hx) hqr
    · have hlit : lit "_" = [95] := by decide
      rw [hlit, List.cons_append, List.singleton_append, List.singleton_append,
        List.cons.injEq] at hx
      exact ⟨x, hx.2⟩
  rcases Nat.le_total c.length p.length with hlen | hlen
  · exact Or.inl (key c p hc hp (Ne.symm hne) hlen)
  · exact Or.inr (key p c hp hc hne hlen)

/-- No configuration ends in another one. -/
theorem configurations_apart : ∀ c ∈ configurations, ∀ c' ∈ configurations,
    ¬ lit "_" ++ c <:+ c' := by decide

/-- **The name of a configuration's module splits back.** -/
theorem module_name_inj_of_mem {w w' p c : Bytes} (hp : p ∈ configurations)
    (hc : c ∈ configurations) (h : module_name w p = module_name w' c) : p = c ∧ w = w' := by
  have hpc : p = c := by
    by_contra hne
    rcases suffix_of_module_name_eq h hne with hs | hs
    · exact configurations_apart c hc p hp hs
    · exact configurations_apart p hp c hc hs
  subst hpc
  exact ⟨rfl, module_name_right_inj h⟩

/-! ### One file -/

section

variable (disk : Disk Num) (so_folder folder : Bytes)

theorem book_of_not {file c : Bytes} (h : endswith file (suffix_of c) = false)
    (results : Results Num) : book disk so_folder folder file results c = some results := by
  simp [book, h]

theorem book_of_match (w c : Bytes) (results : Results Num) :
    book disk so_folder folder (w ++ suffix_of c) results c =
      (parse_result_from_file disk so_folder (join folder (w ++ suffix_of c))).map fun result =>
        Function.update results c (Function.update (results c) w (some result)) := by
  have h : endswith (w ++ suffix_of c) (suffix_of c) = true := endswith_iff.mpr ⟨w, rfl⟩
  simp only [book, h, if_true, rfind_append, List.take_left']
  rcases parse_result_from_file disk so_folder (join folder (w ++ suffix_of c)) with _ | r <;> rfl

/-- A file makes `parse_results` fail when it is booked and cannot be read. -/
def Unreadable (file : Bytes) : Prop :=
  (∃ c ∈ configurations, endswith file (suffix_of c) = true) ∧
    parse_result_from_file disk so_folder (join folder file) = none

theorem parse_file_eq_none_iff (results : Results Num) (file : Bytes) :
    parse_file disk so_folder folder results file = none ↔
      Unreadable disk so_folder folder file := by
  have hbook : ∀ c ∈ configurations, ∀ results : Results Num,
      book disk so_folder folder file results c = none ↔ endswith file (suffix_of c) = true ∧
        parse_result_from_file disk so_folder (join folder file) = none := by
    intro c _ results
    rcases he : endswith file (suffix_of c) with _ | _
    · simp [book_of_not disk so_folder folder he]
    · obtain ⟨w, rfl⟩ := endswith_iff.mp he
      simp [book_of_match]
  unfold parse_file Unreadable
  rw [run_eq_none_iff hbook]
  constructor
  · rintro ⟨c, hc, he, hp⟩
    exact ⟨⟨c, hc, he⟩, hp⟩
  · rintro ⟨⟨c, hc, he⟩, hp⟩
    exact ⟨c, hc, he, hp⟩

/-- What a file changes: the entries its name ends in. -/
theorem of_parse_file {results results' : Results Num} {file : Bytes}
    (h : parse_file disk so_folder folder results file = some results') (c w : Bytes) :
    results' c w = if c ∈ configurations ∧ file = w ++ suffix_of c then
      parse_result_from_file disk so_folder (join folder file) else results c w := by
  suffices key : ∀ c w, results' c w = if c ∈ configurations ∧ file = w ++ suffix_of c then
      parse_result_from_file disk so_folder (join folder file) else results c w from key c w
  -- the invariant speaks of the configurations tried so far
  refine run_inv (I := fun (cs : List Bytes) (res : Results Num) => ∀ c w, res c w =
    if c ∈ cs ∧ file = w ++ suffix_of c then
      parse_result_from_file disk so_folder (join folder file) else results c w)
    (fun c w => by simp) ?_ h
  intro cs res c res1 ih hstep c' w'
  by_cases he : endswith file (suffix_of c) = true
  · obtain ⟨w, rfl⟩ := endswith_iff.mp he
    rw [book_of_match, Option.map_eq_some_iff] at hstep
    obtain ⟨result, hresult, rfl⟩ := hstep
    by_cases hc : c' = c
    · subst hc
      rw [Function.update_self]
      by_cases hw : w' = w
      · subst hw
        simp [hresult]
      · have hne : ¬ w ++ suffix_of c' = w' ++ suffix_of c' := fun h =>
          hw (List.append_cancel_right h).symm
        rw [Function.update_of_ne hw, ih, if_neg (fun h => hne h.2), if_neg (fun h => hne h.2)]
    · rw [Function.update_of_ne hc, ih]
      simp [hc]
  · rw [book_of_not disk so_folder folder (by simpa using he), Option.some.injEq] at hstep
    subst hstep
    have hne : ¬ (c' = c ∧ file = w' ++ suffix_of c') := by
      rintro ⟨rfl, hf⟩
      exact he (endswith_iff.mpr ⟨w', hf⟩)
    rw [ih]
    by_cases hc : c' = c
    · have hf : ¬ file = w' ++ suffix_of c' := fun hf => hne ⟨hc, hf⟩
      simp [hf]
    · simp [hc]

/-! ### One folder -/

theorem parse_folder_eq_none_iff {files : List Bytes} (hl : disk.listdir folder = some files)
    (results : Results Num) : parse_folder disk so_folder results folder = none ↔
      ∃ file ∈ files, Unreadable disk so_folder folder file := by
  simp only [parse_folder, hl, Option.bind_eq_bind, Option.bind_some]
  exact run_eq_none_iff
    (fun file _ results => parse_file_eq_none_iff disk so_folder folder results file) results

theorem of_parse_folder {files : List Bytes} (hl : disk.listdir folder = some files)
    {results results' : Results Num} (h : parse_folder disk so_folder results folder = some results')
    (c w : Bytes) : results' c w = if c ∈ configurations ∧ w ++ suffix_of c ∈ files then
      parse_result_from_file disk so_folder (join folder (w ++ suffix_of c)) else results c w := by
  simp only [parse_folder, hl, Option.bind_eq_bind, Option.bind_some] at h
  refine run_inv (I := fun (fs : List Bytes) (res : Results Num) => res c w =
    if c ∈ configurations ∧ w ++ suffix_of c ∈ fs then
      parse_result_from_file disk so_folder (join folder (w ++ suffix_of c)) else results c w)
    (by simp) ?_ h
  intro fs res file res1 ih hstep
  rw [of_parse_file disk so_folder folder hstep, ih]
  by_cases hf : file = w ++ suffix_of c
  · subst hf
    by_cases hc : c ∈ configurations <;> simp [hc]
  · have hf' : ¬ w ++ suffix_of c = file := fun h => hf h.symm
    simp [hf, hf']

/-- **The size is that of the file of the same stem.** -/
theorem get_bin_size_bytes_eq {w p : Bytes} (hsep : sep ∉ module_name w p) :
    get_bin_size_bytes disk so_folder (join folder (txt_name (module_name w p))) =
      disk.st_size (join so_folder (so_name (module_name w p))) := by
  have hsplit : splitext (txt_name (module_name w p)) = (module_name w p, lit ".txt") := by
    refine splitext_append (e := lit "txt") ?_ (by decide) (by decide)
    rw [basename_of_no_sep hsep]
    exact ⟨95, by simp [module_name, show lit "_" = [95] from by decide], by decide⟩
  simp only [get_bin_size_bytes, basename_join folder (no_sep_txt_name.mpr hsep), hsplit, if_true]
  rfl

end

/-! ### The file of a run -/

section

variable [Div Num] [Mul Num] [NatCast Num] [LT Num] [DecidableLT Num]

/-- The numbers of a run, with the size of its binary. -/
def result_of (r : Run Num) (size : ℕ) : Result Num
  | .avg_lat_microseconds => some (.float r.summary.mean)
  | .tail_lat_microseconds => some (.float r.summary.percentile_99)
  | .throughput => some (.float (throughput r.summary))
  | .bin_size => some (.int size)

/-- What is stored for a run: its three numbers, and the size of the file the server loads its
module from, if there is one. -/
def stored (disk : Disk Num) (so_folder : Bytes) (r : Run Num) : Option (Result Num) :=
  (disk.st_size (join so_folder (so_name r.stem))).map (result_of r)

variable (disk : Disk Num) (so_folder : Bytes)

/-- **The lines `done` writes are read back as they were meant.** -/
theorem parse_result_of_content (folder : Bytes) {r : Run Num} (hsep : sep ∉ r.stem)
    (hf : disk.lines (join folder (txt_name r.stem)) = some r.content) :
    parse_result_from_file disk so_folder (join folder (txt_name r.stem)) =
      stored disk so_folder r := by
  have hsize : get_bin_size_bytes disk so_folder (join folder (txt_name r.stem)) =
      disk.st_size (join so_folder (so_name r.stem)) :=
    get_bin_size_bytes_eq disk so_folder folder hsep
  unfold parse_result_from_file stored
  rw [hf]
  rcases hs : disk.st_size (join so_folder (so_name r.stem)) with _ | size
  · simp [Run.content, done, metrics, read_metric, float, hsize, hs]
  · simp only [Run.content, done, metrics, run_cons, run_nil, read_metric, float, hsize, hs,
      Option.bind_eq_bind, Option.bind_some, List.tail_cons, List.head?_cons, reduceCtorEq, if_false,
      if_true, Option.pure_def, Option.map_some, Option.some.injEq]
    funext metric
    cases metric <;> simp [result_of, Function.update]

/-! ### The folders of some runs -/

/-- A folder and the runs made into it, in order. -/
structure Batch (Num : Type) where
  path : Bytes
  runs : List (Run Num)

/-- The disk has the files of the batch in its folder; `listdir` gives them in any order. -/
structure Disk.Holds (disk : Disk Num) (b : Batch Num) : Prop where
  listed : ∃ files, disk.listdir b.path = some files ∧
    ∀ n, n ∈ files ↔ (after b.runs n).isSome = true
  content : ∀ n, (after b.runs n).isSome = true → disk.lines (join b.path n) = after b.runs n

/-- A disk with one folder of results and a table of the sizes of all other files. -/
def disk_of (b : Batch Num) (st_size : Bytes → Option ℕ) : Disk Num where
  listdir folder := if folder = b.path then some (b.runs.filterMap Run.entry) else none
  lines path := (rsplit sep path).bind fun p => if p.1 = b.path then after b.runs p.2 else none
  st_size := st_size

theorem disk_of_holds {b : Batch Num} (hne : b.path ≠ []) (hlast : b.path.getLast? ≠ some sep)
    (st_size : Bytes → Option ℕ) : (disk_of b st_size).Holds b := by
  refine ⟨⟨b.runs.filterMap Run.entry, by simp [disk_of], fun n => ?_⟩, fun n hn => ?_⟩
  · rw [after_isSome, List.mem_filterMap]
  · obtain ⟨r, -, hr⟩ := (after_isSome _ _).mp hn
    have hsep : sep ∉ n := by
      obtain ⟨hs, rfl⟩ := r.entry_eq_some_iff.mp hr
      exact no_sep_txt_name.mpr hs
    have hjoin : join b.path n = b.path ++ sep :: n := by
      simp [join, head_ne_sep hsep, hne, hlast]
    simp [disk_of, hjoin, rsplit_append_cons hsep]

/-- **The entry a run is booked under**: its module has the name of the entry. -/
def Lands (r : Run Num) (c w : Bytes) : Prop :=
  c ∈ configurations ∧ r.entry = some (txt_name (module_name w c))

instance (r : Run Num) (c w : Bytes) : Decidable (Lands r c w) := by
  unfold Lands; infer_instance

theorem lands_iff {r : Run Num} {c w : Bytes} :
    Lands r c w ↔ c ∈ configurations ∧ sep ∉ r.stem ∧ r.stem = module_name w c := by
  unfold Lands
  rw [r.entry_eq_some_iff]
  constructor
  · rintro ⟨hc, hsep, h⟩
    exact ⟨hc, hsep, (txt_name_inj h).symm⟩
  · rintro ⟨hc, hsep, h⟩
    exact ⟨hc, hsep, by rw [h]⟩

/-- The last of some runs to land at an entry. -/
def last_landed (runs : List (Run Num)) (c w : Bytes) : Option (Run Num) :=
  runs.reverse.find? fun r => Lands r c w

theorem last_landed_append (runs runs' : List (Run Num)) (c w : Bytes) :
    last_landed (runs ++ runs') c w = (last_landed runs' c w).or (last_landed runs c w) := by
  simp [last_landed]

variable {disk} {b : Batch Num} (hb : disk.Holds b)
include hb

/-- A name in the folder is that of the last run which wrote it, and reads as this run. -/
theorem parse_of_holds {c w : Bytes} (hc : c ∈ configurations)
    (hn : (after b.runs (w ++ suffix_of c)).isSome = true) :
    ∃ r, last_landed b.runs c w = some r ∧ r ∈ b.runs ∧ Lands r c w ∧
      parse_result_from_file disk so_folder (join b.path (w ++ suffix_of c)) =
        stored disk so_folder r := by
  have hlines := hb.content _ hn
  rw [append_suffix_of] at hn hlines ⊢
  rw [after_eq] at hn hlines
  rcases hr : b.runs.reverse.find? fun r => r.entry = some (txt_name (module_name w c)) with _ | r
  · simp [hr] at hn
  · have hentry : r.entry = some (txt_name (module_name w c)) := by
      simpa using List.find?_some hr
    have hmem : r ∈ b.runs := List.mem_reverse.mp (List.mem_of_find?_eq_some hr)
    obtain ⟨hsep, hname⟩ := r.entry_eq_some_iff.mp hentry
    rw [hr, Option.map_some, hname] at hlines
    refine ⟨r, ?_, hmem, ⟨hc, hentry⟩, ?_⟩
    · simpa [last_landed, Lands, hc] using hr
    · rw [hname]
      exact parse_result_of_content disk so_folder b.path hsep hlines

/-- Reading the folder fails when the binary of a run that lands is missing. -/
theorem parse_batch_eq_none_iff (results : Results Num) :
    parse_folder disk so_folder results b.path = none ↔
      ∃ r ∈ b.runs, (∃ c w, Lands r c w) ∧
        disk.st_size (join so_folder (so_name r.stem)) = none := by
  obtain ⟨files, hl, hfiles⟩ := hb.listed
  rw [parse_folder_eq_none_iff disk so_folder b.path hl]
  constructor
  · rintro ⟨file, hfile, ⟨c, hc, he⟩, hp⟩
    obtain ⟨w, rfl⟩ := endswith_iff.mp he
    obtain ⟨r, -, hmem, hland, hread⟩ := parse_of_holds so_folder hb hc ((hfiles _).mp hfile)
    rw [hread, stored, Option.map_eq_none_iff] at hp
    exact ⟨r, hmem, ⟨c, w, hland⟩, hp⟩
  · rintro ⟨r, hmem, ⟨c, w, hland⟩, hsize⟩
    obtain ⟨hc, hentry⟩ := hland
    rw [← append_suffix_of] at hentry
    have hn : (after b.runs (w ++ suffix_of c)).isSome = true :=
      (after_isSome _ _).mpr ⟨r, hmem, hentry⟩
    obtain ⟨r', -, -, hland', hread⟩ := parse_of_holds so_folder hb hc hn
    have hstem : r'.stem = r.stem := by
      rw [append_suffix_of] at hentry
      rw [(lands_iff.mp hland').2.2, (lands_iff.mp ⟨hc, hentry⟩).2.2]
    refine ⟨_, (hfiles _).mpr hn, ⟨c, hc, endswith_iff.mpr ⟨w, rfl⟩⟩, ?_⟩
    rw [hread, stored, hstem, hsize]
    rfl

/-- What reading the folder changes: the entries its runs land at. -/
theorem of_parse_batch {results results' : Results Num}
    (h : parse_folder disk so_folder results b.path = some results') (c w : Bytes) :
    results' c w = match last_landed b.runs c w with
      | some r => stored disk so_folder r
      | none => results c w := by
  obtain ⟨files, hl, hfiles⟩ := hb.listed
  rw [of_parse_folder disk so_folder b.path hl h]
  by_cases hin : c ∈ configurations ∧ w ++ suffix_of c ∈ files
  · obtain ⟨r, hlast, -, -, hread⟩ := parse_of_holds so_folder hb hin.1 ((hfiles _).mp hin.2)
    rw [if_pos hin, hlast, hread]
  · have hnone : last_landed b.runs c w = none := by
      unfold last_landed
      rw [List.find?_eq_none]
      intro r hr hland
      obtain ⟨hc, hentry⟩ : Lands r c w := by simpa using hland
      rw [← append_suffix_of] at hentry
      exact hin ⟨hc, (hfiles _).mpr ((after_isSome _ _).mpr ⟨r, by simpa using hr, hentry⟩)⟩
    rw [if_neg hin, hnone]

omit hb

/-! ### All runs -/

theorem parse_results_eq_none_iff {batches : List (Batch Num)} (h : ∀ b ∈ batches, disk.Holds b) :
    parse_results disk (batches.map Batch.path) so_folder = none ↔
      ∃ r ∈ batches.flatMap Batch.runs, (∃ c w, Lands r c w) ∧
        disk.st_size (join so_folder (so_name r.stem)) = none := by
  unfold parse_results
  rw [run_map, run_eq_none_iff fun b hb results =>
    parse_batch_eq_none_iff so_folder (h b hb) results]
  simp only [List.mem_flatMap]
  constructor
  · rintro ⟨b, hb, r, hr, hbad⟩
    exact ⟨r, ⟨b, hb, hr⟩, hbad⟩
  · rintro ⟨r, ⟨b, hb, hr⟩, hbad⟩
    exact ⟨b, hb, r, hr, hbad⟩

theorem of_parse_results {batches : List (Batch Num)} (h : ∀ b ∈ batches, disk.Holds b)
    {results : Results Num}
    (hp : parse_results disk (batches.map Batch.path) so_folder = some results) (c w : Bytes) :
    results c w =
      (last_landed (batches.flatMap Batch.runs) c w).bind (stored disk so_folder) := by
  unfold parse_results at hp
  rw [run_map] at hp
  -- the invariant speaks of the folders read so far
  refine run_inv (I := fun (bs : List (Batch Num)) (res : Results Num) =>
    (∀ b ∈ bs, disk.Holds b) →
      res c w = (last_landed (bs.flatMap Batch.runs) c w).bind (stored disk so_folder))
    (fun _ => rfl) ?_ hp h
  intro bs res b res' ih hstep hbs
  have hb : disk.Holds b := hbs b (by simp)
  rw [of_parse_batch so_folder hb hstep, ih fun b' hb' => hbs b' (by simp [hb']),
    List.flatMap_append, List.flatMap_singleton, last_landed_append]
  rcases last_landed b.runs c w with _ | r <;> simp

/-- **Results files are read back under the name they were written to.** Reading fails when the
binary of a run that lands is missing, and else every entry is that of the last run that landed at
it. A run of a configuration lands at its own entry and at no other; a run of no configuration lands
only where its protection or the configuration ends in the other. -/
theorem results_of_runs {batches : List (Batch Num)} (h : ∀ b ∈ batches, disk.Holds b) :
    (parse_results disk (batches.map Batch.path) so_folder = none ↔
      ∃ r ∈ batches.flatMap Batch.runs, (∃ c w, Lands r c w) ∧
        disk.st_size (join so_folder (so_name r.stem)) = none) ∧
    (∀ results, parse_results disk (batches.map Batch.path) so_folder = some results →
      ∀ c w, results c w =
        (last_landed (batches.flatMap Batch.runs) c w).bind (stored disk so_folder)) ∧
    (∀ (r : Run Num) (c w : Bytes), r.protection ∈ configurations →
      (Lands r c w ↔ sep ∉ r.workload ∧ c = r.protection ∧ w = r.workload)) ∧
    ∀ (r : Run Num) (c w : Bytes), r.protection ∉ configurations → Lands r c w →
      lit "_" ++ c <:+ r.protection ∨ lit "_" ++ r.protection <:+ c := by
  refine ⟨parse_results_eq_none_iff so_folder h,
    fun results hp => of_parse_results so_folder h hp, ?_, ?_⟩
  · intro r c w hp
    rw [lands_iff]
    have hsep : sep ∉ r.stem ↔ sep ∉ r.workload := by
      have h1 : ∀ c ∈ configurations, sep ∉ lit "_" ++ c := by decide
      have := h1 _ hp
      simp only [Run.stem, module_name, List.append_assoc, List.mem_append, not_or] at this ⊢
      tauto
    rw [hsep]
    constructor
    · rintro ⟨hc, hs, hname⟩
      obtain ⟨rfl, rfl⟩ := module_name_inj_of_mem hp hc hname
      exact ⟨hs, rfl, rfl⟩
    · rintro ⟨hs, rfl, rfl⟩
      exact ⟨hp, hs, rfl⟩
  · intro r c w hp hland
    obtain ⟨hc, -, hname⟩ := lands_iff.mp hland
    refine suffix_of_module_name_eq hname ?_
    rintro rfl
    exact hp hc

end

/-! ### Other numbers -/

section

variable {Num' : Type} (g : Num → Num')

def Value.map : Value Num → Value Num'
  | .float x => .float (g x)
  | .int n => .int n

def Result.map (result : Result Num) : Result Num' := fun m => (result m).map (Value.map g)

def Results.map (results : Results Num) : Results Num' := fun c w => (results c w).map (Result.map g)

def mapLines : Content Num → Content Num' := List.map (List.map (Piece.map g))

/-- The disk with other numbers in its files. -/
def Disk.map (disk : Disk Num) : Disk Num' where
  listdir := disk.listdir
  lines path := (disk.lines path).map (mapLines g)
  st_size := disk.st_size

theorem float_map (l : Option (Line Num)) :
    float (l.map (List.map (Piece.map g))) = (float l).map g := by
  rcases l with _ | _ | ⟨_ | x, _ | ⟨p, ps⟩⟩ <;> rfl

theorem read_metric_map (disk : Disk Num) (so_folder filename : Bytes)
    (s : Result Num × Content Num) (metric : Metric) :
    read_metric (disk.map g) so_folder filename (Prod.map (Result.map g) (mapLines g) s) metric =
      (read_metric disk so_folder filename s metric).map
        (Prod.map (Result.map g) (mapLines g)) := by
  obtain ⟨result, f⟩ := s
  have hupdate : ∀ v : Value Num, Function.update (Result.map g result) metric (some (v.map g)) =
      Result.map g (Function.update result metric (some v)) := fun v =>
    (Function.comp_update (Option.map (Value.map g)) result metric (some v)).symm
  have hsize : get_bin_size_bytes (disk.map g) so_folder filename =
      get_bin_size_bytes disk so_folder filename := rfl
  simp only [read_metric, Prod.map_apply, hsize]
  split_ifs
  · rcases get_bin_size_bytes disk so_folder filename with _ | size
    · rfl
    · simp [← hupdate, Value.map]
  · have hhead : (mapLines g f).head? = f.head?.map (List.map (Piece.map g)) := List.head?_map
    have htail : (mapLines g f).tail = mapLines g f.tail := List.map_tail.symm
    rw [hhead, htail, float_map]
    rcases float f.head? with _ | x
    · rfl
    · simp [← hupdate, Value.map]

theorem parse_result_from_file_map (disk : Disk Num) (so_folder filename : Bytes) :
    parse_result_from_file (disk.map g) so_folder filename =
      (parse_result_from_file disk so_folder filename).map (Result.map g) := by
  have hlines : (disk.map g).lines filename = (disk.lines filename).map (mapLines g) := rfl
  unfold parse_result_from_file
  rw [hlines]
  rcases disk.lines filename with _ | f
  · rfl
  have hrun := run_map_state (read_metric_map g disk so_folder filename)
    (fun _ => none, f.tail) metrics
  have htail : (mapLines g f).tail = mapLines g f.tail := List.map_tail.symm
  simp only [Option.map_some, Option.bind_eq_bind, Option.bind_some, htail]
  rw [show ((fun _ => none, mapLines g f.tail) : Result Num' × Content Num') =
    Prod.map (Result.map g) (mapLines g) (fun _ => none, f.tail) from rfl, hrun]
  rcases run (read_metric disk so_folder filename) (fun _ => none, f.tail) metrics with _ | ⟨r, f'⟩
  · rfl
  · rfl

theorem book_map (disk : Disk Num) (so_folder folder file : Bytes) (results : Results Num)
    (config : Bytes) : book (disk.map g) so_folder folder file (Results.map g results) config =
      (book disk so_folder folder file results config).map (Results.map g) := by
  unfold book
  simp only [parse_result_from_file_map]
  split_ifs
  · rcases parse_result_from_file disk so_folder (join folder file) with _ | result
    · rfl
    · simp only [Option.map_some, Option.bind_eq_bind, Option.bind_some, Option.pure_def,
        Option.some.injEq]
      funext c w
      by_cases hc : c = config
      · subst hc
        simp only [Results.map, Function.update_self]
        exact (congrFun
          (Function.comp_update (Option.map (Result.map g)) (results c) _ (some result)) w).symm
      · simp only [Results.map, Function.update_of_ne hc]
  · rfl

/-- **Other numbers in the files are read into other numbers in the results.** -/
theorem parse_results_map (disk : Disk Num) (folders : List Bytes) (so_folder : Bytes) :
    parse_results (disk.map g) folders so_folder =
      (parse_results disk folders so_folder).map (Results.map g) := by
  have hfile : ∀ (folder : Bytes) (results : Results Num) (file : Bytes),
      parse_file (disk.map g) so_folder folder (Results.map g results) file =
        (parse_file disk so_folder folder results file).map (Results.map g) :=
    fun folder results file =>
      run_map_state (book_map g disk so_folder folder file) results configurations
  refine run_map_state (φ := Results.map g) (fun results folder => ?_) (fun _ _ => none) folders
  have hlist : (disk.map g).listdir folder = disk.listdir folder := rfl
  rw [parse_folder, parse_folder, hlist]
  rcases disk.listdir folder with _ | files
  · rfl
  · exact run_map_state (hfile folder) results files

end

/-! ### A run that is read back elsewhere -/

/-- A run of the workload `echo_server`. -/
def echo (protection : Bytes) (h : 0 ∉ protection) : Run ℚ :=
  ⟨lit "echo_server", protection, ⟨900, 2500, 120000, 10000000⟩, by decide, h⟩

/-- Two runs of configurations. -/
def configured : Batch ℚ :=
  ⟨lit "results", [echo (lit "stock") (by decide), echo (lit "spectre_hfi_breakout") (by decide)]⟩

theorem results_of_runs_echo :
    ∃ results, parse_results (disk_of configured fun _ => some 4096) [lit "results"]
        (lit "modules") = some results ∧
      results (lit "stock") (lit "echo_server") =
        some (result_of (echo (lit "stock") (by decide)) 4096) := by
  have hold : ∀ b ∈ [configured], (disk_of configured fun _ => some 4096).Holds b := by
    intro b hb
    rw [List.mem_singleton.mp hb]
    exact disk_of_holds (by decide) (by decide) _
  obtain ⟨hfail, hread, -⟩ := results_of_runs (lit "modules") hold
  rcases hp : parse_results (disk_of configured fun _ => some 4096) [lit "results"]
      (lit "modules") with _ | results
  · obtain ⟨r, -, -, hsize⟩ := hfail.mp hp
    simp [disk_of] at hsize
  · exact ⟨results, rfl, hread results hp _ _⟩

/-- A run under `x_stock`, which is no configuration. -/
def unconfigured : Batch ℚ := ⟨lit "results", [echo (lit "x_stock") (by decide)]⟩

/-- **It is booked under `stock`**, as a workload that never ran. -/
theorem unconfigured_booked : (disk_of unconfigured fun _ => some 4096).Holds unconfigured ∧
    lit "x_stock" ∉ configurations ∧
    ∃ results, parse_results (disk_of unconfigured fun _ => some 4096) [lit "results"]
        (lit "modules") = some results ∧
      results (lit "stock") (lit "echo_server_x") =
        some (result_of (echo (lit "x_stock") (by decide)) 4096) := by
  have hold := disk_of_holds (b := unconfigured) (by decide) (by decide) fun _ => some 4096
  refine ⟨hold, by decide, ?_⟩
  have hbatches : ∀ b ∈ [unconfigured], (disk_of unconfigured fun _ => some 4096).Holds b := by
    intro b hb
    rw [List.mem_singleton.mp hb]
    exact hold
  rcases hp : parse_results (disk_of unconfigured fun _ => some 4096) [lit "results"]
      (lit "modules") with _ | results
  · obtain ⟨r, -, -, hsize⟩ := (parse_results_eq_none_iff (lit "modules") hbatches).mp hp
    simp [disk_of] at hsize
  · exact ⟨results, rfl, of_parse_results (lit "modules") hbatches hp _ _⟩

end HfiWebserver.Bench.WrkAnalysis
