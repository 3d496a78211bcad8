import Mathlib.Data.List.TakeWhile
import HfiWebserver.Server.WasmModule

/-! # The wrk scripts

When a benchmark ends, `done` of its wrk script writes what it measured to
`results/<workload>_<protection>.txt`: a heading, the three numbers for machines, one a line, and
the same numbers in words. The six scripts differ in the workload only, which is the name of an
endpoint. A number in a file is the one that was handed to `%g`; what is left of it in the text is
not taken here.

`after_eq` says what the folder `results` holds after any runs: under each name, what the last run
that wrote it left. -/

namespace HfiWebserver.Bench.WrkScripts

open HfiWebserver.Lib.ByteStrings HfiWebserver.Lib.StdPath HfiWebserver.Server.WasmModule

/-! ### The file of a run -/

/-- A part of a line: text, or a number printed by `%g`. -/
inductive Piece (Num : Type)
  | text (s : Bytes)
  | num (x : Num)
  deriving DecidableEq, Repr

def Piece.map {Num Num' : Type} (g : Num → Num') : Piece Num → Piece Num'
  | .text s => .text s
  | .num x => .num (g x)

abbrev Line (Num : Type) := List (Piece Num)

abbrev Content (Num : Type) := List (Line Num)

/-- What wrk hands to `done`: `latency.mean`, `latency:percentile(99.0)`, `summary.requests` and
`summary.duration`, the latter in microseconds. -/
structure Summary (Num : Type) where
  mean : Num
  percentile_99 : Num
  requests : Num
  duration : Num

variable {Num : Type} [Div Num] [Mul Num] [NatCast Num] [LT Num] [DecidableLT Num]

/-- Requests in a second. -/
def throughput (s : Summary Num) : Num := s.requests / s.duration * (1000000 : ℕ)

/-- A latency in words, in the unit of its size. -/
def latency_line (label : Bytes) (lat : Num) : Line Num :=
  if lat < (1000 : ℕ) then [.text label, .num lat, .text (lit " us")]
  else if lat < (1000000 : ℕ) then [.text label, .num (lat / (1000 : ℕ)), .text (lit " ms")]
  else [.text label, .num (lat / (1000000 : ℕ)), .text (lit " s")]

/-- `done` of the script of a workload: the path it opens and the lines it writes. -/
def done (workload protection : Bytes) (s : Summary Num) : Bytes × Content Num :=
  let avg_lat := s.mean
  let tail_lat := s.percentile_99
  let throughput := throughput s
  (lit "results/" ++ workload ++ lit "_" ++ protection ++ lit ".txt",
    [[.text (lit "Machine readable:")], [.num avg_lat], [.num tail_lat], [.num throughput], [],
      latency_line (lit "Avg latency: ") avg_lat,
      latency_line (lit "99% latency: ") tail_lat,
      [.text (lit "Throughput: "), .num throughput, .text (lit " req/s")]])

def echo_server_done : Bytes → Summary Num → Bytes × Content Num := done (lit "echo_server")

def html_template_done : Bytes → Summary Num → Bytes × Content Num := done (lit "html_template")

def jpeg_resize_c_done : Bytes → Summary Num → Bytes × Content Num := done (lit "jpeg_resize_c")

def msghash_check_c_done : Bytes → Summary Num → Bytes × Content Num := done (lit "msghash_check_c")

def tflite_done : Bytes → Summary Num → Bytes × Content Num := done (lit "tflite")

def xml_to_json_done : Bytes → Summary Num → Bytes × Content Num := done (lit "xml_to_json")

/-! ### The folder of the results -/

/-- **A run** of a workload under a protection. The protection is an argument of the process and the
workload part of a script: neither has a NUL. -/
structure Run (Num : Type) where
  workload : Bytes
  protection : Bytes
  summary : Summary Num
  workload_no_nul : 0 ∉ workload
  protection_no_nul : 0 ∉ protection

/-- What `io.open` takes of a name: a C string. -/
def c_string (s : Bytes) : Bytes := s.takeWhile (· ≠ 0)

theorem c_string_eq_self {s : Bytes} (h : 0 ∉ s) : c_string s = s := by
  unfold c_string
  rw [List.takeWhile_eq_self_iff]
  intro c hc
  have : c ≠ 0 := by rintro rfl; exact h hc
  simpa using this

/-- The entry of the folder `results` that `io.open` makes, if the file is one of that folder. -/
def results_entry (path : Bytes) : Option Bytes :=
  match rsplit sep (c_string path) with
  | some (dir, name) => if dir = lit "results" then some name else none
  | none => none

/-- The name of a results file. -/
def txt_name (stem : Bytes) : Bytes := stem ++ lit ".txt"

theorem no_sep_txt_name {stem : Bytes} : sep ∉ txt_name stem ↔ sep ∉ stem := by
  have h : sep ∉ lit ".txt" := by decide
  simp [txt_name, h]

namespace Run

variable (r : Run Num)

/-- The module the run measured. -/
def stem : Bytes := module_name r.workload r.protection

def content : Content Num := (done r.workload r.protection r.summary).2

def entry : Option Bytes := results_entry (done r.workload r.protection r.summary).1

theorem path_eq : (done r.workload r.protection r.summary).1 =
    lit "results" ++ sep :: txt_name r.stem := by
  simp only [done, txt_name, stem, module_name, List.append_assoc]
  rfl

/-- **A run makes the entry of its module**, unless the name has a separator. -/
theorem entry_eq_some_iff {n : Bytes} :
    r.entry = some n ↔ sep ∉ r.stem ∧ n = txt_name r.stem := by
  have hnul : (0 : UInt8) ∉ lit "results" ++ sep :: txt_name r.stem := by
    have h1 : (0 : UInt8) ∉ lit "results" := by decide
    have h2 : (0 : UInt8) ∉ lit "_" := by decide
    have h3 : (0 : UInt8) ∉ lit ".txt" := by decide
    have h4 : (0 : UInt8) ≠ sep := by decide
    simp [txt_name, stem, module_name, h1, h2, h3, h4, r.workload_no_nul, r.protection_no_nul]
  unfold entry results_entry
  rw [r.path_eq, c_string_eq_self hnul]
  constructor
  · intro h
    split at h
    · next dir name hs =>
      obtain ⟨hpath, hname⟩ := rsplit_eq_some_iff.mp hs
      split_ifs at h with hdir
      rw [hdir, List.append_cancel_left_eq, List.cons.injEq] at hpath
      rw [Option.some.injEq] at h
      rw [← h, ← hpath.2]
      exact ⟨no_sep_txt_name.mp (hpath.2 ▸ hname), rfl⟩
    · simp at h
  · rintro ⟨hsep, rfl⟩
    rw [rsplit_append_cons (no_sep_txt_name.mpr hsep)]
    simp

end Run

/-- A folder: the lines of each of its files. -/
abbrev Folder (Num : Type) := Bytes → Option (Content Num)

/-- `io.open(…, "w")` and the writes of `done`. -/
def write (folder : Folder Num) (r : Run Num) : Folder Num :=
  match r.entry with
  | some n => Function.update folder n (some r.content)
  | none => folder

/-- The folder `results`, empty at first, after some runs. -/
def after (runs : List (Run Num)) : Folder Num := runs.foldl write fun _ => none

/-- **Under each name the folder holds what the last run with that name wrote.** -/
theorem after_eq (runs : List (Run Num)) (n : Bytes) :
    after runs n = (runs.reverse.find? fun r => r.entry = some n).map Run.content := by
  induction runs using List.reverseRecOn with
  | nil => rfl
  | append_singleton runs r ih =>
    have hstep : after (runs ++ [r]) n = write (after runs) r n := by
      simp only [after, List.foldl_append, List.foldl_cons, List.foldl_nil]
    rw [hstep, List.reverse_concat]
    rcases he : r.entry with _ | m
    · simp [write, he, ih]
    · by_cases hm : m = n
      · subst hm
        simp [write, he]
      · simp [write, he, hm, Function.update_of_ne (Ne.symm hm), ih]

theorem after_isSome (runs : List (Run Num)) (n : Bytes) :
    (after runs n).isSome = true ↔ ∃ r ∈ runs, r.entry = some n := by
  simp [after_eq]

end HfiWebserver.Bench.WrkScripts
