import HfiWebserver.Lib.OsPath
import HfiWebserver.Server.Handlers

/-! # Which modules are randomised

Two places decide whether a module is an ASLR module: `load_dir` looks for `_aslr` in the file name
of a path, and the handlers look for it in the protection only. A request of a protection with
`_aslr` loads its module again; any other is served from `MODULE_MAP`.

* `contains_file`: `endpoint_protection.so` has an `_aslr` more exactly when the protection starts
  with `aslr`, which completes the separator of the module name;
* `aslr_enabled_file`: the test of `load_dir` on the path of a request sees only what stands after
  the last `/` of the protection;
* `serving_started`: what `MODULE_MAP` and the loads are in every state of the server;
* `aslr_agreement_iff`: the two tests agree on a request unless all `_aslr` of its protection stand
  before a `/`, or its protection starts with `aslr`, has no `_aslr`, and its file was registered.
  The first loads a file without `_aslr` with the flag on, the second is served from a shared ASLR
  module. -/

namespace HfiWebserver.Server.Aslr

open HfiWebserver.Lib.ByteStrings HfiWebserver.Lib.OsPath HfiWebserver.Lib.StdPath
open HfiWebserver.Server.World HfiWebserver.Server.ServiceDirectory
open HfiWebserver.Server.WasmModule HfiWebserver.Server.Handlers

variable {ε : Type}

/-! ### The two tests -/

/-- The file of an endpoint and a protection. -/
def file (e : Endpoint) (p : Bytes) : Bytes := so_name (module_name e.name p)

/-- **Where the file name has `_aslr`**: in the protection, or across the separator. -/
theorem contains_file (e : Endpoint) (p : Bytes) :
    lit "_aslr" <:+: file e p ↔ lit "aslr" <+: p ∨ lit "_aslr" <:+: p := by
  have hfile : file e p = e.name ++ 95 :: (p ++ 46 :: lit "so") := by
    unfold file so_name module_name
    rw [List.append_assoc, List.append_assoc]; rfl
  have hname : ¬ lit "_aslr" <:+: e.name := by cases e <;> decide
  have hso : ¬ lit "_aslr" <:+: lit "so" := by decide
  have hsep : lit "_aslr" <:+: e.name ++ 95 :: (p ++ 46 :: lit "so") ↔ lit "_aslr" <:+: e.name ∨
      lit "aslr" <+: p ++ 46 :: lit "so" ∨ lit "_aslr" <:+: p ++ 46 :: lit "so" :=
    infix_sep_iff (q := lit "aslr") (by decide)
  rw [hfile, hsep, prefix_append_cons_iff (by decide), infix_append_cons_iff (by decide)]
  tauto

/-- The test of `load_dir` on a path. -/
def aslr_enabled (path : Bytes) : Bool :=
  match file_name path with
  | some filename => contains filename (lit "_aslr")
  | none => false

theorem length_so_name (stem : Bytes) : (so_name stem).length = stem.length + 3 := by
  rw [so_name, List.length_append, show (lit ".so").length = 3 by decide]

/-- A file of the module directory. -/
def so_entry (stem : Bytes) (hs : sep ∉ stem) : EntryName where
  name := so_name stem
  ne_nil h := by simpa [h] using length_so_name stem
  no_sep := by
    have hso : sep ∉ lit ".so" := by decide
    simp [so_name, hs, hso]
  ne_dot h := by simpa [h] using length_so_name stem
  ne_dotdot h := by
    have hlen := length_so_name stem
    rw [h, List.length_cons, List.length_singleton] at hlen
    omega

@[simp] theorem so_entry_name (stem : Bytes) (hs : sep ∉ stem) :
    (so_entry stem hs).name = so_name stem := rfl

theorem sep_not_mem_module_name (e : Endpoint) {p : Bytes} :
    sep ∉ module_name e.name p ↔ sep ∉ p := by
  have hname : sep ∉ e.name := by cases e <;> decide
  have h1 : sep ∉ lit "_" := by decide
  simp [module_name, hname, h1]

theorem aslr_enabled_so (dir : Bytes) {stem : Bytes} (hs : sep ∉ stem) :
    aslr_enabled (join dir (so_name stem)) = contains (so_name stem) (lit "_aslr") := by
  have hname : file_name (join dir (so_name stem)) = some (so_name stem) :=
    (so_entry stem hs).file_name_join dir
  simp [aslr_enabled, hname]

/-- **The test of `load_dir` on the path of a request**: without a `/` in the protection it is the
test of the file; with one, only what stands after the last `/` counts. -/
theorem aslr_enabled_file (dir : Bytes) (e : Endpoint) (p : Bytes) :
    aslr_enabled (join dir (file e p)) = true ↔
      (lit "aslr" <+: p ∧ sep ∉ p) ∨ lit "_aslr" <:+: basename p := by
  unfold basename
  rcases hr : rsplit sep p with _ | ⟨a, b⟩
  · have hp := not_mem_of_rsplit_eq_none hr
    have hs := (sep_not_mem_module_name e).mpr hp
    have htest : aslr_enabled (join dir (file e p)) = contains (file e p) (lit "_aslr") :=
      aslr_enabled_so dir hs
    rw [htest, contains_iff, contains_file]
    simp only [hp, not_false_eq_true, and_true]
  · obtain ⟨hp, hb⟩ := rsplit_eq_some_iff.mp hr
    obtain ⟨pre, hjoin⟩ := exists_join_eq dir (file e p)
    have hpath : join dir (file e p) =
        (pre ++ module_name e.name a) ++ sep :: (so_entry b hb).name := by
      rw [hjoin, hp]
      simp [file, so_entry, so_name, module_name]
    have hmem : sep ∈ p := by rw [hp]; simp
    have hso : ¬ lit "_aslr" <:+: lit "so" := by decide
    have hb' : lit "_aslr" <:+: so_name b ↔ lit "_aslr" <:+: b ∨ lit "_aslr" <:+: lit "so" :=
      infix_append_cons_iff (by decide)
    simp only [aslr_enabled, hpath, EntryName.file_name_append_sep, contains_iff]
    simpa [hmem, hso] using hb'

theorem infix_of_infix_basename {s p : Bytes} (h : s <:+: basename p) : s <:+: p := by
  unfold basename at h
  rcases hr : rsplit sep p with _ | ⟨a, b⟩ <;> rw [hr] at h
  · exact h
  · rw [eq_of_rsplit hr]
    exact h.trans ⟨a ++ [sep], [], by simp⟩

theorem infix_basename {s p : Bytes} (hp : sep ∉ p) (h : s <:+: p) : s <:+: basename p := by
  rw [basename, rsplit_eq_none hp]
  exact h

/-! ### The states of the server -/

/-- **The states of a server started on a directory**: after `load_dir`, and after any requests. -/
inductive Serving (rt : Runtime ε) (dir : Bytes)
    (read_dir : Except ε (List (Except ε EntryName))) : Host → Prop
  | start {h : Host} : load_dir rt dir read_dir Host.boot = .ok () h → Serving rt dir read_dir h
  | request {h : Host} (rt' : Runtime ε) (e : Endpoint) (p : Bytes) (input : List Bytes) (b : Bool) :
    Serving rt dir read_dir h →
    Serving rt dir read_dir (outcome (serve rt' dir e p input b h)).2

/-- What holds in every state of a server started on the entries `names`. -/
structure Started (rt : Runtime ε) (dir : Bytes) (names : List EntryName) (h : Host) : Prop where
  not_poisoned : h.module_map.poisoned = false
  found : ∀ k ∈ stems names, Loadable rt dir k → ∃ m, h.module_map.map k = some m ∧
    m.aslr = contains (so_name k) (lit "_aslr") ∧ m.serial < h.loads.length
  absent : ∀ k, ¬ (k ∈ stems names ∧ Loadable rt dir k) → h.module_map.map k = none

theorem Started.of_registryOf {rt : Runtime ε} {dir : Bytes} {names : List EntryName} {h : Host}
    (hr : RegistryOf rt dir (stems names) Host.boot h) : Started rt dir names h := by
  refine ⟨hr.poisoned, fun k hk hload => ?_, fun k hk => hr.kept k hk⟩
  obtain ⟨serial, -, hlt, hmap⟩ := hr.found k hk hload
  exact ⟨_, hmap, rfl, hlt⟩

theorem Started.serve {rt : Runtime ε} {dir : Bytes} {names : List EntryName} {h : Host}
    (hs : Started rt dir names h) (rt' : Runtime ε) (e : Endpoint) (p : Bytes) (input : List Bytes)
    (b : Bool) : Started rt dir names (outcome (serve rt' dir e p input b h)).2 := by
  obtain ⟨hmap, hloads⟩ := serve_host rt' dir e p input b h
  refine ⟨by rw [hmap]; exact hs.not_poisoned, fun k hk hload => ?_, fun k hk => ?_⟩
  · obtain ⟨m, h1, h2, h3⟩ := hs.found k hk hload
    refine ⟨m, by rw [hmap]; exact h1, h2, ?_⟩
    rw [hloads, List.length_append]
    omega
  · rw [hmap]
    exact hs.absent k hk

/-- **Every state of the server.** -/
theorem serving_started {rt : Runtime ε} {dir : Bytes}
    {read_dir : Except ε (List (Except ε EntryName))} {h : Host} (hs : Serving rt dir read_dir h) :
    ∃ names : List EntryName, read_dir = .ok (names.map Except.ok) ∧ Started rt dir names h := by
  induction hs with
  | start hok =>
    obtain ⟨names, hd, -, -, hr⟩ := load_dir_eq_ok hok
    exact ⟨names, hd, .of_registryOf hr⟩
  | request rt' e p input b _ ih =>
    obtain ⟨names, hd, hst⟩ := ih
    exact ⟨names, hd, hst.serve rt' e p input b⟩

/-- **The loads of `load_dir`** have the flag of its test. -/
theorem load_dir_flag {rt : Runtime ε} {dir : Bytes}
    {read_dir : Except ε (List (Except ε EntryName))} {h : Host}
    (hok : load_dir rt dir read_dir Host.boot = .ok () h) :
    ∀ l ∈ h.loads, l.2 = aslr_enabled l.1 := by
  obtain ⟨names, -, -, -, hr⟩ := load_dir_eq_ok hok
  intro l hl
  rw [hr.loads] at hl
  obtain ⟨k, hk, rfl⟩ : ∃ k ∈ stems names, load_call dir k = l := by simpa [Host.boot] using hl
  obtain ⟨n, -, hn⟩ := List.mem_filterMap.mp hk
  have hsep : sep ∉ k := by
    have hname := n.no_sep
    rw [eq_so_name hn, so_name, List.mem_append, not_or] at hname
    exact hname.1
  exact (aslr_enabled_so dir hsep).symm

/-! ### Agreement -/

/-- **The two module-selection paths agree on a request** to a server started on a directory: a
module it obtains was loaded now exactly when the test of `load_dir` finds `_aslr` in its path; one
from `MODULE_MAP` was loaded without the flag; and neither `load_dir` nor the request loads a file
with the flag that the test of `load_dir` rejects. -/
structure Agreement (rt : Runtime ε) (dir : Bytes)
    (read_dir : Except ε (List (Except ε EntryName))) (h : Host) (e : Endpoint) (p : Bytes) :
    Prop where
  loaded : ∀ h₀, load_dir rt dir read_dir Host.boot = .ok () h₀ →
    ∀ l ∈ h₀.loads, l.2 = true → aslr_enabled l.1 = true
  fresh : ∀ (rt' : Runtime ε) m h',
    module_for rt' e.name p (contains p (lit "_aslr")) dir h = .ok m h' →
      (h.loads.length ≤ m.serial ↔ aslr_enabled (join dir (file e p)) = true)
  shared : ∀ (rt' : Runtime ε) m h',
    module_for rt' e.name p (contains p (lit "_aslr")) dir h = .ok m h' →
      m.serial < h.loads.length → m.aslr = false
  flagged : ∀ (rt' : Runtime ε) m h',
    module_for rt' e.name p (contains p (lit "_aslr")) dir h = .ok m h' →
      ∀ l ∈ h'.loads.drop h.loads.length, l.2 = true → aslr_enabled l.1 = true

/-- The directory had the file. -/
def Listed (read_dir : Except ε (List (Except ε EntryName))) (name : Bytes) : Prop :=
  ∃ entries, read_dir = .ok entries ∧ ∃ n : EntryName, .ok n ∈ entries ∧ n.name = name

theorem mem_stems {names : List EntryName} {s : Bytes} (hs : s ≠ []) :
    s ∈ stems names ↔ ∃ n ∈ names, n.name = so_name s := by
  simp only [stems, List.mem_filterMap]
  constructor
  · rintro ⟨n, hn, h⟩
    exact ⟨n, hn, eq_so_name h⟩
  · rintro ⟨n, hn, h⟩
    exact ⟨n, hn, by rw [h, so_stem_so_name hs]⟩

theorem module_name_ne_nil (e : Endpoint) (p : Bytes) : module_name e.name p ≠ [] := by
  have hname : e.name ≠ [] := by cases e <;> decide
  simp [module_name, hname]

theorem listed_iff {names : List EntryName} (e : Endpoint) (p : Bytes) :
    Listed (.ok (names.map Except.ok) : Except ε _) (file e p) ↔
      module_name e.name p ∈ stems names := by
  rw [mem_stems (module_name_ne_nil e p)]
  simp [Listed, file]

section

variable {rt : Runtime ε} {dir : Bytes} {names : List EntryName} {h : Host}
  (hs : Started rt dir names h) (e : Endpoint) (p : Bytes)

/-- What a request of a protection with `_aslr` obtains and loads. -/
theorem module_for_of_contains (hp : lit "_aslr" <:+: p) {rt' : Runtime ε} {m : DlModule}
    {h' : Host} (hm : module_for rt' e.name p (contains p (lit "_aslr")) dir h = .ok m h') :
    m.serial = h.loads.length ∧ h'.loads = h.loads ++ [(join dir (file e p), true)] := by
  rw [contains_iff.mpr hp, module_for_aslr] at hm
  rcases hl : rt'.load_aslr (aslr_path e.name p dir) true with x | u <;> rw [hl] at hm
  · simp at hm
  · cases hm
    exact ⟨rfl, rfl⟩

/-- A protection with `_aslr`: the module is loaded now, with the flag. -/
theorem agreement_iff_of_contains (rt : Runtime ε)
    (read_dir : Except ε (List (Except ε EntryName))) (hp : lit "_aslr" <:+: p) :
    Agreement rt dir read_dir h e p ↔ lit "_aslr" <:+: basename p := by
  constructor
  · intro hA
    by_cases hsep : sep ∈ p
    · -- a runtime that loads every file
      let rt' : Runtime ε := { rt with load_aslr := fun _ _ => .ok () }
      obtain ⟨m, h', hm, hserial⟩ : ∃ m h',
          module_for rt' e.name p (contains p (lit "_aslr")) dir h = .ok m h' ∧
            m.serial = h.loads.length := by
        rw [contains_iff.mpr hp, module_for_aslr]
        exact ⟨_, _, rfl, rfl⟩
      have htest := (hA.fresh rt' m h' hm).mp hserial.ge
      exact ((aslr_enabled_file dir e p).mp htest).resolve_left fun hc => hc.2 hsep
    · exact infix_basename hsep hp
  · intro hb
    have htest : aslr_enabled (join dir (file e p)) = true :=
      (aslr_enabled_file dir e p).mpr (Or.inr hb)
    refine ⟨fun h₀ hok l hl hflag => load_dir_flag hok l hl ▸ hflag, fun rt' m h' hm => ?_,
      fun rt' m h' hm hlt => ?_, fun rt' m h' hm l hl _ => ?_⟩
    · obtain ⟨hserial, -⟩ := module_for_of_contains e p hp hm
      simp [hserial, htest]
    · obtain ⟨hserial, -⟩ := module_for_of_contains e p hp hm
      omega
    · obtain ⟨-, hloads⟩ := module_for_of_contains e p hp hm
      rw [hloads, List.drop_left, List.mem_singleton] at hl
      rw [hl]
      exact htest

include hs

/-- A protection without `_aslr`: the module is the registered one. -/
theorem module_for_of_not (hp : ¬ lit "_aslr" <:+: p) (rt' : Runtime ε) :
    module_for rt' e.name p (contains p (lit "_aslr")) dir h =
      match h.module_map.map (module_name e.name p) with
      | some m => .ok m h
      | none => .error (.panic (.get_failed (module_name e.name p))) h := by
  have hc : contains p (lit "_aslr") = false := by simpa [contains] using hp
  rw [hc, module_for_registry, hs.not_poisoned]
  rfl

theorem registered_of_module_for (hp : ¬ lit "_aslr" <:+: p) {rt' : Runtime ε} {m : DlModule}
    {h' : Host} (hm : module_for rt' e.name p (contains p (lit "_aslr")) dir h = .ok m h') :
    (module_name e.name p ∈ stems names ∧ Loadable rt dir (module_name e.name p)) ∧ h' = h ∧
      m.aslr = contains (file e p) (lit "_aslr") ∧ m.serial < h.loads.length := by
  rw [module_for_of_not hs e p hp] at hm
  by_cases hk : module_name e.name p ∈ stems names ∧ Loadable rt dir (module_name e.name p)
  · obtain ⟨m', h1, h2, h3⟩ := hs.found _ hk.1 hk.2
    rw [h1] at hm
    cases hm
    exact ⟨hk, rfl, h2, h3⟩
  · rw [hs.absent _ hk] at hm
    simp at hm

/-- A protection without `_aslr`: the file is shared, unless it was not registered. -/
theorem agreement_iff_of_not (read_dir : Except ε (List (Except ε EntryName)))
    (hp : ¬ lit "_aslr" <:+: p) : Agreement rt dir read_dir h e p ↔
      (lit "aslr" <+: p →
        ¬ (module_name e.name p ∈ stems names ∧ Loadable rt dir (module_name e.name p))) := by
  constructor
  · intro hA ha hk
    obtain ⟨m, h1, h2, h3⟩ := hs.found _ hk.1 hk.2
    have haslr := hA.shared rt m h (by rw [module_for_of_not hs e p hp, h1]) h3
    have hfile : contains (file e p) (lit "_aslr") = true :=
      contains_iff.mpr ((contains_file e p).mpr (Or.inl ha))
    rw [h2] at haslr
    exact absurd hfile (by simp [show contains (file e p) (lit "_aslr") = false from haslr])
  · intro ha
    -- a module is obtained only when the protection does not start with `aslr`
    have hnot : ∀ {rt' : Runtime ε} {m : DlModule} {h' : Host},
        module_for rt' e.name p (contains p (lit "_aslr")) dir h = .ok m h' →
          ¬ lit "aslr" <+: p :=
      fun hm hc => ha hc (registered_of_module_for hs e p hp hm).1
    refine ⟨fun h₀ hok l hl hflag => load_dir_flag hok l hl ▸ hflag, fun rt' m h' hm => ?_,
      fun rt' m h' hm _ => ?_, fun rt' m h' hm l hl _ => ?_⟩
    · obtain ⟨-, -, -, hlt⟩ := registered_of_module_for hs e p hp hm
      have htest : ¬ aslr_enabled (join dir (file e p)) = true := by
        rw [aslr_enabled_file]
        rintro (⟨hc, -⟩ | hb)
        · exact hnot hm hc
        · exact hp (infix_of_infix_basename hb)
      exact iff_of_false (by omega) htest
    · obtain ⟨-, -, haslr, -⟩ := registered_of_module_for hs e p hp hm
      rw [haslr]
      simpa [contains, hp, hnot hm] using (contains_file e p).not
    · obtain ⟨-, rfl, -, -⟩ := registered_of_module_for hs e p hp hm
      simp at hl

end

/-- **The two paths agree exactly on the requests whose protection has its `_aslr`, if any, after
its last `/`, and does not start with `aslr` unless it has `_aslr` or no registered file.** -/
theorem aslr_agreement_iff {rt : Runtime ε} {dir : Bytes}
    {read_dir : Except ε (List (Except ε EntryName))} {h : Host} (hs : Serving rt dir read_dir h)
    (e : Endpoint) (p : Bytes) :
    Agreement rt dir read_dir h e p ↔
      (lit "_aslr" <:+: p → lit "_aslr" <:+: basename p) ∧
      (lit "aslr" <+: p → lit "_aslr" <:+: p ∨
        ¬ (Listed read_dir (file e p) ∧ Loadable rt dir (module_name e.name p))) := by
  obtain ⟨names, rfl, hst⟩ := serving_started hs
  by_cases hp : lit "_aslr" <:+: p
  · rw [agreement_iff_of_contains e p rt _ hp]
    simp [hp]
  · rw [agreement_iff_of_not hst e p _ hp, listed_iff]
    simp [hp]

/-! ### Requests on which they do not agree -/

/-- The entry of `fib_c` with the protection `aslr`. -/
def fibAslr : EntryName :=
  ⟨lit "fib_c_aslr.so", by decide, by decide, by decide, by decide⟩

theorem load_dir_fibAslr : load_dir (obliging someGuest) (lit "modules")
    (.ok [.ok fibAslr]) Host.boot =
      .ok () (register (obliging someGuest) (lit "modules") Host.boot (lit "fib_c_aslr")) := by
  have hr : ∀ n ∈ [fibAslr], Readable n := by
    intro n hn s _
    rw [List.mem_singleton.mp hn]
    decide
  exact load_dir_of_readable _ _ hr rfl

/-- A shared ASLR module, and a file without `_aslr` loaded with the flag. -/
theorem aslr_agreement_shared : ∃ h, load_dir (obliging someGuest) (lit "modules")
    (.ok [.ok fibAslr]) Host.boot = .ok () h ∧
      ¬ Agreement (obliging someGuest) (lit "modules") (.ok [.ok fibAslr]) h .fib_c (lit "aslr") ∧
      ¬ Agreement (obliging someGuest) (lit "modules") (.ok [.ok fibAslr]) h .fib_c
        (lit "_aslr/../echo_server_stock") := by
  refine ⟨_, load_dir_fibAslr, ?_, ?_⟩
  · obtain ⟨names, hn, hst⟩ := serving_started (.start load_dir_fibAslr)
    have hnames : names = [fibAslr] := by simpa using hn.symm
    have hmem : module_name Endpoint.fib_c.name (lit "aslr") ∈ stems names := by
      rw [mem_stems (by decide)]
      exact ⟨fibAslr, by simp [hnames], rfl⟩
    rw [agreement_iff_of_not hst .fib_c _ _ (by decide)]
    exact fun hc => hc (by decide) ⟨hmem, rfl⟩
  · rw [agreement_iff_of_contains .fib_c _ _ _ (by decide)]
    decide

theorem aslr_agreement_iff_fib :
    Agreement (obliging someGuest) (lit "modules") (.ok [.ok fibAslr])
      (register (obliging someGuest) (lit "modules") Host.boot (lit "fib_c_aslr")) .fib_c
      (lit "stock_aslr") :=
  (aslr_agreement_iff (.start load_dir_fibAslr) .fib_c _).mpr
    ⟨fun _ => by decide, fun _ => Or.inl (by decide)⟩

end HfiWebserver.Server.Aslr
