import HfiWebserver.Lib.StdPath
import HfiWebserver.Server.World

/-! # The module registry

`load_dir` loads every `.so` file of the module directory into `MODULE_MAP`, under its file stem,
with the ASLR flag when its name contains `_aslr`; `get_module` looks a name up.

`load_dir_eq_ok` says what a successful run did (`RegistryOf`): the loads it made are the `.so`
entries with their own flags, and `MODULE_MAP` holds, at each stem whose `.so` entry loaded, a
module loaded from that entry in this run, and is unchanged elsewhere. -/

namespace HfiWebserver.Server.ServiceDirectory

open HfiWebserver.Lib.ByteStrings HfiWebserver.Lib.StdPath HfiWebserver.Server.Hostcalls
open HfiWebserver.Server.World

variable {ε : Type}

/-- `MODULE_MAP.write().unwrap()` and `MODULE_MAP.read().unwrap()`. -/
def lock : Rust ε ModuleMap := do
  let h ← get
  if h.module_map.poisoned then panic .poisoned else pure h.module_map

@[simp] theorem lock_apply (h : Host) : (lock : Rust ε ModuleMap) h =
    if h.module_map.poisoned then .error (.panic .poisoned) h else .ok h.module_map h := by
  simp only [lock, bind_apply, get_apply]
  split <;> rfl

/-- A panic while the write guard is held poisons the lock. -/
def with_write_guard (body : Rust ε Unit) : Rust ε Unit := fun h =>
  match body h with
  | .error (.panic p) h' =>
    .error (.panic p) { h' with module_map := { h'.module_map with poisoned := true } }
  | r => r

/-- `mapg.insert`. -/
def insert (name : Bytes) (m : DlModule) : Rust ε Unit := modify fun h =>
  { h with module_map :=
    { h.module_map with map := Function.update h.module_map.map name (some m) } }

/-- `to_str` with `unwrap` or `expect`. -/
def to_str (name : Bytes) : Rust ε Bytes :=
  if Valid name then pure name else panic (.not_utf8 name)

/-- One iteration of the loop of `load_dir`. -/
def load_entry (rt : Runtime ε) (dir : Bytes) (entry : Except ε EntryName) : Rust ε Unit := do
  let entry ← try_ entry
  let file := join dir entry.name
  match extension file, file_name file with
  | some ext, some filename =>
    if ext = lit "so" then do
      let aslr_enabled := contains (← to_str filename) (lit "_aslr")
      match ← load_aslr rt file aslr_enabled with
      | .ok dl_module =>
        match file_stem file with
        | none => panic .no_stem
        | some stem => do
          let basename ← to_str stem
          insert basename dl_module
      | .error _ =>
        -- prints the file name, whose `to_str` succeeded above
        pure ()
    else pure ()
  | _, _ => pure ()

/-- `load_dir` on what `read_dir` answers. -/
def load_dir (rt : Runtime ε) (dir : Bytes)
    (read_dir : Except ε (List (Except ε EntryName))) : Rust ε Unit := do
  let _mapg ← lock
  with_write_guard do
    let entries ← try_ read_dir
    forM entries (load_entry rt dir)

/-- `get_module`. -/
def get_module (name : Bytes) : Rust ε (Option DlModule) := do
  let mapg ← lock
  pure (mapg.map name)

theorem get_module_apply (name : Bytes) {h : Host} (hp : h.module_map.poisoned = false) :
    (get_module name : Rust ε _) h = .ok (h.module_map.map name) h := by
  simp [get_module, hp]

/-! ### One entry -/

/-- The name of the file of a module. -/
def so_name (stem : Bytes) : Bytes := stem ++ lit ".so"

/-- The stem of a name with the extension `so`. -/
def so_stem (name : Bytes) : Option Bytes :=
  match rsplit_file_at_dot name with
  | (some stem, some ext) => if ext = lit "so" then some stem else none
  | _ => none

theorem so_stem_so_name {s : Bytes} (hs : s ≠ []) : so_stem (so_name s) = some s := by
  have h : rsplit_file_at_dot (so_name s) = (some s, some (lit "so")) :=
    rsplit_file_at_dot_append hs (by decide) (by decide)
  simp [so_stem, h]

theorem rsplit_of_so_stem {name s : Bytes} (h : so_stem name = some s) :
    rsplit_file_at_dot name = (some s, some (lit "so")) := by
  unfold so_stem at h
  split at h
  · next stem ext hr =>
    split_ifs at h with he
    cases h
    rw [hr, he]
  · simp at h

theorem eq_so_name {name s : Bytes} (h : so_stem name = some s) : name = so_name s := by
  have hr := rsplit_of_so_stem h
  obtain ⟨t, -, ht, hs⟩ := eq_of_extension (f := name) (e := lit "so") (by rw [hr]; rfl)
  rw [hr, Option.some.injEq] at hs
  rw [ht, ← hs]; rfl

/-- The path and the flag with which the file of a stem is loaded. -/
def load_call (dir stem : Bytes) : Bytes × Bool :=
  (join dir (so_name stem), contains (so_name stem) (lit "_aslr"))

/-- What loading the file of a stem leaves: one more load, and the module if it succeeded. -/
def register (rt : Runtime ε) (dir : Bytes) (h : Host) (stem : Bytes) : Host :=
  { h with
    loads := h.loads ++ [load_call dir stem]
    module_map := { h.module_map with
      map := match rt.load_aslr (load_call dir stem).1 (load_call dir stem).2 with
        | .ok _ => Function.update h.module_map.map stem
            (some ⟨(load_call dir stem).1, (load_call dir stem).2, h.loads.length⟩)
        | .error _ => h.module_map.map } }

theorem load_entry_error (rt : Runtime ε) (dir : Bytes) (e : ε) (h : Host) :
    load_entry rt dir (.error e) h = .error (.err (.external e)) h := by
  simp [load_entry]

theorem load_entry_other (rt : Runtime ε) (dir : Bytes) {n : EntryName}
    (hn : so_stem n.name = none) (h : Host) : load_entry rt dir (.ok n) h = .ok () h := by
  have he : extension (join dir n.name) ≠ some (lit "so") := by
    intro he
    rw [n.extension_join] at he
    obtain ⟨s, hs, hname, -⟩ := eq_of_extension he
    have : n.name = so_name s := hname
    rw [this, so_stem_so_name hs] at hn
    exact absurd hn (by simp)
  simp only [load_entry, bind_apply, try_ok, n.file_name_join]
  rcases hx : extension (join dir n.name) with _ | ext
  · rfl
  · have hne : ext ≠ lit "so" := fun h' => he (by rw [hx, h'])
    simp only [if_neg hne, pure_apply]

theorem load_entry_so (rt : Runtime ε) (dir : Bytes) {n : EntryName} {s : Bytes}
    (hn : so_stem n.name = some s) (hv : Valid n.name) (h : Host) :
    load_entry rt dir (.ok n) h = .ok () (register rt dir h s) := by
  have hname := eq_so_name hn
  have hr := rsplit_of_so_stem hn
  have hvs : Valid s := by
    rw [hname] at hv
    exact hv.of_append (by decide)
  have hl : load_call dir s = (join dir n.name, contains n.name (lit "_aslr")) := by
    rw [load_call, hname]
  rcases hload : rt.load_aslr (join dir n.name) (contains n.name (lit "_aslr")) with e | u
  all_goals simp [load_entry, hr, to_str, hv, hvs, load_aslr, insert, register, hl, hload,
    Except.map]

theorem load_entry_invalid (rt : Runtime ε) (dir : Bytes) {n : EntryName} {s : Bytes}
    (hn : so_stem n.name = some s) (hv : ¬ Valid n.name) (h : Host) :
    load_entry rt dir (.ok n) h = .error (.panic (.not_utf8 n.name)) h := by
  have hr := rsplit_of_so_stem hn
  simp [load_entry, hr, to_str, hv]

/-! ### The directory -/

/-- An entry on which the loop goes on: it could be read and, if it is a `.so` file, its name is
UTF-8. -/
def Readable (n : EntryName) : Prop := ∀ s, so_stem n.name = some s → Valid n.name

/-- The stems of the `.so` files. -/
def stems (names : List EntryName) : List Bytes := names.filterMap fun n => so_stem n.name

theorem stems_cons (n : EntryName) (names : List EntryName) :
    stems (n :: names) = (so_stem n.name).toList ++ stems names := by
  rcases hs : so_stem n.name with _ | s <;> simp [stems, hs]

theorem forM_load_entry (rt : Runtime ε) (dir : Bytes) :
    ∀ (names : List EntryName) (h : Host), (∀ n ∈ names, Readable n) →
      forM (names.map Except.ok) (load_entry rt dir) h =
        .ok () ((stems names).foldl (register rt dir) h)
  | [], h, _ => rfl
  | n :: names, h, hr => by
    rw [List.map_cons, List.forM_cons, bind_apply]
    have ih := fun h => forM_load_entry rt dir names h fun m hm => hr m (by simp [hm])
    rw [stems_cons]
    rcases hs : so_stem n.name with _ | s
    · rw [load_entry_other rt dir hs]
      exact ih h
    · rw [load_entry_so rt dir hs (hr n (by simp) s hs)]
      exact ih _

/-- The loop ends with `Ok` only on readable entries. -/
theorem of_forM_load_entry (rt : Runtime ε) (dir : Bytes) :
    ∀ (entries : List (Except ε EntryName)) (h h' : Host),
      forM entries (load_entry rt dir) h = .ok () h' →
        ∃ names : List EntryName, entries = names.map Except.ok ∧ ∀ n ∈ names, Readable n
  | [], h, h', _ => ⟨[], rfl, by simp⟩
  | .error e :: entries, h, h', hf => by
    rw [List.forM_cons, bind_apply, load_entry_error] at hf
    exact absurd hf (by simp)
  | .ok n :: entries, h, h', hf => by
    rw [List.forM_cons, bind_apply] at hf
    suffices key : Readable n ∧ ∃ h1, forM entries (load_entry rt dir) h1 = .ok () h' by
      obtain ⟨hn, h1, h2⟩ := key
      obtain ⟨names, rfl, hr⟩ := of_forM_load_entry rt dir entries h1 h' h2
      exact ⟨n :: names, rfl, by simpa using ⟨hn, hr⟩⟩
    rcases hs : so_stem n.name with _ | s
    · rw [load_entry_other rt dir hs] at hf
      exact ⟨fun s hs' => by rw [hs] at hs'; simp at hs', h, hf⟩
    · by_cases hv : Valid n.name
      · rw [load_entry_so rt dir hs hv] at hf
        exact ⟨fun _ _ => hv, _, hf⟩
      · rw [load_entry_invalid rt dir hs hv] at hf
        exact absurd hf (by simp)

/-! ### The registry -/

/-- `DlModule::load_aslr` loads the file of a stem. -/
def Loadable (rt : Runtime ε) (dir stem : Bytes) : Prop :=
  rt.load_aslr (load_call dir stem).1 (load_call dir stem).2 = .ok ()

/-- **What the `.so` files with the stems `ss`, in this order, did to the state**: `MODULE_MAP`
holds at the stems of the loadable ones a module loaded now, and nothing else changed. -/
structure RegistryOf (rt : Runtime ε) (dir : Bytes) (ss : List Bytes) (h h' : Host) : Prop where
  loads : h'.loads = h.loads ++ ss.map (load_call dir)
  found : ∀ k ∈ ss, Loadable rt dir k → ∃ serial, h.loads.length ≤ serial ∧
    serial < h'.loads.length ∧
    h'.module_map.map k = some ⟨(load_call dir k).1, (load_call dir k).2, serial⟩
  kept : ∀ k, ¬ (k ∈ ss ∧ Loadable rt dir k) → h'.module_map.map k = h.module_map.map k
  poisoned : h'.module_map.poisoned = h.module_map.poisoned
  current_result : h'.current_result = h.current_result
  runs : h'.runs = h.runs

section

variable (rt : Runtime ε) (dir : Bytes) (h : Host) (s : Bytes)

theorem register_map_self (hs : Loadable rt dir s) : (register rt dir h s).module_map.map s =
    some ⟨(load_call dir s).1, (load_call dir s).2, h.loads.length⟩ := by
  have hl : rt.load_aslr (load_call dir s).1 (load_call dir s).2 = .ok () := hs
  simp [register, hl]

theorem register_map_of_ne {k : Bytes} (hk : k ≠ s) :
    (register rt dir h s).module_map.map k = h.module_map.map k := by
  rcases hl : rt.load_aslr (load_call dir s).1 (load_call dir s).2 with e | u
  · simp [register, hl]
  · simp [register, hl, Function.update_of_ne hk]

theorem register_map_of_not (hs : ¬ Loadable rt dir s) :
    (register rt dir h s).module_map.map = h.module_map.map := by
  rcases hl : rt.load_aslr (load_call dir s).1 (load_call dir s).2 with e | u
  · simp [register, hl]
  · exact absurd hl hs

end

theorem registryOf_foldl (rt : Runtime ε) (dir : Bytes) :
    ∀ (ss : List Bytes) (h : Host), RegistryOf rt dir ss h (ss.foldl (register rt dir) h)
  | [], h => ⟨by simp, by simp, fun _ _ => rfl, rfl, rfl, rfl⟩
  | s :: ss, h => by
    have ih := registryOf_foldl rt dir ss (register rt dir h s)
    have hloads : (register rt dir h s).loads = h.loads ++ [load_call dir s] := rfl
    have hlen : (register rt dir h s).loads.length = h.loads.length + 1 := by simp [hloads]
    refine ⟨?_, ?_, ?_, ih.poisoned, ih.current_result, ih.runs⟩
    · rw [List.foldl_cons, ih.loads, hloads]
      simp
    · intro k hk hload
      by_cases hks : k ∈ ss
      · obtain ⟨serial, h1, h2, h3⟩ := ih.found k hks hload
        exact ⟨serial, by omega, h2, h3⟩
      · obtain rfl : k = s := by simpa [hks] using hk
        refine ⟨h.loads.length, le_rfl, ?_, ?_⟩
        · rw [List.foldl_cons, ih.loads, List.length_append]
          omega
        · rw [List.foldl_cons, ih.kept k (fun hc => hks hc.1)]
          exact register_map_self rt dir h k hload
    · intro k hk
      rw [List.foldl_cons, ih.kept k fun hc => hk ⟨by simp [hc.1], hc.2⟩]
      by_cases hks : k = s
      · subst hks
        rw [register_map_of_not rt dir h k fun hl => hk ⟨by simp, hl⟩]
      · exact register_map_of_ne rt dir h s hks

theorem with_write_guard_ok {body : Rust ε Unit} {h h' : Host} :
    with_write_guard body h = .ok () h' ↔ body h = .ok () h' := by
  unfold with_write_guard
  rcases body h with ⟨u, h1⟩ | ⟨e | p, h1⟩ <;> simp

/-- On readable entries `load_dir` ends with `Ok`. -/
theorem load_dir_of_readable (rt : Runtime ε) (dir : Bytes) {names : List EntryName} {h : Host}
    (hr : ∀ n ∈ names, Readable n) (hp : h.module_map.poisoned = false) :
    load_dir rt dir (.ok (names.map Except.ok)) h =
      .ok () ((stems names).foldl (register rt dir) h) := by
  simp only [load_dir, bind_apply, lock_apply, hp, Bool.false_eq_true, if_false]
  rw [with_write_guard_ok, bind_apply, try_ok]
  exact forM_load_entry rt dir names h hr

/-- **What a successful `load_dir` did**: every entry could be read, and the `.so` files were
registered in the order of the enumeration. -/
theorem load_dir_eq_ok {rt : Runtime ε} {dir : Bytes}
    {read_dir : Except ε (List (Except ε EntryName))} {h h' : Host}
    (hok : load_dir rt dir read_dir h = .ok () h') :
    ∃ names : List EntryName, read_dir = .ok (names.map Except.ok) ∧
      (∀ n ∈ names, Readable n) ∧ h.module_map.poisoned = false ∧
      RegistryOf rt dir (stems names) h h' := by
  have hp : h.module_map.poisoned = false := by
    rcases hp : h.module_map.poisoned with _ | _
    · rfl
    · simp [load_dir, hp] at hok
  rcases read_dir with e | entries
  · simp [load_dir, hp, with_write_guard] at hok
  · obtain ⟨names, rfl, hr⟩ : ∃ names : List EntryName, entries = names.map Except.ok ∧
        ∀ n ∈ names, Readable n := by
      simp only [load_dir, bind_apply, lock_apply, hp, Bool.false_eq_true, if_false] at hok
      rw [with_write_guard_ok, bind_apply, try_ok] at hok
      exact of_forM_load_entry rt dir entries h h' hok
    rw [load_dir_of_readable rt dir hr hp, EStateM.Result.ok.injEq] at hok
    exact ⟨names, rfl, hr, hp, hok.2 ▸ registryOf_foldl rt dir (stems names) h⟩

end HfiWebserver.Server.ServiceDirectory
