import HfiWebserver.Server.ServiceDirectory

/-! # Building the registry from any directory

A directory may hold names of any kind, and `read_dir` lists them in any order. A file is registered
when it is called after its key, the name is UTF-8, and it can be loaded (`Registered`): no two
files of a directory have one key, so the order does not matter.

Only a `.so` file whose name is not UTF-8 stops the loop: the conversion of its name is unwrapped,
which panics under the write lock. `load_dir_spec` is the whole of `load_dir` on a directory that
can be read. -/

namespace HfiWebserver.Server.Registration

open HfiWebserver.Lib.ByteStrings HfiWebserver.Lib.StdPath HfiWebserver.Server.World
open HfiWebserver.Server.ServiceDirectory

variable {ε : Type}

/-! ### Keys -/

theorem so_stem_eq_some_iff {name k : Bytes} :
    so_stem name = some k ↔ name = so_name k ∧ k ≠ [] := by
  constructor
  · intro h
    obtain ⟨s, hs, -, hstem⟩ := eq_of_extension (f := name) (e := lit "so")
      (by rw [rsplit_of_so_stem h]; rfl)
    rw [rsplit_of_so_stem h, Option.some.injEq] at hstem
    exact ⟨eq_so_name h, hstem ▸ hs⟩
  · rintro ⟨rfl, hk⟩
    exact so_stem_so_name hk

theorem entry_eq {n n' : EntryName} (h : n.name = n'.name) : n = n' := by
  cases n
  cases n'
  cases h
  rfl

/-- **No two entries have one key.** -/
theorem entry_of_key {n n' : EntryName} {k : Bytes} (hn : so_stem n.name = some k)
    (hn' : so_stem n'.name = some k) : n = n' :=
  entry_eq ((eq_so_name hn).trans (eq_so_name hn').symm)

/-- A key that `load_dir` registers: its `.so` file is there, under a name that is UTF-8, and can be
loaded. -/
def Registered (rt : Runtime ε) (dir : Bytes) (names : List EntryName) (k : Bytes) : Prop :=
  k ≠ [] ∧ (∃ n ∈ names, n.name = so_name k ∧ Valid n.name) ∧
    rt.load_aslr (join dir (so_name k)) (contains (so_name k) (lit "_aslr")) = .ok ()

theorem registered_iff {rt : Runtime ε} {dir : Bytes} {names : List EntryName}
    (hr : ∀ n ∈ names, Readable n) (k : Bytes) :
    Registered rt dir names k ↔ k ∈ stems names ∧ Loadable rt dir k := by
  rw [stems, List.mem_filterMap]
  constructor
  · rintro ⟨hk, ⟨n, hn, hname, -⟩, hload⟩
    exact ⟨⟨n, hn, so_stem_eq_some_iff.mpr ⟨hname, hk⟩⟩, hload⟩
  · rintro ⟨⟨n, hn, hs⟩, hload⟩
    obtain ⟨hname, hk⟩ := so_stem_eq_some_iff.mp hs
    exact ⟨hk, ⟨n, hn, hname, hr n hn k hs⟩, hload⟩

theorem registered_perm {rt : Runtime ε} {dir : Bytes} {names names' : List EntryName}
    (hp : names.Perm names') (k : Bytes) :
    Registered rt dir names k ↔ Registered rt dir names' k := by
  simp only [Registered, hp.mem_iff]

/-! ### The panics -/

/-- A `.so` file whose name is not UTF-8 stops the loop. -/
theorem forM_load_entry_panics (rt : Runtime ε) (dir : Bytes) :
    ∀ (names : List EntryName) (h : Host), (∃ n ∈ names, ¬ Readable n) →
      ∃ n ∈ names, ∃ h', forM (names.map Except.ok) (load_entry rt dir) h =
        .error (.panic (.not_utf8 n.name)) h'
  | [], h, hbad => by simp at hbad
  | n :: names, h, hbad => by
    rw [List.map_cons, List.forM_cons, bind_apply]
    by_cases hr : Readable n
    · have hrest : ∃ m ∈ names, ¬ Readable m := by
        obtain ⟨m, hm, hbad⟩ := hbad
        rcases List.mem_cons.mp hm with rfl | hm
        · exact absurd hr hbad
        · exact ⟨m, hm, hbad⟩
      have hstep : ∃ h1, load_entry rt dir (.ok n) h = .ok () h1 := by
        rcases hs : so_stem n.name with _ | s
        · exact ⟨_, load_entry_other rt dir hs h⟩
        · exact ⟨_, load_entry_so rt dir hs (hr s hs) h⟩
      obtain ⟨h1, h1eq⟩ := hstep
      obtain ⟨m, hm, h', hpanic⟩ := forM_load_entry_panics rt dir names h1 hrest
      exact ⟨m, List.mem_cons_of_mem n hm, h', by rw [h1eq]; exact hpanic⟩
    · unfold Readable at hr
      push Not at hr
      obtain ⟨s, hs, hv⟩ := hr
      exact ⟨n, List.mem_cons_self, h, by rw [load_entry_invalid rt dir hs hv]⟩

/-- **When `load_dir` panics** on a directory that can be read; it leaves a poisoned lock. -/
theorem load_dir_panics (rt : Runtime ε) (dir : Bytes) {names : List EntryName} {h : Host}
    (hbad : ¬ (h.module_map.poisoned = false ∧ ∀ n ∈ names, Readable n)) :
    ∃ p h', load_dir rt dir (.ok (names.map Except.ok)) h = .error (.panic p) h' ∧
      h'.module_map.poisoned = true := by
  rcases hp : h.module_map.poisoned with _ | _
  · have hn : ∃ n ∈ names, ¬ Readable n := by
      by_contra hno
      push Not at hno
      exact hbad ⟨hp, hno⟩
    obtain ⟨n, -, h', hpanic⟩ := forM_load_entry_panics rt dir names h hn
    refine ⟨.not_utf8 n.name,
      { h' with module_map := { h'.module_map with poisoned := true } }, ?_, rfl⟩
    simp [load_dir, hp, with_write_guard, hpanic]
  · exact ⟨.poisoned, h, by simp [load_dir, hp], hp⟩

/-! ### The registry -/

/-- **The registry after a directory**: at every registered key the module of its file, loaded now
and with the flag of the file's name; at every other key what was there; and no look-up panics. -/
structure Registry (rt : Runtime ε) (dir : Bytes) (names : List EntryName) (h h' : Host) :
    Prop where
  found : ∀ k, Registered rt dir names k → ∃ serial, h.loads.length ≤ serial ∧
    h'.module_map.map k =
      some ⟨join dir (so_name k), contains (so_name k) (lit "_aslr"), serial⟩
  kept : ∀ k, ¬ Registered rt dir names k → h'.module_map.map k = h.module_map.map k
  get_module_eq : ∀ k, (get_module k : Rust ε _) h' = .ok (h'.module_map.map k) h'

/-- `load_dir_eq_ok` on a directory that can be read. -/
theorem load_dir_names_eq_ok {rt : Runtime ε} {dir : Bytes} {names : List EntryName} {h h' : Host}
    (hok : load_dir rt dir (.ok (names.map Except.ok)) h = .ok () h') :
    h.module_map.poisoned = false ∧ (∀ n ∈ names, Readable n) ∧
      RegistryOf rt dir (stems names) h h' := by
  obtain ⟨names', heq, hr, hp, hreg⟩ := load_dir_eq_ok hok
  have hnames : names = names' :=
    List.map_injective_iff.mpr (fun _ _ h => Except.ok.inj h) (Except.ok.inj heq)
  subst hnames
  exact ⟨hp, hr, hreg⟩

theorem registry_of_ok {rt : Runtime ε} {dir : Bytes} {names : List EntryName} {h h' : Host}
    (hok : load_dir rt dir (.ok (names.map Except.ok)) h = .ok () h') :
    Registry rt dir names h h' := by
  obtain ⟨hp, hr, hreg⟩ := load_dir_names_eq_ok hok
  refine ⟨fun k hk => ?_, fun k hk => ?_, fun k => ?_⟩
  · obtain ⟨hmem, hload⟩ := (registered_iff hr k).mp hk
    obtain ⟨serial, hge, -, hmap⟩ := hreg.found k hmem hload
    exact ⟨serial, hge, hmap⟩
  · exact hreg.kept k fun hc => hk ((registered_iff hr k).mpr hc)
  · exact get_module_apply k (hreg.poisoned.trans hp)

/-- The path and the flag of a module. -/
def source (m : DlModule) : Bytes × Bool := (m.path, m.aslr)

/-- **The order of the enumeration** changes no path and no flag. -/
theorem registry_perm {rt : Runtime ε} {dir : Bytes} {names names' : List EntryName}
    {h h' h'' : Host} (hp : names.Perm names') (hreg : Registry rt dir names h h')
    (hreg' : Registry rt dir names' h h'') (k : Bytes) :
    (h''.module_map.map k).map source = (h'.module_map.map k).map source := by
  by_cases hk : Registered rt dir names k
  · obtain ⟨serial, -, hmap⟩ := hreg.found k hk
    obtain ⟨serial', -, hmap'⟩ := hreg'.found k ((registered_perm hp k).mp hk)
    rw [hmap, hmap']
    rfl
  · have hk' : ¬ Registered rt dir names' k := fun hc => hk ((registered_perm hp k).mpr hc)
    rw [hreg.kept k hk, hreg'.kept k hk']

/-- **`load_dir` on a directory that can be read.** It ends with `Ok` exactly when no earlier panic
poisoned the lock and every `.so` file has a name that is UTF-8, and panics otherwise. Then every
file that can be loaded is registered under its own key and nothing else changes, and another order
of the enumeration leaves the same files under the same keys. -/
theorem load_dir_spec (rt : Runtime ε) (dir : Bytes) (names : List EntryName) (h : Host) :
    ((∃ h', load_dir rt dir (.ok (names.map Except.ok)) h = .ok () h') ↔
      h.module_map.poisoned = false ∧ ∀ n ∈ names, Readable n) ∧
    ((∀ h', load_dir rt dir (.ok (names.map Except.ok)) h ≠ .ok () h') →
      ∃ p h', load_dir rt dir (.ok (names.map Except.ok)) h = .error (.panic p) h' ∧
        h'.module_map.poisoned = true) ∧
    (∀ n ∈ names, ∀ n' ∈ names, ∀ k, so_stem n.name = some k → so_stem n'.name = some k → n = n') ∧
    ∀ h', load_dir rt dir (.ok (names.map Except.ok)) h = .ok () h' →
      Registry rt dir names h h' ∧
      ∀ names', names.Perm names' →
        ∃ h'', load_dir rt dir (.ok (names'.map Except.ok)) h = .ok () h'' ∧
          ∀ k, (h''.module_map.map k).map source = (h'.module_map.map k).map source := by
  refine ⟨⟨fun ⟨h', hok⟩ => ?_, fun ⟨hp, hr⟩ => ⟨_, load_dir_of_readable rt dir hr hp⟩⟩,
    fun hno => ?_, fun n _ n' _ k hn hn' => entry_of_key hn hn',
    fun h' hok => ⟨registry_of_ok hok, fun names' hperm => ?_⟩⟩
  · obtain ⟨hp, hr, -⟩ := load_dir_names_eq_ok hok
    exact ⟨hp, hr⟩
  · exact load_dir_panics rt dir fun ⟨hp, hr⟩ => hno _ (load_dir_of_readable rt dir hr hp)
  · obtain ⟨hp, hr, -⟩ := load_dir_names_eq_ok hok
    have hok' := load_dir_of_readable rt dir (fun n hn => hr n (hperm.mem_iff.mpr hn)) hp
    exact ⟨_, hok', registry_perm hperm (registry_of_ok hok) (registry_of_ok hok')⟩

/-- The file of the module `fib_c`. -/
def fib_c_so : EntryName :=
  ⟨lit "fib_c.so", by decide, by decide, by decide, by decide⟩

/-- A file whose name is not UTF-8. -/
def odd_so : EntryName :=
  ⟨0xFF :: lit ".so", by decide, by decide, by decide, by decide⟩

theorem load_dir_spec_fib_c : ∃ h', load_dir (obliging someGuest) (lit "modules")
      (.ok [.ok fib_c_so]) Host.boot = .ok () h' ∧
    (h'.module_map.map (lit "fib_c")).map source = some (lit "modules/fib_c.so", false) := by
  obtain ⟨hiff, -, -, hspec⟩ :=
    load_dir_spec (obliging someGuest) (lit "modules") [fib_c_so] Host.boot
  obtain ⟨h', hok⟩ := hiff.mpr ⟨rfl, fun n hn s _ => by
    rw [List.mem_singleton.mp hn]
    decide⟩
  obtain ⟨serial, -, hmap⟩ := (hspec h' hok).1.found (lit "fib_c")
    ⟨by decide, ⟨fib_c_so, List.mem_singleton_self _, by decide, by decide⟩, rfl⟩
  have hpath : join (lit "modules") (so_name (lit "fib_c")) = lit "modules/fib_c.so" := by decide
  have hflag : contains (so_name (lit "fib_c")) (lit "_aslr") = false := by decide
  exact ⟨h', hok, by rw [hmap, hpath, hflag, Option.map_some, source]⟩

/-- A name that is not UTF-8 keeps another file from being registered. -/
theorem odd_name_panics : ∃ h', load_dir (obliging someGuest) (lit "modules")
      (.ok [.ok odd_so, .ok fib_c_so]) Host.boot = .error (.panic (.not_utf8 odd_so.name)) h' ∧
    h'.module_map.poisoned = true ∧ h'.module_map.map (lit "fib_c") = none := by
  have hstem : so_stem odd_so.name = some [0xFF] := by decide
  have hentry := load_entry_invalid (obliging someGuest) (lit "modules") hstem (by decide) Host.boot
  refine ⟨{ Host.boot with module_map := { Host.boot.module_map with poisoned := true } }, ?_, rfl,
    rfl⟩
  have hp : Host.boot.module_map.poisoned = false := rfl
  simp [load_dir, hp, with_write_guard, hentry]

end HfiWebserver.Server.Registration
