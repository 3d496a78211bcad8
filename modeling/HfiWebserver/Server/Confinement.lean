import HfiWebserver.Server.Aslr

/-! # Which files a request can load

A protection without `_aslr` loads nothing, since its module comes from `MODULE_MAP`. One with
`_aslr` makes `create_wasm_instance` load a path built from the protection, which the client chose:
with a `/` in it, the last component of that path is no longer `endpoint_protection.so`.

* `module_name_inj`: no two endpoints share a module name;
* `loads_confined_iff`: every file loaded for a request is one `load_dir` could register for the
  same endpoint and protection, exactly when a protection with `_aslr` has no `/`. -/

namespace HfiWebserver.Server.Confinement

open HfiWebserver.Lib.ByteStrings HfiWebserver.Lib.StdPath HfiWebserver.Server.World
open HfiWebserver.Server.ServiceDirectory HfiWebserver.Server.WasmModule
open HfiWebserver.Server.Handlers HfiWebserver.Server.Aslr

variable {ε : Type}

/-! ### Module names -/

theorem prefix_inj_endpoint (e e' : Endpoint)
    (h : e.name ++ lit "_" <+: e'.name ++ lit "_") : e = e' := by
  revert h
  cases e <;> cases e' <;> decide

/-- **A module name has one endpoint and one protection.** -/
theorem module_name_inj {e e' : Endpoint} {p p' : Bytes}
    (h : module_name e.name p = module_name e'.name p') : e = e' ∧ p = p' := by
  have h1 : e.name ++ lit "_" <+: module_name e.name p := ⟨p, rfl⟩
  have h2 : e'.name ++ lit "_" <+: module_name e.name p := by rw [h]; exact ⟨p', rfl⟩
  have he : e = e' := by
    rcases List.prefix_or_prefix_of_prefix h1 h2 with hp | hp
    · exact prefix_inj_endpoint e e' hp
    · exact (prefix_inj_endpoint e' e hp).symm
  subst he
  exact ⟨rfl, List.append_cancel_left h⟩

/-! ### Confined paths -/

/-- `load_dir` on a directory with this file, when it can be loaded, registers it so that
`get_module` answers it for the endpoint and the protection. -/
def Registrable (ε : Type) (dir : Bytes) (e : Endpoint) (p path : Bytes) : Prop :=
  ∃ n : EntryName, ∀ rt : Runtime ε, (∀ aslr, rt.load_aslr path aslr = .ok ()) → ∃ h m,
    load_dir rt dir (.ok [.ok n]) Host.boot = .ok () h ∧
    (get_module (module_name e.name p) : Rust ε _) h = .ok (some m) h ∧ m.path = path

/-- **A path confined to a request**: a direct child of the module directory whose stem is the
module name, registrable for that name, and not the file of another endpoint. -/
structure Confined (ε : Type) (dir : Bytes) (e : Endpoint) (p path : Bytes) : Prop where
  child : parent path = some (components dir)
  stem : file_stem path = some (module_name e.name p)
  registrable : Registrable ε dir e p path
  own : ∀ e' p', file_stem path = some (module_name e'.name p') → e' = e

/-- Every file loaded for the request is confined to it. -/
def LoadsConfined (rt : Runtime ε) (dir : Bytes) (e : Endpoint) (p : Bytes) : Prop :=
  ∀ (input : List Bytes) (b : Bool) (h : Host), ∃ ls,
    (outcome (create_wasm_instance rt e.name p input (contains p (lit "_aslr")) dir b h)).2.loads =
      h.loads ++ ls ∧ ∀ l ∈ ls, Confined ε dir e p l.1

/-- Without a `/` in the protection, the file is an entry of a directory. -/
def entry (e : Endpoint) (p : Bytes) (hp : sep ∉ p) : EntryName :=
  so_entry (module_name e.name p) ((sep_not_mem_module_name e).mpr hp)

theorem so_stem_file (e : Endpoint) (p : Bytes) : so_stem (file e p) = some (module_name e.name p) :=
  so_stem_so_name (module_name_ne_nil e p)

theorem valid_file (e : Endpoint) {p : Bytes} (hv : Valid p) : Valid (file e p) := by
  have hname : Valid e.name := by cases e <;> decide
  have h1 : Valid (lit "_") := by decide
  have h2 : Valid (lit ".so") := by decide
  exact ((hname.append h1).append hv).append h2

theorem registrable_entry (dir : Bytes) (e : Endpoint) {p : Bytes} (hp : sep ∉ p) (hv : Valid p) :
    Registrable ε dir e p (aslr_path e.name p dir) := by
  refine ⟨entry e p hp, fun rt hload => ?_⟩
  have hstem : stems [entry e p hp] = [module_name e.name p] := by
    rw [stems_cons, show so_stem (entry e p hp).name = _ from so_stem_file e p]
    rfl
  have hr : ∀ n ∈ [entry e p hp], Readable n := by
    intro n hn s _
    rw [List.mem_singleton.mp hn]
    exact valid_file e hv
  have hok := load_dir_of_readable rt dir (h := Host.boot) hr rfl
  have hreg := registryOf_foldl rt dir (stems [entry e p hp]) Host.boot
  obtain ⟨serial, -, -, hmap⟩ := hreg.found (module_name e.name p) (by simp [hstem]) (hload _)
  refine ⟨_, ⟨_, (load_call dir (module_name e.name p)).2, serial⟩, hok, ?_, rfl⟩
  rw [get_module_apply _ hreg.poisoned, hmap]
  rfl

/-- **Without a `/` in the protection the path is confined.** -/
theorem confined_of_no_sep (dir : Bytes) (e : Endpoint) {p : Bytes} (hp : sep ∉ p) (hv : Valid p) :
    Confined ε dir e p (aslr_path e.name p dir) := by
  have hstem : file_stem (join dir (entry e p hp).name) = some (module_name e.name p) := by
    have hr : rsplit_file_at_dot (entry e p hp).name = _ := rsplit_of_so_stem (so_stem_file e p)
    rw [(entry e p hp).file_stem_join, hr]
    rfl
  refine ⟨(entry e p hp).parent_join dir, hstem, registrable_entry dir e hp hv, ?_⟩
  intro e' p' h
  have hname : module_name e.name p = module_name e'.name p' := by
    rw [← Option.some.injEq, ← h, ← hstem]; rfl
  exact (module_name_inj hname).1.symm

/-- With a `/`, the stem of a path is not the module name. -/
theorem no_sep_of_confined {dir : Bytes} {e : Endpoint} {p path : Bytes}
    (hc : Confined ε dir e p path) : sep ∉ p := by
  intro hmem
  refine no_sep_of_file_stem hc.stem ?_
  exact List.mem_append_right _ hmem

/-- **The loads of a request are confined exactly when its protection has no `/` or no `_aslr`.** -/
theorem loads_confined_iff (rt : Runtime ε) (dir : Bytes) (e : Endpoint) (p : Bytes) (hv : Valid p) :
    LoadsConfined rt dir e p ↔ (lit "_aslr" <:+: p → sep ∉ p) := by
  constructor
  · intro hL hp
    obtain ⟨ls, hls, hall⟩ := hL [] false Host.boot
    rw [create_wasm_instance_host, contains_iff.mpr hp] at hls
    have hmem : (aslr_path e.name p dir, true) ∈ ls := by
      rw [← List.append_cancel_left hls]
      simp [aslr_loads]
    exact no_sep_of_confined (hall _ hmem)
  · intro hp input b h
    refine ⟨_, by rw [create_wasm_instance_host], fun l hl => ?_⟩
    unfold aslr_loads at hl
    split_ifs at hl with hc
    · rw [List.mem_singleton.mp hl]
      exact confined_of_no_sep dir e (hp (contains_iff.mp hc)) hv
    · simp at hl

theorem loads_confined_stock_aslr :
    LoadsConfined (obliging someGuest) (lit "modules") .fib_c (lit "stock_aslr") :=
  (loads_confined_iff _ _ .fib_c _ (by decide)).mpr fun _ => by decide

/-- A request to `fib_c` loads the file of `echo_server`. -/
theorem loads_other_endpoint :
    let p := lit "_aslr/../echo_server_stock"
    aslr_loads Endpoint.fib_c.name p true (lit "modules") =
        [(lit "modules/fib_c__aslr/../echo_server_stock.so", true)] ∧
      file_stem (lit "modules/fib_c__aslr/../echo_server_stock.so") =
        some (module_name Endpoint.echo_server.name (lit "stock")) ∧
      ¬ LoadsConfined (obliging someGuest) (lit "modules") .fib_c p := by
  refine ⟨by decide, by decide, fun hL => ?_⟩
  obtain ⟨ls, hls, hall⟩ := hL [[], lit "4"] false Host.boot
  have hmem : (lit "modules/fib_c__aslr/../echo_server_stock.so", true) ∈ ls := by
    rw [create_wasm_instance_host] at hls
    rw [← List.append_cancel_left hls]
    decide
  exact absurd (no_sep_of_confined (hall _ hmem)) (by decide)

end HfiWebserver.Server.Confinement
