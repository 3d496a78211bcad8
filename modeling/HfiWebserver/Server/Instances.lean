import HfiWebserver.Server.Confinement
import HfiWebserver.Server.Requests

/-! # The instances a server ran

A server started on a directory runs, for a request, an instance of the module that was loaded from
the path of its route and its protection, and no other route or protection has that path:
`own_modules`. The module comes from `MODULE_MAP` or was loaded for the request; both agree on the
path. Paths are texts here: with `..` in a protection, two of them can lead to one file. -/

namespace HfiWebserver.Server.Instances

open HfiWebserver.Lib.ByteStrings HfiWebserver.Lib.StdPath
open HfiWebserver.Server.World HfiWebserver.Server.ServiceDirectory HfiWebserver.Server.WasmModule
open HfiWebserver.Server.Handlers HfiWebserver.Server.Requests HfiWebserver.Server.Aslr
open HfiWebserver.Server.Confinement

variable {ε : Type}

/-! ### Files -/

/-- **The file of a request names its route and its protection.** -/
theorem file_injective {e e' : Endpoint} {p p' : Bytes} (h : file e p = file e' p') :
    e = e' ∧ p = p' := module_name_inj (List.append_cancel_right h)

theorem join_injective {dir f f' : Bytes} (hf : f.head? ≠ some sep) (hf' : f'.head? ≠ some sep)
    (h : join dir f = join dir f') : f = f' := by
  unfold join at h
  rw [if_neg hf, if_neg hf'] at h
  split_ifs at h
  · exact List.append_cancel_left h
  · exact List.cons_inj_right _ |>.mp (List.append_cancel_left h)

theorem head_file (e : Endpoint) (p : Bytes) : (file e p).head? ≠ some sep := by
  unfold file so_name module_name
  cases e <;> exact fun h => absurd (Option.some.inj h) (by decide)

/-! ### Every instance has its own path -/

/-- **What `MODULE_MAP` and the instances run so far are**: the modules have the paths of their keys,
and an instance has a module with the path of a route under its own protection. -/
structure OwnModules (dir : Bytes) (h : Host) : Prop where
  registered : ∀ k m, h.module_map.map k = some m → m.path = join dir (so_name k)
  ran : ∀ inst ∈ h.runs, (∃ e, inst.dl_module.path = join dir (file e inst.protection)) ∧
    ∀ a ∈ inst.wasi_ctx.args, 0 ∉ a

section

variable {dir : Bytes} {h : Host} (hown : OwnModules dir h)
include hown

/-- Either way, the module has the path of the request. -/
theorem OwnModules.module_for {rt : Runtime ε} {e : Endpoint} {p : Bytes} {aslr : Bool}
    {m : DlModule} {h' : Host} (hm : module_for rt e.name p aslr dir h = .ok m h') :
    m.path = join dir (file e p) := by
  cases aslr with
  | true =>
    rw [module_for_aslr] at hm
    rcases hl : rt.load_aslr (aslr_path e.name p dir) true with x | u <;> rw [hl] at hm
    · cases hm
    · cases hm
      rfl
  | false =>
    rw [module_for_registry] at hm
    split_ifs at hm
    rcases hk : h.module_map.map (module_name e.name p) with _ | m' <;> rw [hk] at hm
    · cases hm
    · cases hm
      exact hown.registered _ _ hk

theorem OwnModules.serve (rt : Runtime ε) (e : Endpoint) (p : Bytes) (input : List Bytes)
    (b : Bool) : OwnModules dir (outcome (serve rt dir e p input b h)).2 := by
  obtain ⟨hmap, -⟩ := serve_host rt dir e p input b h
  refine ⟨by rw [hmap]; exact hown.registered, ?_⟩
  rcases serve_runs rt dir e p input b h with ⟨inst, h', hc, hruns⟩ | ⟨-, hruns, -⟩
  · obtain ⟨hm, hp, hargs, hnul⟩ := of_create_wasm_instance hc
    rw [hruns]
    intro i hi
    rcases List.mem_append.mp hi with hi | hi
    · exact hown.ran i hi
    · rw [List.mem_singleton.mp hi, hargs, hp]
      exact ⟨⟨e, hown.module_for hm⟩, hnul⟩
  · rw [hruns]
    exact hown.ran

end

theorem ownModules_of_serving {rt : Runtime ε} {dir : Bytes}
    {read_dir : Except ε (List (Except ε EntryName))} {h : Host} (hs : Serving rt dir read_dir h) :
    OwnModules dir h := by
  induction hs with
  | start hok =>
    obtain ⟨names, -, -, -, hr⟩ := load_dir_eq_ok hok
    refine ⟨fun k m hk => ?_, ?_⟩
    · by_cases hreg : k ∈ stems names ∧ Loadable rt dir k
      · obtain ⟨serial, -, -, hmap⟩ := hr.found k hreg.1 hreg.2
        rw [hmap] at hk
        cases hk
        rfl
      · rw [hr.kept k hreg] at hk
        cases hk
    · rw [hr.runs]
      exact fun inst hi => absurd hi List.not_mem_nil
  | request rt' e p input b _ ih => exact ih.serve rt' e p input b

/-- **Every instance that a server ran has a module with the path of one route and its own
protection**, which is the path of no other route and no other protection, and was given arguments
without a NUL. -/
theorem own_modules {rt : Runtime ε} {dir : Bytes}
    {read_dir : Except ε (List (Except ε EntryName))} {h : Host} (hs : Serving rt dir read_dir h)
    {inst : InstanceHandle} (hi : inst ∈ h.runs) :
    (∃ e, inst.dl_module.path = join dir (file e inst.protection) ∧ ∀ e' p,
      inst.dl_module.path = join dir (file e' p) → e' = e ∧ p = inst.protection) ∧
      ∀ a ∈ inst.wasi_ctx.args, 0 ∉ a := by
  obtain ⟨⟨e, hpath⟩, hnul⟩ := (ownModules_of_serving hs).ran inst hi
  refine ⟨⟨e, hpath, fun e' p h' => ?_⟩, hnul⟩
  have hfile := join_injective (head_file e' p) (head_file e inst.protection) (h'.symm.trans hpath)
  exact file_injective hfile

/-- The instance of a request to `echo_server`. -/
def echoInstance : InstanceHandle :=
  ⟨⟨lit "modules/echo_server_stock_aslr.so", true, 1⟩, limits_for 0, ⟨[[], lit "hello"], []⟩,
    lit "stock_aslr"⟩

theorem own_modules_echo : ∃ h, ∃ inst ∈ h.runs,
    Serving (obliging someGuest) (lit "modules") (.ok [.ok fibAslr]) h ∧
      ∃ e, inst.dl_module.path = join (lit "modules") (file e (lit "stock_aslr")) := by
  have hs := (Serving.start load_dir_fibAslr).request (obliging someGuest) .echo_server
    (lit "stock_aslr") [[], lit "hello"] false
  have hi : echoInstance ∈ (outcome (Handlers.serve (obliging someGuest) (lit "modules")
      .echo_server (lit "stock_aslr") [[], lit "hello"] false
      (register (obliging someGuest) (lit "modules") Host.boot (lit "fib_c_aslr")))).2.runs :=
    List.mem_singleton.mpr rfl
  obtain ⟨⟨e, hpath, -⟩, -⟩ := own_modules hs hi
  exact ⟨_, _, hi, hs, e, hpath⟩

end HfiWebserver.Server.Instances
