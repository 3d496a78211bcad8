import HfiWebserver.Server.ServiceDirectory

/-! # Instances

`create_wasm_instance` chooses the module of a request, by loading its file again (`aslr`) or by a
look up in `MODULE_MAP`, and embeds it in an instance with a WASI context, the heap limits and the
protection.

Choosing the module (`module_for`) is the only part that changes the state or looks at it; all the
rest is a function of the module and the request (`create_wasm_instance_apply`). -/

namespace HfiWebserver.Server.WasmModule

open HfiWebserver.Lib.ByteStrings HfiWebserver.Lib.StdPath HfiWebserver.Server.Hostcalls
open HfiWebserver.Server.World HfiWebserver.Server.ServiceDirectory

variable {ε : Type}

/-- `endpoint + "_" + &protection`. -/
def module_name (endpoint protection : Bytes) : Bytes := endpoint ++ lit "_" ++ protection

/-- The module of a request. -/
def module_for (rt : Runtime ε) (endpoint protection : Bytes) (aslr : Bool) (dir : Bytes) :
    Rust ε DlModule := do
  let module_name := module_name endpoint protection
  if aslr then do
    let filename := module_name ++ lit ".so"
    let path := join dir filename
    unwrap_or_else (← load_aslr rt path true) (.load_failed path)
  else do
    match ← get_module module_name with
    | some dl_module => pure dl_module
    | none => panic (.get_failed module_name)

/-- The WASI context of a request. -/
def wasi_ctx_for (rt : Runtime ε) (input : List Bytes) (enable_file_access : Bool) :
    Rust ε WasiCtx := do
  let builder : WasiCtxBuilder := ⟨input, []⟩
  let builder ←
    if enable_file_access then do
      unwrap_or_else rt.open_root .open_failed
      pure { builder with preopened_dirs := builder.preopened_dirs ++ [lit "/"] }
    else pure builder
  try_ (rt.build_ctx builder)

/-- The limits of an instance: the globals are rounded up to pages. -/
def limits_for (min_globals_size : ℕ) : Limits :=
  let globals_size := ((min_globals_size + 4096 - 1) / 4096) * 4096
  { heap_memory_size := heap_memory_size
    heap_address_space_size := heap_address_space_size
    stack_size := 16 * 1024 * 1024
    globals_size }

/-- `create_wasm_instance`. -/
def create_wasm_instance (rt : Runtime ε) (endpoint protection : Bytes) (input : List Bytes)
    (aslr : Bool) (dir : Bytes) (enable_file_access : Bool) : Rust ε InstanceHandle := do
  let dl_module ← module_for rt endpoint protection aslr dir
  let wasi_ctx ← wasi_ctx_for rt input enable_file_access
  let limits := limits_for (rt.initial_globals_size dl_module)
  try_ (rt.create_region 1 limits)
  let inst : InstanceHandle := ⟨dl_module, limits, wasi_ctx, protection⟩
  try_ (rt.build_instance inst)
  pure inst

/-! ### The module of a request -/

section

variable (rt : Runtime ε) (endpoint protection dir : Bytes) (h : Host)

/-- The path handed to `DlModule::load_aslr`. -/
def aslr_path (endpoint protection dir : Bytes) : Bytes :=
  join dir (module_name endpoint protection ++ lit ".so")

theorem module_for_aslr : module_for rt endpoint protection true dir h =
    match rt.load_aslr (aslr_path endpoint protection dir) true with
    | .ok _ => .ok ⟨aslr_path endpoint protection dir, true, h.loads.length⟩
        { h with loads := h.loads ++ [(aslr_path endpoint protection dir, true)] }
    | .error e => .error (.panic (.load_failed (aslr_path endpoint protection dir) e))
        { h with loads := h.loads ++ [(aslr_path endpoint protection dir, true)] } := by
  unfold aslr_path
  rcases hl : rt.load_aslr (join dir (module_name endpoint protection ++ lit ".so")) true with e | u
  all_goals simp [module_for, load_aslr, hl, Except.map, unwrap_or_else]

theorem module_for_registry : module_for rt endpoint protection false dir h =
    if h.module_map.poisoned then .error (.panic .poisoned) h
    else match h.module_map.map (module_name endpoint protection) with
      | some dl_module => .ok dl_module h
      | none => .error (.panic (.get_failed (module_name endpoint protection))) h := by
  rcases hp : h.module_map.poisoned with _ | _
  · rcases hm : h.module_map.map (module_name endpoint protection) with _ | m
    all_goals simp [module_for, get_module, hp, hm]
  · simp [module_for, get_module, hp]

/-- The loads made for a request. -/
def aslr_loads (endpoint protection : Bytes) (aslr : Bool) (dir : Bytes) : List (Bytes × Bool) :=
  if aslr then [(aslr_path endpoint protection dir, true)] else []

/-- **Choosing a module changes nothing but the history of the loads.** -/
theorem module_for_host (aslr : Bool) :
    (outcome (module_for rt endpoint protection aslr dir h)).2 =
      { h with loads := h.loads ++ aslr_loads endpoint protection aslr dir } := by
  cases aslr with
  | true =>
    rw [module_for_aslr]
    rcases rt.load_aslr (aslr_path endpoint protection dir) true with e | u <;> rfl
  | false =>
    rw [module_for_registry]
    split_ifs
    · simp [aslr_loads]
    · rcases h.module_map.map (module_name endpoint protection) with _ | m <;> simp [aslr_loads]

end

/-! ### The rest of the instance -/

/-- What `wasi_ctx_for` answers. -/
def wasi_ctx_of (rt : Runtime ε) (input : List Bytes) : Bool → Except (Fault ε) WasiCtx
  | false => (rt.build_ctx ⟨input, []⟩).mapError fun e => .err (.external e)
  | true =>
    match rt.open_root with
    | .error e => .error (.panic (.open_failed e))
    | .ok _ => (rt.build_ctx ⟨input, [lit "/"]⟩).mapError fun e => .err (.external e)

/-- What follows the WASI context. -/
def embed (rt : Runtime ε) (protection : Bytes) (dl_module : DlModule) (wasi_ctx : WasiCtx) :
    Except (Fault ε) InstanceHandle :=
  let limits := limits_for (rt.initial_globals_size dl_module)
  let inst : InstanceHandle := ⟨dl_module, limits, wasi_ctx, protection⟩
  match rt.create_region 1 limits, rt.build_instance inst with
  | .error e, _ => .error (.err (.external e))
  | .ok _, .error e => .error (.err (.external e))
  | .ok _, .ok _ => .ok inst

theorem wasi_ctx_for_apply (rt : Runtime ε) (input : List Bytes) (b : Bool) (h : Host) :
    wasi_ctx_for rt input b h = of_except (wasi_ctx_of rt input b) h := by
  cases b with
  | false =>
    rcases hb : rt.build_ctx ⟨input, []⟩ with e | ctx
    all_goals simp [wasi_ctx_for, wasi_ctx_of, hb, Except.mapError]
  | true =>
    rcases ho : rt.open_root with e | u
    · simp [wasi_ctx_for, wasi_ctx_of, ho, unwrap_or_else]
    · rcases hb : rt.build_ctx ⟨input, [lit "/"]⟩ with e | ctx
      all_goals simp [wasi_ctx_for, wasi_ctx_of, ho, hb, unwrap_or_else, Except.mapError]

/-- **What `create_wasm_instance` does**: only the choice of the module touches the state. -/
theorem create_wasm_instance_apply (rt : Runtime ε) (endpoint protection : Bytes)
    (input : List Bytes) (aslr : Bool) (dir : Bytes) (enable_file_access : Bool) (h : Host) :
    create_wasm_instance rt endpoint protection input aslr dir enable_file_access h =
      match module_for rt endpoint protection aslr dir h with
      | .error f h' => .error f h'
      | .ok dl_module h' =>
        of_except ((wasi_ctx_of rt input enable_file_access).bind (embed rt protection dl_module))
          h' := by
  rcases hm : module_for rt endpoint protection aslr dir h with ⟨dl_module, h'⟩ | ⟨f, h'⟩
  · rcases hc : wasi_ctx_of rt input enable_file_access with f | ctx
    · simp [create_wasm_instance, hm, wasi_ctx_for_apply, hc, Except.bind]
    · set limits := limits_for (rt.initial_globals_size dl_module) with hlimits
      rcases hr : rt.create_region 1 limits with e | u
      · simp [create_wasm_instance, hm, wasi_ctx_for_apply, hc, Except.bind, embed, ← hlimits, hr]
      · rcases hb : rt.build_instance ⟨dl_module, limits, ctx, protection⟩ with e | u
        all_goals simp [create_wasm_instance, hm, wasi_ctx_for_apply, hc, Except.bind, embed,
          ← hlimits, hr, hb]
  · simp [create_wasm_instance, hm]

theorem create_wasm_instance_host (rt : Runtime ε) (endpoint protection : Bytes)
    (input : List Bytes) (aslr : Bool) (dir : Bytes) (enable_file_access : Bool) (h : Host) :
    (outcome (create_wasm_instance rt endpoint protection input aslr dir enable_file_access h)).2 =
      { h with loads := h.loads ++ aslr_loads endpoint protection aslr dir } := by
  rw [create_wasm_instance_apply, ← module_for_host rt]
  rcases module_for rt endpoint protection aslr dir h with ⟨m, h'⟩ | ⟨f, h'⟩ <;> simp

theorem wasi_ctx_of_eq_ok {rt : Runtime ε} {input : List Bytes} {b : Bool} {ctx : WasiCtx}
    (h : wasi_ctx_of rt input b = .ok ctx) :
    ∃ dirs, rt.build_ctx ⟨input, dirs⟩ = .ok ctx := by
  cases b with
  | false =>
    rcases hb : rt.build_ctx ⟨input, []⟩ with e | c <;> simp [wasi_ctx_of, hb, Except.mapError] at h
    exact ⟨[], by rw [hb, h]⟩
  | true =>
    rcases ho : rt.open_root with e | u
    · simp [wasi_ctx_of, ho] at h
    · rcases hb : rt.build_ctx ⟨input, [lit "/"]⟩ with e | c <;>
        simp [wasi_ctx_of, ho, hb, Except.mapError] at h
      exact ⟨_, by rw [hb, h]⟩

/-- **A created instance** has the chosen module, the protection, and the input as its arguments,
none of which has a NUL. -/
theorem of_create_wasm_instance {rt : Runtime ε} {endpoint protection : Bytes}
    {input : List Bytes} {aslr : Bool} {dir : Bytes} {b : Bool} {h h' : Host}
    {inst : InstanceHandle}
    (hok : create_wasm_instance rt endpoint protection input aslr dir b h = .ok inst h') :
    module_for rt endpoint protection aslr dir h = .ok inst.dl_module h' ∧
      inst.protection = protection ∧ inst.wasi_ctx.args = input ∧ ∀ a ∈ input, 0 ∉ a := by
  rw [create_wasm_instance_apply] at hok
  rcases hm : module_for rt endpoint protection aslr dir h with ⟨m, h1⟩ | ⟨f, h1⟩
  · rcases hw : wasi_ctx_of rt input b with f | ctx
    · simp [hm, hw, Except.bind] at hok
    · obtain ⟨dirs, hctx⟩ := wasi_ctx_of_eq_ok hw
      have hnul : ∀ a ∈ input, 0 ∉ a := by
        intro a ha h0
        obtain ⟨e, he⟩ := rt.build_ctx_nul ⟨input, dirs⟩ a ha h0
        rw [hctx] at he
        simp at he
      have hargs := rt.build_ctx_args _ _ hctx
      simp only [hm, hw, Except.bind, embed] at hok
      split at hok <;> simp at hok
      obtain ⟨rfl, rfl⟩ := hok
      exact ⟨rfl, rfl, hargs, hnul⟩
  · simp [hm] at hok

end HfiWebserver.Server.WasmModule
