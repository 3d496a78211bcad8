import HfiWebserver.Server.Hostcalls

/-! # The server's state and what runs outside it

`Host` is the state a request can change: `MODULE_MAP`, the `CURRENT_RESULT` cell of the worker
thread, and two histories, of the modules loaded and of the instances run. Server code is a function
on it that ends with a value, with an `Err`, or with a panic (`Rust`).

`Runtime` is everything the server only calls: the Lucet runtime, the WASI context builder, the file
system, percent-decoding and the guests. Its two laws are what the server relies on: the builder
takes the arguments as they are, and it rejects an argument with a NUL.

A run of a guest is the hostcalls that are carried out; `make_calls_eq` says that the hostcalls it
makes on windows of its heap leave the same result. -/

namespace HfiWebserver.Server.World

open HfiWebserver.Lib.ByteStrings HfiWebserver.Server.Hostcalls

/-- A module loaded by `DlModule::load_aslr`: from where, with which flag, and by which of the calls
to it since the server started. -/
structure DlModule where
  path : Bytes
  aslr : Bool
  serial : ℕ
  deriving DecidableEq, Repr

structure WasiCtxBuilder where
  args : List Bytes
  preopened_dirs : List Bytes
  deriving DecidableEq, Repr

structure WasiCtx where
  args : List Bytes
  preopened_dirs : List Bytes
  deriving DecidableEq, Repr

structure Limits where
  heap_memory_size : ℕ
  heap_address_space_size : ℕ
  stack_size : ℕ
  globals_size : ℕ
  deriving DecidableEq, Repr

/-- An instance: its module, and the contexts embedded in it. -/
structure InstanceHandle where
  dl_module : DlModule
  limits : Limits
  wasi_ctx : WasiCtx
  protection : Bytes
  deriving DecidableEq, Repr

/-- How a run of a guest ends. -/
inductive Stop (ε : Type)
  | returned
  | yielded
  | err (e : ε)
  deriving DecidableEq, Repr

/-- What a guest does in one run: the hostcalls it makes, in order, and how it ends. -/
structure Behaviour (ε : Type) where
  calls : List Hostcall
  stop : Stop ε
  deriving DecidableEq, Repr

/-- **The code outside the server**, with its own errors `ε`. -/
structure Runtime (ε : Type) where
  load_aslr : Bytes → Bool → Except ε Unit
  initial_globals_size : DlModule → ℕ
  open_root : Except ε Unit
  build_ctx : WasiCtxBuilder → Except ε WasiCtx
  create_region : ℕ → Limits → Except ε Unit
  build_instance : InstanceHandle → Except ε Unit
  run : InstanceHandle → Behaviour ε
  percent_decode_str : Bytes → Bytes
  build_ctx_args : ∀ b ctx, build_ctx b = .ok ctx → ctx.args = b.args
  build_ctx_nul : ∀ b a, a ∈ b.args → 0 ∈ a → ∃ e, build_ctx b = .error e

/-- `MODULE_MAP`: a map under a lock, which a panic of its writer poisons. -/
structure ModuleMap where
  map : Bytes → Option DlModule
  poisoned : Bool

/-- The state of the server, as one worker thread sees it. -/
structure Host where
  module_map : ModuleMap
  current_result : ModuleResult
  /-- The calls to `DlModule::load_aslr` so far. -/
  loads : List (Bytes × Bool)
  /-- The instances run so far. -/
  runs : List InstanceHandle

/-- The server before `main`. -/
def Host.boot : Host := ⟨⟨fun _ => none, false⟩, .none, [], []⟩

/-- The errors a request can be answered with: the status of a failed request guard, the error of
`decode_utf8`, or an error of external code. -/
inductive Error (ε : Type)
  | status (code : ℕ)
  | utf8
  | external (e : ε)
  deriving DecidableEq, Repr

/-- The panics of the server code: a module that cannot be loaded or is not registered, `unwrap` on
`File::open("/")`, on a poisoned lock and on a name that is not UTF-8, `expect("file has stem")`,
and the two panics of the handlers, after a yield and after a response of another kind. -/
inductive Panic (ε : Type)
  | load_failed (path : Bytes) (e : ε)
  | get_failed (module_name : Bytes)
  | open_failed (e : ε)
  | poisoned
  | not_utf8 (name : Bytes)
  | no_stem
  | yielded
  | unexpected_response
  deriving DecidableEq, Repr

/-- What ends a function early. -/
inductive Fault (ε : Type)
  | err (e : Error ε)
  | panic (p : Panic ε)
  deriving DecidableEq, Repr

/-- **Server code**: a function on the state that may end early. -/
abbrev Rust (ε α : Type) := EStateM (Fault ε) Host α

variable {ε α β : Type}

def err (e : Error ε) : Rust ε α := throw (.err e)

def panic (p : Panic ε) : Rust ε α := throw (.panic p)

@[simp] theorem bind_apply (x : Rust ε α) (f : α → Rust ε β) (h : Host) : (x >>= f) h =
    match x h with
    | .ok a h' => f a h'
    | .error e h' => .error e h' := by
  show EStateM.bind x f h = _
  unfold EStateM.bind
  rcases x h with _ | _ <;> rfl

@[simp] theorem map_apply (f : α → β) (x : Rust ε α) (h : Host) : (f <$> x) h =
    match x h with
    | .ok a h' => .ok (f a) h'
    | .error e h' => .error e h' := by
  show EStateM.map f x h = _
  unfold EStateM.map
  rcases x h with _ | _ <;> rfl

@[simp] theorem pure_apply (a : α) (h : Host) : (pure a : Rust ε α) h = .ok a h := rfl

@[simp] theorem get_apply (h : Host) : (get : Rust ε Host) h = .ok h h := rfl

@[simp] theorem modify_apply (f : Host → Host) (h : Host) :
    (modify f : Rust ε PUnit) h = .ok () (f h) := rfl

@[simp] theorem err_apply (e : Error ε) (h : Host) :
    (err e : Rust ε α) h = .error (.err e) h := rfl

@[simp] theorem panic_apply (p : Panic ε) (h : Host) :
    (panic p : Rust ε α) h = .error (.panic p) h := rfl

/-- The operator `?` on the result of external code. -/
def try_ : Except ε α → Rust ε α
  | .ok a => pure a
  | .error e => err (.external e)

@[simp] theorem try_ok (a : α) (h : Host) : try_ (.ok a : Except ε α) h = .ok a h := rfl

@[simp] theorem try_error (e : ε) (h : Host) :
    (try_ (.error e) : Rust ε α) h = .error (.err (.external e)) h := rfl

/-- An answer that does not depend on the state. -/
def of_except (x : Except (Fault ε) α) : Rust ε α := fun h =>
  match x with
  | .ok a => .ok a h
  | .error f => .error f h

@[simp] theorem of_except_ok (a : α) (h : Host) :
    of_except (.ok a : Except (Fault ε) α) h = .ok a h := rfl

@[simp] theorem of_except_error (f : Fault ε) (h : Host) :
    (of_except (.error f) : Rust ε α) h = .error f h := rfl

/-- How a run of server code ended, and the state it left. -/
def outcome : EStateM.Result (Fault ε) Host α → Except (Fault ε) α × Host
  | .ok a h => (.ok a, h)
  | .error f h => (.error f, h)

@[simp] theorem outcome_ok (a : α) (h : Host) :
    outcome (.ok a h : EStateM.Result (Fault ε) Host α) = (.ok a, h) := rfl

@[simp] theorem outcome_error (f : Fault ε) (h : Host) :
    outcome (.error f h : EStateM.Result (Fault ε) Host α) = (.error f, h) := rfl

@[simp] theorem outcome_of_except (x : Except (Fault ε) α) (h : Host) :
    outcome (of_except x h) = (x, h) := by cases x <;> rfl

/-- `unwrap` and its kin: an error is a panic. -/
def unwrap_or_else (x : Except ε α) (p : ε → Panic ε) : Rust ε α :=
  match x with
  | .ok a => pure a
  | .error e => panic (p e)

/-- `DlModule::load_aslr`, recorded in the history. -/
def load_aslr (rt : Runtime ε) (path : Bytes) (aslr : Bool) : Rust ε (Except ε DlModule) := fun h =>
  .ok ((rt.load_aslr path aslr).map fun _ => ⟨path, aslr, h.loads.length⟩)
    { h with loads := h.loads ++ [(path, aslr)] }

/-- `CURRENT_RESULT` after some hostcalls. -/
def after (cell : ModuleResult) (calls : List Hostcall) : ModuleResult :=
  calls.foldl (fun _ c => c.result) cell

theorem after_append (cell : ModuleResult) (calls : List Hostcall) (c : Hostcall) :
    after cell (calls ++ [c]) = c.result := by simp [after]

/-- A hostcall as the guest makes it: its kind, and a window of the heap as it is then. -/
structure GuestCall where
  vmctx : Vmctx
  kind : Kind
  offset : UInt32
  length : UInt32

/-- The hostcall that is carried out. -/
def GuestCall.hostcall (c : GuestCall) : Hostcall :=
  ⟨c.kind, window c.vmctx.heap c.offset c.length⟩

/-- The hostcalls of a guest, one after another. -/
def make_calls (mpk : Mpk) :
    List GuestCall → ModuleResult → UInt32 → Option (ModuleResult × UInt32)
  | [], current_result, pkru => some (current_result, pkru)
  | c :: cs, current_result, pkru =>
    (server_module_result mpk c.vmctx c.offset c.length c.kind current_result pkru).bind
      fun (current_result, pkru) => make_calls mpk cs current_result pkru

/-- **Hostcalls on windows in the heap leave what `after` says.** -/
theorem make_calls_eq (mpk : Mpk) {cs : List GuestCall}
    (hin : ∀ c ∈ cs, InHeap c.vmctx.heap c.offset c.length) (cell : ModuleResult) (pkru : UInt32) :
    ∃ pkru', make_calls mpk cs cell pkru =
      some (after cell (cs.map GuestCall.hostcall), pkru') := by
  induction cs generalizing cell pkru with
  | nil => exact ⟨pkru, rfl⟩
  | cons c cs ih =>
    rw [List.forall_mem_cons] at hin
    obtain ⟨pkru1, h1⟩ := server_module_result_eq mpk c.vmctx hin.1 c.kind cell pkru
    obtain ⟨pkru2, h2⟩ := ih hin.2 c.hostcall.result pkru1
    refine ⟨pkru2, ?_⟩
    rw [make_calls, h1, Option.bind_some]
    exact h2

/-- `instance.run(START_SYMBOL, &[])?`: whether the guest returned (and did not yield). -/
def run (rt : Runtime ε) (inst : InstanceHandle) : Rust ε Bool := fun h =>
  let b := rt.run inst
  let h' := { h with
    runs := h.runs ++ [inst], current_result := after h.current_result b.calls }
  match b.stop with
  | .returned => .ok true h'
  | .yielded => .ok false h'
  | .err e => .error (.err (.external e)) h'

/-- A runtime in which everything that can succeed does, with given guests. -/
def obliging (guest : InstanceHandle → Behaviour Unit) : Runtime Unit where
  load_aslr _ _ := .ok ()
  initial_globals_size _ := 0
  open_root := .ok ()
  build_ctx b := if ∃ a ∈ b.args, 0 ∈ a then .error () else .ok ⟨b.args, b.preopened_dirs⟩
  create_region _ _ := .ok ()
  build_instance _ := .ok ()
  run := guest
  percent_decode_str := id
  build_ctx_args b ctx h := by
    split_ifs at h
    cases h
    rfl
  build_ctx_nul b a ha h0 := ⟨(), if_pos ⟨a, ha, h0⟩⟩

/-- Guests that return without a result. -/
def someGuest : InstanceHandle → Behaviour Unit := fun _ => ⟨[], .returned⟩

end HfiWebserver.Server.World
