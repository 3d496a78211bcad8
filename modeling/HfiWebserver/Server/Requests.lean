import HfiWebserver.Server.Handlers

/-! # Requests

`Request` are the requests of the seven module routes as a client sends them, and `handle`
dispatches them. What a request adds to the common part of the handlers is the guest's arguments
(`input_of`): `handle_apply`.

`handle_panics_iff` is the exact condition under which a request panics. The panics are explicit in
the code: an unavailable module, `File::open("/")` in `tflite`, a guest that yields, and one that
returns without a last result of the expected kind. -/

namespace HfiWebserver.Server.Requests

open HfiWebserver.Lib.ByteStrings HfiWebserver.Server.Hostcalls HfiWebserver.Server.World
open HfiWebserver.Server.WasmModule HfiWebserver.Server.Handlers

variable {ε : Type}

/-- A request, with its query values and its body. -/
inductive Request
  | jpeg_resize_c (quality protection : Bytes)
  | msghash_check_c (body hash protection : Bytes)
  | fib_c (num protection : Bytes)
  | html_template (protection : Bytes)
  | echo_server (msg protection : Bytes)
  | tflite (protection : Bytes)
  | xml_to_json (body protection : Bytes)
  deriving DecidableEq, Repr

namespace Request

def endpoint : Request → Endpoint
  | jpeg_resize_c .. => .jpeg_resize_c
  | msghash_check_c .. => .msghash_check_c
  | fib_c .. => .fib_c
  | html_template .. => .html_template
  | echo_server .. => .echo_server
  | tflite .. => .tflite
  | xml_to_json .. => .xml_to_json

def protection : Request → Bytes
  | jpeg_resize_c _ p | msghash_check_c _ _ p | fib_c _ p | html_template p | echo_server _ p
  | tflite p | xml_to_json _ p => p

/-- The body of a `POST` request. -/
def body : Request → Option Bytes
  | msghash_check_c b _ _ | xml_to_json b _ => some b
  | _ => none

/-- Only `tflite` opens the file system. -/
def file_access : Request → Bool
  | tflite _ => true
  | _ => false

end Request

/-- **Dispatches a request.** -/
def handle (rt : Runtime ε) (dir : Bytes) : Request → Rust ε Bytes
  | .jpeg_resize_c quality p => jpeg_resize_c rt dir quality p
  | .msghash_check_c body hash p => post body fun msg => msghash_check_c rt dir msg hash p
  | .fib_c num p => fib_c rt dir num p
  | .html_template p => html_template rt dir p
  | .echo_server msg p => echo_server rt dir msg p
  | .tflite p => tflite rt dir p
  | .xml_to_json body p => post body fun xml => xml_to_json rt dir xml p

/-- The text of a body, decoded. -/
def decode (rt : Runtime ε) (body : Bytes) : Except (Error ε) Bytes :=
  match from_data body with
  | .failure status => .error (.status status)
  | .success s =>
    if Valid (rt.percent_decode_str s.string) then .ok (rt.percent_decode_str s.string)
    else .error .utf8

/-- The arguments of the guest. -/
def input_of (rt : Runtime ε) : Request → Except (Error ε) (List Bytes)
  | .jpeg_resize_c quality _ => .ok [[], quality]
  | .msghash_check_c body hash _ => (decode rt body).map fun msg => [[], msg, hash]
  | .fib_c num _ => .ok [[], num]
  | .html_template _ => .ok [[]]
  | .echo_server msg _ => .ok [[], msg]
  | .tflite _ => .ok [[]]
  | .xml_to_json body _ => (decode rt body).map fun xml => [[], xml]

section

variable (rt : Runtime ε) (dir : Bytes) (h : Host)

/-- A `POST` request is its decoded body, then the handler. -/
theorem post_apply (body : Bytes) (k : Bytes → Rust ε Bytes) :
    post body (fun s => percent_decode rt s.string >>= k) h =
      match decode rt body with
      | .error e => .error (.err e) h
      | .ok text => k text h := by
  unfold post decode
  rcases from_data body with s | status
  · by_cases hv : Valid (rt.percent_decode_str s.string) <;> simp [percent_decode, hv]
  · rfl

/-- **What a request does**: without arguments it fails, else it is served. -/
theorem handle_apply (r : Request) : handle rt dir r h =
    match input_of rt r with
    | .error e => .error (.err e) h
    | .ok input => serve rt dir r.endpoint r.protection input r.file_access h := by
  cases r with
  | msghash_check_c body hash p =>
    refine (post_apply rt h body fun msg =>
      serve rt dir .msghash_check_c p [[], msg, hash] false).trans ?_
    rcases hd : decode rt body with e | msg
    · simp only [input_of, hd, Except.map]
    · simp only [input_of, hd, Except.map]
      rfl
  | xml_to_json body p =>
    refine (post_apply rt h body fun xml =>
      serve rt dir .xml_to_json p [[], xml] false).trans ?_
    rcases hd : decode rt body with e | xml
    · simp only [input_of, hd, Except.map]
    · simp only [input_of, hd, Except.map]
      rfl
  | _ => rfl

/-! ### Panics -/

/-- **The module of a request is available**: its file can be loaded, or it is registered. -/
def ModuleAvailable (r : Request) : Prop :=
  if lit "_aslr" <:+: r.protection then
    rt.load_aslr (aslr_path r.endpoint.name r.protection dir) true = .ok ()
  else h.module_map.poisoned = false ∧
    ∃ m, h.module_map.map (module_name r.endpoint.name r.protection) = some m

/-- The instance a request runs. -/
def Instance (r : Request) (inst : InstanceHandle) : Prop :=
  ∃ input h', input_of rt r = .ok input ∧
    create_wasm_instance rt r.endpoint.name r.protection input
      (contains r.protection (lit "_aslr")) dir r.file_access h = .ok inst h'

/-- A run the handlers panic after: a yield, or no last hostcall of the expected kind. -/
def Unexpected (k : Kind) (b : Behaviour ε) : Prop :=
  b.stop = .yielded ∨ b.stop = .returned ∧ ∀ body, b.calls.getLast? ≠ some ⟨k, body⟩

/-- **When a request panics.** -/
def Panics (r : Request) : Prop :=
  (∃ input, input_of rt r = .ok input) ∧
    (¬ ModuleAvailable rt dir h r ∨ (r.file_access = true ∧ ∃ e, rt.open_root = .error e)) ∨
  ∃ inst, Instance rt dir h r inst ∧ Unexpected r.endpoint.expects (rt.run inst)

/-- Choosing the module answers it when it is available, and panics else. -/
theorem module_for_total (r : Request) :
    let x := module_for rt r.endpoint.name r.protection (contains r.protection (lit "_aslr")) dir h
    (ModuleAvailable rt dir h r ∧ ∃ m h', x = .ok m h') ∨
      (¬ ModuleAvailable rt dir h r ∧ ∃ p h', x = .error (.panic p) h') := by
  intro x
  unfold ModuleAvailable
  by_cases hp : lit "_aslr" <:+: r.protection
  · simp only [x, contains_iff.mpr hp, module_for_aslr, if_pos hp]
    rcases rt.load_aslr (aslr_path r.endpoint.name r.protection dir) true with e | u <;> simp
  · have hc : contains r.protection (lit "_aslr") = false := by simpa [contains] using hp
    simp only [x, hc, module_for_registry, if_neg hp]
    rcases h.module_map.poisoned with _ | _
    · rcases h.module_map.map (module_name r.endpoint.name r.protection) with _ | m <;> simp
    · simp

/-- After the choice of the module only `File::open("/")` panics. -/
theorem embed_panics_iff (input : List Bytes) (b : Bool) (protection : Bytes) (m : DlModule) :
    (∃ p, (wasi_ctx_of rt input b).bind (embed rt protection m) = .error (.panic p)) ↔
      b = true ∧ ∃ e, rt.open_root = .error e := by
  have hembed : ∀ ctx p, embed rt protection m ctx ≠ .error (.panic p) := by
    intro ctx p
    simp only [embed]
    split <;> simp
  rcases hw : wasi_ctx_of rt input b with f | ctx
  · cases b with
    | false =>
      rcases hb : rt.build_ctx ⟨input, []⟩ with e | c
      all_goals simp [wasi_ctx_of, hb, Except.mapError] at hw
      simp [Except.bind, ← hw]
    | true =>
      rcases ho : rt.open_root with e | u
      · simp [wasi_ctx_of, ho] at hw
        simp [Except.bind, ← hw]
      · rcases hb : rt.build_ctx ⟨input, [lit "/"]⟩ with e | c
        all_goals simp [wasi_ctx_of, ho, hb, Except.mapError] at hw
        simp [Except.bind, ← hw]
  · simp only [Except.bind, hembed, exists_false, false_iff, not_and]
    rintro rfl ⟨e, ho⟩
    simp [wasi_ctx_of, ho] at hw

theorem create_panics_iff (r : Request) (input : List Bytes) :
    (∃ p h', create_wasm_instance rt r.endpoint.name r.protection input
      (contains r.protection (lit "_aslr")) dir r.file_access h = .error (.panic p) h') ↔
    ¬ ModuleAvailable rt dir h r ∨ (r.file_access = true ∧ ∃ e, rt.open_root = .error e) := by
  rw [create_wasm_instance_apply]
  rcases module_for_total rt dir h r with ⟨ha, m, h', hm⟩ | ⟨ha, p, h', hm⟩
  · rw [hm, ← embed_panics_iff rt input r.file_access r.protection m]
    rcases hx : (wasi_ctx_of rt input r.file_access).bind (embed rt r.protection m) with f | i
    · simp [ha, hx]
    · simp [ha, hx]
  · simp [hm, ha]

/-- An unexpected run is one the handler panics after. -/
theorem unexpected_iff (e : Endpoint) (b : Behaviour ε) :
    Unexpected e.expects b ↔ ∃ p, answer_of e b = .error (.panic p) := by
  have hpayload : (∀ body, b.calls.getLast? ≠ some ⟨e.expects, body⟩) ↔
      payload_of e.expects (after .none b.calls) = none := by
    simp only [Option.eq_none_iff_forall_not_mem, Option.mem_def, payload_of_eq_some, ne_eq]
  unfold Unexpected
  rw [hpayload]
  rcases hs : b.stop with _ | _ | x
  · rcases hp : payload_of e.expects (after .none b.calls) with _ | body
    all_goals simp [answer_of, hs, hp]
  · simp [answer_of, hs]
  · simp [answer_of, hs]

/-- **A request panics exactly when** its arguments are fine and its module is unavailable or, for
`tflite`, `/` cannot be opened, or when its guest yields or returns without a last result of the
expected kind. In every case `MODULE_MAP` stays as it is. -/
theorem handle_panics_iff (r : Request) :
    (outcome (handle rt dir r h)).2.module_map = h.module_map ∧
    ((∃ p h', handle rt dir r h = .error (.panic p) h') ↔ Panics rt dir h r) := by
  rw [handle_apply]
  rcases hi : input_of rt r with e | input
  · simp [Panics, Instance, hi]
  refine ⟨(serve_host rt dir r.endpoint r.protection input r.file_access h).1, ?_⟩
  have hcp := create_panics_iff rt dir h r input
  have hinst : ∀ inst, Instance rt dir h r inst ↔ ∃ h', create_wasm_instance rt r.endpoint.name
      r.protection input (contains r.protection (lit "_aslr")) dir r.file_access h =
        .ok inst h' := by
    intro inst
    simp [Instance, hi]
  simp only [Panics, hi, Except.ok.injEq, exists_eq', true_and, hinst, ← hcp, serve_apply,
    unexpected_iff]
  rcases create_wasm_instance rt r.endpoint.name r.protection input
    (contains r.protection (lit "_aslr")) dir r.file_access h with ⟨i, h'⟩ | ⟨f, h'⟩
  · rcases ha : answer_of r.endpoint (rt.run i) with f | body <;> simp [ha]
  · rcases f with x | p <;> simp

end

/-- A protection that is not registered panics, in `create_wasm_instance` already. -/
theorem unknown_protection_panics :
    create_wasm_instance (obliging someGuest) Endpoint.fib_c.name (lit "nope") [[], lit "4"] false
        (lit "modules") false Host.boot =
      .error (.panic (.get_failed (lit "fib_c_nope"))) Host.boot ∧
    handle (obliging someGuest) (lit "modules") (.fib_c (lit "4") (lit "nope")) Host.boot =
      .error (.panic (.get_failed (lit "fib_c_nope"))) Host.boot :=
  ⟨rfl, rfl⟩

end HfiWebserver.Server.Requests
