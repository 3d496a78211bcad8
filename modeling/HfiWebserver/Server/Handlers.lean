import HfiWebserver.Server.WasmModule

/-! # The handlers

The seven module routes do the same: they build the arguments of the guest, create an instance,
reset `CURRENT_RESULT`, propagate an error of the creation, run the guest, and answer with the
result the guest left, of the kind the route expects. `serve` is this common part, and each handler
is an application of it; `serve_apply` lists all its outcomes.

The two `POST` routes get their body through `StringCopy`, whose `from_data` reads at most `LIMIT`
bytes, and percent-decode it. -/

namespace HfiWebserver.Server.Handlers

open HfiWebserver.Lib.ByteStrings HfiWebserver.Server.Hostcalls HfiWebserver.Server.World
open HfiWebserver.Server.WasmModule

variable {ε α : Type}

/-! ### Request bodies -/

/-- A Rust `String`, as the body of a request. -/
structure StringCopy where
  string : Bytes
  valid : Valid string

def LIMIT : ℕ := 4 * 1024 * 1024

/-- The outcome of a request guard; a failure has a status. -/
inductive Outcome
  | success (s : StringCopy)
  | failure (status : ℕ)

/-- `StringCopy::from_data`: `take(LIMIT).read_to_string`. -/
def from_data (data : Bytes) : Outcome :=
  let string := data.take LIMIT
  if h : Valid string then .success ⟨string, h⟩ else .failure 500

/-- A `POST` request: when the guard fails, the handler does not run. -/
def post (data : Bytes) (handler : StringCopy → Rust ε α) : Rust ε α :=
  match from_data data with
  | .success s => handler s
  | .failure status => err (.status status)

/-- `percent_decode_str(&str_data).decode_utf8()?`. -/
def percent_decode (rt : Runtime ε) (str_data : Bytes) : Rust ε Bytes :=
  if Valid (rt.percent_decode_str str_data) then pure (rt.percent_decode_str str_data)
  else err .utf8

/-! ### The common part -/

/-- The routes that run a module. -/
inductive Endpoint
  | jpeg_resize_c
  | msghash_check_c
  | fib_c
  | html_template
  | echo_server
  | tflite
  | xml_to_json
  deriving DecidableEq, Repr

/-- The name of the route, and of its module. -/
def Endpoint.name : Endpoint → Bytes
  | jpeg_resize_c => lit "jpeg_resize_c"
  | msghash_check_c => lit "msghash_check_c"
  | fib_c => lit "fib_c"
  | html_template => lit "html_template"
  | echo_server => lit "echo_server"
  | tflite => lit "tflite"
  | xml_to_json => lit "xml_to_json"

/-- The kind of result the handler expects. -/
def Endpoint.expects : Endpoint → Kind
  | jpeg_resize_c => .byteArray
  | _ => .string

/-- The `match` of the handlers on `CURRENT_RESULT`. -/
def payload_of : Kind → ModuleResult → Option Bytes
  | .byteArray, .byteArray b => some b
  | .string, .string s => some s
  | _, _ => none

/-- A `Result` that is kept for later: only a panic goes on. -/
def attempt (x : Rust ε α) : Rust ε (Except (Error ε) α) := fun h =>
  match x h with
  | .ok a h' => .ok (.ok a) h'
  | .error (.err e) h' => .ok (.error e) h'
  | .error (.panic p) h' => .error (.panic p) h'

/-- The operator `?` on a kept `Result`. -/
def propagate : Except (Error ε) α → Rust ε α
  | .ok a => pure a
  | .error e => err e

def set_current_result (r : ModuleResult) : Rust ε Unit :=
  modify fun h => { h with current_result := r }

/-- Clones the result of the expected kind and resets the cell. -/
def take_result (kind : Kind) : Rust ε Bytes := do
  match payload_of kind (← get).current_result with
  | some body => do
    set_current_result .none
    pure body
  | none => panic .unexpected_response

/-- **The common part of the handlers.** -/
def serve (rt : Runtime ε) (dir : Bytes) (endpoint : Endpoint) (protection : Bytes)
    (input : List Bytes) (enable_file_access : Bool) : Rust ε Bytes := do
  let aslr := contains protection (lit "_aslr")
  let inst ← attempt
    (create_wasm_instance rt endpoint.name protection input aslr dir enable_file_access)
  set_current_result .none
  let is_returned ← run rt (← propagate inst)
  if !is_returned then panic .yielded
  else take_result endpoint.expects

/-! ### The handlers -/

section

variable (rt : Runtime ε) (dir : Bytes)

def jpeg_resize_c (quality protection : Bytes) : Rust ε Bytes :=
  serve rt dir .jpeg_resize_c protection [[], quality] false

def msghash_check_c (msg : StringCopy) (hash protection : Bytes) : Rust ε Bytes := do
  let msg_decoded ← percent_decode rt msg.string
  serve rt dir .msghash_check_c protection [[], msg_decoded, hash] false

def fib_c (num protection : Bytes) : Rust ε Bytes :=
  serve rt dir .fib_c protection [[], num] false

def html_template (protection : Bytes) : Rust ε Bytes :=
  serve rt dir .html_template protection [[]] false

def echo_server (msg protection : Bytes) : Rust ε Bytes :=
  serve rt dir .echo_server protection [[], msg] false

def tflite (protection : Bytes) : Rust ε Bytes :=
  serve rt dir .tflite protection [[]] true

def xml_to_json (xml : StringCopy) (protection : Bytes) : Rust ε Bytes := do
  let xml_decoded ← percent_decode rt xml.string
  serve rt dir .xml_to_json protection [[], xml_decoded] false

end

/-! ### What the common part does -/

/-- What a handler answers after a run of its guest. -/
def answer_of (endpoint : Endpoint) (b : Behaviour ε) : Except (Fault ε) Bytes :=
  match b.stop with
  | .err e => .error (.err (.external e))
  | .yielded => .error (.panic .yielded)
  | .returned =>
    match payload_of endpoint.expects (after .none b.calls) with
    | some body => .ok body
    | none => .error (.panic .unexpected_response)

/-- What the run leaves in `CURRENT_RESULT`: only an answer `Ok` resets it. -/
def cell_of (endpoint : Endpoint) (b : Behaviour ε) : ModuleResult :=
  match answer_of endpoint b with
  | .ok _ => .none
  | .error _ => after .none b.calls

section

variable (rt : Runtime ε) (dir : Bytes) (endpoint : Endpoint) (protection : Bytes)
  (input : List Bytes) (enable_file_access : Bool) (h : Host)

/-- **All outcomes of the common part.** -/
theorem serve_apply : serve rt dir endpoint protection input enable_file_access h =
    match create_wasm_instance rt endpoint.name protection input
      (contains protection (lit "_aslr")) dir enable_file_access h with
    | .error (.panic p) h' => .error (.panic p) h'
    | .error (.err e) h' => .error (.err e) { h' with current_result := .none }
    | .ok inst h' => of_except (answer_of endpoint (rt.run inst))
        { h' with
          runs := h'.runs ++ [inst], current_result := cell_of endpoint (rt.run inst) } := by
  rcases hc : create_wasm_instance rt endpoint.name protection input
    (contains protection (lit "_aslr")) dir enable_file_access h with ⟨inst, h'⟩ | ⟨f, h'⟩
  · have hserve : serve rt dir endpoint protection input enable_file_access h =
        match run rt inst { h' with current_result := .none } with
        | .ok true h'' => take_result endpoint.expects h''
        | .ok false h'' => .error (.panic .yielded) h''
        | .error f h'' => .error f h'' := by
      simp only [serve, attempt, hc, set_current_result, propagate, bind_apply, modify_apply,
        pure_apply]
      rcases run rt inst { h' with current_result := .none } with ⟨_ | _, h''⟩ | ⟨f, h''⟩ <;> rfl
    rw [hserve]
    rcases hs : (rt.run inst).stop with _ | _ | e
    · rcases hp : payload_of endpoint.expects (after .none (rt.run inst).calls) with _ | body
      all_goals simp [run, hs, take_result, set_current_result, answer_of, cell_of, hp]
    · simp [run, answer_of, cell_of, hs]
    · simp [run, answer_of, cell_of, hs]
  · rcases f with e | p
    all_goals simp [serve, attempt, hc, set_current_result, propagate]

/-- **A request leaves `MODULE_MAP` as it is** and adds its own load to the history. -/
theorem serve_host :
    let h' := (outcome (serve rt dir endpoint protection input enable_file_access h)).2
    h'.module_map = h.module_map ∧ h'.loads = h.loads ++
      aslr_loads endpoint.name protection (contains protection (lit "_aslr")) dir := by
  have hcreate := create_wasm_instance_host rt endpoint.name protection input
    (contains protection (lit "_aslr")) dir enable_file_access h
  rw [serve_apply]
  rcases hc : create_wasm_instance rt endpoint.name protection input
    (contains protection (lit "_aslr")) dir enable_file_access h with ⟨i, h1⟩ | ⟨f, h1⟩
  · rw [hc, outcome_ok] at hcreate
    simp [show h1 = _ from hcreate]
  · rw [hc, outcome_error] at hcreate
    rcases f with x | p <;> simp [show h1 = _ from hcreate]

/-- **A request runs the instance it created**, if any, and fails else. -/
theorem serve_runs :
    let r := outcome (serve rt dir endpoint protection input enable_file_access h)
    (∃ inst h', create_wasm_instance rt endpoint.name protection input
        (contains protection (lit "_aslr")) dir enable_file_access h = .ok inst h' ∧
      r.2.runs = h.runs ++ [inst]) ∨
    ((∀ inst h', create_wasm_instance rt endpoint.name protection input
        (contains protection (lit "_aslr")) dir enable_file_access h ≠ .ok inst h') ∧
      r.2.runs = h.runs ∧ ∃ f, r.1 = .error f) := by
  have hcreate := create_wasm_instance_host rt endpoint.name protection input
    (contains protection (lit "_aslr")) dir enable_file_access h
  rw [serve_apply]
  rcases hc : create_wasm_instance rt endpoint.name protection input
    (contains protection (lit "_aslr")) dir enable_file_access h with ⟨i, h1⟩ | ⟨f, h1⟩
  · rw [hc, outcome_ok] at hcreate
    exact Or.inl ⟨i, h1, rfl, by simp [show h1 = _ from hcreate]⟩
  · rw [hc, outcome_error] at hcreate
    refine Or.inr ⟨by simp, ?_⟩
    rcases f with x | p <;> simp [show h1 = _ from hcreate]

end

/-- The result is the last hostcall's, if that has the expected kind. -/
theorem payload_of_after (k : Kind) (calls : List Hostcall) :
    payload_of k (after .none calls) =
      (calls.getLast?.filter fun c => c.kind = k).map Hostcall.payload := by
  rcases List.eq_nil_or_concat calls with rfl | ⟨calls, c, rfl⟩
  · cases k <;> rfl
  · rw [List.concat_eq_append, after_append, List.getLast?_append_cons]
    obtain ⟨kind, payload⟩ := c
    cases k <;> cases kind <;> rfl

theorem payload_of_eq_some {k : Kind} {calls : List Hostcall} {body : Bytes} :
    payload_of k (after .none calls) = some body ↔ calls.getLast? = some ⟨k, body⟩ := by
  rw [payload_of_after, Option.map_eq_some_iff]
  constructor
  · rintro ⟨c, hc, rfl⟩
    obtain ⟨hc, hk⟩ := Option.filter_eq_some_iff.mp hc
    rw [hc, ← of_decide_eq_true hk]
  · intro hc
    exact ⟨⟨k, body⟩, by rw [hc]; simp [Option.filter], rfl⟩

end HfiWebserver.Server.Handlers
