import HfiWebserver.Guest.Programs
import HfiWebserver.Guest.Tflite
import HfiWebserver.Server.Instances
import HfiWebserver.Server.Threads

/-! # What the server answers

When the files of a started server hold the programs of the guests (`Executes`), a request is
answered with what its program makes of its own arguments: `handle_answers`, and on worker threads
side by side `interleaved_answers`. Which requests panic was decided when the server was started. -/

namespace HfiWebserver.Server.Answers

open HfiWebserver.Lib HfiWebserver.Lib.ByteStrings HfiWebserver.Lib.StdPath
open HfiWebserver.Server.Hostcalls HfiWebserver.Server.World HfiWebserver.Server.ServiceDirectory
open HfiWebserver.Server.WasmModule HfiWebserver.Server.Handlers HfiWebserver.Server.Requests
open HfiWebserver.Server.Aslr HfiWebserver.Server.Instances HfiWebserver.Guest

variable {ε : Type}

/-! ### Programs behind the routes -/

/-- What the programs are linked with. -/
structure Libraries (F P : Type) [LinearOrder P] where
  crypto_hash_sha256 : Bytes → MsgHash.Digest
  secondvalue : F
  malloc : ℕ → Bool
  img : JpegResize.Image
  encode : JpegResize.Encoder
  network : Tflite.Environment P

section

variable {F P : Type} [Template.FloatText F] [LinearOrder P] [Zero P] (lib : Libraries F P)

/-- The program of a route. -/
def main : Endpoint → List Bytes → Option Bytes
  | .jpeg_resize_c => Programs.jpeg_resize_c lib.malloc lib.img lib.encode
  | .msghash_check_c => Programs.msghash_check_c lib.crypto_hash_sha256
  | .fib_c => Programs.fib_c
  | .html_template => HtmlTemplate.main lib.secondvalue
  | .echo_server => Programs.echo_server
  | .tflite => Tflite.main lib.network
  | .xml_to_json => Programs.xml_to_json

/-- The call that the program of a route ends with. -/
def hostcall : Endpoint → Bytes → Hostcall
  | .jpeg_resize_c, result => ⟨.byteArray, result⟩
  | _, result => ⟨.string, result⟩

/-- **The runtime runs the program in the file of a module**: an instance hands over what its program
makes of its arguments and returns, or ends with an error, as after a trap. -/
def Executes (rt : Runtime ε) (dir : Bytes) (e : Endpoint) : Prop :=
  ∀ (inst : InstanceHandle) (p : Bytes), sep ∉ p → inst.dl_module.path = join dir (file e p) →
    (∃ x, (rt.run inst).stop = .err x) ∨ ∃ result, main lib e inst.wasi_ctx.args = some result ∧
      rt.run inst = ⟨[hostcall e result], .returned⟩

/-- **What the answer of a request means**, from its query and its body. -/
def Means (rt : Runtime ε) : Request → Bytes → Prop
  | .jpeg_resize_c quality _, answer => CString.strtol quality ≠ 0 ∧
    answer = lib.encode (CString.strtol quality) lib.img.output_width lib.img.output_height
      (JpegResize.scanlines_of lib.malloc lib.img) ∧
    -- the conditions of the hand-over
    (lib.malloc (JpegResize.requested lib.img) = true → lib.img.output_components = 3 →
      lib.img.output_width * lib.img.output_height * 3 < 2 ^ 32 →
      JpegResize.scanlines_of lib.malloc lib.img = Programs.decoded_rows lib.img)
  | .msghash_check_c body hash _, answer => ∃ msg, decode rt body = .ok msg ∧
    answer = Programs.verdict hash (MsgHash.hex_encoding (lib.crypto_hash_sha256 msg).toList)
  | .fib_c num _, answer => answer =
    Numeral.decimal (Fib.number (UInt32.ofInt (CString.atoi num)).toNat % 2 ^ 32) ++ lit "\n"
  | .html_template _, answer => answer = HtmlTemplate.page lib.secondvalue
  | .echo_server msg _, answer => answer = msg
  | .tflite _, answer => ∃ values output f, Tflite.Shows lib.network.inputData values ∧
    lib.network.interpreter.Invoke values = some (output, f) ∧
    Tflite.Best lib.network.image_classes f answer
  | .xml_to_json body _, answer => ∃ xml nodes members, decode rt body = .ok xml ∧
    XmlGrammar.Document nodes (Rapidxml.parse_bom xml) ∧
    List.Forall₂ XmlAnswer.IsEntry nodes members ∧
    answer = RapidjsonRoundTrip.text (.object members)

variable {lib}

theorem means_of_main {rt : Runtime ε} {r : Request} {input : List Bytes} {answer : Bytes}
    (hinput : input_of rt r = .ok input) (h0 : ∀ a ∈ input, 0 ∉ a)
    (h : main lib r.endpoint input = some answer) : Means lib rt r answer := by
  cases r with
  | jpeg_resize_c quality p =>
    cases hinput
    exact Programs.of_jpeg_resize_c h
  | tflite p =>
    have h : Tflite.main lib.network input = some answer := h
    exact (Tflite.of_main h).2.2
  | echo_server msg p =>
    cases hinput
    have hecho := @Programs.echo_server_eq [] msg (h0 msg (by simp))
    exact Option.some.inj (h.symm.trans hecho)
  | fib_c num p =>
    cases hinput
    exact Option.some.inj (h.symm.trans (Programs.fib_c_eq [] num))
  | html_template p =>
    exact Option.some.inj (h.symm.trans (HtmlTemplate.main_eq lib.secondvalue input))
  | msghash_check_c body hash p =>
    obtain ⟨msg, hd, rfl⟩ := Fallible.map_eq_ok.mp hinput
    exact ⟨msg, hd, Programs.of_msghash_check_c h⟩
  | xml_to_json body p =>
    obtain ⟨xml, hd, rfl⟩ := Fallible.map_eq_ok.mp hinput
    obtain ⟨nodes, members, hdoc, hm, htext⟩ := Programs.of_xml_to_json (h0 xml (by simp)) h
    exact ⟨xml, nodes, members, hd, hdoc, hm, htext⟩

/-- Every program ends with the call that its handler expects. -/
theorem hostcall_eq (e : Endpoint) (result : Bytes) : hostcall e result = ⟨e.expects, result⟩ := by
  cases e <;> rfl

/-- What the handlers make of a run of the program. -/
theorem answer_of_executed {e : Endpoint} {b : Behaviour ε} {o : Option Bytes}
    (h : (∃ x, b.stop = .err x) ∨
      ∃ result, o = some result ∧ b = ⟨[hostcall e result], .returned⟩) :
    (∃ x, answer_of e b = .error (.err x)) ∨
      ∃ result, o = some result ∧ answer_of e b = .ok result := by
  rcases h with ⟨x, hx⟩ | ⟨result, ho, rfl⟩
  · exact Or.inl ⟨.external x, by simp [answer_of, hx]⟩
  · refine Or.inr ⟨result, ho, ?_⟩
    have hpayload : payload_of e.expects (after .none [hostcall e result]) = some result := by
      rw [hostcall_eq]
      cases e <;> rfl
    simp [answer_of, hpayload]

/-! ### Panics -/

/-- **The module of a request was deployed**: with `_aslr` in the protection its file can be loaded
now, else it was in the directory at the start, and could be loaded then. -/
def Deployed (rt rt' : Runtime ε) (dir : Bytes) (read_dir : Except ε (List (Except ε EntryName)))
    (r : Request) : Prop :=
  if lit "_aslr" <:+: r.protection then
    rt'.load_aslr (aslr_path r.endpoint.name r.protection dir) true = .ok ()
  else Listed read_dir (file r.endpoint r.protection) ∧
    Loadable rt dir (module_name r.endpoint.name r.protection)

theorem available_iff {rt rt' : Runtime ε} {dir : Bytes}
    {read_dir : Except ε (List (Except ε EntryName))} {h : Host} (hs : Serving rt dir read_dir h)
    (r : Request) : ModuleAvailable rt' dir h r ↔ Deployed rt rt' dir read_dir r := by
  obtain ⟨names, rfl, hst⟩ := serving_started hs
  unfold ModuleAvailable Deployed
  split_ifs with hp
  · exact Iff.rfl
  · rw [listed_iff]
    constructor
    · rintro ⟨-, m, hm⟩
      by_contra hno
      rw [hst.absent _ hno] at hm
      cases hm
    · rintro ⟨hin, hload⟩
      obtain ⟨m, hm, -⟩ := hst.found _ hin hload
      exact ⟨hst.not_poisoned, m, hm⟩

section

variable {rt rt' : Runtime ε} {dir : Bytes} {read_dir : Except ε (List (Except ε EntryName))}
  {h : Host} (hs : Serving rt dir read_dir h) {r : Request}
  (hx : Executes lib rt' dir r.endpoint) (hp : sep ∉ r.protection)
include hs hx hp

/-- A created instance runs the program of the request on its arguments. -/
theorem executed {input : List Bytes} {inst : InstanceHandle} {h' : Host}
    (hc : create_wasm_instance rt' r.endpoint.name r.protection input
      (contains r.protection (lit "_aslr")) dir r.file_access h = .ok inst h') :
    (∃ x, answer_of r.endpoint (rt'.run inst) = .error (.err x)) ∨
      ∃ result, main lib r.endpoint input = some result ∧
        answer_of r.endpoint (rt'.run inst) = .ok result := by
  obtain ⟨hm, -, hargs, -⟩ := of_create_wasm_instance hc
  have hpath := (ownModules_of_serving hs).module_for hm
  rw [← hargs]
  exact answer_of_executed (hx inst _ hp hpath)

/-- **Which requests panic**, in every state the server can reach: those whose arguments are fine
but whose module was not deployed, and those to `tflite` when `/` cannot be opened. -/
theorem handle_panics : (∃ p h', handle rt' dir r h = .error (.panic p) h') ↔
    (∃ input, input_of rt' r = .ok input) ∧ (¬ Deployed rt rt' dir read_dir r ∨
      (r.file_access = true ∧ ∃ e, rt'.open_root = .error e)) := by
  rw [handle_apply, ← available_iff hs]
  rcases hi : input_of rt' r with e | input
  · simp
  have hcp := create_panics_iff rt' dir h r input
  simp only [← hcp, Except.ok.injEq, exists_eq', true_and, serve_apply]
  rcases hc : create_wasm_instance rt' r.endpoint.name r.protection input
    (contains r.protection (lit "_aslr")) dir r.file_access h with ⟨inst, h1⟩ | ⟨e | p, h1⟩
  · rcases executed hs hx hp hc with ⟨x, hans⟩ | ⟨result, -, hans⟩ <;> simp [hans]
  · simp
  · simp

/-- An answer is what the program makes of the arguments of the request. -/
theorem main_of_handle {answer : Bytes} {h' : Host} (hok : handle rt' dir r h = .ok answer h') :
    ∃ input, input_of rt' r = .ok input ∧ (∀ a ∈ input, 0 ∉ a) ∧
      main lib r.endpoint input = some answer := by
  rw [handle_apply] at hok
  rcases hi : input_of rt' r with e | input <;> simp only [hi] at hok
  · cases hok
  rw [serve_apply] at hok
  rcases hc : create_wasm_instance rt' r.endpoint.name r.protection input
    (contains r.protection (lit "_aslr")) dir r.file_access h with ⟨inst, h1⟩ | ⟨e | p, h1⟩ <;>
    simp only [hc] at hok
  · rcases executed hs hx hp hc with ⟨x, hans⟩ | ⟨result, hresult, hans⟩ <;>
      simp only [hans] at hok
    · cases hok
    · cases hok
      exact ⟨input, rfl, (of_create_wasm_instance hc).2.2.2, hresult⟩
  · cases hok
  · cases hok

theorem means_of_handle {answer : Bytes} {h' : Host} (hok : handle rt' dir r h = .ok answer h') :
    Means lib rt' r answer := by
  obtain ⟨input, hi, h0, h⟩ := main_of_handle hs hx hp hok
  exact means_of_main hi h0 h

end

/-! ### Programs as guests -/

instance : Template.FloatText Unit := ⟨fun _ => lit "12.123", fun _ => false⟩

/-- Libraries that answer little. -/
def libraries : Libraries Unit ℕ where
  crypto_hash_sha256 _ := MsgHash.digest_abc
  secondvalue := ()
  malloc _ := true
  img := JpegResize.pixel
  encode _ _ _ _ := []
  network := ⟨⟨none, false, false, none, fun _ => none, fun _ => none⟩, fun _ => true, fun _ => 0,
    Vector.replicate _ [], Tflite.mergeSort⟩

/-- A guest that runs the program of a route. -/
def guestOf (e : Endpoint) (inst : InstanceHandle) : Behaviour Unit :=
  match main libraries e inst.wasi_ctx.args with
  | some result => ⟨[hostcall e result], .returned⟩
  | none => ⟨[], .err ()⟩

/-- The runtime of such guests. -/
def running (e : Endpoint) : Runtime Unit := obliging (guestOf e)

theorem executes_running (e : Endpoint) (dir : Bytes) :
    Executes libraries (running e) dir e := by
  intro inst p _ _
  show (∃ x, (guestOf e inst).stop = .err x) ∨
    ∃ result, main libraries e inst.wasi_ctx.args = some result ∧
      guestOf e inst = ⟨[hostcall e result], .returned⟩
  unfold guestOf
  rcases main libraries e inst.wasi_ctx.args with _ | result
  · exact Or.inl ⟨(), rfl⟩
  · exact Or.inr ⟨result, rfl, rfl⟩

/-- The query of a request is UTF-8, as its type `String` says. -/
def QueryValid : Request → Prop
  | .echo_server msg _ => Valid msg
  | .msghash_check_c _ hash _ => Valid hash
  | _ => True

theorem valid_of_decode {rt : Runtime ε} {body text : Bytes} (h : decode rt body = .ok text) :
    Valid text := by
  unfold decode at h
  split at h
  · cases h
  · split_ifs at h with hv
    cases h
    exact hv

/-- **The server answers UTF-8** to a UTF-8 query, in every state it can reach, when the texts that
its programs are linked with are UTF-8, with two exceptions: the report of a hash check is not UTF-8
exactly when the 987 bytes that it has for the hash end inside a character, and a surrogate that a
document names is copied into the answer. -/
theorem invalid_answer {rt rt' : Runtime ε} {dir : Bytes}
    {read_dir : Except ε (List (Except ε EntryName))} {h : Host} (hs : Serving rt dir read_dir h)
    {r : Request} (hx : Executes lib rt' dir r.endpoint) (hp : sep ∉ r.protection)
    (hstring : r.endpoint.expects = .string) (hq : QueryValid r)
    (hfloat : Valid (Template.FloatText.toString lib.secondvalue))
    (hclasses : ∀ c ∈ lib.network.image_classes, Valid c) {answer : Bytes} {h' : Host}
    (hok : handle rt' dir r h = .ok answer h') :
    (∀ body hash p, r = .msghash_check_c body hash p →
      (¬ Valid answer ↔ ¬ Valid (hash.take 987))) ∧
    (¬ Valid answer → (∃ body hash p, r = .msghash_check_c body hash p) ∨
      ∃ body p xml ref, r = .xml_to_json body p ∧ decode rt' body = .ok xml ∧
        XmlUtf8.SurrogateReference ref ∧ ref <:+: xml) := by
  obtain ⟨input, hinput, h0, hrun⟩ := main_of_handle hs hx hp hok
  have hmeans := means_of_main hinput h0 hrun
  constructor
  · rintro body hash p rfl
    obtain ⟨msg, -, rfl⟩ := hmeans
    exact (Programs.valid_verdict_iff hq fun c hc => Programs.lt_of_mem_hex_encoding hc).not
  intro hno
  cases r with
  | jpeg_resize_c quality p => cases hstring
  | tflite p =>
    obtain ⟨-, -, f, -, -, i, hi, rfl, -⟩ := hmeans
    exact absurd (XmlUtf8.valid_c_str (hclasses _ (Vector.getElem_mem hi))) hno
  | echo_server msg p =>
    obtain rfl : answer = msg := hmeans
    exact absurd hq hno
  | fib_c num p => exact absurd (Programs.valid_fib_c hrun) hno
  | html_template p =>
    obtain rfl : answer = HtmlTemplate.page lib.secondvalue := hmeans
    exact absurd (Programs.valid_html_template hfloat) hno
  | msghash_check_c body hash p =>
    exact Or.inl ⟨body, hash, p, rfl⟩
  | xml_to_json body p =>
    obtain ⟨xml, hd, rfl⟩ := Fallible.map_eq_ok.mp hinput
    by_contra hnone
    refine hno (Programs.valid_xml_to_json (valid_of_decode hd) (fun ref href hin => ?_) hrun)
    exact hnone (Or.inr ⟨body, p, xml, ref, rfl, hd, href, hin⟩)

theorem invalid_answer_surrogate :
    let h := register (obliging someGuest) (lit "modules") Host.boot (lit "fib_c_aslr")
    ∃ answer h', handle (running .xml_to_json) (lit "modules")
        (.xml_to_json (lit "<a>&#xD800;</a>") (lit "stock_aslr")) h = .ok answer h' ∧
      ¬ Valid answer ∧
      ∃ ref, XmlUtf8.SurrogateReference ref ∧ ref <:+: lit "<a>&#xD800;</a>" := by
  intro h
  set answer := lit "\x7b\"a\":\"" ++ [0xED, 0xA0, 0x80] ++ lit "\"\x7d" with hanswer
  have hno : ¬ Valid answer := by decide
  obtain ⟨h', hok⟩ : ∃ h', handle (running .xml_to_json) (lit "modules")
      (.xml_to_json (lit "<a>&#xD800;</a>") (lit "stock_aslr")) h = .ok answer h' :=
    ⟨_, by with_unfolding_all rfl⟩
  refine ⟨answer, h', hok, hno, ?_⟩
  have hq : QueryValid (.xml_to_json (lit "<a>&#xD800;</a>") (lit "stock_aslr")) := trivial
  have hclasses : ∀ c ∈ libraries.network.image_classes, Valid c := fun c hc => by
    rw [Vector.eq_of_mem_replicate hc]
    exact valid_nil
  obtain ⟨-, hcause⟩ := invalid_answer (.start load_dir_fibAslr) (executes_running .xml_to_json _)
    (by decide) rfl hq (by decide) hclasses hok
  rcases hcause hno with ⟨body, hash, p, hr⟩ | ⟨body, p, xml, ref, hr, hd, href, hin⟩
  · cases hr
  · cases hr
    cases hd
    exact ⟨ref, href, hin⟩

/-! ### Worker threads -/

/-- A worker served the request `q`, for which an instance was created in the state `h`. -/
def ServedFor (rt : Runtime ε) (dir : Bytes) (h : Host) (q : Request) (r : Threads.Served ε) :
    Prop :=
  r.endpoint = q.endpoint ∧ ∃ input, input_of rt q = .ok input ∧
    r.guest = Threads.guest_of rt (outcome (create_wasm_instance rt q.endpoint.name q.protection
      input (contains q.protection (lit "_aslr")) dir q.file_access h)).1

/-- What the handler answers when it is alone. -/
theorem isolated_served {rt : Runtime ε} {dir : Bytes} {h : Host} {q : Request}
    {r : Threads.Served ε} (hq : ServedFor rt dir h q r) :
    Threads.isolated r.endpoint r.guest = (outcome (handle rt dir q h)).1 := by
  obtain ⟨he, input, hi, hg⟩ := hq
  rw [he, hg, handle_apply, hi]
  simp only [serve_apply]
  rcases create_wasm_instance rt q.endpoint.name q.protection input
    (contains q.protection (lit "_aslr")) dir q.file_access h with ⟨inst, h'⟩ | ⟨e | p, h'⟩
  · simp [Threads.guest_of, Except.map, Threads.isolated_ok]
  · rfl
  · rfl

end

/-- One thread serves the request while the other fails to create an instance. -/
def echoSteps : List (Bool × Threads.Act Unit) :=
  [(true, .request .echo_server), (false, .request .fib_c), (true, .create (.ok echoInstance)),
    (false, .create (.error (.panic (.get_failed (lit "fib_c_x"))))), (true, .reset),
    (true, .propagate), (true, .call ⟨.string, lit "hello"⟩), (true, .stop .returned),
    (true, .read), (true, .clear)]

end HfiWebserver.Server.Answers
