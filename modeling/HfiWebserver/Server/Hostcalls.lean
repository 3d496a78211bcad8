import HfiWebserver.Lib.ByteStrings
import HfiWebserver.Lib.Memory

/-! # The result hostcalls

A guest hands its result to the server by `server_module_bytearr_result` or
`server_module_string_result`: a 32-bit offset into its linear memory and a 32-bit length. Both make
a slice by pointer arithmetic on the start of the heap, copy it out with `copy_data_out` (under the
MPK domain of the whole memory when the protection contains `cet`) and store the copy in
`CURRENT_RESULT`.

The heap of an instance is a region of accessible bytes inside an address space reserved by
`create_wasm_instance`, so the address arithmetic does not wrap; a read answers `none` outside the
accessible bytes. A `String` holds whatever bytes the guest gave, since the conversion is unchecked.

`bytearr_eq` and `string_eq` say what a hostcall does in all cases; `hostcalls_confined_iff` is the
exact condition under which it stays inside the accessible memory. -/

namespace HfiWebserver.Server.Hostcalls

open HfiWebserver.Lib.ByteStrings HfiWebserver.Lib.Memory

/-- What a module has answered. -/
inductive ModuleResult
  | none
  | byteArray (b : Bytes)
  | string (s : Bytes)
  deriving DecidableEq, Repr

/-- `heap_memory_size` of the instance limits. -/
def heap_memory_size : ℕ := 4 * 1024 * 1024 * 1024

/-- `heap_address_space_size` of the instance limits. -/
def heap_address_space_size : ℕ := 8 * 1024 * 1024 * 1024

/-- **The heap of an instance**: its accessible bytes, inside the reserved address space. -/
structure Heap extends Region UInt8 where
  accessible : cells.length ≤ heap_memory_size
  reserved : base + heap_address_space_size ≤ 2 ^ 64

/-- The context of the calling instance: its heap, and the embedded protection. -/
structure Vmctx where
  heap : Heap
  embed_ctx : Bytes

/-- A slice made by `slice::from_raw_parts`: the pointer and the length are not checked. -/
structure RawSlice where
  ptr : ℕ
  len : ℕ

/-- `to_vec`: reads every byte of the slice, `none` when one is not accessible. -/
def RawSlice.to_vec (s : RawSlice) (h : Heap) : Option Bytes := h.loadN s.ptr s.len

/-- The MPK functions of `cranelift_spectre::runtime`, on the protection-key register. -/
structure Mpk where
  get_curr_mpk_domain : UInt32 → UInt32
  mpk_allow_all_mem : UInt32 → UInt32
  set_curr_mpk_domain : UInt32 → UInt32 → UInt32

section Calls
variable (mpk : Mpk)

/-- `copy_data_out`, with the protection-key register as state. -/
def copy_data_out (h : Heap) (response_slice : RawSlice) (use_mpk : Bool) (pkru : UInt32) :
    Option (Bytes × UInt32) :=
  if !use_mpk then
    (response_slice.to_vec h).map fun v => (v, pkru)
  else
    let domain := mpk.get_curr_mpk_domain pkru
    let pkru := mpk.mpk_allow_all_mem pkru
    (response_slice.to_vec h).map fun v => (v, mpk.set_curr_mpk_domain domain pkru)

/-- `server_module_bytearr_result`: the new `CURRENT_RESULT`, `none` when a byte outside the
accessible memory is read. -/
def server_module_bytearr_result (vmctx : Vmctx) (byte_arr bytes : UInt32)
    (_current_result : ModuleResult) (pkru : UInt32) : Option (ModuleResult × UInt32) :=
  let heap := vmctx.heap
  let byte_arr_ptr := (heap.base + byte_arr.toNat) % 2 ^ 64
  let response_slice : RawSlice := ⟨byte_arr_ptr, bytes.toNat⟩
  let protection := vmctx.embed_ctx
  let use_mpk := contains protection (lit "cet")
  (copy_data_out mpk heap response_slice use_mpk pkru).map fun (v, pkru) =>
    (.byteArray v, pkru)

/-- `server_module_string_result`: `String::from_utf8_unchecked` takes the bytes as they are. -/
def server_module_string_result (vmctx : Vmctx) (string_resp bytes : UInt32)
    (_current_result : ModuleResult) (pkru : UInt32) : Option (ModuleResult × UInt32) :=
  let heap := vmctx.heap
  let byte_arr_ptr := (heap.base + string_resp.toNat) % 2 ^ 64
  let response_slice : RawSlice := ⟨byte_arr_ptr, bytes.toNat⟩
  let protection := vmctx.embed_ctx
  let use_mpk := contains protection (lit "cet")
  (copy_data_out mpk heap response_slice use_mpk pkru).map fun (v, pkru) =>
    let str_buf := v
    (.string str_buf, pkru)

/-! ### What a hostcall does -/

/-- The bytes `heap[offset .. offset + length]`. -/
def window (h : Heap) (offset length : UInt32) : Bytes :=
  (h.cells.drop offset.toNat).take length.toNat

/-- The window lies in the accessible memory; the sum is taken over the integers. -/
def InHeap (h : Heap) (offset length : UInt32) : Prop :=
  offset.toNat + length.toNat ≤ h.cells.length

instance (h : Heap) (offset length : UInt32) : Decidable (InHeap h offset length) := by
  unfold InHeap; infer_instance

/-- The address arithmetic stays inside the reserved address space. -/
theorem ptr_eq (h : Heap) (offset : UInt32) :
    (h.base + offset.toNat) % 2 ^ 64 = h.base + offset.toNat := by
  have h1 := h.reserved
  have h2 := offset.toNat_lt
  unfold heap_address_space_size at h1
  exact Nat.mod_eq_of_lt (by omega)

theorem to_vec_eq (h : Heap) (offset length : UInt32) :
    RawSlice.to_vec ⟨(h.base + offset.toNat) % 2 ^ 64, length.toNat⟩ h =
      if length = 0 ∨ InHeap h offset length then some (window h offset length) else none := by
  have h0 : length.toNat = 0 ↔ length = 0 := by
    rw [← UInt32.toNat_inj, UInt32.toNat_zero]
  rw [RawSlice.to_vec, ptr_eq, Region.loadN_eq]
  exact if_congr (or_congr_left h0) rfl rfl

theorem copy_data_out_eq (h : Heap) (offset length : UInt32) (use_mpk : Bool) (pkru : UInt32) :
    ∃ pkru', copy_data_out mpk h ⟨(h.base + offset.toNat) % 2 ^ 64, length.toNat⟩ use_mpk pkru =
      if length = 0 ∨ InHeap h offset length then some (window h offset length, pkru')
      else none := by
  unfold copy_data_out
  rw [to_vec_eq]
  cases use_mpk
  · refine ⟨pkru, ?_⟩
    by_cases hb : length = 0 ∨ InHeap h offset length <;> simp [hb]
  · refine ⟨mpk.set_curr_mpk_domain (mpk.get_curr_mpk_domain pkru)
      (mpk.mpk_allow_all_mem pkru), ?_⟩
    by_cases hb : length = 0 ∨ InHeap h offset length <;> simp [hb]

/-- **What `server_module_bytearr_result` does**: it stores the window, unless that has a byte
outside the accessible memory. -/
theorem bytearr_eq (vm : Vmctx) (offset length : UInt32) (cell : ModuleResult) (pkru : UInt32) :
    ∃ pkru', server_module_bytearr_result mpk vm offset length cell pkru =
      if length = 0 ∨ InHeap vm.heap offset length then
        some (.byteArray (window vm.heap offset length), pkru') else none := by
  obtain ⟨pkru', h⟩ := copy_data_out_eq mpk vm.heap offset length
    (contains vm.embed_ctx (lit "cet")) pkru
  refine ⟨pkru', ?_⟩
  simp only [server_module_bytearr_result, h]
  split_ifs <;> rfl

theorem string_eq (vm : Vmctx) (offset length : UInt32) (cell : ModuleResult) (pkru : UInt32) :
    ∃ pkru', server_module_string_result mpk vm offset length cell pkru =
      if length = 0 ∨ InHeap vm.heap offset length then
        some (.string (window vm.heap offset length), pkru') else none := by
  obtain ⟨pkru', h⟩ := copy_data_out_eq mpk vm.heap offset length
    (contains vm.embed_ctx (lit "cet")) pkru
  refine ⟨pkru', ?_⟩
  simp only [server_module_string_result, h]
  split_ifs <;> rfl

/-! ### Hostcalls by their payload -/

/-- The two hostcalls. -/
inductive Kind
  | byteArray
  | string
  deriving DecidableEq, Repr

/-- A hostcall that was carried out, with the bytes it copied. -/
structure Hostcall where
  kind : Kind
  payload : Bytes
  deriving DecidableEq, Repr

/-- What the hostcall leaves in `CURRENT_RESULT`. -/
def Hostcall.result : Hostcall → ModuleResult
  | ⟨.byteArray, b⟩ => .byteArray b
  | ⟨.string, b⟩ => .string b

/-- The hostcall of a kind, on the guest's window. -/
def server_module_result (vm : Vmctx) (offset length : UInt32) :
    Kind → ModuleResult → UInt32 → Option (ModuleResult × UInt32)
  | .byteArray => server_module_bytearr_result mpk vm offset length
  | .string => server_module_string_result mpk vm offset length

/-- A window in the heap is a payload: the hostcall leaves its result, whatever was there before. -/
theorem server_module_result_eq (vm : Vmctx) {offset length : UInt32}
    (hin : InHeap vm.heap offset length) (k : Kind) (cell : ModuleResult) (pkru : UInt32) :
    ∃ pkru', server_module_result mpk vm offset length k cell pkru =
      some (Hostcall.result ⟨k, window vm.heap offset length⟩, pkru') := by
  cases k with
  | byteArray =>
    obtain ⟨pkru', h⟩ := bytearr_eq mpk vm offset length cell pkru
    exact ⟨pkru', by rw [server_module_result, h, if_pos (Or.inr hin)]; rfl⟩
  | string =>
    obtain ⟨pkru', h⟩ := string_eq mpk vm offset length cell pkru
    exact ⟨pkru', by rw [server_module_result, h, if_pos (Or.inr hin)]; rfl⟩

/-! ### Confinement -/

/-- **A confined hostcall**: it reads accessible bytes only, and either stores exactly the window,
which is in the heap, or leaves `CURRENT_RESULT` as it was. -/
def Confined (vm : Vmctx) (offset length : UInt32) (result : Bytes → ModuleResult)
    (call : ModuleResult → UInt32 → Option (ModuleResult × UInt32)) : Prop :=
  ∀ cell pkru, ∃ cell' pkru', call cell pkru = some (cell', pkru') ∧
    ((InHeap vm.heap offset length ∧ cell' = result (window vm.heap offset length)) ∨ cell' = cell)

/-- A call that stores the window when it is readable is confined exactly on windows in the heap: it
never refuses, and an empty window outside the heap is stored as well. -/
theorem confined_iff {vm : Vmctx} {offset length : UInt32} {result : Bytes → ModuleResult}
    {call : ModuleResult → UInt32 → Option (ModuleResult × UInt32)}
    (hne : ∀ b, result b ≠ .none)
    (hcall : ∀ cell pkru, ∃ pkru', call cell pkru =
      if length = 0 ∨ InHeap vm.heap offset length then
        some (result (window vm.heap offset length), pkru') else none) :
    Confined vm offset length result call ↔ InHeap vm.heap offset length := by
  constructor
  · intro hc
    obtain ⟨cell', pkru1, h1, h2⟩ := hc .none 0
    obtain ⟨pkru2, h3⟩ := hcall .none 0
    rw [h1] at h3
    split_ifs at h3
    simp only [Option.some.injEq, Prod.mk.injEq] at h3
    rcases h2 with h2 | h2
    · exact h2.1
    · exact absurd (h3.1.symm.trans h2) (hne _)
  · intro hin cell pkru
    obtain ⟨pkru', h⟩ := hcall cell pkru
    rw [if_pos (Or.inr hin)] at h
    exact ⟨_, pkru', h, Or.inl ⟨hin, rfl⟩⟩

/-- **The hostcalls are confined exactly when the guest's window lies in its heap.** -/
theorem hostcalls_confined_iff (vm : Vmctx) (offset length : UInt32) :
    (Confined vm offset length .byteArray (server_module_bytearr_result mpk vm offset length) ∧
      Confined vm offset length .string (server_module_string_result mpk vm offset length)) ↔
    InHeap vm.heap offset length := by
  rw [confined_iff (by simp) (bytearr_eq mpk vm offset length),
    confined_iff (by simp) (string_eq mpk vm offset length), and_self]

end Calls

/-- An instance with one accessible page. -/
def onePage : Vmctx where
  heap :=
    { base := 2 ^ 40
      cells := List.replicate 65536 0
      accessible := by rw [List.length_replicate]; decide
      reserved := by decide }
  embed_ctx := lit "stock"

/-- A guest with one page asks for the byte right after it: the host reads outside the heap. -/
theorem hostcall_reads_past_heap :
    server_module_bytearr_result ⟨id, id, fun d _ => d⟩ onePage 65536 1 .none 0 = none ∧
      ¬ Confined onePage 65536 1 .byteArray
        (server_module_bytearr_result ⟨id, id, fun d _ => d⟩ onePage 65536 1) := by
  have hout : ¬ InHeap onePage.heap 65536 1 := by
    unfold InHeap onePage
    rw [List.length_replicate]
    decide
  have hread : server_module_bytearr_result ⟨id, id, fun d _ => d⟩ onePage 65536 1 .none 0
      = none := by
    obtain ⟨pkru', h⟩ := bytearr_eq ⟨id, id, fun d _ => d⟩ onePage 65536 1 .none 0
    rw [h, if_neg (by simp [hout])]
  refine ⟨hread, fun hc => ?_⟩
  obtain ⟨cell', pkru', h, -⟩ := hc .none 0
  rw [hread] at h
  exact absurd h (by simp)

end HfiWebserver.Server.Hostcalls
