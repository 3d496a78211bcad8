import HfiWebserver.Lib.CString
import HfiWebserver.Lib.Loop
import HfiWebserver.Lib.Memory

/-! # The image buffer of `jpeg_resize_c`

`read_JPEG_file` decodes an image row by row into one buffer, with the stride
`output_width * output_components`, and `write_JPEG_file` takes the rows out of it with the stride
`image_width * 3`. The buffer has `output_width * output_height * 3` bytes, a product in the 32-bit
arithmetic of wasm32; the indices are 32-bit as well (the offset is the bits of the `int` index).

libjpeg is outside: a decoder delivers the rows of an `Image`, an encoder turns the scanlines it is
passed into bytes. A load from a buffer is `none` where nothing was stored.

* `read_rows`: what the buffer holds after the read loop, and which offsets were stored;
* `write_scanlines`: what the write loop passes to the encoder;
* `hand_over_iff`: the two functions agree exactly on RGB images whose size does not wrap, once the
  allocation succeeds. -/

namespace HfiWebserver.Guest.JpegResize

open HfiWebserver.Lib.ByteStrings HfiWebserver.Lib.CString HfiWebserver.Lib.Loop
open HfiWebserver.Lib.Memory

/-- An image as the decoder delivers it. -/
structure Image where
  output_width : ℕ
  output_height : ℕ
  output_components : ℕ
  row : ℕ → ℕ → UInt8
  width_bounds : 1 ≤ output_width ∧ output_width ≤ 65500
  height_bounds : 1 ≤ output_height ∧ output_height ≤ 65500
  components_mem : output_components = 1 ∨ output_components = 3 ∨ output_components = 4

/-- The allocated buffer, with the row counter and the history of the offsets stored. -/
structure ImageBuffer where
  bytes : ℕ → Option UInt8
  stored : List ℕ
  curr_image_row : ℕ

def ImageBuffer.store (k : ℕ) (b : UInt8) (s : ImageBuffer) : ImageBuffer :=
  { s with bytes := Function.update s.bytes k (some b), stored := k :: s.stored }

/-- `put_scanline_someplace`. -/
def put_scanline_someplace (rowBuffer : ℕ → UInt8) (row_stride : ℕ) (s : ImageBuffer) :
    ImageBuffer :=
  let s := forUp row_stride
    (fun i s => s.store (u32 (s.curr_image_row * row_stride + i)) (rowBuffer i)) s
  { s with curr_image_row := s.curr_image_row + 1 }

/-- The decoder's position and the buffer. -/
structure Reading where
  output_scanline : ℕ
  buffer : ImageBuffer

/-- One iteration of the read loop. -/
def read_step (img : Image) (row_stride : ℕ) (s : Reading) : Reading :=
  { output_scanline := s.output_scanline + 1
    buffer := put_scanline_someplace (img.row s.output_scanline) row_stride s.buffer }

/-- The read loop. -/
def read_loop (img : Image) (row_stride : ℕ) (s : Reading) : Reading :=
  whileDo (fun s => decide (s.output_scanline < img.output_height)) (read_step img row_stride)
    (fun s => img.output_height - s.output_scanline)
    (by
      intro s hs
      have hlt := of_decide_eq_true hs
      show img.output_height - (s.output_scanline + 1) < img.output_height - s.output_scanline
      omega) s

/-- What `read_JPEG_file` hands to `write_JPEG_file`; the buffer may be `NULL`. -/
structure Handover where
  image_height : ℕ
  image_width : ℕ
  image_buffer : Option ImageBuffer

/-- The bytes requested from `malloc`. -/
def requested (img : Image) : ℕ := u32 (u32 (img.output_width * img.output_height) * 3)

/-- `read_JPEG_file`: its return value, which is 1 also when the allocation fails. -/
def read_JPEG_file (malloc : ℕ → Bool) (img : Image) : ℕ × Handover :=
  let row_stride := u32 (img.output_width * img.output_components)
  if !malloc (requested img) then (1, ⟨img.output_height, img.output_width, none⟩)
  else
    let s := read_loop img row_stride ⟨0, ⟨fun _ => none, [], 0⟩⟩
    (1, ⟨img.output_height, img.output_width, some s.buffer⟩)

/-- A scanline as the encoder reads it from the buffer. -/
abbrev Scanline := List (Option UInt8)

/-- The encoder's position and the scanlines it was passed. -/
structure Writing where
  next_scanline : ℕ
  scanlines : List Scanline

/-- A byte of the buffer; `NULL` has none. -/
def load (image_buffer : Option ImageBuffer) (k : ℕ) : Option UInt8 :=
  image_buffer.bind fun b => b.bytes (u32 k)

/-- One iteration of the write loop: `jpeg_write_scanlines` reads `width * 3` bytes. -/
def write_step (j : Handover) (row_stride : ℕ) (s : Writing) : Writing :=
  { next_scanline := s.next_scanline + 1
    scanlines := s.scanlines ++ [(List.range (j.image_width * 3)).map fun i =>
      load j.image_buffer (u32 (s.next_scanline * row_stride) + i)] }

/-- The write loop. -/
def write_loop (j : Handover) (row_stride : ℕ) (s : Writing) : Writing :=
  whileDo (fun s => decide (s.next_scanline < j.image_height)) (write_step j row_stride)
    (fun s => j.image_height - s.next_scanline)
    (by
      intro s hs
      have hlt := of_decide_eq_true hs
      show j.image_height - (s.next_scanline + 1) < j.image_height - s.next_scanline
      omega) s

/-- The encoder, on the quality, the width, the height and the scanlines. -/
abbrev Encoder := ℤ → ℕ → ℕ → List Scanline → Bytes

/-- `write_JPEG_file`: its return value, the scanlines passed, and the bytes of the hostcall. -/
def write_JPEG_file (encode : Encoder) (quality : ℤ) (j : Handover) : ℕ × List Scanline × Bytes :=
  let row_stride := u32 (j.image_width * 3)
  let s := write_loop j row_stride ⟨0, []⟩
  let outbuffer := encode quality j.image_width j.image_height s.scanlines
  (1, s.scanlines, outbuffer)

/-- A run of `main` that made its result hostcall. -/
structure Run where
  handover : Handover
  scanlines : List Scanline
  result : Bytes

/-- `main`; `none` is an abort. -/
def main (malloc : ℕ → Bool) (img : Image) (encode : Encoder) (argv : List Bytes) : Option Run :=
  match argv with
  | [_, arg] =>
    let quality := strtol arg
    if quality = 0 then none
    else
      let (read, j) := read_JPEG_file malloc img
      if read = 0 then none
      else
        let (written, scanlines, outbuffer) := write_JPEG_file encode quality j
        if written = 0 then none else some ⟨j, scanlines, outbuffer⟩
  | _ => none

/-! ### One row -/

/-- The loop of `put_scanline_someplace` after `n` iterations. -/
structure PutInv (row : ℕ → UInt8) (stride : ℕ) (s : ImageBuffer) (n : ℕ) (t : ImageBuffer) :
    Prop where
  curr : t.curr_image_row = s.curr_image_row
  stored : ∀ k, k ∈ t.stored ↔
    k ∈ s.stored ∨ ∃ i < n, k = u32 (s.curr_image_row * stride + i)
  bytes : s.curr_image_row * stride + n ≤ 2 ^ 32 → ∀ k, t.bytes k =
    if s.curr_image_row * stride ≤ k ∧ k < s.curr_image_row * stride + n then
      some (row (k - s.curr_image_row * stride)) else s.bytes k

theorem putInv_step {row : ℕ → UInt8} {stride n : ℕ} {s t : ImageBuffer}
    (hI : PutInv row stride s n t) :
    PutInv row stride s (n + 1) (t.store (u32 (t.curr_image_row * stride + n)) (row n)) := by
  refine ⟨hI.curr, fun k => ?_, fun hle k => ?_⟩
  · show k ∈ u32 (t.curr_image_row * stride + n) :: t.stored ↔ _
    rw [List.mem_cons, hI.stored, hI.curr]
    constructor
    · rintro (rfl | h | ⟨i, hi, rfl⟩)
      · exact Or.inr ⟨n, by omega, rfl⟩
      · exact Or.inl h
      · exact Or.inr ⟨i, by omega, rfl⟩
    · rintro (h | ⟨i, hi, rfl⟩)
      · exact Or.inr (Or.inl h)
      · rcases Nat.lt_succ_iff_lt_or_eq.mp hi with hi | rfl
        · exact Or.inr (Or.inr ⟨i, hi, rfl⟩)
        · exact Or.inl rfl
  · have hidx : u32 (t.curr_image_row * stride + n) = s.curr_image_row * stride + n := by
      rw [hI.curr]
      exact u32_of_lt (by omega)
    show Function.update t.bytes (u32 (t.curr_image_row * stride + n)) (some (row n)) k = _
    rw [hidx]
    by_cases hk : k = s.curr_image_row * stride + n
    · rw [hk, Function.update_self, if_pos (by omega), Nat.add_sub_cancel_left]
    · rw [Function.update_of_ne hk, hI.bytes (by omega)]
      exact if_congr (by omega) rfl rfl

/-- **What `put_scanline_someplace` does.** -/
theorem put_scanline (row : ℕ → UInt8) (stride : ℕ) (s : ImageBuffer) :
    let t := put_scanline_someplace row stride s
    t.curr_image_row = s.curr_image_row + 1 ∧
    (∀ k, k ∈ t.stored ↔ k ∈ s.stored ∨ ∃ i < stride, k = u32 (s.curr_image_row * stride + i)) ∧
    (s.curr_image_row * stride + stride ≤ 2 ^ 32 →
      (∀ i < stride, t.bytes (s.curr_image_row * stride + i) = some (row i)) ∧
      ∀ k < s.curr_image_row * stride, t.bytes k = s.bytes k) := by
  have h0 : PutInv row stride s 0 s := ⟨rfl, by simp, fun _ k => by rw [if_neg (by omega)]⟩
  have hI : PutInv row stride s stride (forUp stride (fun i s => s.store
      (u32 (s.curr_image_row * stride + i)) (row i)) s) :=
    forUp_inv h0 fun i t _ ht => putInv_step ht
  refine ⟨congrArg (· + 1) hI.curr, hI.stored, fun hle => ⟨fun i hi => ?_, fun k hk => ?_⟩⟩
  · have hb := hI.bytes hle (s.curr_image_row * stride + i)
    rwa [if_pos (by omega), Nat.add_sub_cancel_left] at hb
  · have hb := hI.bytes hle k
    rwa [if_neg (by omega)] at hb

/-! ### The read loop -/

/-- The read loop, before each of its tests. -/
structure ReadInv (img : Image) (stride : ℕ) (s : Reading) : Prop where
  le : s.output_scanline ≤ img.output_height
  row : s.buffer.curr_image_row = s.output_scanline
  stored : ∀ k, k ∈ s.buffer.stored ↔
    ∃ r < s.output_scanline, ∃ i < stride, k = u32 (r * stride + i)
  bytes : img.output_height * stride ≤ 2 ^ 32 → ∀ r < s.output_scanline, ∀ i < stride,
    s.buffer.bytes (r * stride + i) = some (img.row r i)

theorem readInv_step {img : Image} {stride : ℕ} {s : Reading} (hI : ReadInv img stride s)
    (hlt : s.output_scanline < img.output_height) : ReadInv img stride (read_step img stride s) := by
  obtain ⟨hcurr, hstored, hbytes⟩ :=
    put_scanline (img.row s.output_scanline) stride s.buffer
  rw [hI.row] at hcurr hstored hbytes
  refine ⟨hlt, hcurr, fun k => ?_, fun hle r hr i hi => ?_⟩
  · show k ∈ (put_scanline_someplace (img.row s.output_scanline) stride s.buffer).stored ↔
      ∃ r < s.output_scanline + 1, _
    rw [hstored, hI.stored]
    constructor
    · rintro (⟨r, hr, h⟩ | h)
      · exact ⟨r, by omega, h⟩
      · exact ⟨s.output_scanline, by omega, h⟩
    · rintro ⟨r, hr, h⟩
      rcases Nat.lt_succ_iff_lt_or_eq.mp hr with hr | rfl
      · exact Or.inl ⟨r, hr, h⟩
      · exact Or.inr h
  · have hrow : s.output_scanline * stride + stride ≤ img.output_height * stride := by
      calc s.output_scanline * stride + stride = (s.output_scanline + 1) * stride := by ring
        _ ≤ img.output_height * stride := Nat.mul_le_mul_right _ hlt
    obtain ⟨hnew, hold⟩ := hbytes (by omega)
    have hr : r < s.output_scanline + 1 := hr
    rcases Nat.lt_succ_iff_lt_or_eq.mp hr with hr | rfl
    · exact (hold _ (rowMajor_lt hr hi)).trans (hI.bytes hle r hr i hi)
    · exact hnew i hi

/-- **The buffer after the read loop**: the offsets stored are those of all samples, and when these
do not wrap, each holds its sample. -/
theorem read_rows (img : Image) (stride : ℕ) :
    let b := (read_loop img stride ⟨0, ⟨fun _ => none, [], 0⟩⟩).buffer
    (∀ k, k ∈ b.stored ↔ ∃ r < img.output_height, ∃ i < stride, k = u32 (r * stride + i)) ∧
    (img.output_height * stride ≤ 2 ^ 32 → ∀ r < img.output_height, ∀ i < stride,
      b.bytes (r * stride + i) = some (img.row r i)) := by
  have h0 : ReadInv img stride ⟨0, ⟨fun _ => none, [], 0⟩⟩ :=
    ⟨Nat.zero_le _, rfl, by simp, fun _ r hr => absurd hr (Nat.not_lt_zero r)⟩
  intro b
  have hloop : ReadInv img stride (read_loop img stride ⟨0, ⟨fun _ => none, [], 0⟩⟩) ∧
      decide ((read_loop img stride ⟨0, ⟨fun _ => none, [], 0⟩⟩).output_scanline <
        img.output_height) = false :=
    whileDo_inv h0 fun s hs hc => readInv_step hs (of_decide_eq_true hc)
  obtain ⟨hI, hexit⟩ := hloop
  have hend : (read_loop img stride ⟨0, ⟨fun _ => none, [], 0⟩⟩).output_scanline =
      img.output_height := by
    have hge := of_decide_eq_false hexit
    have hle := hI.le
    omega
  exact ⟨hend ▸ hI.stored, hend ▸ hI.bytes⟩

/-! ### The write loop -/

/-- The scanline passed for row `r`. -/
def scanline (j : Handover) (stride r : ℕ) : Scanline :=
  (List.range (j.image_width * 3)).map fun i => load j.image_buffer (u32 (r * stride) + i)

/-- **What the write loop passes to the encoder.** -/
theorem write_scanlines (j : Handover) (stride : ℕ) :
    (write_loop j stride ⟨0, []⟩).scanlines =
      (List.range j.image_height).map (scanline j stride) := by
  have hloop : ((write_loop j stride ⟨0, []⟩).next_scanline ≤ j.image_height ∧
      (write_loop j stride ⟨0, []⟩).scanlines =
        (List.range (write_loop j stride ⟨0, []⟩).next_scanline).map (scanline j stride)) ∧
      decide ((write_loop j stride ⟨0, []⟩).next_scanline < j.image_height) = false := by
    refine whileDo_inv (I := fun s : Writing => s.next_scanline ≤ j.image_height ∧
      s.scanlines = (List.range s.next_scanline).map (scanline j stride)) ⟨Nat.zero_le _, rfl⟩ ?_
    rintro s ⟨-, hs⟩ hc
    have hlt := of_decide_eq_true hc
    refine ⟨hlt, ?_⟩
    show s.scanlines ++ [scanline j stride s.next_scanline] =
      (List.range (s.next_scanline + 1)).map (scanline j stride)
    rw [List.range_succ, List.map_append, ← hs]
    rfl
  obtain ⟨⟨hle, hs⟩, hexit⟩ := hloop
  have hge := of_decide_eq_false hexit
  rw [hs, show (write_loop j stride ⟨0, []⟩).next_scanline = j.image_height by omega]

/-! ### The hand-over -/

/-- The arguments with which `main` decodes at all. -/
def GoodArgs (argv : List Bytes) : Prop := ∃ name arg, argv = [name, arg] ∧ strtol arg ≠ 0

/-- **The two functions agree on an image**: the buffer is there, every offset stored is one of the
bytes requested, and the scanlines passed to the encoder are the decoded rows. -/
def Agree (img : Image) (run : Run) : Prop :=
  ∃ b, run.handover.image_buffer = some b ∧ (∀ k ∈ b.stored, k < requested img) ∧
    run.scanlines = (List.range img.output_height).map fun r =>
      (List.range (img.output_width * img.output_components)).map fun i => some (img.row r i)

/-- **The hand-over contract of `main`**: when it comes to the result hostcall, the two functions
agree; and when the allocation fails, it does not. -/
structure HandOver (malloc : ℕ → Bool) (img : Image) (encode : Encoder) (argv : List Bytes) :
    Prop where
  agree : ∀ run, main malloc img encode argv = some run → Agree img run
  aborts : malloc (requested img) = false → main malloc img encode argv = none

theorem main_of_not_good (malloc : ℕ → Bool) (img : Image) (encode : Encoder) {argv : List Bytes}
    (h : ¬ GoodArgs argv) : main malloc img encode argv = none := by
  unfold main
  split
  · next name arg =>
    have hq : strtol arg = 0 := by
      by_contra hq
      exact h ⟨name, arg, rfl, hq⟩
    simp [hq]
  · rfl

/-- The image as `read_JPEG_file` hands it over. -/
def handover (img : Image) (image_buffer : Option ImageBuffer) : Handover :=
  ⟨img.output_height, img.output_width, image_buffer⟩

theorem stride_eq (img : Image) :
    u32 (img.output_width * img.output_components) = img.output_width * img.output_components ∧
    u32 (img.output_width * 3) = img.output_width * 3 := by
  have hw := img.width_bounds
  refine ⟨u32_of_lt ?_, u32_of_lt (by omega)⟩
  rcases img.components_mem with h | h | h <;> rw [h] <;> omega

/-- The buffer after `read_JPEG_file`. -/
def buffer_of (malloc : ℕ → Bool) (img : Image) : Option ImageBuffer :=
  if malloc (requested img) then some (read_loop img (img.output_width * img.output_components)
    ⟨0, ⟨fun _ => none, [], 0⟩⟩).buffer else none

/-- The scanlines passed to the encoder. -/
def scanlines_of (malloc : ℕ → Bool) (img : Image) : List Scanline :=
  (List.range img.output_height).map
    (scanline (handover img (buffer_of malloc img)) (img.output_width * 3))

/-- With good arguments `main` reaches the hostcall, whatever the allocation did. -/
theorem main_of_good (malloc : ℕ → Bool) (img : Image) (encode : Encoder) {argv : List Bytes}
    (h : GoodArgs argv) : ∃ result, main malloc img encode argv =
      some ⟨handover img (buffer_of malloc img), scanlines_of malloc img, result⟩ := by
  obtain ⟨name, arg, rfl, hq⟩ := h
  obtain ⟨hs1, hs2⟩ := stride_eq img
  have hread : read_JPEG_file malloc img = (1, handover img (buffer_of malloc img)) := by
    rcases hm : malloc (requested img) with _ | _ <;>
      simp [read_JPEG_file, hm, hs1, handover, buffer_of]
  have hwrite : ∃ result, write_JPEG_file encode (strtol arg) (handover img (buffer_of malloc img)) =
      (1, scanlines_of malloc img, result) := by
    simp only [write_JPEG_file, write_scanlines, handover, hs2]
    exact ⟨_, rfl⟩
  obtain ⟨result, hwrite⟩ := hwrite
  refine ⟨result, ?_⟩
  simp only [main, hq, if_false, hread, hwrite, one_ne_zero]

/-- The bytes requested, when the size does not wrap. -/
theorem requested_eq (img : Image) :
    requested img = u32 (img.output_width * img.output_height * 3) := by
  unfold requested u32
  rw [Nat.mod_mul_mod]

/-- **RGB images whose size does not wrap agree.** -/
theorem agree_of_rgb {malloc : ℕ → Bool} {img : Image} (hm : malloc (requested img) = true)
    (hc : img.output_components = 3)
    (hsize : img.output_width * img.output_height * 3 < 2 ^ 32) (result : Bytes) :
    Agree img ⟨handover img (buffer_of malloc img), scanlines_of malloc img, result⟩ := by
  have hstride : img.output_height * (img.output_width * 3) < 2 ^ 32 := by
    calc img.output_height * (img.output_width * 3)
        = img.output_width * img.output_height * 3 := by ring
      _ < 2 ^ 32 := hsize
  have hbuf : buffer_of malloc img = some (read_loop img (img.output_width * 3)
      ⟨0, ⟨fun _ => none, [], 0⟩⟩).buffer := by rw [buffer_of, hm, hc]; rfl
  obtain ⟨hstored, hbytes⟩ := read_rows img (img.output_width * 3)
  refine ⟨_, hbuf, fun k hk => ?_, ?_⟩
  · obtain ⟨r, hr, i, hi, rfl⟩ := (hstored k).mp hk
    have hlt := rowMajor_lt hr hi
    rw [requested_eq, u32_of_lt hsize, u32_of_lt (by omega)]
    calc r * (img.output_width * 3) + i < img.output_height * (img.output_width * 3) := hlt
      _ = img.output_width * img.output_height * 3 := by ring
  · refine List.map_congr_left fun r hr => ?_
    rw [hc]
    refine List.map_congr_left fun i hi => ?_
    have hr : r < img.output_height := List.mem_range.mp hr
    have hi : i < img.output_width * 3 := List.mem_range.mp hi
    have hlt := rowMajor_lt hr hi
    rw [u32_of_lt (by omega), load, hbuf, u32_of_lt (by omega)]
    exact hbytes (by omega) r hr i hi

theorem length_scanline (j : Handover) (stride r : ℕ) :
    (scanline j stride r).length = j.image_width * 3 := by simp [scanline]

/-- An image that agrees is RGB: the encoder takes three bytes for a pixel. -/
theorem components_of_agree {malloc : ℕ → Bool} {img : Image} {result : Bytes}
    (h : Agree img ⟨handover img (buffer_of malloc img), scanlines_of malloc img, result⟩) :
    img.output_components = 3 := by
  obtain ⟨b, -, -, hrows⟩ := h
  have hw := img.width_bounds
  have hh := img.height_bounds
  have hfirst := congrArg (fun l => l.map List.length) hrows
  simp only [scanlines_of, List.map_map] at hfirst
  have hlen := congrArg (fun l => l[0]?) hfirst
  simp only [List.getElem?_map, List.getElem?_range hh.1, Option.map_some, Function.comp_apply,
    length_scanline, List.length_map, List.length_range, Option.some.injEq] at hlen
  have hmul : img.output_width * 3 = img.output_width * img.output_components := hlen
  exact (Nat.eq_of_mul_eq_mul_left hw.1 hmul).symm

/-- An RGB image that agrees does not wrap: else the last offset of the address space is stored. -/
theorem size_of_agree {malloc : ℕ → Bool} {img : Image} {result : Bytes}
    (hm : malloc (requested img) = true)
    (h : Agree img ⟨handover img (buffer_of malloc img), scanlines_of malloc img, result⟩) :
    img.output_width * img.output_height * 3 < 2 ^ 32 := by
  have hc := components_of_agree h
  obtain ⟨b, hb, hstored, -⟩ := h
  by_contra hsize
  have hbuf : buffer_of malloc img = some (read_loop img (img.output_width * 3)
      ⟨0, ⟨fun _ => none, [], 0⟩⟩).buffer := by rw [buffer_of, hm, hc]; rfl
  obtain ⟨hmem, -⟩ := read_rows img (img.output_width * 3)
  have hlast : 2 ^ 32 - 1 < img.output_height * (img.output_width * 3) := by
    calc 2 ^ 32 - 1 < img.output_width * img.output_height * 3 := by omega
      _ = img.output_height * (img.output_width * 3) := by ring
  obtain ⟨r, hr, i, hi, hidx⟩ := exists_rowMajor hlast
  have heq : some b = buffer_of malloc img := hb.symm
  rw [hbuf, Option.some.injEq] at heq
  have hin : 2 ^ 32 - 1 ∈ b.stored := by
    rw [heq, hmem]
    exact ⟨r, hr, i, hi, by rw [hidx]; rfl⟩
  have hlt := hstored _ hin
  have hreq := u32_lt (img.output_width * img.output_height * 3)
  rw [← requested_eq] at hreq
  omega

/-- **The contract holds exactly when** the arguments make `main` abort before it decodes, or the
allocation succeeds, the image is RGB, and its size does not wrap. -/
theorem hand_over_iff (malloc : ℕ → Bool) (img : Image) (encode : Encoder) (argv : List Bytes) :
    HandOver malloc img encode argv ↔ ¬ GoodArgs argv ∨
      (malloc (requested img) = true ∧ img.output_components = 3 ∧
        img.output_width * img.output_height * 3 < 2 ^ 32) := by
  by_cases hg : GoodArgs argv
  · obtain ⟨result, hmain⟩ := main_of_good malloc img encode hg
    constructor
    · intro hH
      right
      have hm : malloc (requested img) = true := by
        by_contra hm
        have hnone := hH.aborts (by simpa using hm)
        rw [hmain] at hnone
        simp at hnone
      have hagree := hH.agree _ hmain
      exact ⟨hm, components_of_agree hagree, size_of_agree hm hagree⟩
    · rintro (h | ⟨hm, hc, hsize⟩)
      · exact absurd hg h
      · refine ⟨fun run hrun => ?_, fun hf => ?_⟩
        · rw [hmain, Option.some.injEq] at hrun
          rw [← hrun]
          exact agree_of_rgb hm hc hsize result
        · rw [hm] at hf
          simp at hf
  · have hnone := main_of_not_good malloc img encode hg
    refine ⟨fun _ => Or.inl hg, fun _ => ⟨fun run hrun => ?_, fun _ => hnone⟩⟩
    rw [hnone] at hrun
    simp at hrun

/-- An image of one pixel. -/
def pixel : Image :=
  ⟨1, 1, 3, fun _ _ => 200, by decide, by decide, by decide⟩

/-- When the allocation fails, `main` goes on to the encoder and the hostcall, without a buffer. -/
theorem failed_allocation_goes_on : ∃ run,
    main (fun _ => false) pixel (fun _ _ _ _ => []) [[], lit "75"] = some run ∧
    run.handover.image_buffer = none ∧
    ¬ HandOver (fun _ => false) pixel (fun _ _ _ _ => []) [[], lit "75"] := by
  have hg : GoodArgs [[], lit "75"] := ⟨[], lit "75", rfl, by decide⟩
  obtain ⟨result, hmain⟩ := main_of_good (fun _ => false) pixel (fun _ _ _ _ => []) hg
  refine ⟨_, hmain, rfl, fun hH => ?_⟩
  have hnone := hH.aborts rfl
  rw [hmain] at hnone
  simp at hnone

end HfiWebserver.Guest.JpegResize
