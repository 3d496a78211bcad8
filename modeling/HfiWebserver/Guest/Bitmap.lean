import HfiWebserver.Lib.Loop
import HfiWebserver.Lib.Memory
import Mathlib.Algebra.Field.Rat
import Mathlib.Algebra.Order.Field.Rat
import Mathlib.Tactic.IntervalCases
import Mathlib.Tactic.Positivity

/-! # The bitmap reader of `tflite`

`readBitmapToBuffer` takes a pointer and no length. It copies a header of 54 bytes, decodes a width
and a height from it, panics when they are not the expected ones, copies `width * height * 3` bytes
of pixels and stores them as rationals, the three bytes of a pixel in reverse.

The memory from the pointer on is `mem`, of which the input array is the first `n` bytes. The reader
records the offsets it reads there and the indices it stores; counts and indices are 32-bit (the
bits of the C `int`s). A value is `none` when it comes from outside the copied pixels.

* `endianness_correct_eq`: the header fields are read as 16-bit big-endian numbers;
* `bitmap_safe_iff`: the reader stays inside its input exactly when it panics, or the input is long
  enough for the dimensions and these do not overflow. -/

namespace HfiWebserver.Guest.Bitmap

open HfiWebserver.Lib.Loop HfiWebserver.Lib.Memory

/-- `endianness_correct`. -/
def endianness_correct (input : UInt32) : UInt32 :=
  let uinput := input
  let byte_0 := uinput &&& 0xFF
  let byte_1 := (uinput >>> 8) &&& 0xFF
  let byte_2 := (uinput >>> 16) &&& 0xFF
  let byte_3 := (uinput >>> 24) &&& 0xFF
  let uoutput := (byte_2 <<< 24) ||| (byte_3 <<< 16) ||| (byte_0 <<< 8) ||| byte_1
  uoutput &&& 0xFFFF

/-- A little-endian word. -/
def le32 (b0 b1 b2 b3 : UInt8) : UInt32 :=
  b0.toUInt32 ||| (b1.toUInt32 <<< 8) ||| (b2.toUInt32 <<< 16) ||| (b3.toUInt32 <<< 24)

/-- `*(int*)&info[i]`. -/
def int_at (info : ℕ → UInt8) (i : ℕ) : UInt32 :=
  le32 (info i) (info (i + 1)) (info (i + 2)) (info (i + 3))

def HEADER_SIZE : ℕ := 54

def found_width (info : ℕ → UInt8) : ℕ := (endianness_correct (int_at info 18)).toNat

def found_height (info : ℕ → UInt8) : ℕ := (endianness_correct (int_at info 22)).toNat

/-- The output buffer, with the history of the indices stored. -/
structure Output where
  buffer : ℕ → Option ℚ
  stores : List ℕ

def Output.store (k : ℕ) (v : Option ℚ) (s : Output) : Output :=
  { buffer := Function.update s.buffer k v, stores := k :: s.stores }

/-- One pixel of the loops. -/
def read_pixel (bmp_data : ℕ → Option UInt8) (width y x : ℕ) (s : Output) : Output :=
  let idx := u32 ((y * width + x) * 3)
  let red := (bmp_data (u32 (idx + 2))).map fun b => (b.toNat : ℚ) / 255
  let green := (bmp_data (u32 (idx + 1))).map fun b => (b.toNat : ℚ) / 255
  let blue := (bmp_data idx).map fun b => (b.toNat : ℚ) / 255
  ((s.store idx red).store (u32 (idx + 1)) green).store (u32 (idx + 2)) blue

/-- The loops over the rows and the columns. -/
def read_pixels (bmp_data : ℕ → Option UInt8) (width height : ℕ) (s : Output) : Output :=
  forUp height (fun y s => forUp width (fun x s => read_pixel bmp_data width y x s) s) s

/-- The number of bytes copied after the header. -/
def remaining_bytes (width height : ℕ) : ℕ := u32 (u32 (width * height) * 3)

/-- What the reader read and stored. -/
structure Result where
  reads : List ℕ
  output : Output

/-- `readBitmapToBuffer`; `none` is a panic. -/
def readBitmapToBuffer (malloc : ℕ → Bool) (mem : ℕ → UInt8) (buffer : ℕ → Option ℚ)
    (expected_width expected_height : ℕ) : Option Result :=
  let info := mem
  let header := List.range HEADER_SIZE
  if found_width info ≠ expected_width then none
  else if found_height info ≠ expected_height then none
  else
    let count := remaining_bytes (found_width info) (found_height info)
    if !malloc count then none
    else
      let bmp_data := fun k => if k < count then some (mem (HEADER_SIZE + k)) else none
      some ⟨header ++ (List.range count).map (HEADER_SIZE + ·),
        read_pixels bmp_data (found_width info) (found_height info) ⟨buffer, []⟩⟩

/-! ### The header -/

/-- Only the low half-word is left, with its bytes swapped. -/
theorem endianness_correct_low (input : UInt32) :
    endianness_correct input = ((input &&& 0xFF) <<< 8) ||| ((input >>> 8) &&& 0xFF) := by
  apply UInt32.toBitVec_inj.mp
  simp only [endianness_correct, UInt32.toBitVec_and, UInt32.toBitVec_or,
    UInt32.toBitVec_shiftLeft, UInt32.toBitVec_shiftRight, UInt32.toBitVec_ofNat]
  generalize input.toBitVec = v
  apply BitVec.eq_of_getLsbD_eq
  intro i hi
  interval_cases i <;> simp

theorem le32_byte_0 (b0 b1 b2 b3 : UInt8) : le32 b0 b1 b2 b3 &&& 0xFF = b0.toUInt32 := by
  apply UInt32.toBitVec_inj.mp
  simp only [le32, UInt32.toBitVec_and, UInt32.toBitVec_or, UInt32.toBitVec_shiftLeft,
    UInt32.toBitVec_ofNat, UInt8.toBitVec_toUInt32]
  apply BitVec.eq_of_getLsbD_eq
  intro i hi
  interval_cases i <;> simp

theorem le32_byte_1 (b0 b1 b2 b3 : UInt8) : (le32 b0 b1 b2 b3 >>> 8) &&& 0xFF = b1.toUInt32 := by
  apply UInt32.toBitVec_inj.mp
  simp only [le32, UInt32.toBitVec_and, UInt32.toBitVec_or, UInt32.toBitVec_shiftLeft,
    UInt32.toBitVec_shiftRight, UInt32.toBitVec_ofNat, UInt8.toBitVec_toUInt32]
  apply BitVec.eq_of_getLsbD_eq
  intro i hi
  interval_cases i <;> simp

theorem toNat_two_bytes (a b : UInt8) :
    ((a.toUInt32 <<< 8) ||| b.toUInt32).toNat = a.toNat * 256 + b.toNat := by
  have ha := a.toNat_lt
  have hb := b.toNat_lt
  rw [UInt32.toNat_or, UInt32.toNat_shiftLeft, UInt8.toNat_toUInt32, UInt8.toNat_toUInt32]
  show a.toNat <<< 8 % 2 ^ 32 ||| b.toNat = _
  rw [Nat.mod_eq_of_lt (by rw [Nat.shiftLeft_eq]; omega), ← Nat.shiftLeft_add_eq_or_of_lt hb,
    Nat.shiftLeft_eq]

/-- **A header field is read as a big-endian number of 16 bits.** -/
theorem endianness_correct_eq (info : ℕ → UInt8) (i : ℕ) :
    (endianness_correct (int_at info i)).toNat = (info i).toNat * 256 + (info (i + 1)).toNat := by
  rw [endianness_correct_low, int_at, le32_byte_0, le32_byte_1, toNat_two_bytes]

/-! ### The pixels -/

/-- The value of index `k` of the output: channels are stored in reverse. -/
def value (mem : ℕ → UInt8) (k : ℕ) : ℚ :=
  ((mem (HEADER_SIZE + (3 * (k / 3) + 2 - k % 3))).toNat : ℚ) / 255

theorem value_mem_unit (mem : ℕ → UInt8) (k : ℕ) : 0 ≤ value mem k ∧ value mem k ≤ 1 := by
  have hb : (mem (HEADER_SIZE + (3 * (k / 3) + 2 - k % 3))).toNat ≤ 255 := by
    have hlt := (mem (HEADER_SIZE + (3 * (k / 3) + 2 - k % 3))).toNat_lt
    omega
  have hq : ((mem (HEADER_SIZE + (3 * (k / 3) + 2 - k % 3))).toNat : ℚ) ≤ 255 := by exact_mod_cast hb
  unfold value
  constructor
  · positivity
  · rw [div_le_one (by positivity)]
    exact hq

/-- The value at a pixel and a channel. -/
theorem value_pixel (mem : ℕ → UInt8) (p : ℕ) {c : ℕ} (hc : c < 3) :
    value mem (p * 3 + c) = ((mem (HEADER_SIZE + p * 3 + 2 - c)).toNat : ℚ) / 255 := by
  have hdiv : (p * 3 + c) / 3 = p := by omega
  have hmod : (p * 3 + c) % 3 = c := by omega
  have hidx : HEADER_SIZE + (3 * p + 2 - c) = HEADER_SIZE + p * 3 + 2 - c := by omega
  rw [value, hdiv, hmod, hidx]

/-- The loops after `p` pixels. -/
structure PixelInv (mem : ℕ → UInt8) (p : ℕ) (s : Output) : Prop where
  buffer : ∀ k < p * 3, s.buffer k = some (value mem k)
  stores : ∀ k ∈ s.stores, k < p * 3

/-- The copied pixels. -/
def copied (mem : ℕ → UInt8) (count : ℕ) (k : ℕ) : Option UInt8 :=
  if k < count then some (mem (HEADER_SIZE + k)) else none

theorem pixelInv_step {mem : ℕ → UInt8} {count width y x : ℕ} {s : Output}
    (hcount : count < 2 ^ 31) (hlt : (y * width + x + 1) * 3 ≤ count)
    (hI : PixelInv mem (y * width + x) s) :
    PixelInv mem (y * width + x + 1) (read_pixel (copied mem count) width y x s) := by
  generalize hp : y * width + x = p at *
  have h0 : u32 (p * 3) = p * 3 := u32_of_lt (by omega)
  have h1 : u32 (p * 3 + 1) = p * 3 + 1 := u32_of_lt (by omega)
  have h2 : u32 (p * 3 + 2) = p * 3 + 2 := u32_of_lt (by omega)
  have hread : ∀ c < 3, (copied mem count (p * 3 + c)).map (fun b => (b.toNat : ℚ) / 255) =
      some (value mem (p * 3 + (2 - c))) := by
    intro c hc
    have hidx : HEADER_SIZE + p * 3 + 2 - (2 - c) = HEADER_SIZE + (p * 3 + c) := by omega
    rw [copied, if_pos (by omega), value_pixel mem p (by omega), hidx]
    rfl
  have hstep : read_pixel (copied mem count) width y x s =
      ((s.store (p * 3) (some (value mem (p * 3)))).store (p * 3 + 1)
        (some (value mem (p * 3 + 1)))).store (p * 3 + 2) (some (value mem (p * 3 + 2))) := by
    have hr := hread 2 (by omega)
    have hg := hread 1 (by omega)
    have hb := hread 0 (by omega)
    simp only [Nat.add_zero, Nat.sub_self, Nat.sub_zero] at hr hg hb
    simp only [read_pixel, hp, h0, h1, h2, hr, hg, hb]
  rw [hstep]
  refine ⟨fun k hk => ?_, fun k hk => ?_⟩
  · show Function.update (Function.update (Function.update s.buffer (p * 3) _) (p * 3 + 1) _)
      (p * 3 + 2) _ k = _
    by_cases hk2 : k = p * 3 + 2
    · rw [hk2, Function.update_self]
    · rw [Function.update_of_ne hk2]
      by_cases hk1 : k = p * 3 + 1
      · rw [hk1, Function.update_self]
      · rw [Function.update_of_ne hk1]
        by_cases hk0 : k = p * 3
        · rw [hk0, Function.update_self]
        · rw [Function.update_of_ne hk0]
          exact hI.buffer k (by omega)
  · have hmem : k = p * 3 + 2 ∨ k = p * 3 + 1 ∨ k = p * 3 ∨ k ∈ s.stores := by
      simpa [Output.store] using hk
    rcases hmem with h | h | h | h
    · omega
    · omega
    · omega
    · have hold := hI.stores k h
      omega

/-- One row of pixels. -/
theorem read_row_inv {mem : ℕ → UInt8} {width height y : ℕ} {s : Output}
    (hsize : width * height * 3 < 2 ^ 31) (hy : y < height) (hI : PixelInv mem (y * width) s) :
    PixelInv mem ((y + 1) * width)
      (forUp width (fun x s => read_pixel (copied mem (width * height * 3)) width y x s) s) := by
  have hrow : (y + 1) * width ≤ width * height := by
    calc (y + 1) * width ≤ height * width := Nat.mul_le_mul_right _ hy
      _ = width * height := Nat.mul_comm _ _
  have hstep : ∀ x s, x < width → PixelInv mem (y * width + x) s → PixelInv mem (y * width + (x + 1))
      (read_pixel (copied mem (width * height * 3)) width y x s) := by
    intro x s hx hI
    have hle : y * width + x + 1 ≤ (y + 1) * width := by rw [Nat.succ_mul]; omega
    exact pixelInv_step hsize (Nat.mul_le_mul_right 3 (hle.trans hrow)) hI
  rw [Nat.succ_mul]
  exact forUp_inv (I := fun x s => PixelInv mem (y * width + x) s) hI hstep

/-- **The pixels are all stored**, when the copy holds them. -/
theorem read_pixels_inv (mem : ℕ → UInt8) {width height : ℕ} (buffer : ℕ → Option ℚ)
    (hsize : width * height * 3 < 2 ^ 31) : PixelInv mem (width * height)
      (read_pixels (copied mem (width * height * 3)) width height ⟨buffer, []⟩) := by
  have h0 : PixelInv mem (0 * width) ⟨buffer, []⟩ := ⟨by simp, by simp⟩
  rw [Nat.mul_comm width height]
  rw [Nat.mul_comm width height] at hsize
  refine forUp_inv (I := fun y s => PixelInv mem (y * width) s) h0 fun y s hy hI => ?_
  have hrow := read_row_inv (by rwa [Nat.mul_comm width height]) hy hI
  rwa [Nat.mul_comm width height] at hrow

/-! ### Inside the input -/

/-- **The reader stayed inside its input of `n` bytes**: every byte read is one of it, the count and
the indices did not overflow, every store is below `3 * w * h`, and the buffer holds the channels of
every pixel. -/
structure Inside (mem : ℕ → UInt8) (n w h : ℕ) (r : Result) : Prop where
  reads : ∀ i ∈ r.reads, i < n
  count : w * h * 3 < 2 ^ 31
  index : ∀ y < h, ∀ x < w, ∀ c < 3, (y * w + x) * 3 + c < 2 ^ 31
  stores : ∀ k ∈ r.output.stores, k < 3 * w * h
  buffer : ∀ y < h, ∀ x < w, ∀ c < 3, ∃ v : ℚ, r.output.buffer ((y * w + x) * 3 + c) = some v ∧
    v = ((mem (54 + (y * w + x) * 3 + 2 - c)).toNat : ℚ) / 255 ∧ 0 ≤ v ∧ v ≤ 1

/-- Whenever the reader returns, it stayed inside its input. -/
def Safe (malloc : ℕ → Bool) (mem : ℕ → UInt8) (buffer : ℕ → Option ℚ) (n w h : ℕ) : Prop :=
  ∀ r, readBitmapToBuffer malloc mem buffer w h = some r → Inside mem n w h r

/-- The reader panics: another width or height, or no memory. -/
def Panics (malloc : ℕ → Bool) (mem : ℕ → UInt8) (w h : ℕ) : Prop :=
  found_width mem ≠ w ∨ found_height mem ≠ h ∨ malloc (remaining_bytes w h) = false

theorem read_of_panics {malloc : ℕ → Bool} {mem : ℕ → UInt8} (buffer : ℕ → Option ℚ) {w h : ℕ}
    (hp : Panics malloc mem w h) : readBitmapToBuffer malloc mem buffer w h = none := by
  by_cases hw : found_width mem = w
  · by_cases hh : found_height mem = h
    · rcases hp with hp | hp | hp
      · exact absurd hw hp
      · exact absurd hh hp
      · simp [readBitmapToBuffer, hw, hh, hp]
    · simp [readBitmapToBuffer, hw, hh]
  · simp [readBitmapToBuffer, hw]

theorem read_of_not_panics {malloc : ℕ → Bool} {mem : ℕ → UInt8} (buffer : ℕ → Option ℚ)
    {w h : ℕ} (hp : ¬ Panics malloc mem w h) : readBitmapToBuffer malloc mem buffer w h =
      some ⟨List.range HEADER_SIZE ++ (List.range (remaining_bytes w h)).map (HEADER_SIZE + ·),
        read_pixels (copied mem (remaining_bytes w h)) w h ⟨buffer, []⟩⟩ := by
  unfold Panics at hp
  push Not at hp
  obtain ⟨rfl, rfl, hm⟩ := hp
  have hm : malloc (remaining_bytes (found_width mem) (found_height mem)) = true := by
    simpa using hm
  simp only [readBitmapToBuffer, ne_eq, not_true_eq_false, if_false, hm, Bool.not_true,
    Bool.false_eq_true]
  rfl

theorem remaining_bytes_eq (w h : ℕ) : remaining_bytes w h = u32 (w * h * 3) := by
  unfold remaining_bytes u32
  rw [Nat.mod_mul_mod]

/-- **The reader is safe exactly when** it panics, or its input holds the header and the pixels it
announces and their size does not overflow. -/
theorem bitmap_safe_iff (malloc : ℕ → Bool) (mem : ℕ → UInt8) (buffer : ℕ → Option ℚ) (n w h : ℕ) :
    Safe malloc mem buffer n w h ↔
      Panics malloc mem w h ∨ (54 + w * h * 3 ≤ n ∧ w * h * 3 < 2 ^ 31) := by
  by_cases hp : Panics malloc mem w h
  · refine ⟨fun _ => Or.inl hp, fun _ r hr => ?_⟩
    rw [read_of_panics buffer hp] at hr
    simp at hr
  have hread := read_of_not_panics buffer hp
  constructor
  · intro hsafe
    right
    have hin := hsafe _ hread
    have hcount : remaining_bytes w h = w * h * 3 := by
      have hlt := hin.count
      rw [remaining_bytes_eq, u32_of_lt (by omega)]
    refine ⟨?_, hin.count⟩
    -- the last byte read is the header's or a pixel's
    have hlast : 53 + w * h * 3 < n := by
      refine hin.reads _ ?_
      rw [hcount, List.mem_append, List.mem_range, List.mem_map]
      by_cases h0 : w * h * 3 = 0
      · left
        rw [h0]
        decide
      · right
        refine ⟨w * h * 3 - 1, List.mem_range.mpr (by omega), ?_⟩
        show 54 + (w * h * 3 - 1) = 53 + w * h * 3
        omega
    omega
  · rintro (h' | ⟨hn, hsize⟩)
    · exact absurd h' hp
    intro r hr
    have hcount : remaining_bytes w h = w * h * 3 := by
      rw [remaining_bytes_eq, u32_of_lt (by omega)]
    rw [hread, Option.some.injEq, hcount] at hr
    subst hr
    have hI := read_pixels_inv mem buffer hsize
    have hlt : ∀ y < h, ∀ x < w, ∀ c < 3, (y * w + x) * 3 + c < w * h * 3 := by
      intro y hy x hx c hc
      have hpix := rowMajor_lt hy hx
      rw [Nat.mul_comm w h]
      omega
    refine ⟨fun i hi => ?_, hsize, fun y hy x hx c hc => ?_, fun k hk => ?_,
      fun y hy x hx c hc => ?_⟩
    · rcases List.mem_append.mp hi with hi | hi
      · have hi := List.mem_range.mp hi
        unfold HEADER_SIZE at hi
        omega
      · obtain ⟨k, hk, rfl⟩ := List.mem_map.mp hi
        have hk := List.mem_range.mp hk
        show 54 + k < n
        omega
    · have := hlt y hy x hx c hc
      omega
    · calc k < w * h * 3 := hI.stores k hk
        _ = 3 * w * h := by ring
    · refine ⟨_, hI.buffer _ (hlt y hy x hx c hc), value_pixel mem _ hc, ?_⟩
      exact value_mem_unit mem _

/-- The first 54 bytes of `inputData`: a PNG header, whose size has the place of the bitmap's. -/
def inputHeader : List UInt8 :=
  [0x89, 0x50, 0x4e, 0x47, 0x0d, 0x0a, 0x1a, 0x0a, 0x00, 0x00, 0x00, 0x0d, 0x49, 0x48,
  0x44, 0x52, 0x00, 0x00, 0x01, 0x18, 0x00, 0x00, 0x01, 0x18, 0x08, 0x06, 0x00, 0x00,
  0x00, 0x87, 0x8e, 0xe9, 0x8c, 0x00, 0x00, 0x20, 0x00, 0x49, 0x44, 0x41, 0x54, 0x78,
  0x9c, 0xec, 0xbd, 0xf7, 0x57, 0x5b, 0x59, 0xb6, 0xae, 0x7d, 0xff, 0xaf]

/-- `inputData` with zeros for its pixels. -/
def inputData (k : ℕ) : UInt8 := inputHeader.getD k 0

/-- The array `inputData` has 41662 bytes, and `main` reads 280 × 280 pixels from it. -/
theorem inputData_over_read : ∃ r, readBitmapToBuffer (fun _ => true) inputData (fun _ => none)
    280 280 = some r ∧ (∃ i ∈ r.reads, 41662 ≤ i) ∧
      ¬ Safe (fun _ => true) inputData (fun _ => none) 41662 280 280 := by
  have hw : found_width inputData = 280 := by decide
  have hh : found_height inputData = 280 := by decide
  have hp : ¬ Panics (fun _ => true) inputData 280 280 := by simp [Panics, hw, hh]
  have hread := read_of_not_panics (fun _ => none) hp
  have hmem : 54 + 41662 ∈ List.range HEADER_SIZE ++
      (List.range (remaining_bytes 280 280)).map (HEADER_SIZE + ·) := by
    rw [List.mem_append, List.mem_map]
    exact Or.inr ⟨41662, List.mem_range.mpr (by decide), rfl⟩
  refine ⟨_, hread, ⟨_, hmem, by omega⟩, fun hsafe => ?_⟩
  have hlt := (hsafe _ hread).reads _ hmem
  omega

end HfiWebserver.Guest.Bitmap
