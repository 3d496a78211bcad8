import HfiWebserver.Guest.Bitmap

/-! # Bitmap files

The bytes of an uncompressed BMP file of 24 bits a pixel, which `readBitmapToBuffer` was written to
read: the width and the height are little-endian words of its header, a pixel is stored blue first,
and every row is padded to a multiple of four bytes.

The reader takes the header fields for big-endian numbers of 16 bits and knows no padding.
`decodes_iff` says which files it reads correctly all the same, and at which sizes it reads all
files correctly. -/

namespace HfiWebserver.Guest.BmpFormat

open HfiWebserver.Lib.Memory HfiWebserver.Guest.Bitmap

/-- The bytes of a row in the file. -/
def stride (width : ℕ) : ℕ := (3 * width + 3) / 4 * 4

/-- **A bitmap file**: its size, the red, green and blue bytes of its pixels by row and column, and
what stands in the rest of the header and in the padding. -/
structure BmpFile where
  width : ℕ
  height : ℕ
  pixel : ℕ → ℕ → ℕ → UInt8
  header : ℕ → UInt8
  padding : ℕ → UInt8
  width_bounds : 1 ≤ width ∧ width ≤ 65535
  height_bounds : 1 ≤ height ∧ height ≤ 65535

namespace BmpFile

/-- Byte `j` of a little-endian word. -/
def word_byte (n j : ℕ) : UInt8 := UInt8.ofNat (n / 256 ^ j)

/-- The bytes of the file. -/
def bytes (f : BmpFile) (k : ℕ) : UInt8 :=
  if k < HEADER_SIZE then
    if 18 ≤ k ∧ k < 22 then word_byte f.width (k - 18)
    else if 22 ≤ k ∧ k < 26 then word_byte f.height (k - 22)
    else f.header k
  else
    let o := k - HEADER_SIZE
    let y := o / stride f.width
    let i := o % stride f.width
    if i < 3 * f.width then f.pixel y (i / 3) (2 - i % 3) else f.padding o

/-! ### The header -/

theorem toNat_word_byte_zero (n : ℕ) : (word_byte n 0).toNat = n % 256 := by
  rw [word_byte, pow_zero, Nat.div_one, UInt8.toNat_ofNat']

theorem toNat_word_byte_one {n : ℕ} (hn : n ≤ 65535) : (word_byte n 1).toNat = n / 256 := by
  rw [word_byte, pow_one, UInt8.toNat_ofNat']
  omega

/-- The number the reader takes a header field for. -/
def swapped (n : ℕ) : ℕ := n % 256 * 256 + n / 256

/-- A header field with the word of `n` is taken for `swapped n`. -/
theorem field_eq {info : ℕ → UInt8} {i n : ℕ} (hn : n ≤ 65535) (h0 : info i = word_byte n 0)
    (h1 : info (i + 1) = word_byte n 1) :
    (endianness_correct (int_at info i)).toNat = swapped n := by
  rw [endianness_correct_eq, h0, h1, toNat_word_byte_zero, toNat_word_byte_one hn, swapped]

theorem found_width_bytes (f : BmpFile) : found_width f.bytes = swapped f.width :=
  field_eq f.width_bounds.2 rfl rfl

theorem found_height_bytes (f : BmpFile) : found_height f.bytes = swapped f.height :=
  field_eq f.height_bounds.2 rfl rfl

/-- Only a number of two equal bytes is its own swap. -/
theorem swapped_eq_iff {n : ℕ} (hn : n ≤ 65535) : swapped n = n ↔ 257 ∣ n := by
  unfold swapped
  omega

/-! ### The rows -/

theorem le_stride (width : ℕ) : 3 * width ≤ stride width := by
  unfold stride
  omega

theorem stride_eq_iff (width : ℕ) : stride width = 3 * width ↔ 4 ∣ width := by
  unfold stride
  omega

/-- Where the bytes of a pixel are in the file. -/
theorem bytes_pixel (f : BmpFile) (y : ℕ) {x c : ℕ} (hx : x < f.width) (hc : c < 3) :
    f.bytes (HEADER_SIZE + (y * stride f.width + (3 * x + c))) = f.pixel y x (2 - c) := by
  have hrow : 3 * x + c < 3 * f.width := by omega
  have hlt : 3 * x + c < stride f.width := lt_of_lt_of_le hrow (le_stride f.width)
  have hdiv : (y * stride f.width + (3 * x + c)) / stride f.width = y := by
    rw [Nat.mul_comm, Nat.mul_add_div (Nat.zero_lt_of_lt hlt), Nat.div_eq_of_lt hlt, Nat.add_zero]
  have hmod : (y * stride f.width + (3 * x + c)) % stride f.width = 3 * x + c := by
    rw [Nat.mul_comm, Nat.mul_add_mod, Nat.mod_eq_of_lt hlt]
  have hcol : (3 * x + c) / 3 = x := by omega
  have hchan : (3 * x + c) % 3 = c := by omega
  simp only [bytes]
  rw [if_neg (by omega), Nat.add_sub_cancel_left, hdiv, hmod, if_pos hrow, hcol, hchan]

/-- What stands behind a row that does not fill its stride. -/
theorem bytes_padding (f : BmpFile) {i : ℕ} (hi : 3 * f.width ≤ i) (hlt : i < stride f.width) :
    f.bytes (HEADER_SIZE + i) = f.padding i := by
  simp only [bytes]
  rw [if_neg (by omega), Nat.add_sub_cancel_left, Nat.mod_eq_of_lt hlt, if_neg (by omega)]

/-- The bytes of every pixel are also where they would be without padding. -/
def Unpadded (f : BmpFile) : Prop :=
  ∀ y < f.height, ∀ x < f.width, ∀ c < 3,
    f.bytes (HEADER_SIZE + ((y * f.width + x) * 3 + c)) = f.pixel y x (2 - c)

theorem unpadded_of_dvd (f : BmpFile) (h : 4 ∣ f.width) : f.Unpadded := by
  intro y _ x hx c hc
  have hpacked : (y * f.width + x) * 3 + c = y * stride f.width + (3 * x + c) := by
    rw [(stride_eq_iff f.width).mpr h]
    ring
  rw [hpacked]
  exact bytes_pixel f y hx hc

end BmpFile

/-- **The reader decodes a file**: asked for its size it fills any buffer with the values of its
pixels, in a size that does not overflow; and asked for any other size it panics. -/
structure Decodes (malloc : ℕ → Bool) (f : BmpFile) : Prop where
  count : f.width * f.height * 3 < 2 ^ 31
  reads : ∀ buffer, ∃ r, readBitmapToBuffer malloc f.bytes buffer f.width f.height = some r ∧
    ∀ y < f.height, ∀ x < f.width, ∀ c < 3,
      r.output.buffer ((y * f.width + x) * 3 + c) = some (((f.pixel y x c).toNat : ℚ) / 255)
  panics : ∀ buffer w h, w ≠ f.width ∨ h ≠ f.height →
    readBitmapToBuffer malloc f.bytes buffer w h = none

/-- What the reader stores of a file whose size it accepts. -/
theorem read_bytes {malloc : ℕ → Bool} {f : BmpFile} (buffer : ℕ → Option ℚ)
    (hp : ¬ Panics malloc f.bytes f.width f.height) (hsize : f.width * f.height * 3 < 2 ^ 31) :
    ∃ r, readBitmapToBuffer malloc f.bytes buffer f.width f.height = some r ∧
      ∀ y < f.height, ∀ x < f.width, ∀ c < 3, r.output.buffer ((y * f.width + x) * 3 + c) =
        some (((f.bytes (HEADER_SIZE + ((y * f.width + x) * 3 + (2 - c)))).toNat : ℚ) / 255) := by
  have hcount : remaining_bytes f.width f.height = f.width * f.height * 3 := by
    rw [remaining_bytes_eq, u32_of_lt (by omega)]
  have hread := read_of_not_panics buffer hp
  rw [hcount] at hread
  refine ⟨_, hread, fun y hy x hx c hc => ?_⟩
  have hlt : (y * f.width + x) * 3 + c < f.width * f.height * 3 := by
    have hpix := rowMajor_lt hy hx
    rw [Nat.mul_comm f.width f.height]
    omega
  have hidx : HEADER_SIZE + (y * f.width + x) * 3 + 2 - c =
      HEADER_SIZE + ((y * f.width + x) * 3 + (2 - c)) := by omega
  rw [← hidx, ← value_pixel f.bytes _ hc]
  exact (read_pixels_inv f.bytes buffer hsize).buffer _ hlt

theorem not_panics_iff (malloc : ℕ → Bool) (f : BmpFile)
    (hsize : f.width * f.height * 3 < 2 ^ 31) : ¬ Panics malloc f.bytes f.width f.height ↔
      257 ∣ f.width ∧ 257 ∣ f.height ∧ malloc (f.width * f.height * 3) = true := by
  unfold Panics
  rw [f.found_width_bytes, f.found_height_bytes, remaining_bytes_eq, u32_of_lt (by omega)]
  push Not
  rw [BmpFile.swapped_eq_iff f.width_bounds.2, BmpFile.swapped_eq_iff f.height_bounds.2,
    ne_eq, Bool.not_eq_false]

/-- Bytes of one value are equal. -/
theorem byte_of_value {a b : UInt8} (h : (a.toNat : ℚ) / 255 = (b.toNat : ℚ) / 255) : a = b := by
  have hcast : (a.toNat : ℚ) = b.toNat := (div_left_inj' (by norm_num)).mp h
  exact UInt8.toNat_inj.mp (by exact_mod_cast hcast)

/-- **One file**: the reader decodes it exactly when both sizes are multiples of 257, the memory is
there, and the bytes of the pixels are where they would be without padding. -/
theorem decodes_file_iff (malloc : ℕ → Bool) (f : BmpFile) :
    Decodes malloc f ↔ 257 ∣ f.width ∧ 257 ∣ f.height ∧ f.width * f.height * 3 < 2 ^ 31 ∧
      malloc (f.width * f.height * 3) = true ∧ f.Unpadded := by
  constructor
  · intro h
    have hp : ¬ Panics malloc f.bytes f.width f.height := by
      intro hp
      obtain ⟨r, hr, -⟩ := h.reads fun _ => none
      rw [read_of_panics _ hp] at hr
      simp at hr
    obtain ⟨hw, hh, hm⟩ := (not_panics_iff malloc f h.count).mp hp
    refine ⟨hw, hh, h.count, hm, fun y hy x hx c hc => ?_⟩
    obtain ⟨r, hr, hvalues⟩ := h.reads fun _ => none
    obtain ⟨r', hr', hbytes⟩ := read_bytes (fun _ => none) hp h.count
    obtain rfl := Option.some.inj (hr.symm.trans hr')
    have hvalue := (hbytes y hy x hx (2 - c) (by omega)).symm.trans
      (hvalues y hy x hx (2 - c) (by omega))
    rw [show 2 - (2 - c) = c by omega] at hvalue
    exact byte_of_value (Option.some.inj hvalue)
  · rintro ⟨hw, hh, hsize, hm, hun⟩
    have hp := (not_panics_iff malloc f hsize).mpr ⟨hw, hh, hm⟩
    refine ⟨hsize, fun buffer => ?_, fun buffer w h hne => read_of_panics buffer ?_⟩
    · obtain ⟨r, hr, hbytes⟩ := read_bytes buffer hp hsize
      refine ⟨r, hr, fun y hy x hx c hc => ?_⟩
      rw [hbytes y hy x hx c hc, hun y hy x hx (2 - c) (by omega), show 2 - (2 - c) = c by omega]
    · unfold Panics
      rw [f.found_width_bytes, f.found_height_bytes,
        (BmpFile.swapped_eq_iff f.width_bounds.2).mpr hw,
        (BmpFile.swapped_eq_iff f.height_bounds.2).mpr hh]
      rcases hne with hne | hne
      · exact Or.inl hne.symm
      · exact Or.inr (Or.inl hne.symm)

/-- A picture of one byte that the padding behind its first row does not have. -/
theorem not_unpadded (f : BmpFile) (h4 : ¬ 4 ∣ f.width) (hh : 1 < f.height) :
    ∃ pixel, ¬ ({ f with pixel } : BmpFile).Unpadded := by
  refine ⟨fun _ _ _ => f.padding (3 * f.width) + 1, fun hun => ?_⟩
  have hlt : 3 * f.width < stride f.width := by
    have hle := BmpFile.le_stride f.width
    have hne := (BmpFile.stride_eq_iff f.width).not.mpr h4
    omega
  have hbyte := hun 1 hh 0 f.width_bounds.1 0 (by omega)
  have hidx : (1 * f.width + 0) * 3 + 0 = 3 * f.width := by ring
  have hpad := BmpFile.bytes_padding { f with pixel := fun _ _ _ => f.padding (3 * f.width) + 1 }
    (le_refl _) hlt
  simp only [hidx] at hbyte
  rw [hpad] at hbyte
  simp at hbyte

/-- **Which files the reader decodes**: a single file as in `decodes_file_iff`; and all pictures of
a size exactly when the width is a multiple of 1028 and the height of 257, and the memory is there.
-/
theorem decodes_iff (malloc : ℕ → Bool) (f : BmpFile) :
    (Decodes malloc f ↔ 257 ∣ f.width ∧ 257 ∣ f.height ∧ f.width * f.height * 3 < 2 ^ 31 ∧
      malloc (f.width * f.height * 3) = true ∧ f.Unpadded) ∧
    ((∀ pixel, Decodes malloc { f with pixel }) ↔ 1028 ∣ f.width ∧ 257 ∣ f.height ∧
      f.width * f.height * 3 < 2 ^ 31 ∧ malloc (f.width * f.height * 3) = true) := by
  refine ⟨decodes_file_iff malloc f, fun hall => ?_, ?_⟩
  · obtain ⟨hw, hh, hsize, hm, -⟩ := (decodes_file_iff malloc _).mp (hall f.pixel)
    refine ⟨?_, hh, hsize, hm⟩
    have hwidth : 257 ∣ f.width := hw
    have hheight : 257 ∣ f.height := hh
    have hpos := f.height_bounds.1
    by_contra hno
    obtain ⟨pixel, hpixel⟩ := not_unpadded f (by omega) (by omega)
    exact hpixel ((decodes_file_iff malloc _).mp (hall pixel)).2.2.2.2
  · rintro ⟨hw, hh, hsize, hm⟩ pixel
    refine (decodes_file_iff malloc { f with pixel }).mpr ⟨?_, hh, hsize, hm, ?_⟩
    · exact Dvd.dvd.trans (by omega) hw
    · exact BmpFile.unpadded_of_dvd _ (Dvd.dvd.trans (by omega) hw)

/-- The first 54 bytes of a bitmap file of 280 × 280 pixels. -/
def header_280 : List UInt8 :=
  [0x42, 0x4d, 0xf6, 0x96, 0x03, 0x00, 0x00, 0x00, 0x00, 0x00, 0x36, 0x00, 0x00, 0x00, 0x28, 0x00,
  0x00, 0x00, 0x18, 0x01, 0x00, 0x00, 0x18, 0x01, 0x00, 0x00, 0x01, 0x00, 0x18, 0x00, 0x00, 0x00,
  0x00, 0x00, 0xc0, 0x96, 0x03, 0x00, 0x00, 0x00, 0x00, 0x00, 0x00, 0x00, 0x00, 0x00, 0x00, 0x00,
  0x00, 0x00, 0x00, 0x00, 0x00, 0x00]

/-- A black picture of 280 × 280 pixels. -/
def black_280 : BmpFile :=
  ⟨280, 280, fun _ _ _ => 0, fun k => header_280.getD k 0, fun _ => 0, by omega, by omega⟩

/-- The reader takes 280 × 280 pixels for 6145 × 6145: asked for the size of the file, it panics. -/
theorem black_280_panics (malloc : ℕ → Bool) (buffer : ℕ → Option ℚ) :
    readBitmapToBuffer malloc black_280.bytes buffer 280 280 = none := by
  refine read_of_panics buffer (Or.inl ?_)
  rw [black_280.found_width_bytes]
  decide

theorem black_280_not_decoded :
    (∀ malloc buffer, readBitmapToBuffer malloc black_280.bytes buffer 280 280 = none) ∧
      (∃ r, readBitmapToBuffer (fun _ => true) black_280.bytes (fun _ => none) 6145 6145 = some r) ∧
      ¬ Decodes (fun _ => true) black_280 := by
  refine ⟨black_280_panics, ?_, fun h => ?_⟩
  · refine ⟨_, read_of_not_panics _ fun hp => ?_⟩
    rcases hp with hp | hp | hp
    · rw [black_280.found_width_bytes] at hp
      exact hp (by decide)
    · rw [black_280.found_height_bytes] at hp
      exact hp (by decide)
    · exact Bool.noConfusion hp
  · obtain ⟨r, hr, -⟩ := h.reads fun _ => none
    have hpanic := black_280_panics (fun _ => true) fun _ => none
    exact absurd (hr.symm.trans hpanic) (by simp)

end HfiWebserver.Guest.BmpFormat
