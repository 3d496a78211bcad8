import HfiWebserver.Lib.CBuffer
import HfiWebserver.Lib.Loop
import HfiWebserver.Lib.Memory
import HfiWebserver.Lib.Numeral

/-! # The hash check `msghash_check_c`

`to_hex` prints the bytes of a digest as two digits each into one buffer: every `sprintf` stores a
NUL too, which the next one overwrites. `main` compares the result with the second argument, length
first and then byte by byte until two bytes differ; it records the offsets it reads.

SHA-256 is outside: an arbitrary function to 32 bytes. Sizes and offsets are 32-bit, as the address
space of wasm32 is, in which a C string fits (`CStr`).

* `to_hex_spec`: what `to_hex` leaves in its buffer, and where it stores;
* `decode_hex_encoding`: two digits a byte can be read back;
* `hash_check`: `main` accepts exactly the encoding of the digest. -/

namespace HfiWebserver.Guest.MsgHash

open HfiWebserver.Lib.ByteStrings HfiWebserver.Lib.CBuffer HfiWebserver.Lib.Loop
open HfiWebserver.Lib.Memory HfiWebserver.Lib.Numeral

/-- A C string, without its terminator. -/
structure CStr where
  bytes : Bytes
  no_nul : 0 ∉ bytes
  fits : bytes.length < 2 ^ 32

def crypto_hash_sha256_BYTES : ℕ := 32

abbrev Digest := Vector UInt8 crypto_hash_sha256_BYTES

/-- `%02X` of an `unsigned int`: two digits, or as many as the number has. -/
def format_02X (v : UInt32) : Bytes := numeral 16 (max 2 (Nat.log 16 v.toNat + 1)) v.toNat

/-- One iteration of the loop of `to_hex`. -/
def hex_step (word : Bytes) (i : ℕ) (outword : Buffer) : Buffer :=
  outword.sprintf (u32 (i * 2)) (format_02X (word.getD i 0).toUInt32)

/-- `to_hex`: `out_len` and the buffer. -/
def to_hex (word : Bytes) (len : ℕ) : ℕ × Buffer :=
  let out_len := u32 (len * 2)
  let outword := Buffer.alloc (u32 (out_len + 1))
  (out_len, forUp len (hex_step word) outword)

/-- The comparison loop, with the history of the offsets it reads. -/
structure Comparison where
  same : Bool
  reads : List ℕ

/-- One iteration: `same && (hex[i] == msg_hash[i])`. -/
def compare_step (hex : Buffer) (msg_hash : Bytes) (i : ℕ) (s : Comparison) : Comparison :=
  if s.same then ⟨hex.bytes i = (msg_hash ++ [0])[i]?, i :: s.reads⟩ else s

def compare (hex : Buffer) (out_size : ℕ) (msg_hash : Bytes) : Comparison :=
  let actual_size := u32 msg_hash.length
  if out_size = actual_size then forUp out_size (compare_step hex msg_hash) ⟨true, []⟩
  else ⟨false, []⟩

/-- What `main` reports, the buffer of `to_hex`, and the offsets compared. -/
structure Report where
  text : Bytes
  hex : Buffer
  reads : List ℕ

/-- `main`; `none` is an abort. -/
def main (crypto_hash_sha256 : Bytes → Digest) (argv : List CStr) : Option Report :=
  match argv with
  | [_, msg, msg_hash] =>
    let hash := crypto_hash_sha256 msg.bytes
    let (out_size, hex) := to_hex hash.toList crypto_hash_sha256_BYTES
    let c := compare hex out_size msg_hash.bytes
    if !c.same then
      (hex.string_at 0).bind fun expected =>
        let resultString := (Buffer.alloc 1000).snprintf 1000
          (lit "Failed: Got " ++ msg_hash.bytes ++ lit ", Expected " ++ expected ++ lit "\n")
        (resultString.string_at 0).map fun text => ⟨text, hex, c.reads⟩
    else some ⟨lit "Succeeded\n", hex, c.reads⟩
  | _ => none

/-! ### The encoding -/

/-- **The upper-case hexadecimal encoding**: two digits a byte. -/
def hex_encoding (bs : Bytes) : Bytes := bs.flatMap fun c => numeral 16 2 c.toNat

/-- Reads the digits back. -/
def decode : Bytes → Bytes
  | c :: d :: t => UInt8.ofNat (value 16 [c, d]) :: decode t
  | _ => []

example : hex_encoding [0, 10, 255] = lit "000AFF" := by decide

theorem length_hex_encoding (bs : Bytes) : (hex_encoding bs).length = bs.length * 2 := by
  induction bs with
  | nil => rfl
  | cons c bs ih =>
    rw [hex_encoding, List.flatMap_cons, List.length_append, length_numeral, List.length_cons,
      ← hex_encoding, ih]
    omega

theorem hex_encoding_append_singleton (bs : Bytes) (c : UInt8) :
    hex_encoding (bs ++ [c]) = hex_encoding bs ++ numeral 16 2 c.toNat := by
  rw [hex_encoding, List.flatMap_append, List.flatMap_singleton, hex_encoding]

theorem not_mem_hex_encoding (bs : Bytes) : (0 : UInt8) ∉ hex_encoding bs := by
  intro h
  rw [hex_encoding, List.mem_flatMap] at h
  obtain ⟨c, -, hc⟩ := h
  exact not_mem_numeral (by omega) (by omega) (by decide) hc

/-- **Decoding undoes the encoding.** -/
theorem decode_hex_encoding (bs : Bytes) : decode (hex_encoding bs) = bs := by
  induction bs with
  | nil => rfl
  | cons c bs ih =>
    obtain ⟨d, e, hde⟩ : ∃ d e, numeral 16 2 c.toNat = [d, e] := ⟨_, _, rfl⟩
    have hvalue : value 16 [d, e] = c.toNat := by
      rw [← hde, value_numeral (by omega) (by omega)]
      exact Nat.mod_eq_of_lt c.toNat_lt
    have hcons : hex_encoding (c :: bs) = d :: e :: hex_encoding bs := by
      rw [hex_encoding, List.flatMap_cons, hde, ← hex_encoding]
      rfl
    rw [hcons, decode, hvalue, ih, UInt8.ofNat_toNat]

theorem hex_encoding_injective : Function.Injective hex_encoding :=
  Function.LeftInverse.injective decode_hex_encoding

/-! ### `to_hex` -/

/-- A byte has two digits. -/
theorem format_02X_byte (c : UInt8) : format_02X c.toUInt32 = numeral 16 2 c.toNat := by
  have hlog : Nat.log 16 c.toNat < 2 := by
    by_cases h0 : c.toNat = 0
    · rw [h0, Nat.log_zero_right]
      decide
    · exact Nat.log_lt_of_lt_pow h0 c.toNat_lt
  have hmax : max 2 (Nat.log 16 c.toNat + 1) = 2 := by omega
  rw [format_02X, UInt8.toNat_toUInt32, hmax]

/-- What the buffer holds after `i` iterations. -/
structure HexInv (word : Bytes) (size i : ℕ) (s : Buffer) : Prop where
  size_eq : s.size = size
  holds : s.Holds 0 (hex_encoding (word.take i))
  terminated : 0 < i → s.bytes (i * 2) = some 0
  stores_le : ∀ k ∈ s.stores, k ≤ i * 2

theorem hexInv_step {word : Bytes} {size i : ℕ} {s : Buffer} (hi : i < word.length)
    (hlen : word.length * 2 < 2 ^ 32) (h : HexInv word size i s) :
    HexInv word size (i + 1) (hex_step word i s) := by
  have hu : u32 (i * 2) = i * 2 := u32_of_lt (by omega)
  have hget : word.getD i 0 = word[i] := by
    rw [List.getD_eq_getElem?_getD, List.getElem?_eq_getElem hi, Option.getD_some]
  have htake : word.take (i + 1) = word.take i ++ [word[i]] := List.take_succ_eq_append_getElem hi
  have hpre : (hex_encoding (word.take i)).length = i * 2 := by
    rw [length_hex_encoding, List.length_take, Nat.min_eq_left (Nat.le_of_lt hi)]
  -- the digits go behind the bytes printed so far, over their terminator
  have hall := h.holds.write_append (numeral 16 2 word[i].toNat ++ [0])
  rw [Nat.zero_add, hpre, ← List.append_assoc, ← hex_encoding_append_singleton, ← htake] at hall
  rw [hex_step, Buffer.sprintf, hu, hget, format_02X_byte]
  have hpost : (hex_encoding (word.take (i + 1))).length = (i + 1) * 2 := by
    rw [length_hex_encoding, List.length_take, Nat.min_eq_left hi]
  refine ⟨by rw [Buffer.size_write, h.size_eq], hall.left, fun _ => ?_, fun k hk => ?_⟩
  · have hlast := hall.right 0 (by decide)
    rwa [Nat.zero_add, hpost] at hlast
  · rw [Buffer.mem_stores_write, List.length_append, length_numeral, List.length_singleton] at hk
    rcases hk with hk | hk
    · have := h.stores_le k hk
      omega
    · omega

/-- **`to_hex`** prints the encoding and a NUL, and stores inside its buffer. -/
theorem to_hex_spec {word : Bytes} (h0 : 0 < word.length) (hlen : word.length * 2 + 1 < 2 ^ 32) :
    ∃ hex, to_hex word word.length = (word.length * 2, hex) ∧ hex.size = word.length * 2 + 1 ∧
      hex.Holds 0 (hex_encoding word ++ [0]) ∧ ∀ k ∈ hex.stores, k < word.length * 2 + 1 := by
  have hout : u32 (word.length * 2) = word.length * 2 := u32_of_lt (by omega)
  have hinit : HexInv word (u32 (word.length * 2 + 1)) 0
      (Buffer.alloc (u32 (word.length * 2 + 1))) :=
    ⟨rfl, fun i hi => absurd hi (Nat.not_lt_zero i), fun h => absurd h (Nat.lt_irrefl 0),
      fun k hk => absurd hk List.not_mem_nil⟩
  have hinv := forUp_inv (I := HexInv word (u32 (word.length * 2 + 1))) hinit
    (fun i s hi h => hexInv_step hi (by omega) h)
  refine ⟨_, by rw [to_hex, hout], ?_, ?_, fun k hk => ?_⟩
  · rw [hinv.size_eq, u32_of_lt hlen]
  · have hholds := hinv.holds
    rw [List.take_length] at hholds
    refine hholds.append_singleton ?_
    rw [length_hex_encoding, Nat.zero_add]
    exact hinv.terminated h0
  · exact Nat.lt_succ_of_le (hinv.stores_le k hk)

/-! ### The comparison -/

/-- The comparison after `i` iterations. -/
structure CompareInv (hex : Buffer) (msg_hash : Bytes) (i : ℕ) (s : Comparison) : Prop where
  same_iff : s.same = true ↔ ∀ j < i, hex.bytes j = (msg_hash ++ [0])[j]?
  reads_lt : ∀ j ∈ s.reads, j < i

theorem compareInv_step {hex : Buffer} {msg_hash : Bytes} {i : ℕ} {s : Comparison}
    (h : CompareInv hex msg_hash i s) :
    CompareInv hex msg_hash (i + 1) (compare_step hex msg_hash i s) := by
  unfold compare_step
  split_ifs with hs
  · have hall := h.same_iff.mp hs
    refine ⟨?_, fun j hj => ?_⟩
    · simp only [decide_eq_true_eq]
      constructor
      · intro hi j hj
        rcases Nat.lt_succ_iff_lt_or_eq.mp hj with hj | rfl
        · exact hall j hj
        · exact hi
      · exact fun hj => hj i (Nat.lt_succ_self i)
    · rcases List.mem_cons.mp hj with rfl | hj
      · exact Nat.lt_succ_self _
      · exact Nat.lt_succ_of_lt (h.reads_lt j hj)
  · refine ⟨?_, fun j hj => Nat.lt_succ_of_lt (h.reads_lt j hj)⟩
    refine ⟨fun h' => absurd h' hs, fun hj => ?_⟩
    exact h.same_iff.mpr fun j hi => hj j (Nat.lt_succ_of_lt hi)

/-- **The comparison** accepts exactly the printed text, and reads inside both strings. -/
theorem compare_spec {hex : Buffer} {text msg_hash : Bytes} (hhex : hex.Holds 0 (text ++ [0]))
    (hfits : msg_hash.length < 2 ^ 32) :
    ((compare hex text.length msg_hash).same = true ↔ msg_hash = text) ∧
      ∀ i ∈ (compare hex text.length msg_hash).reads, i < text.length ∧ i < msg_hash.length := by
  have hinit : CompareInv hex msg_hash 0 ⟨true, []⟩ :=
    ⟨⟨fun _ j hj => absurd hj (Nat.not_lt_zero j), fun _ => rfl⟩,
      fun j hj => absurd hj List.not_mem_nil⟩
  have hinv := forUp_inv (I := CompareInv hex msg_hash) (n := text.length) hinit
    (fun i s _ h => compareInv_step h)
  simp only [compare, u32_of_lt hfits]
  by_cases hlen : text.length = msg_hash.length
  · rw [if_pos hlen, hinv.same_iff]
    refine ⟨⟨fun h => ?_, ?_⟩, fun i hi => ?_⟩
    · refine List.ext_getElem? fun j => ?_
      by_cases hj : j < text.length
      · have hbyte := hhex.left j hj
        rw [Nat.zero_add, h j hj, List.getElem?_append_left (hlen ▸ hj)] at hbyte
        exact hbyte
      · rw [List.getElem?_eq_none (by omega), List.getElem?_eq_none (by omega)]
    · rintro rfl j hj
      have hbyte := hhex j (by rw [List.length_append]; omega)
      rwa [Nat.zero_add] at hbyte
    · have := hinv.reads_lt i hi
      omega
  · rw [if_neg hlen]
    refine ⟨⟨fun h => absurd h Bool.false_ne_true, ?_⟩, fun i hi => absurd hi List.not_mem_nil⟩
    rintro rfl
    exact absurd rfl hlen

/-! ### `main` -/

/-- What a report says of a hash and a digest, and what the buffer and the comparison behind it did.
-/
structure Checked (msg_hash : CStr) (digest : Digest) (r : Report) : Prop where
  text_iff : r.text = lit "Succeeded\n" ↔ msg_hash.bytes = hex_encoding digest.toList
  failed : r.text ≠ lit "Succeeded\n" → lit "Failed: Got " <+: r.text
  size_eq : r.hex.size = 65
  stores_lt : ∀ k ∈ r.hex.stores, k < 65
  hex_eq : r.hex.string_at 0 = some (hex_encoding digest.toList)
  reads_lt : ∀ i ∈ r.reads, i < 64 ∧ i < msg_hash.bytes.length

/-- The line that `main` prints of a failure. -/
def failure_line (msg_hash expected : Bytes) : Bytes :=
  lit "Failed: Got " ++ msg_hash ++ lit ", Expected " ++ expected ++ lit "\n"

theorem not_mem_failure_line {msg_hash expected : Bytes} (h : 0 ∉ msg_hash) (h' : 0 ∉ expected) :
    (0 : UInt8) ∉ failure_line msg_hash expected := by
  have hgot : (0 : UInt8) ∉ lit "Failed: Got " := by decide
  have hexpected : (0 : UInt8) ∉ lit ", Expected " := by decide
  have hline : (0 : UInt8) ∉ lit "\n" := by decide
  simp only [failure_line, List.mem_append, not_or]
  exact ⟨⟨⟨⟨hgot, h⟩, hexpected⟩, h'⟩, hline⟩

/-- The text of a failure is its line, cut to the buffer. -/
theorem failure_text {msg_hash expected : Bytes} (h : 0 ∉ msg_hash) (h' : 0 ∉ expected) :
    ((Buffer.alloc 1000).snprintf 1000
        (lit "Failed: Got " ++ msg_hash ++ lit ", Expected " ++ expected ++ lit "\n")).string_at 0 =
      some ((failure_line msg_hash expected).take 999) :=
  Buffer.string_at_snprintf (by omega) (not_mem_failure_line h h')

theorem prefix_failure_line (msg_hash expected : Bytes) :
    lit "Failed: Got " <+: (failure_line msg_hash expected).take 999 := by
  rw [failure_line, List.append_assoc, List.append_assoc, List.append_assoc]
  exact List.prefix_take_iff.mpr ⟨List.prefix_append _ _, by decide⟩

/-- `to_hex` of a digest. -/
theorem to_hex_digest (digest : Digest) :
    ∃ hex, to_hex digest.toList crypto_hash_sha256_BYTES = (64, hex) ∧ hex.size = 65 ∧
      hex.Holds 0 (hex_encoding digest.toList ++ [0]) ∧ (∀ k ∈ hex.stores, k < 65) ∧
      hex.string_at 0 = some (hex_encoding digest.toList) := by
  have hlen : digest.toList.length = crypto_hash_sha256_BYTES := Vector.length_toList
  have hpos : 0 < digest.toList.length := by rw [hlen]; decide
  have hsmall : digest.toList.length * 2 + 1 < 2 ^ 32 := by rw [hlen]; decide
  obtain ⟨hex, heq, hsize, hholds, hstores⟩ := to_hex_spec hpos hsmall
  rw [hlen] at heq hsize hstores
  refine ⟨hex, heq, hsize, hholds, hstores,
    Buffer.string_at_of_holds hholds (not_mem_hex_encoding _) ?_⟩
  rw [hsize, length_hex_encoding, hlen]
  decide

theorem main_spec (crypto_hash_sha256 : Bytes → Digest) (name msg msg_hash : CStr) :
    ∃ r, main crypto_hash_sha256 [name, msg, msg_hash] = some r ∧
      Checked msg_hash (crypto_hash_sha256 msg.bytes) r := by
  obtain ⟨hex, heq, hsize, hholds, hstores, hstring⟩ := to_hex_digest (crypto_hash_sha256 msg.bytes)
  have henc : (hex_encoding (crypto_hash_sha256 msg.bytes).toList).length = 64 := by
    rw [length_hex_encoding, Vector.length_toList]
    rfl
  have hcomp := compare_spec hholds msg_hash.fits
  rw [henc] at hcomp
  have htext :=
    failure_text msg_hash.no_nul (not_mem_hex_encoding (crypto_hash_sha256 msg.bytes).toList)
  have hstart := prefix_failure_line msg_hash.bytes
    (hex_encoding (crypto_hash_sha256 msg.bytes).toList)
  set text := (failure_line msg_hash.bytes
    (hex_encoding (crypto_hash_sha256 msg.bytes).toList)).take 999
  have hmain : main crypto_hash_sha256 [name, msg, msg_hash] =
      if (compare hex 64 msg_hash.bytes).same then
        some ⟨lit "Succeeded\n", hex, (compare hex 64 msg_hash.bytes).reads⟩
      else some ⟨text, hex, (compare hex 64 msg_hash.bytes).reads⟩ := by
    cases hsame : (compare hex 64 msg_hash.bytes).same
    · simp [main, heq, hsame, hstring, htext, -List.append_assoc]
    · simp [main, heq, hsame]
  by_cases hsame : (compare hex 64 msg_hash.bytes).same = true
  · rw [hmain, if_pos hsame]
    exact ⟨_, rfl, ⟨fun _ => hcomp.1.mp hsame, fun _ => rfl⟩, fun h => absurd rfl h, hsize, hstores,
      hstring, hcomp.2⟩
  · rw [hmain, if_neg hsame]
    have hne : text ≠ lit "Succeeded\n" := by
      intro htext
      rw [htext] at hstart
      exact absurd hstart (by decide)
    exact ⟨_, rfl, ⟨fun h => absurd h hne, fun h => absurd (hcomp.1.mpr h) hsame⟩, fun _ => hstart,
      hsize, hstores, hstring, hcomp.2⟩

/-- **The hash check.** On every message and every hash, `main` reports success exactly on the
encoding of the digest, and otherwise a text that says so; `to_hex` stores inside its buffer and
ends it with a NUL, and the comparison reads inside both strings. A digest can be read back from
what `to_hex` prints, so two that accept one hash are equal. -/
theorem hash_check (crypto_hash_sha256 : Bytes → Digest) (name msg msg_hash : CStr) :
    (∃ r, main crypto_hash_sha256 [name, msg, msg_hash] = some r ∧
      Checked msg_hash (crypto_hash_sha256 msg.bytes) r) ∧
    (∀ digest : Digest, ((to_hex digest.toList crypto_hash_sha256_BYTES).2.string_at 0).map decode =
      some digest.toList) ∧
    ∀ (name' msg' : CStr) (crypto_hash_sha256' : Bytes → Digest) (r r' : Report),
      main crypto_hash_sha256 [name, msg, msg_hash] = some r → r.text = lit "Succeeded\n" →
      main crypto_hash_sha256' [name', msg', msg_hash] = some r' → r'.text = lit "Succeeded\n" →
      crypto_hash_sha256 msg.bytes = crypto_hash_sha256' msg'.bytes := by
  refine ⟨main_spec crypto_hash_sha256 name msg msg_hash, fun digest => ?_,
    fun name' msg' sha' r r' hr htext hr' htext' => ?_⟩
  · obtain ⟨hex, heq, -, -, -, hstring⟩ := to_hex_digest digest
    rw [heq, hstring, Option.map_some, decode_hex_encoding]
  obtain ⟨s, hs, hacc⟩ := main_spec crypto_hash_sha256 name msg msg_hash
  obtain ⟨s', hs', hacc'⟩ := main_spec sha' name' msg' msg_hash
  obtain rfl := Option.some.inj (hs.symm.trans hr)
  obtain rfl := Option.some.inj (hs'.symm.trans hr')
  have hencode := (hacc.text_iff.mp htext).symm.trans (hacc'.text_iff.mp htext')
  exact Vector.toList_inj.mp (hex_encoding_injective hencode)

/-- The published digest of the message `abc`. -/
def digest_abc : Digest := #v[
    0xBA, 0x78, 0x16, 0xBF, 0x8F, 0x01, 0xCF, 0xEA, 0x41, 0x41, 0x40, 0xDE, 0x5D, 0xAE, 0x22, 0x23,
    0xB0, 0x03, 0x61, 0xA3, 0x96, 0x17, 0x7A, 0x9C, 0xB4, 0x10, 0xFF, 0x61, 0xF2, 0x00, 0x15, 0xAD]

def name_abc : CStr := ⟨lit "msghash_check_c", by decide, by decide⟩

def msg_abc : CStr := ⟨lit "abc", by decide, by decide⟩

def hash_abc : CStr :=
  ⟨lit "BA7816BF8F01CFEA414140DE5DAE2223B00361A396177A9CB410FF61F20015AD", by decide, by decide⟩

theorem hash_check_abc :
    ∃ r, main (fun _ => digest_abc) [name_abc, msg_abc, hash_abc] = some r ∧
      r.text = lit "Succeeded\n" := by
  obtain ⟨⟨r, hr, hacc⟩, -⟩ := hash_check (fun _ => digest_abc) name_abc msg_abc hash_abc
  exact ⟨r, hr, hacc.text_iff.mpr (by decide)⟩

end HfiWebserver.Guest.MsgHash
