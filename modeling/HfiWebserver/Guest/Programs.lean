import HfiWebserver.Guest.Fib
import HfiWebserver.Guest.HtmlTemplate
import HfiWebserver.Guest.JpegResize
import HfiWebserver.Guest.MsgHash
import HfiWebserver.Guest.XmlUtf8

/-! # The programs of the guests

What a guest hands to the server, as a function of its arguments; `none` is an abort. -/

namespace HfiWebserver.Guest.Programs

open HfiWebserver.Lib HfiWebserver.Lib.ByteStrings HfiWebserver.Lib.CString HfiWebserver.Lib.Numeral
open HfiWebserver.Guest.MsgHash HfiWebserver.Guest.XmlGrammar HfiWebserver.Guest.XmlAnswer
open HfiWebserver.Guest.XmlUtf8
open HfiWebserver.Guest.Rapidxml (c_str parse_bom)
open HfiWebserver.Guest.RapidjsonRoundTrip (text)

/-- `main` of `echo_server`. -/
def echo_server (argv : List Bytes) : Option Bytes :=
  match argv with
  | [_, msg] => some (c_str msg)
  | _ => none

/-- `main` of `fib_c`. -/
def fib_c (argv : List Bytes) : Option Bytes := (Fib.main argv).map Fib.Report.text

/-- An argument as `main` finds it in its memory. -/
def argument (s : Bytes) : Option CStr :=
  if h : 0 ∉ s ∧ s.length < 2 ^ 32 then some ⟨s, h.1, h.2⟩ else none

/-- `main` of `msghash_check_c`. -/
def msghash_check_c (crypto_hash_sha256 : Bytes → Digest) (argv : List Bytes) :
    Option Bytes := do
  let report ← MsgHash.main crypto_hash_sha256 (← argv.mapM argument)
  pure report.text

/-- `main` of `jpeg_resize_c`. -/
def jpeg_resize_c (malloc : ℕ → Bool) (img : JpegResize.Image) (encode : JpegResize.Encoder)
    (argv : List Bytes) : Option Bytes :=
  (JpegResize.main malloc img encode argv).map JpegResize.Run.result

/-- `main` of `xml_to_json`. -/
def xml_to_json (argv : List Bytes) : Option Bytes := (XmlToJson.main argv).toOption

/-! ### What the programs answer -/

theorem c_str_of_not_mem {s : Bytes} (h : 0 ∉ s) : c_str s = s := by
  refine List.takeWhile_eq_self_iff.mpr fun c hc => ?_
  rw [bne_iff_ne]
  rintro rfl
  exact h hc

theorem echo_server_eq {name msg : Bytes} (h : 0 ∉ msg) : echo_server [name, msg] = some msg := by
  rw [echo_server, c_str_of_not_mem h]

/-- **The Fibonacci module** answers the number of its argument, modulo `2 ^ 32`. -/
theorem fib_c_eq (name num : Bytes) : fib_c [name, num] =
    some (decimal (Fib.number (UInt32.ofInt (atoi num)).toNat % 2 ^ 32) ++ lit "\n") := by
  rw [fib_c, Fib.main_eq, Option.map_some, Fib.toNat_fib_eq]

theorem argument_eq_some {s : Bytes} {c : CStr} (h : argument s = some c) : c.bytes = s := by
  unfold argument at h
  split_ifs at h
  cases h
  rfl

/-- What `main` reports, cut to its buffer. -/
def verdict (hash expected : Bytes) : Bytes :=
  if hash = expected then lit "Succeeded\n" else (failure_line hash expected).take 999

theorem text_of_main {crypto_hash_sha256 : Bytes → Digest} {name msg hash : CStr}
    {r : MsgHash.Report} (h : MsgHash.main crypto_hash_sha256 [name, msg, hash] = some r) :
    r.text = verdict hash.bytes (hex_encoding (crypto_hash_sha256 msg.bytes).toList) := by
  set digest := crypto_hash_sha256 msg.bytes with hdigest
  obtain ⟨hex, heq, -, hholds, -, hstring⟩ := to_hex_digest digest
  have hlen : (hex_encoding digest.toList).length = 64 := by
    rw [length_hex_encoding, Vector.length_toList]
    rfl
  obtain ⟨hsame, -⟩ := compare_spec hholds hash.fits
  rw [hlen] at hsame
  have htext := failure_text hash.no_nul (not_mem_hex_encoding digest.toList)
  rw [MsgHash.main] at h
  simp only [← hdigest, heq, hstring, Option.bind_some] at h
  unfold verdict
  by_cases hs : (compare hex 64 hash.bytes).same = true
  · rw [if_pos (hsame.mp hs)]
    simp only [hs, Bool.not_true, Bool.false_eq_true, if_false, Option.some.injEq] at h
    rw [← h]
  · rw [if_neg fun h' => hs (hsame.mpr h')]
    simp only [hs, Bool.not_false, if_true, htext, Option.map_some, Option.some.injEq] at h
    rw [← h]

/-- **The hash check** answers with a success exactly on the encoding of the digest. -/
theorem of_msghash_check_c {crypto_hash_sha256 : Bytes → Digest} {name msg hash body : Bytes}
    (h : msghash_check_c crypto_hash_sha256 [name, msg, hash] = some body) :
    body = verdict hash (hex_encoding (crypto_hash_sha256 msg).toList) := by
  obtain ⟨args, hargs, h⟩ := Option.bind_eq_some_iff.mp h
  obtain ⟨report, hreport, h⟩ := Option.bind_eq_some_iff.mp h
  obtain rfl : report.text = body := Option.some.inj h
  simp only [List.mapM_cons, List.mapM_nil, Option.bind_eq_bind, Option.bind_eq_some_iff,
    Option.pure_def, Option.some.injEq] at hargs
  obtain ⟨cname, -, args, ⟨cmsg, hmsg, args, ⟨chash, hhash, args, rfl, rfl⟩, rfl⟩, rfl⟩ := hargs
  rw [text_of_main hreport, argument_eq_some hmsg, argument_eq_some hhash]

/-- The decoded rows of an image. -/
def decoded_rows (img : JpegResize.Image) : List JpegResize.Scanline :=
  (List.range img.output_height).map fun r =>
    (List.range (img.output_width * img.output_components)).map fun i => some (img.row r i)

theorem result_of_main {malloc : ℕ → Bool} {img : JpegResize.Image} {encode : JpegResize.Encoder}
    {name quality : Bytes} {run : JpegResize.Run}
    (h : JpegResize.main malloc img encode [name, quality] = some run) :
    strtol quality ≠ 0 ∧ run.result = encode (strtol quality) img.output_width img.output_height
      run.scanlines := by
  obtain ⟨b, hread⟩ : ∃ b, JpegResize.read_JPEG_file malloc img =
      (1, ⟨img.output_height, img.output_width, b⟩) := by
    unfold JpegResize.read_JPEG_file
    split_ifs
    · exact ⟨_, rfl⟩
    · exact ⟨_, rfl⟩
  simp only [JpegResize.main, hread, JpegResize.write_JPEG_file, one_ne_zero, if_false] at h
  split_ifs at h with hq
  cases h
  exact ⟨hq, rfl⟩

/-- **The resizer** encodes the scanlines it handed over in the quality of its argument; of an RGB
image whose size does not wrap, when its buffer could be allocated, they are the decoded rows. -/
theorem of_jpeg_resize_c {malloc : ℕ → Bool} {img : JpegResize.Image} {encode : JpegResize.Encoder}
    {name quality body : Bytes} (h : jpeg_resize_c malloc img encode [name, quality] = some body) :
    strtol quality ≠ 0 ∧ body = encode (strtol quality) img.output_width img.output_height
        (JpegResize.scanlines_of malloc img) ∧
      (malloc (JpegResize.requested img) = true → img.output_components = 3 →
        img.output_width * img.output_height * 3 < 2 ^ 32 →
        JpegResize.scanlines_of malloc img = decoded_rows img) := by
  obtain ⟨run, hrun, rfl⟩ := Option.map_eq_some_iff.mp h
  obtain ⟨hq, hresult⟩ := result_of_main hrun
  obtain ⟨result, hmain⟩ := JpegResize.main_of_good malloc img encode ⟨name, quality, rfl, hq⟩
  rw [hmain] at hrun
  obtain rfl := Option.some.inj hrun
  refine ⟨hq, hresult, fun hm hc hsize => ?_⟩
  obtain ⟨-, -, -, hrows⟩ := JpegResize.agree_of_rgb hm hc hsize result
  exact hrows

theorem main_of_xml_to_json {argv : List Bytes} {body : Bytes} (h : xml_to_json argv = some body) :
    XmlToJson.main argv = .ok body := by
  unfold xml_to_json at h
  rcases hmain : XmlToJson.main argv with e | answer <;> rw [hmain] at h
  · cases h
  · cases h
    rfl

/-- **The converter** answers documents only, with the text of the object it makes of them. -/
theorem of_xml_to_json {name xml body : Bytes} (h0 : 0 ∉ xml)
    (h : xml_to_json [name, xml] = some body) :
    ∃ nodes members, Document nodes (parse_bom xml) ∧ List.Forall₂ IsEntry nodes members ∧
      body = text (.object members) := by
  have hok := of_main_eq_ok (main_of_xml_to_json h)
  rwa [c_str_of_not_mem h0] at hok

/-! ### UTF-8 -/

theorem lt_of_mem_decimal {n : ℕ} {c : UInt8} (hc : c ∈ decimal n) : c < 128 :=
  lt_of_mem_numeral (by omega) (by omega) hc

theorem valid_of_ascii {s : Bytes} (h : ∀ c ∈ s, c < 128) : Valid s := by
  have h' := valid_ascii_append_iff (b := []) h
  rw [List.append_nil] at h'
  exact h'.mpr valid_nil

theorem lt_of_mem_hex_encoding {bs : Bytes} {c : UInt8} (hc : c ∈ hex_encoding bs) : c < 128 := by
  obtain ⟨d, -, hd⟩ := List.mem_flatMap.mp hc
  exact lt_of_mem_numeral (by omega) (by omega) hd

theorem valid_fib_c {argv : List Bytes} {body : Bytes} (h : fib_c argv = some body) :
    Valid body := by
  obtain ⟨r, hr, rfl⟩ := Option.map_eq_some_iff.mp h
  obtain ⟨name, arg, rfl⟩ : ∃ name arg, argv = [name, arg] := by
    unfold Fib.main at hr
    split at hr
    · exact ⟨_, _, rfl⟩
    · cases hr
  rw [Fib.main_eq] at hr
  cases hr
  refine valid_of_ascii fun c hc => ?_
  rcases List.mem_append.mp hc with hc | hc
  · exact lt_of_mem_decimal hc
  · rw [show lit "\n" = [10] by decide, List.mem_singleton] at hc
    rw [hc]
    decide

theorem valid_html_template {F : Type} [Template.FloatText F] {secondvalue : F}
    (h : Valid (Template.FloatText.toString secondvalue)) :
    Valid (HtmlTemplate.page secondvalue) := by
  have hlit : ∀ {x : String}, (lit x).all (· < 128) = true → Valid (lit x) := fun hx =>
    valid_of_ascii fun c hc => by simpa using List.all_eq_true.mp hx c hc
  have hline : ∀ array n, Valid array →
      Valid ((List.range n).flatMap (HtmlTemplate.line array)) := by
    intro array n harray
    induction n with
    | zero => exact valid_nil
    | succ n ih =>
      rw [List.range_succ, List.flatMap_append, List.flatMap_singleton]
      have hn : Valid (decimal n) := valid_of_ascii fun c hc => lt_of_mem_decimal hc
      exact ih.append ((((harray.append hn).append (hlit rfl)).append hn).append (hlit rfl))
  have hhalf : ∀ first array n, Valid first → Valid array →
      Valid (HtmlTemplate.half first secondvalue array n) := fun first array n hfirst harray =>
    ((((hfirst.append (hlit rfl)).append h).append (hlit rfl)).append
      (hline array n harray)).append (hlit rfl)
  exact ((hhalf _ _ 20 (hlit rfl) (hlit rfl)).append
    (hhalf _ _ 32 (hlit rfl) (hlit rfl))).append (hlit rfl)

theorem valid_xml_to_json {name xml body : Bytes} (hv : Valid xml) (hclean : Clean xml)
    (h : xml_to_json [name, xml] = some body) : Valid body :=
  valid_of_clean hv hclean (main_of_xml_to_json h)

/-- **A failure is UTF-8 unless the buffer ends inside a character of the hash.** -/
theorem valid_verdict_iff {hash expected : Bytes} (hv : Valid hash)
    (hexpected : ∀ c ∈ expected, c < 128) :
    Valid (verdict hash expected) ↔ Valid (hash.take 987) := by
  have hlit : ∀ {x : String}, (lit x).all (· < 128) = true → ∀ c ∈ lit x, c < 128 :=
    fun hx c hc => by simpa using List.all_eq_true.mp hx c hc
  unfold verdict
  split_ifs with hsame
  · rw [hsame]
    exact iff_of_true (valid_of_ascii (hlit rfl))
      (valid_of_ascii fun c hc => hexpected c (List.mem_of_mem_take hc))
  -- what is left of the buffer behind the hash
  have hrest : Valid (List.take (987 - hash.length) (lit ", Expected " ++ expected ++ lit "\n")) :=
    valid_of_ascii fun c hc => List.forall_mem_append.mpr
      ⟨List.forall_mem_append.mpr ⟨hlit rfl, hexpected⟩, hlit rfl⟩ c (List.mem_of_mem_take hc)
  have hline : (failure_line hash expected).take 999 = lit "Failed: Got " ++ (hash.take 987 ++
      List.take (987 - hash.length) (lit ", Expected " ++ expected ++ lit "\n")) := by
    rw [failure_line, List.append_assoc, List.append_assoc, List.append_assoc, List.take_append,
      List.take_append, List.append_assoc]
    rfl
  rw [hline, valid_ascii_append_iff (hlit rfl)]
  constructor
  · intro h
    rcases le_total hash.length 987 with hlen | hlen
    · rwa [List.take_of_length_le hlen]
    · rwa [Nat.sub_eq_zero_of_le hlen, List.take_zero, List.append_nil] at h
  · exact fun h => h.append hrest

end HfiWebserver.Guest.Programs
