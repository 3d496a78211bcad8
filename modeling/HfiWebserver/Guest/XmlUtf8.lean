import HfiWebserver.Guest.XmlAnswer

/-! # UTF-8 through `xml_to_json`

A text in UTF-8 is answered in UTF-8 unless it has a numeric reference to a surrogate
(`valid_answer`): names and values end at ASCII characters, so no character is cut, and the writer
of numeric references encodes every other code as a character. -/

namespace HfiWebserver.Guest.XmlUtf8

open HfiWebserver.Lib.ByteStrings HfiWebserver.Lib.Groups
open HfiWebserver.Guest.Rapidxml HfiWebserver.Guest.Rapidjson HfiWebserver.Guest.RapidjsonRoundTrip
open HfiWebserver.Guest.XmlGrammar HfiWebserver.Guest.XmlParse HfiWebserver.Guest.XmlTags
open HfiWebserver.Guest.XmlToJson HfiWebserver.Guest.XmlMembers HfiWebserver.Guest.XmlAnswer
open HfiWebserver.Server.StringResults (insert_coded_character)

/-! ### Codes of characters -/

/-- The codes that no character has. -/
def Surrogate (c : UInt32) : Prop := 0xD800 ≤ c ∧ c < 0xE000

theorem continuation_byte : ∀ b : UInt8, (b ||| 0x80) &&& 0xBF = b &&& 0x3F ||| 0x80 :=
  forall_byte (by decide +kernel)

theorem lead_byte_two : ∀ b : UInt8, b < 0x20 → b ||| 0xC0 = b &&& 0x1F ||| 0xC0 :=
  forall_byte (by decide +kernel)

theorem lead_byte_three : ∀ b : UInt8, b < 0x10 → b ||| 0xE0 = b &&& 0x0F ||| 0xE0 :=
  forall_byte (by decide +kernel)

theorem lead_byte_four : ∀ b : UInt8, b < 0x08 → b ||| 0xF0 = b &&& 0x07 ||| 0xF0 :=
  forall_byte (by decide +kernel)

theorem toUInt8_shift_lt {c k : UInt32} {m : UInt8} {n : ℕ} (hk : k.toNat = n) (hn : n < 32)
    (h : c.toNat < m.toNat * 2 ^ n) : (c >>> k).toUInt8 < m := by
  rw [UInt8.lt_iff_toNat_lt, UInt32.toNat_toUInt8, UInt32.toNat_shiftRight, hk,
    Nat.mod_eq_of_lt hn, Nat.shiftRight_eq_div_pow]
  have hlt := (Nat.div_lt_iff_lt_mul (Nat.two_pow_pos n)).mpr h
  exact (Nat.mod_le _ _).trans_lt hlt

/-- The writer of references encodes a character. -/
theorem coded_eq {d : Char} {dest : Bytes}
    (h : insert_coded_character false d.val = some dest) : dest = String.utf8EncodeChar d := by
  have hlt : ∀ {m : UInt32}, d.val < m ↔ d.val.toNat < m.toNat := UInt32.lt_iff_toNat_lt
  have hgt : ∀ {m : UInt32}, m < d.val ↔ m.toNat < d.val.toNat := UInt32.lt_iff_toNat_lt
  have hle : ∀ {m : UInt32}, d.val ≤ m ↔ d.val.toNat ≤ m.toNat := UInt32.le_iff_toNat_le
  unfold insert_coded_character at h
  rw [if_neg Bool.false_ne_true] at h
  split_ifs at h with h1 h2 h3 h4 <;> obtain rfl := Option.some.inj h
  · rw [hlt, show (0x80 : UInt32).toNat = 0x80 from rfl] at h1
    have hd : d.utf8Size = 1 := by
      rw [Char.utf8Size_eq_one_iff, hle, show (127 : UInt32).toNat = 127 from rfl]
      omega
    rw [String.utf8EncodeChar_eq_singleton hd]
  · rw [hlt, show (0x80 : UInt32).toNat = 0x80 from rfl] at h1
    rw [hlt, show (0x800 : UInt32).toNat = 0x800 from rfl] at h2
    have hd : d.utf8Size = 2 := by
      rw [Char.utf8Size_eq_two_iff, hgt, hle, show (127 : UInt32).toNat = 127 from rfl,
        show (0x7ff : UInt32).toNat = 0x7ff from rfl]
      omega
    have hlead := lead_byte_two _ (toUInt8_shift_lt (c := d.val) (k := 6) (m := 0x20) rfl
      (by decide) (by simpa using h2))
    rw [String.utf8EncodeChar_eq_cons_cons hd]
    simp only [UInt32.toUInt8_or, UInt32.toUInt8_and]
    rw [← hlead, ← continuation_byte]
    rfl
  · rw [hlt, show (0x800 : UInt32).toNat = 0x800 from rfl] at h2
    rw [hlt, show (0x10000 : UInt32).toNat = 0x10000 from rfl] at h3
    have hd : d.utf8Size = 3 := by
      rw [Char.utf8Size_eq_three_iff, hgt, hle, show (0x7ff : UInt32).toNat = 0x7ff from rfl,
        show (0xffff : UInt32).toNat = 0xffff from rfl]
      omega
    have hlead := lead_byte_three _ (toUInt8_shift_lt (c := d.val) (k := 12) (m := 0x10) rfl
      (by decide) (by simpa using h3))
    rw [String.utf8EncodeChar_eq_cons_cons_cons hd]
    simp only [UInt32.toUInt8_or, UInt32.toUInt8_and]
    rw [← hlead, ← continuation_byte, ← continuation_byte]
    rfl
  · rw [hlt, show (0x10000 : UInt32).toNat = 0x10000 from rfl] at h3
    rw [hlt, show (0x110000 : UInt32).toNat = 0x110000 from rfl] at h4
    have hd : d.utf8Size = 4 := by
      rw [Char.utf8Size_eq_four_iff, hgt, show (0xffff : UInt32).toNat = 0xffff from rfl]
      omega
    have hlead := lead_byte_four _ (toUInt8_shift_lt (c := d.val) (k := 18) (m := 0x08) (n := 18) rfl
      (by decide) (by
        rw [show (0x08 : UInt8).toNat = 8 from rfl]
        omega))
    rw [String.utf8EncodeChar_eq_cons_cons_cons_cons hd]
    simp only [UInt32.toUInt8_or, UInt32.toUInt8_and]
    rw [← hlead, ← continuation_byte, ← continuation_byte, ← continuation_byte]
    rfl

theorem valid_coded {c : UInt32} {dest : Bytes}
    (h : insert_coded_character false c = some dest) (hc : ¬ Surrogate c) : Valid dest := by
  have hrange : c.toNat < 0x110000 := by
    unfold insert_coded_character at h
    rw [if_neg Bool.false_ne_true] at h
    simp only [UInt32.lt_iff_toNat_lt] at h
    split_ifs at h with h1 h2 h3 h4
    · exact h1.trans (by decide)
    · exact h2.trans (by decide)
    · exact h3.trans (by decide)
    · exact h4
  have hchar : c.isValidChar := by
    unfold Surrogate at hc
    rw [UInt32.le_iff_toNat_le, UInt32.lt_iff_toNat_lt,
      show (0xD800 : UInt32).toNat = 0xD800 from rfl,
      show (0xE000 : UInt32).toNat = 0xE000 from rfl] at hc
    unfold UInt32.isValidChar Nat.isValidChar
    omega
  rw [coded_eq (d := ⟨c, hchar⟩) h]
  exact valid_iff.mpr ⟨[⟨c, hchar⟩], by simp⟩

/-! ### Values -/

/-- A numeric reference to a surrogate. -/
inductive SurrogateReference : Bytes → Prop
  | hexadecimal (digits : Bytes) : (∀ c ∈ digits, isDigit c = true) →
      Surrogate (code 16 digits) → SurrogateReference (lit "&#x" ++ (digits ++ lit ";"))
  | decimal (digits : Bytes) : (∀ c ∈ digits, isDigit c = true) →
      Surrogate (code 10 digits) → SurrogateReference (lit "&#" ++ (digits ++ lit ";"))

/-- No numeric reference in a text is to a surrogate. -/
def Clean (text : Bytes) : Prop := ∀ r, SurrogateReference r → ¬ r <:+: text

theorem Clean.of_infix {s t : Bytes} (h : Clean t) (hst : s <:+: t) : Clean s :=
  fun r hr hrs => h r hr (hrs.trans hst)

theorem Clean.split {a b : Bytes} (h : Clean (a ++ b)) : Clean a ∧ Clean b :=
  ⟨h.of_infix (List.prefix_append a b).isInfix, h.of_infix (List.suffix_append a b).isInfix⟩

theorem Clean.tail {c : UInt8} {t : Bytes} (h : Clean (c :: t)) : Clean t :=
  h.of_infix (List.suffix_cons c t).isInfix

theorem digit_ascii : ∀ c : UInt8, isDigit c = true → c < 128 := forall_byte (by decide +kernel)

theorem ascii_reference {dest r : Bytes} (h : Reference dest r) : ∀ c ∈ r, c < 128 := by
  have hlit : ∀ {x : String}, (lit x).all (· < 128) = true → ∀ c ∈ lit x, c < 128 :=
    fun h c hc => by simpa using List.all_eq_true.mp h c hc
  cases h with
  | hexadecimal digits dest hd _ =>
    exact List.forall_mem_append.mpr ⟨hlit rfl, List.forall_mem_append.mpr
      ⟨fun c hc => digit_ascii c (hd c hc), hlit rfl⟩⟩
  | decimal digits dest hd _ =>
    exact List.forall_mem_append.mpr ⟨hlit rfl, List.forall_mem_append.mpr
      ⟨fun c hc => digit_ascii c (hd c hc), hlit rfl⟩⟩
  | _ => exact hlit rfl

theorem valid_reference {dest r : Bytes} (h : Reference dest r) (hr : ¬ SurrogateReference r) :
    Valid dest := by
  cases h with
  | hexadecimal digits dest hd hdest =>
    exact valid_coded hdest fun hs => hr (.hexadecimal digits hd hs)
  | decimal digits dest hd hdest =>
    exact valid_coded hdest fun hs => hr (.decimal digits hd hs)
  | _ => decide

/-- A value is UTF-8 behind what begins its first character. -/
theorem valid_spelled {pred : UInt8 → Bool} {v t : Bytes} (h : Spelled pred v t) (hc : Clean t)
    {a : Bytes} (ha : Valid (a ++ t)) : Valid (a ++ v) := by
  induction h generalizing a with
  | nil => exact ha
  | @char c v t _ _ _ ih =>
    have hv := ih hc.tail (a := a ++ [c]) (by simpa using ha)
    simpa using hv
  | @ampersand v t _ _ ih =>
    have hv := ih hc.tail (a := a ++ [38]) (by simpa using ha)
    simpa using hv
  | @reference dest r v t hr _ ih =>
    have hascii := ascii_reference hr
    have hdest := valid_reference hr fun hs => hc r hs (List.prefix_append r t).isInfix
    obtain ⟨q, rfl⟩ := XmlValue.head_reference hr
    rw [List.cons_append, valid_append_cons_iff (by decide),
      valid_ascii_append_iff fun c hc => hascii c (List.mem_cons_of_mem _ hc)] at ha
    have hv := ih hc.split.2 (a := []) ha.2
    rw [List.nil_append] at hv
    exact ha.1.append (hdest.append hv)

/-! ### The strings of a tree -/

mutual

/-- The strings of a node. -/
def node_strings : Node → List Bytes
  | .element name attributes children =>
    name :: attributes.flatMap (fun a => [a.1, a.2]) ++ children_strings children
  | .data value => [value]
  | .cdata value => [value]

def children_strings : List Node → List Bytes
  | [] => []
  | c :: children => node_strings c ++ children_strings children

end

theorem children_strings_append (ns ms : List Node) :
    children_strings (ns ++ ms) = children_strings ns ++ children_strings ms := by
  induction ns with
  | nil => rfl
  | cons n ns ih =>
    rw [List.cons_append, children_strings, children_strings, ih, List.append_assoc]

/-- All of a list of strings are UTF-8. -/
def AllValid (ss : List Bytes) : Prop := ∀ s ∈ ss, Valid s

theorem allValid_append {ss ts : List Bytes} :
    AllValid (ss ++ ts) ↔ AllValid ss ∧ AllValid ts := List.forall_mem_append

theorem blank_ascii {ws : Bytes} (h : Blank ws) : ∀ c ∈ ws, c < 128 := by
  have hall : ∀ c : UInt8, whitespace_pred c = true → c < 128 := forall_byte (by decide +kernel)
  exact fun c hc => hall c (h c hc)

theorem valid_blank {ws : Bytes} (h : Blank ws) {t : Bytes} : Valid (ws ++ t) ↔ Valid t :=
  valid_ascii_append_iff (blank_ascii h)

/-- White space behind UTF-8 does not cut it. -/
theorem valid_of_blank {a ws : Bytes} (h : Blank ws) (hv : Valid (a ++ ws)) : Valid a := by
  refine Valid.of_append (List.all_eq_true.mpr fun c hc => ?_) hv
  rw [decide_eq_true_iff]
  exact blank_ascii h c hc

theorem valid_named {name nt : Bytes} (h : Named name nt) (hv : Valid nt) : Valid name := by
  cases h with
  | plain => exact hv
  | prefixed p name =>
    rw [valid_append_cons_iff (by decide)] at hv
    exact hv.2

theorem valid_attribute {a : Bytes × Bytes} {t : Bytes} (h : Attribute a t) (hv : Valid t)
    (hc : Clean t) : Valid a.1 ∧ Valid a.2 := by
  cases h with
  | @mk name ws ws' v t quote _ _ hws hws' hq hspell =>
    have hquote : quote < 128 := by rcases hq with rfl | rfl <;> decide
    have htext : name ++ (ws ++ 61 :: (ws' ++ quote :: (t ++ [quote]))) =
        (name ++ ws) ++ 61 :: (ws' ++ quote :: (t ++ [quote])) := by simp
    rw [htext, valid_append_cons_iff (by decide), valid_blank hws', valid_cons_iff hquote,
      valid_append_cons_iff hquote] at hv
    have ht : Clean t := hc.of_infix ⟨name ++ (ws ++ 61 :: (ws' ++ [quote])), [quote], by simp⟩
    exact ⟨valid_of_blank hws hv.1, valid_spelled hspell ht (a := []) hv.2.1⟩

/-- The last byte of an attribute is its quote. -/
theorem attribute_concat {a : Bytes × Bytes} {t : Bytes} (h : Attribute a t) :
    ∃ s c, t = s ++ [c] ∧ c < 128 := by
  cases h with
  | @mk name ws ws' v t quote _ _ _ _ hq _ =>
    refine ⟨name ++ (ws ++ 61 :: (ws' ++ quote :: t)), quote, by simp, ?_⟩
    rcases hq with rfl | rfl <;> decide

/-- A text that ends with an ASCII character is UTF-8 on its own. -/
theorem valid_concat_append {s t u : Bytes} {c : UInt8} (ht : t = s ++ [c]) (hc : c < 128) :
    Valid (t ++ u) ↔ Valid t ∧ Valid u := by
  rw [ht, List.append_assoc, List.singleton_append, valid_append_cons_iff hc,
    valid_append_cons_iff hc, and_iff_left valid_nil]

theorem valid_attributes {as : List (Bytes × Bytes)} {t : Bytes} (h : Attributes as t)
    (hv : Valid t) (hc : Clean t) : AllValid (as.flatMap fun a => [a.1, a.2]) := by
  induction h with
  | nil => simp [AllValid]
  | @cons a as t ws u ha hws _ ih =>
    obtain ⟨s, c, ht, hascii⟩ := attribute_concat ha
    rw [valid_concat_append ht hascii, valid_blank hws] at hv
    have hone := valid_attribute ha hv.1 hc.split.1
    rw [List.flatMap_cons, allValid_append]
    refine ⟨?_, ih hv.2 hc.split.2.split.2⟩
    exact List.forall_mem_cons.mpr ⟨hone.1, List.forall_mem_singleton.mpr hone.2⟩

theorem valid_start {name st : Bytes} {as : List (Bytes × Bytes)} (h : StartTag name as st)
    (hv : Valid st) (hc : Clean st) :
    Valid name ∧ AllValid (as.flatMap fun a => [a.1, a.2]) := by
  obtain ⟨hname, hws, hsep, has⟩ := h
  rename_i nt ws t
  rcases ws with _ | ⟨w, ws⟩
  · obtain rfl : as = [] := by
      by_contra hne
      exact hsep hne rfl
    cases has
    rw [List.append_nil, List.append_nil] at hv
    exact ⟨valid_named hname hv, by simp [AllValid]⟩
  · have hw : w < 128 := blank_ascii hws w List.mem_cons_self
    have hws' : Blank ws := fun c hc => hws c (List.mem_cons_of_mem w hc)
    rw [List.cons_append, valid_append_cons_iff hw, valid_blank hws'] at hv
    exact ⟨valid_named hname hv.1, valid_attributes has hv.2 hc.split.2.split.2⟩

/-- A closing tag stands for itself between two texts in UTF-8. -/
theorem valid_end {ct et t : Bytes} (h : EndTag et) :
    Valid (ct ++ (et ++ t)) → Valid ct ∧ Valid t := by
  obtain ⟨-, hws⟩ := h
  rename_i name ws
  have htext : ct ++ (60 :: 47 :: (name ++ (ws ++ [62])) ++ t) =
      ct ++ 60 :: ((47 :: (name ++ ws)) ++ 62 :: t) := by simp
  rw [htext, valid_append_cons_iff (by decide), valid_append_cons_iff (by decide)]
  exact fun hv => ⟨hv.1, hv.2.2⟩

theorem misc_concat {m : Bytes} (h : Misc m) : ∃ s, m = s ++ [62] := by
  have hdoctype : ∀ {depth : ℕ} {t : Bytes}, Doctype depth t → ∃ s, t = s ++ [62] := by
    intro depth t h
    induction h with
    | close => exact ⟨[], rfl⟩
    | char c _ _ _ ih =>
      obtain ⟨s, rfl⟩ := ih
      exact ⟨c :: s, rfl⟩
    | opening _ ih =>
      obtain ⟨s, rfl⟩ := ih
      exact ⟨91 :: s, rfl⟩
    | closing _ ih =>
      obtain ⟨s, rfl⟩ := ih
      exact ⟨93 :: s, rfl⟩
    | inner c _ _ _ ih =>
      obtain ⟨s, rfl⟩ := ih
      exact ⟨c :: s, rfl⟩
  cases h with
  | question c _ => exact ⟨63 :: (c ++ lit "?"), by simp [show lit "?>" = lit "?" ++ [62] by decide]⟩
  | comment c _ =>
    exact ⟨lit "!--" ++ (c ++ lit "--"), by simp [show lit "-->" = lit "--" ++ [62] by decide]⟩
  | @doctype w t _ ht =>
    obtain ⟨s, rfl⟩ := hdoctype ht
    exact ⟨lit "!DOCTYPE" ++ w :: s, by simp⟩
  | other c => exact ⟨33 :: c, rfl⟩

theorem cdata_concat {v m : Bytes} (h : Cdata v m) : ∃ s, m = s ++ [62] := by
  cases h
  exact ⟨lit "![CDATA[" ++ (v ++ lit "]]"), by simp [show lit "]]>" = lit "]]" ++ [62] by decide]⟩

theorem markup_concat {child : Option Node} {m : Bytes} (h : Markup child m) :
    ∃ s, m = s ++ [62] := by
  cases h with
  | misc h => exact misc_concat h
  | cdata h => exact cdata_concat h
  | @empty name st as _ => exact ⟨st ++ [47], by simp⟩
  | @element name st ct et as children _ _ het =>
    obtain ⟨-, -⟩ := het
    rename_i n ws
    exact ⟨st ++ 62 :: (ct ++ 60 :: 47 :: (n ++ ws)), by simp⟩

theorem valid_cdata {v m : Bytes} (h : Cdata v m) (hv : Valid m) : Valid v := by
  cases h
  have hopen : ∀ c ∈ lit "![CDATA[", c < 128 := by
    have hall : (lit "![CDATA[").all (· < 128) = true := rfl
    exact fun c hc => by simpa using List.all_eq_true.mp hall c hc
  rw [valid_ascii_append_iff hopen] at hv
  exact Valid.of_append rfl hv

/-- The strings of contents in UTF-8, behind the end of which ASCII stands. -/
theorem valid_contents {ns : List Node} {t : Bytes} (h : Contents ns t) (hv : Valid t)
    (hc : Clean t) : AllValid (children_strings ns) := by
  have hgt : (62 : UInt8) < 128 := by decide
  induction h with
  | nil => simp [children_strings, AllValid]
  | misc hws hm _ ih =>
    obtain ⟨s, hs⟩ := misc_concat hm
    rw [valid_blank hws, valid_cons_iff (by decide), valid_concat_append hs hgt] at hv
    exact ih hv.2 hc.split.2.tail.split.2
  | cdata hws hm _ ih =>
    obtain ⟨s, hs⟩ := cdata_concat hm
    rw [valid_blank hws, valid_cons_iff (by decide), valid_concat_append hs hgt] at hv
    rw [children_strings, allValid_append, node_strings]
    exact ⟨List.forall_mem_singleton.mpr (valid_cdata hm hv.1),
      ih hv.2 hc.split.2.tail.split.2⟩
  | empty hws hst _ ih =>
    rw [valid_blank hws, valid_cons_iff (by decide), valid_append_cons_iff (by decide),
      valid_cons_iff hgt] at hv
    obtain ⟨hname, has⟩ := valid_start hst hv.1 hc.split.2.tail.split.1
    rw [children_strings, allValid_append, node_strings, children_strings, List.append_nil]
    exact ⟨List.forall_mem_cons.mpr ⟨hname, has⟩, ih hv.2 hc.split.2.tail.split.2.tail.tail⟩
  | @element ws name st ct et t as children ns hws hst _ het _ ihc ih =>
    have hclean := hc.split.2.tail.split
    have hinner := hclean.2.tail.split
    rw [valid_blank hws, valid_cons_iff (by decide), valid_append_cons_iff hgt] at hv
    obtain ⟨hname, has⟩ := valid_start hst hv.1 hclean.1
    obtain ⟨hct, ht⟩ := valid_end het hv.2
    rw [children_strings, allValid_append, node_strings, List.cons_append]
    exact ⟨List.forall_mem_cons.mpr ⟨hname, allValid_append.mpr ⟨has, ihc hct hinner.1⟩⟩,
      ih ht hinner.2.split.2⟩
  | @data v s t ns hs _ ht _ ih =>
    have hboth : Valid s ∧ Valid t := by
      rcases ht with rfl | ht
      · rw [List.append_nil] at hv
        exact ⟨hv, valid_nil⟩
      · obtain ⟨t, rfl⟩ := List.head?_eq_some_iff.mp ht
        rw [valid_append_cons_iff (by decide)] at hv
        exact ⟨hv.1, (valid_cons_iff (by decide)).mpr hv.2⟩
    rw [children_strings, allValid_append, node_strings]
    exact ⟨List.forall_mem_singleton.mpr (valid_spelled hs hc.split.1 (a := []) hboth.1),
      ih hboth.2 hc.split.2⟩

theorem valid_document {ns : List Node} {t : Bytes} (h : Document ns t) (hv : Valid t)
    (hc : Clean t) : AllValid (children_strings ns) := by
  induction h with
  | nil => simp [children_strings, AllValid]
  | @markup ws m t child ns hws hm _ ih =>
    obtain ⟨s, hs⟩ := markup_concat hm
    rw [valid_blank hws, valid_cons_iff (by decide), valid_concat_append hs (by decide)] at hv
    have hclean := hc.split.2.tail.split
    rw [children_strings_append, allValid_append]
    refine ⟨?_, ih hv.2 hclean.2⟩
    -- the node of a markup is contents of its own
    have hblank : Blank [] := by simp [Blank]
    have hcontents := contents_of_markup hblank hm (.nil hblank)
    rw [List.nil_append, List.append_nil, List.append_nil] at hcontents
    refine valid_contents hcontents ((valid_cons_iff (by decide)).mpr hv.1) ?_
    exact hc.of_infix ⟨ws, t, by simp⟩

/-- The mark of the byte order is a character. -/
theorem valid_bom {t : Bytes} (h : Valid t) : Valid (parse_bom t) := by
  unfold parse_bom
  split_ifs with hbom
  · obtain ⟨h0, h1, h2⟩ := hbom
    rcases t with _ | ⟨a, _ | ⟨b, _ | ⟨c, t⟩⟩⟩
    · exact absurd (show (0 : UInt8) = 0xEF from h0) (by decide)
    · exact absurd (show (0 : UInt8) = 0xBB from h1) (by decide)
    · exact absurd (show (0 : UInt8) = 0xBF from h2) (by decide)
    · obtain rfl : a = 0xEF := h0
      obtain rfl : b = 0xBB := h1
      obtain rfl : c = 0xBF := h2
      have henc : (0xEF :: 0xBB :: 0xBF :: t : Bytes).toByteArray =
          ['\uFEFF'].utf8Encode ++ t.toByteArray := by
        have hmark : ['\uFEFF'].utf8Encode = ([0xEF, 0xBB, 0xBF] : Bytes).toByteArray := by
          decide +kernel
        rw [hmark, ← List.toByteArray_append]
        rfl
      rw [Valid, henc, ByteArray.isValidUTF8_utf8Encode_singleton_append_iff] at h
      exact h
  · exact h

theorem valid_c_str {s : Bytes} (h : Valid s) : Valid (c_str s) := by
  have hs : s = c_str s ++ s.dropWhile (· != 0) := List.takeWhile_append_dropWhile.symm
  rcases hrest : s.dropWhile (· != 0) with _ | ⟨c, rest⟩
  · rw [hrest, List.append_nil] at hs
    rwa [← hs]
  · have hc := List.head_dropWhile_not (p := (· != 0)) (l := s) (by simp [hrest])
    simp only [hrest, List.head_cons, bne_eq_false_iff_eq] at hc
    subst hc
    rw [hs, hrest, valid_append_cons_iff (by decide)] at h
    exact h.1

/-! ### The answer -/

theorem memberStrings_iff {ms : Members} : AllValid (memberStrings ms) ↔
    ∀ m ∈ ms, Valid m.1 ∧ AllValid (strings m.2) := by
  induction ms with
  | nil => simp [memberStrings, AllValid]
  | cons m ms ih =>
    obtain ⟨name, v⟩ := m
    rw [memberStrings, List.forall_mem_cons, ← ih, List.cons_append]
    exact (List.forall_mem_cons.trans (and_congr_right fun _ => allValid_append)).trans
      and_assoc.symm

theorem elementStrings_iff {vs : List Value} : AllValid (elementStrings vs) ↔
    ∀ v ∈ vs, AllValid (strings v) := by
  induction vs with
  | nil => simp [elementStrings, AllValid]
  | cons v vs ih => rw [elementStrings, List.forall_mem_cons, ← ih, allValid_append]

/-- A member is UTF-8 when its values are. -/
theorem allValid_of_opened {m : Bytes × Value}
    (h : ∀ p ∈ opened m, AllValid (strings p.2)) : AllValid (strings m.2) := by
  obtain ⟨name, v⟩ := m
  cases v with
  | array es =>
    rw [strings, elementStrings_iff]
    exact fun v hv => h (name, v) (List.mem_map_of_mem hv)
  | _ => exact h _ (List.mem_singleton.mpr rfl)

theorem valid_attribute_members {as : List (Bytes × Bytes)}
    (h : AllValid (as.flatMap fun a => [a.1, a.2])) :
    ∀ m ∈ attribute_members as, Valid m.1 ∧ AllValid (strings m.2) := by
  intro m hm
  simp only [attribute_members, xml2json_add_attributes, List.nil_append, List.mem_map] at hm
  obtain ⟨a, ha, rfl⟩ := hm
  have hat : Valid xml2json_attribute_name_prefix := by decide
  have hname : Valid a.1 := h _ (List.mem_flatMap.mpr ⟨a, ha, by simp⟩)
  have hvalue : Valid a.2 := h _ (List.mem_flatMap.mpr ⟨a, ha, by simp⟩)
  exact ⟨hat.append (valid_c_str hname), List.forall_mem_singleton.mpr (valid_c_str hvalue)⟩

theorem valid_current_name {c : Node} (h : AllValid (node_strings c)) :
    Valid (current_name c) := by
  have htext : Valid xml2json_text_additional_name := by decide
  cases c with
  | element name as cs => exact valid_c_str (h name (by simp [node_strings]))
  | data v => exact htext
  | cdata v => exact htext

theorem mem_children_strings {children : List Node} :
    AllValid (children_strings children) ↔ ∀ c ∈ children, AllValid (node_strings c) := by
  induction children with
  | nil => simp [children_strings, AllValid]
  | cons c children ih =>
    rw [children_strings, List.forall_mem_cons, ← ih, allValid_append]

theorem exists_of_forall₂ {children : List Node} {kvs : Members}
    (h : List.Forall₂ IsMember children kvs) {m : Bytes × Value} (hm : m ∈ kvs) :
    ∃ c ∈ children, IsMember c m := by
  induction h with
  | nil => cases hm
  | @cons c m' children kvs hone _ ih =>
    rcases List.mem_cons.mp hm with rfl | hm
    · exact ⟨c, List.mem_cons_self, hone⟩
    · obtain ⟨d, hd, hmem⟩ := ih hm
      exact ⟨d, List.mem_cons_of_mem c hd, hmem⟩

/-- The value of a node whose strings are UTF-8 has only such. -/
theorem valid_traverse {n : Node} (hn : AllValid (node_strings n)) {v : Value}
    (hv : xml2json_traverse_node n = some v) : AllValid (strings v) := by
  induction n using node_induction generalizing v with
  | element name attributes children ih =>
    rw [node_strings, List.cons_append] at hn
    obtain ⟨-, hn⟩ := List.forall_mem_cons.mp hn
    obtain ⟨has, hcs⟩ := allValid_append.mp hn
    rw [mem_children_strings] at hcs
    obtain ⟨kvs, hkvs, ⟨-, -, hx⟩ | ⟨s, -, rfl, hx⟩ | ⟨js, hx, hvalues, hnames⟩⟩ :=
      traverse_opened name attributes children
    · rw [hx] at hv
      cases hv
      simp [strings, AllValid]
    · rw [hx] at hv
      cases hv
      have hs := hcs (.data s) List.mem_cons_self s (by simp [node_strings])
      exact List.forall_mem_singleton.mpr (valid_c_str hs)
    · rw [hx] at hv
      cases hv
      have hkvs' : ∀ m ∈ kvs, Valid m.1 ∧ AllValid (strings m.2) := by
        intro m hm
        obtain ⟨c, hc, hname, hval⟩ := exists_of_forall₂ hkvs hm
        exact ⟨hname ▸ valid_current_name (hcs c hc), ih c hc (hcs c hc) hval⟩
      have hattrs := valid_attribute_members has
      rw [strings, memberStrings_iff]
      intro m hm
      constructor
      · have hmem := hnames.mem_iff.mp (List.mem_map_of_mem hm)
        rcases List.mem_append.mp hmem with hmem | hmem
        · obtain ⟨m', hm', heq⟩ := List.mem_map.mp hmem
          exact heq ▸ (hattrs m' hm').1
        · obtain ⟨m', hm', heq⟩ := List.mem_map.mp (mem_keys_groups.mp hmem)
          exact heq ▸ (hkvs' m' hm').1
      · refine allValid_of_opened fun p hp => ?_
        have hmem := hvalues.mem_iff.mp (List.mem_flatMap.mpr ⟨m, hm, hp⟩)
        rcases List.mem_append.mp hmem with hmem | hmem
        · exact (hattrs p hmem).2
        · exact (hkvs' p hmem).2
  | data s =>
    cases hv
    exact List.forall_mem_singleton.mpr (valid_c_str (hn s (by simp [node_strings])))
  | cdata s =>
    cases hv
    exact List.forall_mem_singleton.mpr (valid_c_str (hn s (by simp [node_strings])))

theorem valid_entries {nodes : List Node} {members : Members}
    (h : List.Forall₂ IsEntry nodes members) (hn : AllValid (children_strings nodes)) :
    ∀ m ∈ members, Valid m.1 ∧ AllValid (strings m.2) := by
  induction h with
  | nil => simp
  | @cons n m nodes members hm _ ih =>
    obtain ⟨hone, hrest⟩ := allValid_append.mp hn
    refine List.forall_mem_cons.mpr ⟨⟨?_, valid_traverse hone hm.2⟩, ih hrest⟩
    rw [hm.1]
    cases n with
    | element name as cs => exact valid_c_str (hone name (by simp [node_strings]))
    | data v => exact valid_nil
    | cdata v => exact valid_nil

theorem valid_of_clean {name xml answer : Bytes} (hv : Valid xml) (hclean : Clean xml)
    (h : main [name, xml] = .ok answer) : Valid answer := by
  obtain ⟨nodes, members, hdoc, hm, rfl⟩ := of_main_eq_ok h
  have hinfix : parse_bom (c_str xml) <:+: xml := by
    have hcut : c_str xml <:+: xml := (List.takeWhile_prefix _).isInfix
    unfold parse_bom
    split_ifs
    · exact (List.drop_suffix 3 _).isInfix.trans hcut
    · exact hcut
  have hstrings := valid_document hdoc (valid_bom (valid_c_str hv))
    (hclean.of_infix hinfix)
  rw [valid_text_iff, strings]
  exact memberStrings_iff.mpr (valid_entries hm hstrings)

/-- **A document in UTF-8 is answered in UTF-8** unless a numeric reference in it is to a
surrogate. -/
theorem valid_answer {name xml answer : Bytes} (hv : Valid xml)
    (h : main [name, xml] = .ok answer) (hno : ¬ Valid answer) :
    ∃ r, SurrogateReference r ∧ r <:+: xml := by
  by_contra hclean
  exact hno (valid_of_clean hv (fun r hr hin => hclean ⟨r, hr, hin⟩) h)

theorem valid_answer_surrogate : ∃ r, SurrogateReference r ∧ r <:+: lit "<a>&#xD800;</a>" :=
  @valid_answer [] (lit "<a>&#xD800;</a>")
    (lit "\x7b\"a\":\"" ++ [0xED, 0xA0, 0x80] ++ lit "\"\x7d") (by decide)
    (by with_unfolding_all rfl) (by decide)

end HfiWebserver.Guest.XmlUtf8
