import HfiWebserver.Guest.Rapidjson
import Mathlib.Data.List.Basic

/-! # JSON texts

`text v` is the JSON text of a value: `write` puts it on the stream (`write_eq`), and `Parse` sends
the events of `v` for it (`Parse_text`), from which a document builds `v` again (`run_build`). -/

namespace HfiWebserver.Guest.RapidjsonRoundTrip

open HfiWebserver.Lib.ByteStrings HfiWebserver.Lib.Fallible HfiWebserver.Lib.Interleave
open HfiWebserver.Guest.Rapidjson

mutual

/-- **Induction on values.** -/
theorem value_induction {P : Value → Prop} (null : P .null) (string : ∀ str, P (.string str))
    (array : ∀ elements, (∀ v ∈ elements, P v) → P (.array elements))
    (object : ∀ members, (∀ m ∈ members, P m.2) → P (.object members)) : ∀ v, P v
  | .null => null
  | .string str => string str
  | .array elements => array elements (elements_induction null string array object elements)
  | .object members => object members (members_induction null string array object members)

theorem elements_induction {P : Value → Prop} (null : P .null) (string : ∀ str, P (.string str))
    (array : ∀ elements, (∀ v ∈ elements, P v) → P (.array elements))
    (object : ∀ members, (∀ m ∈ members, P m.2) → P (.object members)) :
    ∀ elements : List Value, ∀ v ∈ elements, P v
  | [] => by simp
  | v :: elements => by
    have hv := value_induction null string array object v
    have hs := elements_induction null string array object elements
    simpa using ⟨hv, hs⟩

theorem members_induction {P : Value → Prop} (null : P .null) (string : ∀ str, P (.string str))
    (array : ∀ elements, (∀ v ∈ elements, P v) → P (.array elements))
    (object : ∀ members, (∀ m ∈ members, P m.2) → P (.object members)) :
    ∀ members : List (Bytes × Value), ∀ m ∈ members, P m.2
  | [] => by simp
  | (name, v) :: members => by
    have hv := value_induction null string array object v
    have hs := members_induction null string array object members
    rintro m (_ | ⟨_, hm⟩)
    · exact hv
    · exact hs m hm

end

/-! ### Texts -/

/-- Texts with commas between them, when `count` others stand before. -/
def separated : ℕ → List Bytes → Bytes
  | _, [] => []
  | count, t :: ts => (if count = 0 then [] else lit ",") ++ (t ++ separated (count + 1) ts)

/-- Only the first text has no comma before it. -/
theorem separated_succ (count : ℕ) (ts : List Bytes) :
    separated (count + 1) ts = ts.flatMap (lit "," ++ ·) := by
  induction ts generalizing count with
  | nil => rfl
  | cons t ts ih => rw [separated, ih, if_neg (by omega), List.flatMap_cons, List.append_assoc]

mutual

/-- **The JSON text of a value.** -/
def text : Value → Bytes
  | .null => lit "null"
  | .string str => WriteString str
  | .array elements => lit "[" ++ (separated 0 (texts elements) ++ lit "]")
  | .object members => lit "\x7b" ++ (separated 0 (memberTexts members) ++ lit "\x7d")

def texts : List Value → List Bytes
  | [] => []
  | v :: elements => text v :: texts elements

def memberTexts : List (Bytes × Value) → List Bytes
  | [] => []
  | (name, value) :: members =>
    (WriteString name ++ (lit ":" ++ text value)) :: memberTexts members

end

theorem texts_eq (elements : List Value) : texts elements = elements.map text := by
  induction elements with
  | nil => rfl
  | cons v elements ih => rw [texts, ih, List.map_cons]

theorem memberTexts_eq (members : List (Bytes × Value)) :
    memberTexts members = members.map fun m => WriteString m.1 ++ (lit ":" ++ text m.2) := by
  induction members with
  | nil => rfl
  | cons m members ih => rw [memberTexts, ih, List.map_cons]

/-! ### The writer -/

section

variable {os : Bytes} {levels : List Level} {root : Bool}

/-- In an array, a comma stands before all elements but the first. -/
theorem Prefix_array (type : ValueType) (count : ℕ) :
    Writer.Prefix ⟨os, ⟨count, true⟩ :: levels, root⟩ type =
      some ⟨os ++ (if count = 0 then [] else lit ","), ⟨count + 1, true⟩ :: levels, root⟩ := by
  simp [Writer.Prefix]

/-- In an object, a comma stands before all names but the first. -/
theorem Prefix_name (count : ℕ) :
    Writer.Prefix ⟨os, ⟨2 * count, false⟩ :: levels, root⟩ .kStringType =
      some ⟨os ++ (if count = 0 then [] else lit ","), ⟨2 * count + 1, false⟩ :: levels, root⟩ := by
  rcases count with _ | count <;> simp [Writer.Prefix]

/-- In an object, a colon stands before each value. -/
theorem Prefix_value (type : ValueType) (count : ℕ) :
    Writer.Prefix ⟨os, ⟨2 * count + 1, false⟩ :: levels, root⟩ type =
      some ⟨os ++ lit ":", ⟨2 * (count + 1), false⟩ :: levels, root⟩ := by
  have hodd : (2 * count + 1) % 2 = 1 := by omega
  simp [Writer.Prefix, hodd]
  omega

/-- The writer puts the text of a value at any place where it may stand. -/
def Writes (v : Value) : Prop :=
  ∀ w w' : Writer, w.Prefix v.GetType = some w' →
    run Writer.handle w v.Accept = some (w'.put (text v))

theorem run_elements {elements : List Value} (h : ∀ v ∈ elements, Writes v)
    (levels : List Level) (root : Bool) (count : ℕ) (os : Bytes) :
    run Writer.handle ⟨os, ⟨count, true⟩ :: levels, root⟩ (Accept_elements elements) =
      some ⟨os ++ separated count (texts elements), ⟨count + elements.length, true⟩ :: levels,
        root⟩ := by
  induction elements generalizing count os with
  | nil => simp [Accept_elements, texts, separated]
  | cons v elements ih =>
    have hv := h v List.mem_cons_self
    have hs := ih (fun u hu => h u (List.mem_cons_of_mem v hu)) (count + 1)
    have hlen : count + 1 + elements.length = count + (elements.length + 1) := by omega
    rw [Accept_elements, run_trans (hv _ _ (Prefix_array v.GetType count)) (hs _)]
    simp only [texts, separated, List.append_assoc, List.length_cons, hlen]

theorem run_members {members : List (Bytes × Value)} (h : ∀ m ∈ members, Writes m.2)
    (levels : List Level) (root : Bool) (count : ℕ) (os : Bytes) :
    run Writer.handle ⟨os, ⟨2 * count, false⟩ :: levels, root⟩ (Accept_members members) =
      some ⟨os ++ separated count (memberTexts members),
        ⟨2 * (count + members.length), false⟩ :: levels, root⟩ := by
  induction members generalizing count os with
  | nil => simp [Accept_members, memberTexts, separated]
  | cons m members ih =>
    obtain ⟨name, v⟩ := m
    have hv := h _ List.mem_cons_self
    have hs := ih (fun u hu => h u (List.mem_cons_of_mem _ hu)) (count + 1)
    rw [Accept_members, List.cons_append, run_cons]
    simp only [Writer.handle, Prefix_name, Option.map_some, Option.bind_some, Writer.put]
    have hlen : count + 1 + members.length = count + (members.length + 1) := by omega
    rw [run_trans (hv _ _ (Prefix_value v.GetType count)) (hs _)]
    simp only [memberTexts, separated, List.append_assoc, List.length_cons, hlen]

theorem writes (v : Value) : Writes v := by
  induction v using value_induction with
  | null => intro w w' h; simp_all [Value.GetType, Value.Accept, Writer.handle, text]
  | string str => intro w w' h; simp_all [Value.GetType, Value.Accept, Writer.handle, text]
  | array elements ih =>
    rintro w ⟨os, levels, root⟩ h
    have hs := run_elements ih levels root 0 (os ++ lit "[")
    rw [Nat.zero_add] at hs
    rw [Value.Accept, List.cons_append, run_cons]
    simp only [Writer.handle, show w.Prefix .kArrayType = _ from h, Option.map_some,
      Option.bind_some, Writer.push, Writer.put]
    rw [run_trans hs rfl]
    simp [Writer.put, text]
  | object members ih =>
    rintro w ⟨os, levels, root⟩ h
    have hs := run_members ih levels root 0 (os ++ lit "\x7b")
    rw [Nat.zero_add] at hs
    rw [Value.Accept, List.cons_append, run_cons]
    simp only [Writer.handle, show w.Prefix .kObjectType = _ from h, Option.map_some,
      Option.bind_some, Writer.push, Writer.put]
    rw [run_trans hs rfl]
    simp [Writer.put, text]

/-- **The writer writes the text of a value.** -/
theorem write_eq (v : Value) : write v = some (text v) := by
  rw [write, writes v Writer.init ⟨[], [], true⟩ rfl]
  rfl

end

/-! ### Documents -/

/-- The members of an object as they lie on the stack. -/
def flat (members : List (Bytes × Value)) : List Value :=
  members.flatMap fun m => [.string m.1, m.2]

theorem asMembers_flat (members : List (Bytes × Value)) :
    asMembers (flat members) = some members := by
  induction members with
  | nil => rfl
  | cons m members ih =>
    rw [flat, List.flatMap_cons, List.cons_append, List.singleton_append, asMembers]
    rw [flat] at ih
    rw [ih]
    rfl

theorem length_flat (members : List (Bytes × Value)) :
    (flat members).length = 2 * members.length := by
  induction members with
  | nil => rfl
  | cons m members ih =>
    rw [flat] at ih
    simp only [flat, List.flatMap_cons, List.length_append, ih, List.length_cons, List.length_nil]
    omega

/-- The events of a value put it on the stack. -/
def Builds (v : Value) : Prop := ∀ stack, run build stack v.Accept = some (v :: stack)

theorem build_elements {elements : List Value} (h : ∀ v ∈ elements, Builds v)
    (stack : List Value) :
    run build stack (Accept_elements elements) = some (elements.reverse ++ stack) := by
  induction elements generalizing stack with
  | nil => rfl
  | cons v elements ih =>
    have hs := ih (fun u hu => h u (List.mem_cons_of_mem v hu)) (v :: stack)
    rw [Accept_elements, run_trans (h v List.mem_cons_self stack) hs, List.reverse_cons,
      List.append_assoc, List.singleton_append]

theorem build_members {members : List (Bytes × Value)} (h : ∀ m ∈ members, Builds m.2)
    (stack : List Value) :
    run build stack (Accept_members members) = some ((flat members).reverse ++ stack) := by
  induction members generalizing stack with
  | nil => rfl
  | cons m members ih =>
    obtain ⟨name, v⟩ := m
    have hv := h _ List.mem_cons_self (.string name :: stack)
    have hs := ih (fun u hu => h u (List.mem_cons_of_mem _ hu)) (v :: .string name :: stack)
    rw [Accept_members, List.cons_append, run_cons]
    simp only [build, Option.bind_some]
    rw [run_trans hv hs]
    simp [flat]

/-- **The events of a value build it.** -/
theorem run_build (v : Value) : Builds v := by
  induction v using value_induction with
  | null => exact fun _ => rfl
  | string str => exact fun _ => rfl
  | array elements ih =>
    intro stack
    have hs := build_elements ih (.array [] :: stack)
    have hlen : elements.reverse.length = elements.length := List.length_reverse
    rw [Value.Accept, List.cons_append, run_cons]
    simp only [build, Option.bind_some]
    rw [run_append, hs, Option.bind_some, run_cons, build, List.take_left' hlen,
      List.drop_left' hlen, List.reverse_reverse]
    rfl
  | object members ih =>
    intro stack
    have hs := build_members ih (.object [] :: stack)
    have hlen : (flat members).reverse.length = 2 * members.length := by
      rw [List.length_reverse, length_flat]
    rw [Value.Accept, List.cons_append, run_cons]
    simp only [build, Option.bind_some]
    rw [run_append, hs, Option.bind_some, run_cons, build, List.take_left' hlen,
      List.drop_left' hlen, List.reverse_reverse, asMembers_flat]
    rfl

/-! ### The reader: strings -/

theorem Peek_cons (c : UInt8) (s : Bytes) : Peek (c :: s) = c := rfl

theorem forall_byte {P : UInt8 → Prop} (h : ∀ n < 256, P (UInt8.ofNat n)) (c : UInt8) : P c := by
  have hc := h c.toNat c.toNat_lt
  rwa [UInt8.ofNat_toNat] at hc

/-- The writer's escape is the reader's. -/
theorem unescape_escape : ∀ c : UInt8, escape c ≠ 0 → escape c ≠ byte 'u' →
    unescape (escape c) = c ∧ c ≠ 0 :=
  forall_byte (by decide +kernel)

theorem lt_of_escape_eq : ∀ c : UInt8, escape c = byte 'u' → c < 0x20 :=
  forall_byte (by decide +kernel)

theorem ne_of_escape_eq : ∀ c : UInt8, escape c = 0 → c ≠ byte '\\' ∧ c ≠ byte '"' ∧ ¬ c < 0x20 :=
  forall_byte (by decide +kernel)

theorem Encode_byte : ∀ c : UInt8, c < 0x20 → Encode c.toUInt32 = [c] :=
  forall_byte (by decide +kernel)

theorem not_surrogate : ∀ c : UInt8, ¬ (0xD800 ≤ c.toUInt32 ∧ c.toUInt32 ≤ 0xDBFF) :=
  forall_byte (by decide +kernel)

/-- A control character, in the hexadecimal digits the writer gives it. -/
theorem ParseHex4_control {c : UInt8} (h : c < 0x20) (s : Bytes) :
    ParseHex4 (byte '0' :: byte '0' :: hexDigits.getD (c >>> 4).toNat 0 ::
      hexDigits.getD (c &&& 0xF).toNat 0 :: s) = .ok (c.toUInt32, s) := by
  have hall : ∀ n < 0x20, hexDigit (hexDigits.getD ((UInt8.ofNat n) >>> 4).toNat 0) =
      some ((UInt8.ofNat n) >>> 4).toUInt32 ∧
      hexDigit (hexDigits.getD ((UInt8.ofNat n) &&& 0xF).toNat 0) =
        some ((UInt8.ofNat n) &&& 0xF).toUInt32 ∧
      ((((0 : UInt32) <<< 4 + 0) <<< 4 + 0) <<< 4 + ((UInt8.ofNat n) >>> 4).toUInt32) <<< 4 +
        ((UInt8.ofNat n) &&& 0xF).toUInt32 = (UInt8.ofNat n).toUInt32 := by decide
  obtain ⟨h1, h2, h3⟩ := hall c.toNat (UInt8.lt_iff_toNat_lt.mp h)
  rw [UInt8.ofNat_toNat] at h1 h2 h3
  have h0 : hexDigit (byte '0') = some 0 := by decide
  simp only [ParseHex4, ParseHex, Peek_cons, h0, h1, h2, List.drop_succ_cons, List.drop_zero, h3]
  rfl

/-- **A written string is read again.** -/
theorem ParseStringToStream_write (str s : Bytes) {n : ℕ}
    (hn : (str.flatMap WriteChar ++ byte '"' :: s).length < n) :
    ParseStringToStream n (str.flatMap WriteChar ++ byte '"' :: s) = .ok (str, s) := by
  induction str generalizing n with
  | nil =>
    obtain ⟨n, rfl⟩ : ∃ k, n = k + 1 := ⟨n - 1, by omega⟩
    rfl
  | cons c str ih =>
    obtain ⟨n, rfl⟩ : ∃ k, n = k + 1 := ⟨n - 1, by omega⟩
    rw [List.flatMap_cons, List.append_assoc] at hn ⊢
    set t := str.flatMap WriteChar ++ byte '"' :: s with ht
    rw [WriteChar] at hn ⊢
    split_ifs at hn ⊢ with h0 hu
    · obtain ⟨hb, hq, hc⟩ := ne_of_escape_eq c h0
      have hrec := ih (n := n) (by simp only [List.length_append, List.length_cons] at hn; omega)
      rw [ParseStringToStream]
      simp only [List.singleton_append, Peek_cons, if_neg hb, if_neg hq, if_neg hc,
        List.drop_succ_cons, List.drop_zero, hrec]
      rfl
    · have hc := lt_of_escape_eq c hu
      have hrec := ih (n := n) (by simp only [List.length_append, List.length_cons] at hn; omega)
      have hsur : ParseSurrogate c.toUInt32 t = .ok (c.toUInt32, t) := if_neg (not_surrogate c)
      rw [ParseStringToStream]
      simp only [hu, List.cons_append, List.nil_append, Peek_cons, if_true, List.drop_succ_cons,
        List.drop_zero, ParseHex4_control hc, ok_bind, hsur, hrec, Encode_byte c hc]
      rfl
    · obtain ⟨hc, hc0⟩ := unescape_escape c h0 hu
      have hrec := ih (n := n) (by simp only [List.length_append, List.length_cons] at hn; omega)
      rw [ParseStringToStream]
      simp only [List.cons_append, List.nil_append, Peek_cons, if_true, List.drop_succ_cons,
        List.drop_zero, hc, ne_eq, hc0, not_false_eq_true, hrec]
      rfl

theorem ParseString_write (str s : Bytes) : ParseString (WriteString str ++ s) = .ok (str, s) := by
  have h := ParseStringToStream_write str s
    (n := (byte '"' :: (str.flatMap WriteChar ++ byte '"' :: s)).length + 1)
    (by rw [List.length_cons]; omega)
  have heq : WriteString str ++ s = byte '"' :: (str.flatMap WriteChar ++ byte '"' :: s) := by
    simp [WriteString]
  rw [heq]
  exact h

/-! ### The reader: values -/

/-- How the text of a value begins. -/
theorem text_head (v : Value) : ∃ c t, text v = c :: t ∧
    isWhitespace c = false ∧ c ≠ byte ']' ∧ c ≠ 0 := by
  cases v with
  | null => exact ⟨_, _, rfl, by decide⟩
  | string str => exact ⟨_, _, rfl, by decide⟩
  | array elements => exact ⟨_, _, rfl, by decide⟩
  | object members => exact ⟨_, _, rfl, by decide⟩

theorem SkipWhitespace_cons {c : UInt8} (h : isWhitespace c = false) (s : Bytes) :
    SkipWhitespace (c :: s) = c :: s := by
  rw [SkipWhitespace, List.dropWhile_cons_of_neg (by simp [h])]

theorem SkipWhitespace_text (v : Value) (s : Bytes) :
    SkipWhitespace (text v ++ s) = text v ++ s := by
  obtain ⟨c, t, h, hc, -⟩ := text_head v
  rw [h, List.cons_append, SkipWhitespace_cons hc]

section

variable {other : Bytes → Except ParseErrorCode (List Event × Bytes)}

variable (other) in
/-- The reader sends the events of a value for its text, whatever follows. -/
def Reads (v : Value) : Prop :=
  ∀ n s, 2 * (text v ++ s).length < n → ParseValue other n (text v ++ s) = .ok (v.Accept, s)

/-- What follows an element in an array. -/
def elementsEnd (elements : List Value) (s : Bytes) : Bytes :=
  separated 1 (texts elements) ++ byte ']' :: s

theorem elementsEnd_cons (u : Value) (elements : List Value) (s : Bytes) :
    elementsEnd (u :: elements) s = byte ',' :: (text u ++ elementsEnd elements s) := by
  have hlit : lit "," = [byte ','] := by decide
  simp only [elementsEnd, texts, separated_succ, List.flatMap_cons, List.append_assoc, hlit,
    List.cons_append, List.nil_append]

theorem ParseElements_text {v : Value} {elements : List Value}
    (h : ∀ u ∈ v :: elements, Reads other u) {n : ℕ} (count : ℕ) {s : Bytes}
    (hn : 2 * (text v ++ elementsEnd elements s).length + 1 < n) :
    ParseElements other n count (text v ++ elementsEnd elements s) =
      .ok (Accept_elements (v :: elements) ++ [.EndArray (count + (elements.length + 1))], s) := by
  induction elements generalizing v n count with
  | nil =>
    obtain ⟨n, rfl⟩ : ∃ k, n = k + 1 := ⟨n - 1, by omega⟩
    have hv := h v List.mem_cons_self n (elementsEnd [] s) (by omega)
    have hskip : SkipWhitespace (elementsEnd [] s) = byte ']' :: s := rfl
    rw [ParseElements, hv]
    simp only [ok_bind, hskip]
    rw [Accept_elements, Accept_elements, List.append_nil]
    rfl
  | cons u elements ih =>
    obtain ⟨n, rfl⟩ : ∃ k, n = k + 1 := ⟨n - 1, by omega⟩
    have hv := h v List.mem_cons_self n (elementsEnd (u :: elements) s) (by omega)
    have hs := ih (fun w hw => h w (List.mem_cons_of_mem v hw)) (count + 1) (n := n) (by
      rw [elementsEnd_cons, List.length_append, List.length_cons] at hn
      omega)
    have hlen : count + 1 + (elements.length + 1) = count + (elements.length + 1 + 1) := by omega
    rw [ParseElements, hv, elementsEnd_cons]
    simp only [ok_bind, SkipWhitespace_cons (c := byte ',') (by decide), Peek_cons, if_true,
      List.drop_succ_cons, List.drop_zero, SkipWhitespace_text, hs, hlen, List.length_cons,
      pure_eq, Accept_elements, List.append_assoc]

/-- What follows a member in an object. -/
def membersEnd (members : List (Bytes × Value)) (s : Bytes) : Bytes :=
  separated 1 (memberTexts members) ++ byte '}' :: s

theorem membersEnd_cons (name : Bytes) (u : Value) (members : List (Bytes × Value)) (s : Bytes) :
    membersEnd ((name, u) :: members) s =
      byte ',' :: (WriteString name ++ byte ':' :: (text u ++ membersEnd members s)) := by
  have hcomma : lit "," = [byte ','] := by decide
  have hcolon : lit ":" = [byte ':'] := by decide
  simp only [membersEnd, memberTexts, separated_succ, List.flatMap_cons, List.append_assoc, hcomma,
    hcolon, List.cons_append, List.nil_append]

theorem ParseMembers_text {name : Bytes} {v : Value} {members : List (Bytes × Value)}
    (h : ∀ u ∈ (name, v) :: members, Reads other u.2) {n : ℕ} (count : ℕ) {s : Bytes}
    (hn : 2 * (WriteString name ++ byte ':' :: (text v ++ membersEnd members s)).length + 1 < n) :
    ParseMembers other n count (WriteString name ++ byte ':' :: (text v ++ membersEnd members s)) =
      .ok (Accept_members ((name, v) :: members) ++ [.EndObject (count + (members.length + 1))],
        s) := by
  have hquote : ∀ (name t : Bytes), Peek (WriteString name ++ t) = byte '"' := fun _ _ => rfl
  induction members generalizing name v n count with
  | nil =>
    obtain ⟨n, rfl⟩ : ∃ k, n = k + 1 := ⟨n - 1, by omega⟩
    rw [List.length_append, List.length_cons] at hn
    have hread : Reads other v := h (name, v) List.mem_cons_self
    have hv := hread n (membersEnd [] s) (by omega)
    have hskip : SkipWhitespace (membersEnd [] s) = byte '}' :: s := rfl
    rw [ParseMembers, hquote, ParseString_write]
    simp only [ne_eq, not_true, if_false, pure_eq, ok_bind,
      SkipWhitespace_cons (c := byte ':') (by decide), Peek_cons, List.drop_succ_cons,
      List.drop_zero, SkipWhitespace_text, hv, hskip]
    rw [Accept_members, Accept_members, List.append_nil]
    rfl
  | cons m members ih =>
    obtain ⟨name', u⟩ := m
    obtain ⟨n, rfl⟩ : ∃ k, n = k + 1 := ⟨n - 1, by omega⟩
    rw [List.length_append, List.length_cons] at hn
    have hread : Reads other v := h (name, v) List.mem_cons_self
    have hv := hread n (membersEnd ((name', u) :: members) s) (by omega)
    have hs := ih (fun w hw => h w (List.mem_cons_of_mem _ hw)) (count + 1) (n := n) (by
      rw [membersEnd_cons, List.length_append, List.length_cons] at hn
      omega)
    have hlen : count + 1 + (members.length + 1) = count + (members.length + 1 + 1) := by omega
    have hskip : SkipWhitespace (WriteString name' ++ byte ':' :: (text u ++ membersEnd members s)) =
      WriteString name' ++ byte ':' :: (text u ++ membersEnd members s) := rfl
    rw [ParseMembers, hquote, ParseString_write]
    simp only [ne_eq, not_true, if_false, pure_eq, ok_bind,
      SkipWhitespace_cons (c := byte ':') (by decide), Peek_cons, List.drop_succ_cons,
      List.drop_zero, SkipWhitespace_text, hv]
    rw [membersEnd_cons]
    simp only [SkipWhitespace_cons (c := byte ',') (by decide), Peek_cons, if_true,
      List.drop_succ_cons, List.drop_zero, hskip, hs, ok_bind, hlen, List.length_cons,
      Accept_members, List.cons_append, List.append_assoc]

theorem reads (v : Value) : Reads other v := by
  induction v using value_induction with
  | null =>
    intro n s hn
    obtain ⟨n, rfl⟩ : ∃ k, n = k + 1 := ⟨n - 1, by omega⟩
    rfl
  | string str =>
    intro n s hn
    obtain ⟨n, rfl⟩ : ∃ k, n = k + 1 := ⟨n - 1, by omega⟩
    have hpeek : Peek (WriteString str ++ s) = byte '"' := rfl
    rw [text, ParseValue, hpeek, if_neg (by decide), if_pos rfl, ParseString_write]
    rfl
  | array elements ih =>
    intro n s hn
    obtain ⟨n, rfl⟩ : ∃ k, n = k + 1 := ⟨n - 1, by omega⟩
    cases elements with
    | nil => rfl
    | cons v elements =>
      have htext : text (.array (v :: elements)) ++ s =
          byte '[' :: (text v ++ elementsEnd elements s) := by
        have hopen : lit "[" = [byte '['] := by decide
        have hclose : lit "]" = [byte ']'] := by decide
        simp [text, texts, separated, elementsEnd, hopen, hclose]
      rw [htext] at hn ⊢
      rw [List.length_cons] at hn
      have hs := ParseElements_text ih 0 (n := n) (s := s) (by omega)
      obtain ⟨c, t, ht, -, hc, -⟩ := text_head v
      have hne : ¬ Peek (text v ++ elementsEnd elements s) = byte ']' := by rwa [ht]
      have hn' : ¬ byte '[' = byte 'n' := by decide
      have hq : ¬ byte '[' = byte '"' := by decide
      have ho : ¬ byte '[' = byte '{' := by decide
      rw [ParseValue, Peek_cons, if_neg hn', if_neg hq, if_neg ho, if_pos rfl]
      simp only [List.drop_succ_cons, List.drop_zero, SkipWhitespace_text, if_neg hne, hs, ok_bind,
        Nat.zero_add, pure_eq, Value.Accept, List.cons_append, List.length_cons]
  | object members ih =>
    intro n s hn
    obtain ⟨n, rfl⟩ : ∃ k, n = k + 1 := ⟨n - 1, by omega⟩
    cases members with
    | nil => rfl
    | cons m members =>
      obtain ⟨name, v⟩ := m
      have htext : text (.object ((name, v) :: members)) ++ s =
          byte '{' :: (WriteString name ++ byte ':' :: (text v ++ membersEnd members s)) := by
        have hopen : lit "\x7b" = [byte '{'] := by decide
        have hclose : lit "\x7d" = [byte '}'] := by decide
        have hcolon : lit ":" = [byte ':'] := by decide
        simp [text, memberTexts, separated, membersEnd, hopen, hclose, hcolon]
      rw [htext] at hn ⊢
      rw [List.length_cons] at hn
      have hs := ParseMembers_text ih 0 (n := n) (s := s) (by omega)
      have hskip : ∀ t, SkipWhitespace (WriteString name ++ t) = WriteString name ++ t :=
        fun _ => rfl
      have hpeek : ∀ t, ¬ Peek (WriteString name ++ t) = byte '}' := fun _ h => by
        exact absurd (show byte '"' = byte '}' from h) (by decide)
      have hn' : ¬ byte '{' = byte 'n' := by decide
      have hq : ¬ byte '{' = byte '"' := by decide
      rw [ParseValue, Peek_cons, if_neg hn', if_neg hq, if_pos rfl]
      simp only [List.drop_succ_cons, List.drop_zero, hskip, if_neg (hpeek _), hs, ok_bind,
        Nat.zero_add, pure_eq, Value.Accept, List.cons_append, List.length_cons]

variable (other) in
/-- **The reader sends the events of a value for its text.** -/
theorem Parse_text (v : Value) : Parse other (text v) = .ok v.Accept := by
  obtain ⟨c, t, ht, -, -, hc⟩ := text_head v
  have hne : ¬ Peek (text v) = 0 := by rwa [ht]
  have hskip := SkipWhitespace_text v []
  have hv : Reads other v := reads v
  have hread := hv (2 * (text v).length + 1) [] (by
    rw [List.append_nil]
    omega)
  rw [List.append_nil] at hskip hread
  simp only [Parse, hskip, hne, if_false, pure_eq, ok_bind, hread]
  rfl

end

/-! ### The bytes of a text -/

mutual

/-- The strings of a value, its names included. -/
def strings : Value → List Bytes
  | .null => []
  | .string str => [str]
  | .array elements => elementStrings elements
  | .object members => memberStrings members

def elementStrings : List Value → List Bytes
  | [] => []
  | v :: elements => strings v ++ elementStrings elements

def memberStrings : List (Bytes × Value) → List Bytes
  | [] => []
  | (name, value) :: members => name :: strings value ++ memberStrings members

end

theorem escape_of_ge : ∀ c : UInt8, 128 ≤ c → WriteChar c = [c] := forall_byte (by decide +kernel)

theorem WriteChar_ascii : ∀ c : UInt8, c < 128 → ∃ d t, WriteChar c = d :: t ∧
    ∀ e ∈ d :: t, e < 128 := by
  have h : ∀ c : UInt8, c < 128 → WriteChar c ≠ [] ∧ (WriteChar c).all (· < 128) = true :=
    forall_byte (by decide +kernel)
  intro c hc
  obtain ⟨hne, hall⟩ := h c hc
  obtain ⟨d, t, ht⟩ := List.exists_cons_of_ne_nil hne
  rw [ht, List.all_eq_true] at hall
  exact ⟨d, t, ht, fun e he => by simpa using hall e he⟩

/-- **Escaping neither makes a string UTF-8 nor breaks it.** -/
theorem valid_escaped_iff (str a : Bytes) :
    Valid (a ++ str.flatMap WriteChar) ↔ Valid (a ++ str) := by
  induction str generalizing a with
  | nil => exact Iff.rfl
  | cons c str ih =>
    rw [List.flatMap_cons]
    by_cases hc : c < 128
    · obtain ⟨d, t, ht, hall⟩ := WriteChar_ascii c hc
      have hrest := ih []
      rw [ht, List.cons_append, valid_append_cons_iff (hall d List.mem_cons_self),
        valid_append_cons_iff hc,
        valid_ascii_append_iff fun e he => hall e (List.mem_cons_of_mem d he)]
      exact Iff.and Iff.rfl hrest
    · have hrest := ih (a ++ [c])
      rw [escape_of_ge c (UInt8.not_lt.mp hc)]
      simpa using hrest

theorem valid_WriteString (str : Bytes) : Valid (WriteString str) ↔ Valid str := by
  have h := valid_escaped_iff str []
  rw [List.nil_append, List.nil_append] at h
  rw [WriteString, List.cons_append, valid_cons_iff (by decide),
    valid_append_cons_iff (by decide), h]
  exact and_iff_left valid_nil

theorem separator_ascii (count : ℕ) : ∀ c ∈ if count = 0 then [] else lit ",", c < 128 := by
  have hlit : lit "," = [byte ','] := by decide
  split_ifs
  · simp
  · rw [hlit, List.forall_mem_singleton]
    decide

theorem valid_separated {ts : List Bytes} {c : UInt8} {b : Bytes} (hc : c < 128) (count : ℕ) :
    Valid (separated count ts ++ c :: b) ↔ (∀ t ∈ ts, Valid t) ∧ Valid b := by
  induction ts generalizing count with
  | nil => simp [separated, valid_cons_iff hc]
  | cons t ts ih =>
    have hrest := ih (count + 1)
    have hcut : Valid (t ++ (separated (count + 1) ts ++ c :: b)) ↔
        Valid t ∧ Valid (separated (count + 1) ts ++ c :: b) := by
      cases ts with
      | nil => rw [separated, List.nil_append, valid_append_cons_iff hc, valid_cons_iff hc]
      | cons u ts =>
        have hlit : lit "," = [byte ','] := by decide
        have hcomma : byte ',' < 128 := by decide
        rw [separated, if_neg (by omega), hlit, List.append_assoc, List.singleton_append,
          valid_append_cons_iff hcomma, valid_cons_iff hcomma]
    rw [separated, List.append_assoc, List.append_assoc,
      valid_ascii_append_iff (separator_ascii count), hcut, hrest, List.forall_mem_cons, and_assoc]

/-- **The text of a value is UTF-8 exactly when its strings are.** -/
theorem valid_text_iff (v : Value) : Valid (text v) ↔ ∀ str ∈ strings v, Valid str := by
  induction v using value_induction with
  | null => exact iff_of_true (by decide) (by simp [strings])
  | string str => simp [text, strings, valid_WriteString]
  | array elements ih =>
    have htexts : (∀ t ∈ texts elements, Valid t) ↔ ∀ str ∈ elementStrings elements, Valid str := by
      induction elements with
      | nil => simp [texts, elementStrings]
      | cons v elements ihe =>
        have hv := ih v List.mem_cons_self
        have hs := ihe fun u hu => ih u (List.mem_cons_of_mem v hu)
        simp only [texts, elementStrings, List.forall_mem_cons, List.forall_mem_append, hv, hs]
    have hopen : lit "[" = [byte '['] := by decide
    have hclose : lit "]" = [byte ']'] := by decide
    rw [text, hopen, hclose, List.singleton_append, valid_cons_iff (by decide),
      valid_separated (by decide), htexts]
    exact and_iff_left valid_nil
  | object members ih =>
    have htexts : (∀ t ∈ memberTexts members, Valid t) ↔
        ∀ str ∈ memberStrings members, Valid str := by
      induction members with
      | nil => simp [memberTexts, memberStrings]
      | cons m members ihm =>
        obtain ⟨name, v⟩ := m
        have hv := ih _ List.mem_cons_self
        have hs := ihm fun u hu => ih u (List.mem_cons_of_mem _ hu)
        have hcolon : lit ":" = [byte ':'] := by decide
        have hmember : Valid (WriteString name ++ (lit ":" ++ text v)) ↔
            Valid name ∧ Valid (text v) := by
          rw [hcolon, List.singleton_append, valid_append_cons_iff (by decide), valid_WriteString]
        simp only [memberTexts, memberStrings, List.forall_mem_cons, List.cons_append,
          List.forall_mem_append, hmember, hv, hs, and_assoc]
    have hopen : lit "\x7b" = [byte '{'] := by decide
    have hclose : lit "\x7d" = [byte '}'] := by decide
    rw [text, hopen, hclose, List.singleton_append, valid_cons_iff (by decide),
      valid_separated (by decide), htexts]
    exact and_iff_left valid_nil

theorem WriteChar_ge : ∀ c : UInt8, (WriteChar c).all (0x20 ≤ ·) = true :=
  forall_byte (by decide +kernel)

theorem mem_WriteString {str : Bytes} {d : UInt8} (h : d ∈ WriteString str) : 0x20 ≤ d := by
  have hquote : 0x20 ≤ byte '"' := by decide
  simp only [WriteString, List.mem_append, List.mem_cons, List.mem_flatMap, List.not_mem_nil,
    or_false] at h
  rcases h with (rfl | ⟨c, -, h⟩) | rfl
  · exact hquote
  · simpa using List.all_eq_true.mp (WriteChar_ge c) d h
  · exact hquote

theorem mem_separated {ts : List Bytes} {count : ℕ} {d : UInt8} (h : d ∈ separated count ts) :
    d = byte ',' ∨ ∃ t ∈ ts, d ∈ t := by
  induction ts generalizing count with
  | nil => simp [separated] at h
  | cons t ts ih =>
    have hlit : lit "," = [byte ','] := by decide
    simp only [separated, List.mem_append] at h
    rcases h with h | h | h
    · split_ifs at h
      · cases h
      · rw [hlit, List.mem_singleton] at h
        exact Or.inl h
    · exact Or.inr ⟨t, List.mem_cons_self, h⟩
    · rcases ih h with h | ⟨u, hu, h⟩
      · exact Or.inl h
      · exact Or.inr ⟨u, List.mem_cons_of_mem t hu, h⟩

theorem ge_of_mem_lit {s : String} (h : (lit s).all (0x20 ≤ ·) = true) {d : UInt8}
    (hd : d ∈ lit s) : 0x20 ≤ d := by simpa using List.all_eq_true.mp h d hd

/-- **The text of a value has no control characters.** -/
theorem mem_text (v : Value) : ∀ d ∈ text v, 0x20 ≤ d := by
  have hcomma : 0x20 ≤ byte ',' := by decide
  induction v using value_induction with
  | null => exact fun d hd => ge_of_mem_lit (s := "null") rfl hd
  | string str => exact fun d hd => mem_WriteString hd
  | array elements ih =>
    intro d hd
    rw [text, List.mem_append, List.mem_append, texts_eq] at hd
    rcases hd with hd | hd | hd
    · exact ge_of_mem_lit rfl hd
    · rcases mem_separated hd with rfl | ⟨t, ht, hd⟩
      · exact hcomma
      · obtain ⟨v, hv, rfl⟩ := List.mem_map.mp ht
        exact ih v hv d hd
    · exact ge_of_mem_lit rfl hd
  | object members ih =>
    intro d hd
    rw [text, List.mem_append, List.mem_append, memberTexts_eq] at hd
    rcases hd with hd | hd | hd
    · exact ge_of_mem_lit rfl hd
    · rcases mem_separated hd with rfl | ⟨t, ht, hd⟩
      · exact hcomma
      · obtain ⟨m, hm, rfl⟩ := List.mem_map.mp ht
        rw [List.mem_append, List.mem_append] at hd
        rcases hd with hd | hd | hd
        · exact mem_WriteString hd
        · exact ge_of_mem_lit rfl hd
        · exact ih m hm d hd
    · exact ge_of_mem_lit rfl hd

/-- **What is written is read again**: the writer writes every value, and the document that the
reader builds from the text is that value. -/
theorem read_write (other : Bytes → Except ParseErrorCode (List Event × Bytes)) (v : Value) :
    ∃ out events, write v = some out ∧ Parse other out = .ok events ∧
      run build [] events = some [v] :=
  ⟨text v, v.Accept, write_eq v, Parse_text other v, run_build v []⟩

end HfiWebserver.Guest.RapidjsonRoundTrip
