import HfiWebserver.Lib.CString
import HfiWebserver.Lib.Fallible
import HfiWebserver.Lib.Split
import HfiWebserver.Server.StringResults

/-! # The XML parser of `xml_to_json`

rapidxml with the flags `parse<0>`: it makes elements, text and CDATA sections, expands references,
keeps white space around text, skips comments, processing instructions, declarations and document
types, and does not compare the name of a closing tag.

The parser works inside its text, on a pointer that only moves forward; here a function takes what
is left of the text and returns what it leaves. The library is compiled with its parse errors as
`abort`, so one ends the module. -/

namespace HfiWebserver.Guest.Rapidxml

open HfiWebserver.Lib.ByteStrings HfiWebserver.Lib.Fallible
open HfiWebserver.Lib
open HfiWebserver.Server.StringResults (insert_coded_character)

/-- A node of the tree. `node_data` and `node_cdata` have no name. -/
inductive Node
  | element (name : Bytes) (attributes : List (Bytes × Bytes)) (children : List Node)
  | data (value : Bytes)
  | cdata (value : Bytes)
  deriving Repr

/-- `abort` in place of a `parse_error`, or a run out of fuel. -/
inductive Fault
  | parse_error
  | unfinished
  deriving DecidableEq, Repr

/-! ### Characters -/

/-- `text[k]`, where a NUL ends the text. -/
def ch (text : Bytes) (k : ℕ) : UInt8 := text.getD k 0

/-- `lookup_whitespace`. -/
def whitespace_pred (c : UInt8) : Bool := c == 32 || c == 9 || c == 10 || c == 13

/-- `lookup_node_name`: anything but space, `\n`, `\r`, `\t`, `/`, `>`, `?` and NUL. -/
def node_name_pred (c : UInt8) : Bool :=
  !(whitespace_pred c || c == 47 || c == 62 || c == 63 || c == 0)

/-- `lookup_element_name`: not `:` either. -/
def element_name_pred (c : UInt8) : Bool := node_name_pred c && c != 58

/-- `lookup_attribute_name`: anything but space, `\n`, `\r`, `\t`, `/`, `<`, `>`, `=`, `?`, `!` and
NUL. -/
def attribute_name_pred (c : UInt8) : Bool :=
  !(whitespace_pred c || c == 47 || c == 60 || c == 62 || c == 61 || c == 63 || c == 33 || c == 0)

/-- `lookup_text`: anything but `<` and NUL. -/
def text_pred (c : UInt8) : Bool := !(c == 60 || c == 0)

/-- `lookup_attribute_data_1` and `lookup_attribute_data_2`: anything but the quote and NUL. -/
def attribute_value_pred (quote c : UInt8) : Bool := !(c == quote || c == 0)

/-- The `pure` tables: what is copied without a look, so not `&`. -/
def pure_pred (pred : UInt8 → Bool) (c : UInt8) : Bool := pred c && c != 38

/-- `lookup_digits`, for decimal numbers too. -/
def lookup_digits (c : UInt8) : Option UInt32 :=
  if 48 ≤ c ∧ c ≤ 57 then some (c - 48).toUInt32
  else if 65 ≤ c ∧ c ≤ 70 then some (c - 55).toUInt32
  else if 97 ≤ c ∧ c ≤ 102 then some (c - 87).toUInt32
  else none

def isDigit (c : UInt8) : Bool := (lookup_digits c).isSome

def skip (pred : UInt8 → Bool) (text : Bytes) : Bytes := text.dropWhile pred

/-! ### References -/

/-- The code of a numeric reference, in 32 bits. -/
def code (base : UInt32) (digits : Bytes) : UInt32 :=
  digits.foldl (fun code c => code * base + (lookup_digits c).getD 0) 0

/-- A numeric reference, from its digits on: what is put in the output, and what is left. -/
def numeric (base : UInt32) (src : Bytes) : Except Fault (Bytes × Bytes) :=
  match insert_coded_character false (code base (src.takeWhile isDigit)) with
  | none => throw .parse_error
  | some dest =>
    if ch (skip isDigit src) 0 = 59 then pure (dest, (skip isDigit src).drop 1)
    else throw .parse_error

/-- What stands at a `&`: a reference, or `none` when the `&` is copied. -/
def reference (src : Bytes) : Except Fault (Option (Bytes × Bytes)) :=
  if (lit "&amp;").isPrefixOf src then pure (some (lit "&", src.drop 5))
  else if (lit "&apos;").isPrefixOf src then pure (some (lit "'", src.drop 6))
  else if (lit "&quot;").isPrefixOf src then pure (some (lit "\"", src.drop 6))
  else if (lit "&gt;").isPrefixOf src then pure (some (lit ">", src.drop 4))
  else if (lit "&lt;").isPrefixOf src then pure (some (lit "<", src.drop 4))
  else if (lit "&#x").isPrefixOf src then (numeric 16 (src.drop 3)).map some
  else if (lit "&#").isPrefixOf src then (numeric 10 (src.drop 2)).map some
  else pure none

/-- The translation loop of `skip_and_expand_character_refs`. -/
def translation_loop (pred : UInt8 → Bool) : ℕ → Bytes → Except Fault (Bytes × Bytes)
  | 0, _ => throw .unfinished
  | fuel + 1, src =>
    if pred (ch src 0) then do
      match ← reference src with
      | some (dest, src) =>
        let (more, src) ← translation_loop pred fuel src
        pure (dest ++ more, src)
      | none =>
        let (more, src') ← translation_loop pred fuel (src.drop 1)
        pure (ch src 0 :: more, src')
    else pure ([], src)

/-- `skip_and_expand_character_refs`: the value, and what is left of the text. -/
def skip_and_expand_character_refs (pred : UInt8 → Bool) (text : Bytes) :
    Except Fault (Bytes × Bytes) := do
  let src := skip (pure_pred pred) text
  let (dest, src) ← translation_loop pred (src.length + 1) src
  pure (text.takeWhile (pure_pred pred) ++ dest, src)

/-! ### What makes no node -/

/-- Skips to an end mark, and over it; what was skipped, and what is left. -/
def skip_to (mark text : Bytes) : Except Fault (Bytes × Bytes) :=
  match Split.find mark text with
  | none => throw .parse_error
  | some i => pure (text.take i, text.drop (i + mark.length))

def parse_bom (text : Bytes) : Bytes :=
  if ch text 0 = 0xEF ∧ ch text 1 = 0xBB ∧ ch text 2 = 0xBF then text.drop 3 else text

/-- `parse_doctype`, inside `depth` brackets. -/
def parse_doctype : ℕ → Bytes → Except Fault Bytes
  | _, [] => throw .parse_error
  | 0, c :: text =>
    if c = 62 then pure text
    else if c = 91 then parse_doctype 1 text
    else parse_doctype 0 text
  | depth + 1, c :: text =>
    if c = 91 then parse_doctype (depth + 2) text
    else if c = 93 then parse_doctype depth text
    else parse_doctype (depth + 1) text

/-- What follows `<?`: a declaration or a processing instruction. -/
def parse_question (text : Bytes) : Except Fault Bytes := do
  if (ch text 0 = 120 ∨ ch text 0 = 88) ∧ (ch text 1 = 109 ∨ ch text 1 = 77) ∧
      (ch text 2 = 108 ∨ ch text 2 = 76) ∧ whitespace_pred (ch text 3) then
    let (_, text) ← skip_to (lit "?>") (text.drop 4)
    pure text
  else
    let (_, text) ← skip_to (lit "?>") text
    pure text

/-- What follows `<!`. -/
def parse_exclamation (text : Bytes) : Except Fault (Option Node × Bytes) := do
  if (lit "--").isPrefixOf text then
    let (_, text) ← skip_to (lit "-->") (text.drop 2)
    pure (none, text)
  else if (lit "[CDATA[").isPrefixOf text then
    let (value, text) ← skip_to (lit "]]>") (text.drop 7)
    pure (some (.cdata value), text)
  else if (lit "DOCTYPE").isPrefixOf text ∧ whitespace_pred (ch text 7) then
    let text ← parse_doctype 0 (text.drop 8)
    pure (none, text)
  else
    let (_, text) ← skip_to (lit ">") text
    pure (none, text)

/-! ### Elements -/

/-- One iteration of `parse_node_attributes`. -/
def parse_attribute (text : Bytes) : Except Fault ((Bytes × Bytes) × Bytes) := do
  let name := text.takeWhile attribute_name_pred
  let text := skip whitespace_pred (skip attribute_name_pred text)
  if ch text 0 ≠ 61 then throw .parse_error
  let text := skip whitespace_pred (text.drop 1)
  let quote := ch text 0
  if quote ≠ 39 ∧ quote ≠ 34 then throw .parse_error
  let (value, text) ←
    skip_and_expand_character_refs (attribute_value_pred quote) (text.drop 1)
  if ch text 0 ≠ quote then throw .parse_error
  pure ((name, value), skip whitespace_pred (text.drop 1))

def parse_node_attributes : ℕ → Bytes → Except Fault (List (Bytes × Bytes) × Bytes)
  | 0, _ => throw .unfinished
  | fuel + 1, text =>
    if attribute_name_pred (ch text 0) then do
      let (attr, text) ← parse_attribute text
      let (attributes, text) ← parse_node_attributes fuel text
      pure (attr :: attributes, text)
    else pure ([], text)

/-- The name of an element; a prefix before a colon is not part of it. -/
def parse_name (text : Bytes) : Except Fault (Bytes × Bytes) := do
  let first := text.takeWhile element_name_pred
  if first = [] then throw .parse_error
  let text := skip element_name_pred text
  if ch text 0 = 58 then
    let text := text.drop 1
    let name := text.takeWhile node_name_pred
    if name = [] then throw .parse_error
    pure (name, skip node_name_pred text)
  else pure (first, text)

/-- A closing tag, behind `</`: any name closes the element. -/
def parse_closing (text : Bytes) : Except Fault Bytes := do
  let text := skip whitespace_pred (skip node_name_pred text)
  if ch text 0 ≠ 62 then throw .parse_error
  pure (text.drop 1)

mutual

/-- `parse_node`, behind the `<`. The fuel bounds the calls in each other. -/
def parse_node : ℕ → Bytes → Except Fault (Option Node × Bytes)
  | 0, _ => throw .unfinished
  | fuel + 1, text =>
    if ch text 0 = 63 then do
      let text ← parse_question (text.drop 1)
      pure (none, text)
    else if ch text 0 = 33 then parse_exclamation (text.drop 1)
    else do
      let (element, text) ← parse_element fuel text
      pure (some element, text)

def parse_element : ℕ → Bytes → Except Fault (Node × Bytes)
  | 0, _ => throw .unfinished
  | fuel + 1, text => do
    let (name, text) ← parse_name text
    let text := skip whitespace_pred text
    let (attributes, text) ← parse_node_attributes (text.length + 1) text
    if ch text 0 = 62 then
      let (children, text) ← parse_node_contents fuel (text.drop 1)
      pure (.element name attributes children, text)
    else if ch text 0 = 47 then
      if ch text 1 ≠ 62 then throw .parse_error
      pure (.element name attributes [], text.drop 2)
    else throw .parse_error

/-- `parse_node_contents`: the children, and what is left behind the closing tag. After data it goes
on at the `<` that ends it, where there is no white space to skip. -/
def parse_node_contents : ℕ → Bytes → Except Fault (List Node × Bytes)
  | 0, _ => throw .unfinished
  | fuel + 1, contents_start =>
    let text := skip whitespace_pred contents_start
    if ch text 0 = 60 then
      if ch text 1 = 47 then do
        let text ← parse_closing (text.drop 2)
        pure ([], text)
      else do
        let (child, text) ← parse_node fuel (text.drop 1)
        let (children, text) ← parse_node_contents fuel text
        pure (child.toList ++ children, text)
    else if ch text 0 = 0 then throw .parse_error
    else do
      let (value, text) ← skip_and_expand_character_refs text_pred contents_start
      let (children, text) ← parse_node_contents fuel text
      pure (.data value :: children, text)

end

/-- The loop of `parse`. -/
def parse_nodes : ℕ → Bytes → Except Fault (List Node)
  | 0, _ => throw .unfinished
  | fuel + 1, text =>
    let text := skip whitespace_pred text
    if ch text 0 = 0 then pure []
    else if ch text 0 = 60 then do
      let (child, text) ← parse_node (2 * text.length) (text.drop 1)
      let children ← parse_nodes fuel text
      pure (child.toList ++ children)
    else throw .parse_error

/-- The bytes of a C string. -/
def c_str (s : Bytes) : Bytes := s.takeWhile (· != 0)

/-- `parse<0>`: the children of the document. -/
def parse (text : Bytes) : Except Fault (List Node) :=
  let text := parse_bom (c_str text)
  parse_nodes (text.length + 1) text

end HfiWebserver.Guest.Rapidxml
