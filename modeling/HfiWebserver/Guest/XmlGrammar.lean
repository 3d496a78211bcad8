import HfiWebserver.Guest.Rapidxml

/-! # The grammar of XML texts

Which texts stand for which nodes, with every spelling of a value, every white space and every
comment: `Spelled` for values, `Misc`, `Cdata` and the tags for what stands between `<` and `>`,
`Contents` for what stands in an element, and `Document` for a whole text. -/

namespace HfiWebserver.Guest.XmlGrammar

open HfiWebserver.Lib.ByteStrings
open HfiWebserver.Guest.Rapidxml
open HfiWebserver.Server.StringResults (insert_coded_character)

/-! ### Values -/

/-- A reference, and what it stands for. -/
inductive Reference : Bytes → Bytes → Prop
  | amp : Reference (lit "&") (lit "&amp;")
  | apos : Reference (lit "'") (lit "&apos;")
  | quot : Reference (lit "\"") (lit "&quot;")
  | gt : Reference (lit ">") (lit "&gt;")
  | lt : Reference (lit "<") (lit "&lt;")
  | hexadecimal (digits dest : Bytes) : (∀ c ∈ digits, isDigit c = true) →
      insert_coded_character false (code 16 digits) = some dest →
      Reference dest (lit "&#x" ++ (digits ++ lit ";"))
  | decimal (digits dest : Bytes) : (∀ c ∈ digits, isDigit c = true) →
      insert_coded_character false (code 10 digits) = some dest →
      Reference dest (lit "&#" ++ (digits ++ lit ";"))

/-- The texts a reference can begin with. -/
def openings : List Bytes :=
  [lit "&amp;", lit "&apos;", lit "&quot;", lit "&gt;", lit "&lt;", lit "&#"]

/-- The spellings of a value: each byte as it is or in a reference; a `&` also as it is, where no
reference begins. -/
inductive Spelled (pred : UInt8 → Bool) : Bytes → Bytes → Prop
  | nil : Spelled pred [] []
  | char (c : UInt8) {v t : Bytes} : pred c = true → c ≠ 38 → Spelled pred v t →
      Spelled pred (c :: v) (c :: t)
  | ampersand {v t : Bytes} : (∀ p ∈ openings, ¬ p <+: 38 :: t) → Spelled pred v t →
      Spelled pred (38 :: v) (38 :: t)
  | reference {dest r v t : Bytes} : Reference dest r → Spelled pred v t →
      Spelled pred (dest ++ v) (r ++ t)

/-! ### What makes no element -/

/-- A document type behind its first white space, inside brackets, up to its end. -/
inductive Doctype : ℕ → Bytes → Prop
  | close : Doctype 0 [62]
  | char (c : UInt8) {t : Bytes} : c ≠ 62 → c ≠ 91 → Doctype 0 t → Doctype 0 (c :: t)
  | opening {depth : ℕ} {t : Bytes} : Doctype (depth + 1) t → Doctype depth (91 :: t)
  | closing {depth : ℕ} {t : Bytes} : Doctype depth t → Doctype (depth + 1) (93 :: t)
  | inner (c : UInt8) {depth : ℕ} {t : Bytes} : c ≠ 91 → c ≠ 93 → Doctype (depth + 1) t →
      Doctype (depth + 1) (c :: t)

/-- What begins with `<` and is neither an element nor a CDATA section, behind the `<`. -/
inductive Misc : Bytes → Prop
  | question (c : Bytes) : ¬ lit "?>" <:+: c ++ lit "?" → Misc (63 :: (c ++ lit "?>"))
  | comment (c : Bytes) : ¬ lit "-->" <:+: c ++ lit "--" → Misc (lit "!--" ++ (c ++ lit "-->"))
  | doctype (w : UInt8) {t : Bytes} : whitespace_pred w = true → Doctype 0 t →
      Misc (lit "!DOCTYPE" ++ w :: t)
  | other (c : Bytes) : 62 ∉ c → ¬ lit "--" <+: c → ¬ lit "[CDATA[" <+: c →
      (lit "DOCTYPE" <+: c → whitespace_pred (ch c 7) = false) → Misc (33 :: (c ++ [62]))

/-- A CDATA section, behind the `<`. -/
inductive Cdata : Bytes → Bytes → Prop
  | mk (v : Bytes) : ¬ lit "]]>" <:+: v ++ lit "]]" → Cdata v (lit "![CDATA[" ++ (v ++ lit "]]>"))

/-! ### Tags -/

def Blank (ws : Bytes) : Prop := ∀ c ∈ ws, whitespace_pred c = true

/-- The name of an element, without its prefix, and its text. -/
inductive Named : Bytes → Bytes → Prop
  | plain (name : Bytes) : name ≠ [] → name.head? ≠ some 33 →
      (∀ c ∈ name, element_name_pred c = true) → Named name name
  | prefixed (pre name : Bytes) : pre ≠ [] → pre.head? ≠ some 33 →
      (∀ c ∈ pre, element_name_pred c = true) → name ≠ [] →
      (∀ c ∈ name, node_name_pred c = true) → Named name (pre ++ 58 :: name)

inductive Attribute : Bytes × Bytes → Bytes → Prop
  | mk (name : Bytes) {ws ws' v t : Bytes} {quote : UInt8} : name ≠ [] →
      (∀ c ∈ name, attribute_name_pred c = true) → Blank ws → Blank ws' →
      quote = 39 ∨ quote = 34 → Spelled (attribute_value_pred quote) v t →
      Attribute (name, v) (name ++ (ws ++ 61 :: (ws' ++ quote :: (t ++ [quote]))))

inductive Attributes : List (Bytes × Bytes) → Bytes → Prop
  | nil : Attributes [] []
  | cons {a : Bytes × Bytes} {as : List (Bytes × Bytes)} {t ws u : Bytes} : Attribute a t →
      Blank ws → Attributes as u → Attributes (a :: as) (t ++ (ws ++ u))

/-- A start tag without its ends. -/
inductive StartTag : Bytes → List (Bytes × Bytes) → Bytes → Prop
  | mk {name : Bytes} {as : List (Bytes × Bytes)} {nt ws t : Bytes} : Named name nt → Blank ws →
      (as ≠ [] → ws ≠ []) → Attributes as t → StartTag name as (nt ++ (ws ++ t))

/-- A closing tag; any name will do. -/
inductive EndTag : Bytes → Prop
  | mk {name ws : Bytes} : (∀ c ∈ name, node_name_pred c = true) → Blank ws →
      EndTag (60 :: 47 :: (name ++ (ws ++ [62])))

/-! ### Nodes -/

/-- **The texts of a list of nodes**, up to the end of the text or the closing tag around them. -/
inductive Contents : List Node → Bytes → Prop
  | nil {ws : Bytes} : Blank ws → Contents [] ws
  | misc {ws m t : Bytes} {ns : List Node} : Blank ws → Misc m → Contents ns t →
      Contents ns (ws ++ 60 :: (m ++ t))
  | cdata {ws v m t : Bytes} {ns : List Node} : Blank ws → Cdata v m → Contents ns t →
      Contents (.cdata v :: ns) (ws ++ 60 :: (m ++ t))
  | empty {ws name st t : Bytes} {as : List (Bytes × Bytes)} {ns : List Node} : Blank ws →
      StartTag name as st → Contents ns t →
      Contents (.element name as [] :: ns) (ws ++ 60 :: (st ++ 47 :: 62 :: t))
  | element {ws name st ct et t : Bytes} {as : List (Bytes × Bytes)} {children ns : List Node} :
      Blank ws → StartTag name as st → Contents children ct → EndTag et → Contents ns t →
      Contents (.element name as children :: ns) (ws ++ 60 :: (st ++ 62 :: (ct ++ (et ++ t))))
  | data {v s t : Bytes} {ns : List Node} : Spelled text_pred v s →
      (∃ c ∈ s, whitespace_pred c = false) → t = [] ∨ t.head? = some 60 → Contents ns t →
      Contents (.data v :: ns) (s ++ t)

/-- What begins with `<`, behind it. -/
inductive Markup : Option Node → Bytes → Prop
  | misc {m : Bytes} : Misc m → Markup none m
  | cdata {v m : Bytes} : Cdata v m → Markup (some (.cdata v)) m
  | empty {name st : Bytes} {as : List (Bytes × Bytes)} : StartTag name as st →
      Markup (some (.element name as [])) (st ++ [47, 62])
  | element {name st ct et : Bytes} {as : List (Bytes × Bytes)} {children : List Node} :
      StartTag name as st → Contents children ct → EndTag et →
      Markup (some (.element name as children)) (st ++ 62 :: (ct ++ et))

/-- **The texts of a document.** -/
inductive Document : List Node → Bytes → Prop
  | nil {ws : Bytes} : Blank ws → Document [] ws
  | markup {ws m t : Bytes} {child : Option Node} {ns : List Node} : Blank ws →
      Markup child m → Document ns t → Document (child.toList ++ ns) (ws ++ 60 :: (m ++ t))

end HfiWebserver.Guest.XmlGrammar
