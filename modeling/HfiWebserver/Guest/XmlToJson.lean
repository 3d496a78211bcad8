import HfiWebserver.Guest.Rapidjson
import HfiWebserver.Guest.Rapidxml
import HfiWebserver.Lib.Groups

/-! # The module `xml_to_json`

`xml2json` turns the tree of the XML parser into a JSON object and writes it. The children of an
element become members by their names; a name that comes again turns its member into an array,
which `xml2json_to_array_form` takes out of the object and adds at the end. The library removes a
member by moving the last one to its place, so the order of the members changes.

Strings go from one library to the other as C strings. -/

namespace HfiWebserver.Guest.XmlToJson

open HfiWebserver.Lib.ByteStrings HfiWebserver.Lib.Groups
open HfiWebserver.Guest.Rapidxml HfiWebserver.Guest.Rapidjson

/-- The members of an object. -/
abbrev Members := List (Bytes × Value)

def xml2json_text_additional_name : Bytes := lit "#text"

def xml2json_attribute_name_prefix : Bytes := lit "@"

/-- `xml2json_to_array_form`; `none` is a read of a member that is not there. -/
def xml2json_to_array_form (name : Bytes) (jsvalue : Members) (jsvalue_chd : Value) :
    Option Members :=
  match jsvalue.lookup name with
  | none => none
  | some (.array elements) =>
    some (swapRemove name jsvalue ++ [(name, .array (elements ++ [jsvalue_chd]))])
  | some jsvalue_target =>
    some (swapRemove name jsvalue ++ [(name, .array [jsvalue_target, jsvalue_chd])])

/-- `xml2json_add_attributes`, where `xml2json_numeric_support` is false. -/
def xml2json_add_attributes (attributes : List (Bytes × Bytes)) (jsvalue : Members) : Members :=
  jsvalue ++ attributes.map fun myattr =>
    ( xml2json_attribute_name_prefix ++ c_str myattr.1, .string (c_str myattr.2))

/-- `current_name`. -/
def current_name : Node → Bytes
  | .element name _ _ => c_str name
  | _ => xml2json_text_additional_name

/-- What the loop over the children does with the value of one; `name_count` counts this one. -/
def add_child (name_count : Bytes → ℕ) (name : Bytes) (jsvalue : Members) (jsvalue_chd : Value) :
    Option Members :=
  if name_count name > 1 then xml2json_to_array_form name jsvalue jsvalue_chd
  else some (jsvalue ++ [(name, jsvalue_chd)])

mutual

/-- `xml2json_traverse_node`. -/
def xml2json_traverse_node : Node → Option Value
  | .data value => some (.string (c_str value))
  | .cdata value => some (.string (c_str value))
  | .element _ attributes children =>
    if attributes ≠ [] then
      match children with
      | [.data value] => some (.object (xml2json_add_attributes attributes
          [(xml2json_text_additional_name, .string (c_str value))]))
      | _ => (traverse_children children (fun _ => 0) (xml2json_add_attributes attributes [])).map
          .object
    else
      match children with
      | [] => some .null
      | [.data value] => some (.string (c_str value))
      | _ => (traverse_children children (fun _ => 0) []).map .object

/-- The loop over the children, with `name_count`. -/
def traverse_children : List Node → (Bytes → ℕ) → Members → Option Members
  | [], _, jsvalue => some jsvalue
  | xmlnode_chd :: children, name_count, jsvalue =>
    let name := current_name xmlnode_chd
    let name_count := Function.update name_count name (name_count name + 1)
    (xml2json_traverse_node xmlnode_chd).bind fun jsvalue_chd =>
      (add_child name_count name jsvalue jsvalue_chd).bind fun jsvalue =>
        traverse_children children name_count jsvalue

end

/-- `xmlnode_chd->name()`; a CDATA section has none. -/
def node_name : Node → Bytes
  | .element name _ _ => c_str name
  | _ => []

/-- The loop over the children of the document. -/
def document_members (nodes : List Node) : Option Members :=
  nodes.mapM fun xmlnode_chd =>
    (xml2json_traverse_node xmlnode_chd).map fun jsvalue_chd => (node_name xmlnode_chd, jsvalue_chd)

/-- How the guest can end without an answer: `abort`, a member that is not there, or a run out of
fuel of the parser. -/
inductive Fault
  | abort
  | undefined
  | unfinished
  deriving DecidableEq, Repr

def defined {α : Type} (x : Option α) : Except Fault α :=
  match x with
  | none => throw .undefined
  | some a => pure a

/-- `xml2json`. -/
def xml2json (xml_str : Bytes) : Except Fault Bytes := do
  match parse xml_str with
  | .error .parse_error => throw .abort
  | .error .unfinished => throw .unfinished
  | .ok nodes =>
    let js_doc ← defined (document_members nodes)
    let buffer ← defined (write (.object js_doc))
    pure (c_str buffer)

/-- `main`: the string the guest hands to the server. -/
def main (argv : List Bytes) : Except Fault Bytes :=
  match argv with
  | [_, xml_str] => (xml2json xml_str).map c_str
  | _ => throw .abort

end HfiWebserver.Guest.XmlToJson
