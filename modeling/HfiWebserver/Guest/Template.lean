import HfiWebserver.Lib.CString
import HfiWebserver.Lib.Numeral
import HfiWebserver.Lib.Split
import Mathlib.Logic.Function.Basic

/-! # The template engine of `html_template`

Jinja2CppLight renders in two steps. `eatSection` reads the source into a tree: text (`Code`), which
is kept as it is, and the sections between `{% for … %}`, `{% if … %}` and their end tags. The bound
of a loop is looked up here, in the values of the template. Then the tree is rendered with the
values, and `doSubstitutions` replaces the `{{name}}` of each text. A loop binds its variable in the
same map of values and takes it out again.

The library is compiled with `throw` defined as `abort();`, so a `render_error` ends the module: a
`Fault`. Other faults are the reads past the end of a vector of words, and a range loop that does
not find its variable. -/

namespace HfiWebserver.Guest.Template

open HfiWebserver.Lib.ByteStrings HfiWebserver.Lib.CString HfiWebserver.Lib.Numeral
open HfiWebserver.Lib

/-! ### Values -/

/-- What the C++ library makes of a `float`: its text on a stream, and whether it is `0.0`. -/
class FloatText (F : Type) where
  toString : F → Bytes
  isZero : F → Bool

inductive Value (F : Type)
  | IntValue (value : ℤ)
  | FloatValue (value : F)
  | StringValue (value : Bytes)
  | TupleValue (values : List (Value F))
  deriving Repr

variable {F : Type}

/-- An `int` on a stream. -/
def toString (value : ℤ) : Bytes :=
  if value < 0 then lit "-" ++ decimal value.natAbs else decimal value.natAbs

section

variable [FloatText F]

mutual

def Value.render : Value F → Bytes
  | .IntValue value => toString value
  | .FloatValue value => FloatText.toString value
  | .StringValue value => value
  | .TupleValue values => lit "\x7b" ++ render_values true values ++ lit "\x7d"

/-- The loop of `TupleValue::render`. -/
def render_values (isFirst : Bool) : List (Value F) → Bytes
  | [] => []
  | val :: values =>
    (if isFirst then [] else lit ", ") ++ val.render ++ render_values false values

end

def Value.isTrue : Value F → Bool
  | .IntValue value => value != 0
  | .FloatValue value => !FloatText.isZero value
  | .StringValue value => !value.isEmpty
  | .TupleValue values => !values.isEmpty

end

abbrev ValueMap (F : Type) := Bytes → Option (Value F)

/-- How a call ends early: `abort` in place of a `render_error`, `std::out_of_range` from a map, a
read past the end of a vector, a null pointer that is dereferenced, or a run out of fuel. -/
inductive Fault
  | render_error (what : Bytes)
  | out_of_range
  | past_end
  | null_pointer
  | unfinished
  deriving DecidableEq, Repr

/-! ### Words -/

def split (str separator : Bytes) : List Bytes := Split.split separator str

def replaceGlobal (targetString oldValue newValue : Bytes) : Bytes :=
  Split.replaceAll oldValue newValue targetString

/-- A character `trim` drops. -/
def blank (c : UInt8) : Bool := c == 32 || c == 13 || c == 10

def trim (target : Bytes) : Bytes := Split.trim blank target

/-- `words[i]`; the operator does not check the index. -/
def word (words : List Bytes) (i : ℕ) : Except Fault Bytes :=
  match words[i]? with
  | some w => .ok w
  | none => .error .past_end

/-- `isNumber`: the value of an `int` with nothing behind it. -/
def isNumber (astring : Bytes) : Option ℤ :=
  let (neg, ds) := signed (astring.dropWhile isspace)
  let value : ℤ := if neg then -digitsValue ds else digitsValue ds
  if ds ≠ [] ∧ ds.all isdigit ∧ LONG_MIN ≤ value ∧ value ≤ LONG_MAX then some value else none

/-! ### The tree -/

/-- A control tag, as read. -/
inductive Control
  | forRange (varName : Bytes) (loopEnd : ℤ)
  | forTuple (varName tupVarName : Bytes)
  | ifSection (m_isNegation : Bool) (m_variableName : Bytes)
  deriving DecidableEq, Repr

/-- `ControlSection`: `Code`, or one of `ForRangeSection`, `ForSection` and `IfSection`. -/
inductive ControlSection
  | code (templateCode : Bytes)
  | block (control : Control) (sections : List ControlSection)
  deriving Repr

def openTag : Bytes := lit "\x7b%"

def closeTag : Bytes := lit "%\x7d"

/-- What stands between the ends of a tag: `substr(begin + 2, end - begin - 2)`, whose length wraps
around when the end overlaps the begin. -/
def inside (tag : Bytes) (controlChangeEnd : ℕ) : Bytes :=
  if controlChangeEnd < 2 then tag.drop 2 else (tag.drop 2).take (controlChangeEnd - 2)

/-- `{% for … %}`. -/
def forControl (valueByName : ValueMap F) (controlChange : Bytes) (splitControlChange : List Bytes) :
    Except Fault Control := do
  let varname ← word splitControlChange 1
  let second ← word splitControlChange 2
  if second ≠ lit "in" then
    throw (.render_error (lit "control section \x7b% " ++ controlChange ++
      lit " unexpected: second word should be 'in'"))
  let rangeString := replaceGlobal (splitControlChange.drop 3).flatten (lit " ") []
  let splitRangeString := split rangeString (lit "(")
  if splitRangeString.head? = some (lit "range") then
    if splitRangeString.length ≠ 2 then
      throw (.render_error (lit "control section " ++ controlChange ++
        lit " unexpected: should be in format 'range(somevar)' or 'range(somenumber)'"))
    let name := (split (splitRangeString.getD 1 []) (lit ")")).headD []
    match isNumber name with
    | some endValue => pure (.forRange varname endValue)
    | none =>
      match valueByName name with
      | some (.IntValue endValue) => pure (.forRange varname endValue)
      | some _ =>
        throw (.render_error (lit "for loop range var " ++ name ++
          lit " must be an int (but it's not)"))
      | none => throw (.render_error (lit "for loop range var " ++ name ++ lit " not recognized"))
  else
    let name := rangeString
    match valueByName name with
    | some (.TupleValue _) => pure (.forTuple varname name)
    | some _ =>
      throw (.render_error (lit "for loop var " ++ name ++
        lit " must be a range or a vector (but it's neither)"))
    | none => throw (.render_error (lit "for loop var " ++ name ++ lit " not recognized"))

def parseIfCondition (expression : Bytes) : Except Fault Control := do
  let splittedExpression := split expression (lit " ")
  if splittedExpression.head? ≠ some (lit "if") then
    throw (.render_error (lit "if statement expected."))
  match splittedExpression.tail with
  | [] => throw (.render_error (lit "Any expression expected after if statement."))
  | first :: rest =>
    let m_isNegation := decide (first = lit "not")
    match if m_isNegation then rest else first :: rest with
    | [] => throw (.render_error (lit "Any expression expected after if not statement."))
    | m_variableName :: unexpected =>
      match unexpected with
      | w :: _ =>
        throw (.render_error (lit "Unexpected expression after variable name: " ++ w))
      | [] => pure (.ifSection m_isNegation m_variableName)

/-- The branches of `eatSection` that open a section. -/
def openSection (valueByName : ValueMap F) (controlChange : Bytes)
    (splitControlChange : List Bytes) : Except Fault Control :=
  if splitControlChange.head? = some (lit "for") then
    forControl valueByName controlChange splitControlChange
  else if splitControlChange.head? = some (lit "if") then do
    let _ ← word splitControlChange 1
    parseIfCondition controlChange
  else
    throw (.render_error (lit "control section \x7b% " ++ controlChange ++ lit " unexpected"))

def Control.endName : Control → Bytes
  | .forRange _ _ => lit "endfor"
  | .forTuple _ _ => lit "endfor"
  | .ifSection _ _ => lit "endif"

/-- The end tag of a section; what follows it is left. -/
def controlEnd (c : Control) (text : Bytes) : Except Fault Bytes :=
  match Split.find closeTag text with
  | none =>
    match c with
    | .ifSection _ _ =>
      throw (.render_error (lit "No control end of any section found at: " ++ text))
    | _ => throw (.render_error (lit "No control end section found at: " ++ text))
  | some controlEndEndPos =>
    let controlEnd := text.take (controlEndEndPos + 2)
    let controlEndNorm := replaceGlobal controlEnd (lit " ") []
    if controlEndNorm ≠ openTag ++ c.endName ++ closeTag then
      throw (.render_error (lit "No control end section found, expected '\x7b% " ++ c.endName ++
        lit " %\x7d', got '" ++ controlEnd ++ lit "'"))
    else pure (text.drop (controlEndEndPos + 2))

/-- `eatSection`, on the source from `pos` on: the sections it adds, and the source from the
returned position on. The fuel bounds the tags it reads. -/
def eatSection (valueByName : ValueMap F) : ℕ → Bytes → Except Fault (List ControlSection × Bytes)
  | 0, _ => .error .unfinished
  | fuel + 1, text =>
    match Split.find openTag text with
    | none => pure ([.code text], [])
    | some controlChangeBegin =>
      let code := ControlSection.code (text.take controlChangeBegin)
      let tag := text.drop controlChangeBegin
      match Split.find closeTag tag with
      | none =>
        throw (.render_error (lit "control section unterminated: " ++ tag.take 40))
      | some controlChangeEnd => do
        let controlChange := trim (inside tag controlChangeEnd)
        let splitControlChange := split controlChange (lit " ")
        if splitControlChange.head? = some (lit "endfor") ∨
            splitControlChange.head? = some (lit "endif") then
          if splitControlChange.length ≠ 1 then
            throw (.render_error (lit "control section \x7b% " ++ controlChange ++
              lit " unrecognized"))
          pure ([code], tag)
        else
          let c ← openSection valueByName controlChange splitControlChange
          let (sections, pos) ← eatSection valueByName fuel (tag.drop (controlChangeEnd + 2))
          let rest ← controlEnd c pos
          let (more, finalPos) ← eatSection valueByName fuel rest
          pure (code :: .block c sections :: more, finalPos)

/-! ### Rendering -/

section

variable [FloatText F]

/-- One iteration of `doSubstitutions`: the text from a `{{` to the next one. -/
def substitution (valueByName : ValueMap F) (source : Bytes) : Except Fault Bytes := do
  let thisSplit := split source (lit "\x7d\x7d")
  let name := trim (thisSplit.headD [])
  match valueByName name with
  | none => throw (.render_error (lit "name " ++ name ++ lit " not defined"))
  | some value =>
    -- `thisSplit.size() > 0` holds also when there is no `}}`
    let text ← word thisSplit 1
    pure (value.render ++ text)

def doSubstitutions (sourceCode : Bytes) (valueByName : ValueMap F) : Except Fault Bytes := do
  let startI := if sourceCode.take 2 = lit "\x7b\x7b" then 0 else 1
  let splitSource := split sourceCode (lit "\x7b\x7b")
  let templatedString := if startI = 1 then splitSource.headD [] else []
  let pieces :=
    if startI = 0 ∧ splitSource.length > 1 ∧ splitSource.head? = some [] then splitSource.drop 1
    else splitSource.drop startI
  let texts ← pieces.mapM (substitution valueByName)
  pure (templatedString ++ texts.flatten)

def computeExpression (m_isNegation : Bool) (m_variableName : Bytes) (valueByName : ValueMap F) :
    Bool :=
  if m_variableName = lit "True" then true ^^ m_isNegation
  else if m_variableName = lit "False" then false ^^ m_isNegation
  else
    match valueByName m_variableName with
    | none => false ^^ m_isNegation
    | some value => value.isTrue ^^ m_isNegation

/-- A loop over the values a variable takes; the body may change the map. -/
def loop {β : Type} (body : β → ValueMap F → Except Fault (Bytes × ValueMap F)) :
    List β → ValueMap F → Except Fault (Bytes × ValueMap F)
  | [], valueByName => pure ([], valueByName)
  | i :: is, valueByName => do
    let (result, valueByName) ← body i valueByName
    let (more, valueByName) ← loop body is valueByName
    pure (result ++ more, valueByName)

section

variable (contents : ValueMap F → Except Fault (Bytes × ValueMap F))

/-- One iteration of `ForRangeSection::render`: the `dynamic_cast` of the variable is not checked. -/
def rangeStep (varName : Bytes) (i : ℤ) (valueByName : ValueMap F) :
    Except Fault (Bytes × ValueMap F) :=
  match valueByName varName with
  | some (.IntValue _) => contents (Function.update valueByName varName (some (.IntValue i)))
  | _ => throw .null_pointer

/-- One iteration of `ForSection::render`. -/
def tupleStep (varName : Bytes) (value : Value F) (valueByName : ValueMap F) :
    Except Fault (Bytes × ValueMap F) := do
  let (result, valueByName) ← contents (Function.update valueByName varName (some value))
  pure (result, Function.update valueByName varName none)

/-- `render` of the section a tag opens, with the loop over its contents. -/
def Control.render (c : Control) (valueByName : ValueMap F) : Except Fault (Bytes × ValueMap F) :=
  match c with
  | .forRange varName loopEnd => do
    if (valueByName varName).isSome then
      throw (.render_error (lit "variable " ++ varName ++ lit " already exists in this context"))
    let (result, valueByName) ← loop (rangeStep contents varName)
      ((List.range loopEnd.toNat).map Int.ofNat)
      (Function.update valueByName varName (some (.IntValue 0)))
    pure (result, Function.update valueByName varName none)
  | .forTuple varName tupVarName => do
    if (valueByName varName).isSome then
      throw (.render_error (lit "variable " ++ varName ++ lit " already exists in this context"))
    match valueByName tupVarName with
    | none => throw .out_of_range
    | some (.TupleValue tupValues) => loop (tupleStep contents varName) tupValues valueByName
    | some _ =>
      throw (.render_error (lit "variable " ++ tupVarName ++ lit " no longer valid in context"))
  | .ifSection m_isNegation m_variableName =>
    if computeExpression m_isNegation m_variableName valueByName then contents valueByName
    else pure ([], valueByName)

end

mutual

def ControlSection.render : ControlSection → ValueMap F → Except Fault (Bytes × ValueMap F)
  | .code templateCode, valueByName => do
    let processed ← doSubstitutions templateCode valueByName
    pure (processed, valueByName)
  | .block c sections, valueByName => Control.render (render_sections sections) c valueByName

/-- The loop over the sections of a section; also `Root::render`. -/
def render_sections : List ControlSection → ValueMap F → Except Fault (Bytes × ValueMap F)
  | [], valueByName => pure ([], valueByName)
  | s :: sections, valueByName => do
    let (result, valueByName) ← s.render valueByName
    let (more, valueByName) ← render_sections sections valueByName
    pure (result ++ more, valueByName)

end

/-- `Template::render`: the text, and the values of the template after it. -/
def render (sourceCode : Bytes) (valueByName : ValueMap F) :
    Except Fault (Bytes × ValueMap F) := do
  let (root, finalPos) ← eatSection valueByName (sourceCode.length + 1) sourceCode
  if finalPos ≠ [] then
    throw (.render_error (lit "some sourcecode found at end: " ++ finalPos))
  render_sections root valueByName

end

end HfiWebserver.Guest.Template
