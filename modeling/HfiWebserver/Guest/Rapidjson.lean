import HfiWebserver.Lib.ByteStrings
import HfiWebserver.Lib.Fallible
import HfiWebserver.Lib.Interleave

/-! # The JSON library of `xml_to_json`

rapidjson writes and reads JSON through events. A value sends its events to a handler (`Accept`);
the writer is a handler that puts text on a stream, a document is a handler that builds a value on
a stack, and the reader turns text into the same events (`Parse`).

The values are those `xml_to_json` builds: it has no booleans and no numbers. What the reader does
at a character that starts one of these is a parameter. -/

namespace HfiWebserver.Guest.Rapidjson

open HfiWebserver.Lib.ByteStrings HfiWebserver.Lib.Interleave

abbrev byte (c : Char) : UInt8 := c.toNat.toUInt8

inductive Value
  | null
  | string (str : Bytes)
  | array (elements : List Value)
  | object (members : List (Bytes × Value))
  deriving Repr

/-- `Type`. -/
inductive ValueType
  | kNullType
  | kObjectType
  | kArrayType
  | kStringType
  deriving DecidableEq, Repr

def Value.GetType : Value → ValueType
  | .null => .kNullType
  | .string _ => .kStringType
  | .array _ => .kArrayType
  | .object _ => .kObjectType

/-! ### Events -/

/-- A call of a handler. -/
inductive Event
  | Null
  | String (str : Bytes)
  | StartObject
  | Key (str : Bytes)
  | EndObject (memberCount : ℕ)
  | StartArray
  | EndArray (elementCount : ℕ)
  deriving DecidableEq, Repr

mutual

def Value.Accept : Value → List Event
  | .null => [.Null]
  | .string str => [.String str]
  | .array elements =>
    .StartArray :: Accept_elements elements ++ [.EndArray elements.length]
  | .object members => .StartObject :: Accept_members members ++ [.EndObject members.length]

def Accept_elements : List Value → List Event
  | [] => []
  | v :: elements => v.Accept ++ Accept_elements elements

def Accept_members : List (Bytes × Value) → List Event
  | [] => []
  | (name, value) :: members => .Key name :: value.Accept ++ Accept_members members

end

/-! ### The writer -/

structure Level where
  valueCount : ℕ
  inArray : Bool
  deriving DecidableEq, Repr

structure Writer where
  os : Bytes
  level_stack : List Level
  hasRoot : Bool
  deriving DecidableEq, Repr

/-- `Writer(os)`. -/
def Writer.init : Writer := ⟨[], [], false⟩

def Writer.put (w : Writer) (text : Bytes) : Writer := { w with os := w.os ++ text }

def Writer.push (w : Writer) (inArray : Bool) : Writer :=
  { w with level_stack := ⟨0, inArray⟩ :: w.level_stack }

/-- `Prefix`, before each value and each key; `none` is a failed assertion. -/
def Writer.Prefix (w : Writer) (type : ValueType) : Option Writer :=
  match w.level_stack with
  | level :: levels =>
    let separator :=
      if level.valueCount = 0 then []
      else if level.inArray then lit ","
      else if level.valueCount % 2 = 0 then lit "," else lit ":"
    if ¬ level.inArray ∧ level.valueCount % 2 = 0 ∧ type ≠ .kStringType then none
    else some ⟨w.os ++ separator, ⟨level.valueCount + 1, level.inArray⟩ :: levels, w.hasRoot⟩
  | [] => if w.hasRoot then none else some { w with hasRoot := true }

/-- `level_stack_.Pop`, after the assertions of `EndObject` and `EndArray`. -/
def Writer.pop (w : Writer) (inArray : Bool) : Option Writer :=
  match w.level_stack with
  | level :: levels =>
    if level.inArray = inArray then some { w with level_stack := levels } else none
  | [] => none

def hexDigits : Bytes := lit "0123456789ABCDEF"

/-- The table `escape` of the writer. -/
def escape (c : UInt8) : UInt8 :=
  if c = byte '"' ∨ c = byte '\\' then c
  else if c = 8 then byte 'b'
  else if c = 9 then byte 't'
  else if c = 10 then byte 'n'
  else if c = 12 then byte 'f'
  else if c = 13 then byte 'r'
  else if c < 0x20 then byte 'u'
  else 0

/-- One iteration of `WriteString`; what is not escaped is copied, whatever its encoding. -/
def WriteChar (c : UInt8) : Bytes :=
  if escape c = 0 then [c]
  else if escape c = byte 'u' then
    [byte '\\', escape c, byte '0', byte '0', hexDigits.getD (c >>> 4).toNat 0,
      hexDigits.getD (c &&& 0xF).toNat 0]
  else [byte '\\', escape c]

def WriteString (str : Bytes) : Bytes := byte '"' :: str.flatMap WriteChar ++ [byte '"']

/-- A call of the writer. -/
def Writer.handle (w : Writer) : Event → Option Writer
  | .Null => (w.Prefix .kNullType).map (·.put (lit "null"))
  | .String str => (w.Prefix .kStringType).map (·.put (WriteString str))
  | .Key str => (w.Prefix .kStringType).map (·.put (WriteString str))
  | .StartObject => (w.Prefix .kObjectType).map fun w => (w.push false).put (lit "\x7b")
  | .StartArray => (w.Prefix .kArrayType).map fun w => (w.push true).put (lit "[")
  | .EndObject _ => (w.pop false).map (·.put (lit "\x7d"))
  | .EndArray _ => (w.pop true).map (·.put (lit "]"))

/-- The text of `value.Accept(writer)`, on an empty stream. -/
def write (v : Value) : Option Bytes := (run Writer.handle Writer.init v.Accept).map Writer.os

/-! ### Documents -/

/-- `SetObjectRaw`: the values on the stack as members. -/
def asMembers : List Value → Option (List (Bytes × Value))
  | [] => some []
  | .string name :: value :: values => (asMembers values).map ((name, value) :: ·)
  | _ => none

/-- A call of a document, on its stack, whose top is first. -/
def build (stack : List Value) : Event → Option (List Value)
  | .Null => some (.null :: stack)
  | .String str => some (.string str :: stack)
  | .Key str => some (.string str :: stack)
  | .StartObject => some (.object [] :: stack)
  | .StartArray => some (.array [] :: stack)
  | .EndObject memberCount =>
    match asMembers (stack.take (2 * memberCount)).reverse, stack.drop (2 * memberCount) with
    | some members, .object _ :: stack => some (.object members :: stack)
    | _, _ => none
  | .EndArray elementCount =>
    match stack.drop elementCount with
    | .array _ :: rest => some (.array (stack.take elementCount).reverse :: rest)
    | _ => none

/-! ### The reader -/

inductive ParseErrorCode
  | DocumentEmpty
  | DocumentRootNotSingular
  | ValueInvalid
  | ObjectMissName
  | ObjectMissColon
  | ObjectMissCommaOrCurlyBracket
  | ArrayMissCommaOrSquareBracket
  | StringUnicodeEscapeInvalidHex
  | StringUnicodeSurrogateInvalid
  | StringEscapeInvalid
  | StringMissQuotationMark
  | Termination
  deriving DecidableEq, Repr

/-- `Peek` of a stream over what is left of the text; a NUL ends it. -/
def Peek (s : Bytes) : UInt8 := s.headD 0

def isWhitespace (c : UInt8) : Bool := c == 32 || c == 10 || c == 13 || c == 9

def SkipWhitespace (s : Bytes) : Bytes := s.dropWhile isWhitespace

def hexDigit (c : UInt8) : Option UInt32 :=
  if byte '0' ≤ c ∧ c ≤ byte '9' then some (c - byte '0').toUInt32
  else if byte 'A' ≤ c ∧ c ≤ byte 'F' then some (c - byte 'A' + 10).toUInt32
  else if byte 'a' ≤ c ∧ c ≤ byte 'f' then some (c - byte 'a' + 10).toUInt32
  else none

/-- The loop of `ParseHex4`, for `n` digits. -/
def ParseHex : ℕ → UInt32 → Bytes → Except ParseErrorCode (UInt32 × Bytes)
  | 0, codepoint, s => pure (codepoint, s)
  | n + 1, codepoint, s =>
    match hexDigit (Peek s) with
    | some d => ParseHex n ((codepoint <<< 4) + d) (s.drop 1)
    | none => throw .StringUnicodeEscapeInvalidHex

def ParseHex4 (s : Bytes) : Except ParseErrorCode (UInt32 × Bytes) := ParseHex 4 0 s

/-- The second half of a surrogate pair, when `codepoint` is the first half of one. -/
def ParseSurrogate (codepoint : UInt32) (s : Bytes) : Except ParseErrorCode (UInt32 × Bytes) :=
  if 0xD800 ≤ codepoint ∧ codepoint ≤ 0xDBFF then
    if Peek s = byte '\\' ∧ Peek (s.drop 1) = byte 'u' then do
      let (codepoint2, s) ← ParseHex4 (s.drop 2)
      if codepoint2 < 0xDC00 ∨ 0xDFFF < codepoint2 then throw .StringUnicodeSurrogateInvalid
      pure ((((codepoint - 0xD800) <<< 10) ||| (codepoint2 - 0xDC00)) + 0x10000, s)
    else throw .StringUnicodeSurrogateInvalid
  else pure (codepoint, s)

/-- `UTF8::Encode`. -/
def Encode (codepoint : UInt32) : Bytes :=
  if codepoint ≤ 0x7F then [codepoint.toUInt8]
  else if codepoint ≤ 0x7FF then
    [((codepoint >>> 6) ||| 0xC0).toUInt8, ((codepoint &&& 0x3F) ||| 0x80).toUInt8]
  else if codepoint ≤ 0xFFFF then
    [((codepoint >>> 12) ||| 0xE0).toUInt8, (((codepoint >>> 6) &&& 0x3F) ||| 0x80).toUInt8,
      ((codepoint &&& 0x3F) ||| 0x80).toUInt8]
  else
    [((codepoint >>> 18) ||| 0xF0).toUInt8, (((codepoint >>> 12) &&& 0x3F) ||| 0x80).toUInt8,
      (((codepoint >>> 6) &&& 0x3F) ||| 0x80).toUInt8, ((codepoint &&& 0x3F) ||| 0x80).toUInt8]

/-- The table `escape` of the reader. -/
def unescape (e : UInt8) : UInt8 :=
  if e = byte '"' ∨ e = byte '/' ∨ e = byte '\\' then e
  else if e = byte 'b' then 8
  else if e = byte 'f' then 12
  else if e = byte 'n' then 10
  else if e = byte 'r' then 13
  else if e = byte 't' then 9
  else 0

/-- `ParseStringToStream`, behind the first quotation mark: the string, and what is left. The fuel
bounds the characters. -/
def ParseStringToStream : ℕ → Bytes → Except ParseErrorCode (Bytes × Bytes)
  | 0, _ => throw .Termination
  | fuel + 1, s =>
    let c := Peek s
    if c = byte '\\' then
      let e := Peek (s.drop 1)
      if unescape e ≠ 0 then do
        let (str, s) ← ParseStringToStream fuel (s.drop 2)
        pure (unescape e :: str, s)
      else if e = byte 'u' then do
        let (codepoint, s) ← ParseHex4 (s.drop 2)
        let (codepoint, s) ← ParseSurrogate codepoint s
        let (str, s) ← ParseStringToStream fuel s
        pure (Encode codepoint ++ str, s)
      else throw .StringEscapeInvalid
    else if c = byte '"' then pure ([], s.drop 1)
    else if c < 0x20 then
      throw (if c = 0 then .StringMissQuotationMark else .StringEscapeInvalid)
    else do
      let (str, s) ← ParseStringToStream fuel (s.drop 1)
      pure (c :: str, s)

/-- `ParseString`, at the first quotation mark. -/
def ParseString (s : Bytes) : Except ParseErrorCode (Bytes × Bytes) :=
  ParseStringToStream (s.length + 1) (s.drop 1)

def ParseNull (s : Bytes) : Except ParseErrorCode (List Event × Bytes) :=
  if s.take 4 = lit "null" then pure ([.Null], s.drop 4) else throw .ValueInvalid

section

variable (other : Bytes → Except ParseErrorCode (List Event × Bytes))

mutual

/-- `ParseValue`: its events, and what is left of the text. The fuel bounds the calls in each
other. -/
def ParseValue : ℕ → Bytes → Except ParseErrorCode (List Event × Bytes)
  | 0, _ => throw .Termination
  | fuel + 1, s =>
    if Peek s = byte 'n' then ParseNull s
    else if Peek s = byte '"' then do
      let (str, s) ← ParseString s
      pure ([.String str], s)
    else if Peek s = byte '{' then do
      let s := SkipWhitespace (s.drop 1)
      if Peek s = byte '}' then pure ([.StartObject, .EndObject 0], s.drop 1)
      else
        let (events, s) ← ParseMembers fuel 0 s
        pure (.StartObject :: events, s)
    else if Peek s = byte '[' then do
      let s := SkipWhitespace (s.drop 1)
      if Peek s = byte ']' then pure ([.StartArray, .EndArray 0], s.drop 1)
      else
        let (events, s) ← ParseElements fuel 0 s
        pure (.StartArray :: events, s)
    -- `true`, `false` or a number
    else other s

/-- The loop of `ParseObject`. -/
def ParseMembers : ℕ → ℕ → Bytes → Except ParseErrorCode (List Event × Bytes)
  | 0, _, _ => throw .Termination
  | fuel + 1, memberCount, s => do
    if Peek s ≠ byte '"' then throw .ObjectMissName
    let (key, s) ← ParseString s
    let s := SkipWhitespace s
    if Peek s ≠ byte ':' then throw .ObjectMissColon
    let (value, s) ← ParseValue fuel (SkipWhitespace (s.drop 1))
    let s := SkipWhitespace s
    if Peek s = byte ',' then
      let (more, s) ← ParseMembers fuel (memberCount + 1) (SkipWhitespace (s.drop 1))
      pure (.Key key :: value ++ more, s)
    else if Peek s = byte '}' then
      pure (.Key key :: value ++ [.EndObject (memberCount + 1)], s.drop 1)
    else throw .ObjectMissCommaOrCurlyBracket

/-- The loop of `ParseArray`. -/
def ParseElements : ℕ → ℕ → Bytes → Except ParseErrorCode (List Event × Bytes)
  | 0, _, _ => throw .Termination
  | fuel + 1, elementCount, s => do
    let (value, s) ← ParseValue fuel s
    let s := SkipWhitespace s
    if Peek s = byte ',' then
      let (more, s) ← ParseElements fuel (elementCount + 1) (SkipWhitespace (s.drop 1))
      pure (value ++ more, s)
    else if Peek s = byte ']' then
      pure (value ++ [.EndArray (elementCount + 1)], s.drop 1)
    else throw .ArrayMissCommaOrSquareBracket

end

/-- `Reader::Parse`. -/
def Parse (s : Bytes) : Except ParseErrorCode (List Event) := do
  let s := SkipWhitespace s
  if Peek s = 0 then throw .DocumentEmpty
  let (events, s) ← ParseValue other (2 * s.length + 1) s
  if Peek (SkipWhitespace s) ≠ 0 then throw .DocumentRootNotSingular
  pure events

end

end HfiWebserver.Guest.Rapidjson
