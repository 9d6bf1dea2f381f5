import MiniScriptLayout.Config.Value
import MiniScriptLayout.Text.HexDigit
import MiniScriptLayout.Text.Start

/-!
Configuration files in JSON. A fault names the first thing that is not as expected, and the line it
stands in.
-/

namespace MiniScriptLayout
namespace Config
namespace Json

/-- What is wrong with a JSON text. -/
inductive Cause where
  | byteOrderMark
  | value
  | comma
  | colon
  | key
  | extraData
  | unterminatedText
  | controlCharacter
  | escape
  | unicodeEscape
  deriving DecidableEq, Repr

def Cause.message : Cause → String
  | byteOrderMark => "Unexpected UTF-8 BOM (decode using utf-8-sig)"
  | value => "Expecting value"
  | comma => "Expecting ',' delimiter"
  | colon => "Expecting ':' delimiter"
  | key => "Expecting property name enclosed in double quotes"
  | extraData => "Extra data"
  | unterminatedText => "Unterminated string starting at"
  | controlCharacter => "Invalid control character at"
  | escape => "Invalid \\escape"
  | unicodeEscape => "Invalid \\uXXXX escape"

/-- A cause and the text from the place on where it was found. -/
structure Fault where
  cause : Cause
  rest : List Char
  deriving DecidableEq, Repr

/-- The number of the line in which the rest of a text starts. -/
def lineOf (text rest : List Char) : Nat :=
  text.count '\n' - rest.count '\n' + 1

def isSpace (c : Char) : Bool :=
  c = ' ' || c = '\t' || c = '\n' || c = '\r'

def skipSpace (s : List Char) : List Char :=
  s.dropWhile isSpace

/-- Reads four digits in base sixteen; something must follow them. -/
def readHex? : List Char → Option (Nat × List Char)
  | a :: b :: c :: d :: e :: r => do
    let a ← Text.hexValue? a
    let b ← Text.hexValue? b
    let c ← Text.hexValue? c
    let d ← Text.hexValue? d
    some (((16 * a + b) * 16 + c) * 16 + d, e :: r)
  | _ => none

/-- The character that a letter behind a backslash stands for. -/
def escaped? (c : Char) : Option Char :=
  if c = '"' ∨ c = '\\' ∨ c = '/' then some c
  else if c = 'b' then some '\x08'
  else if c = 'f' then some '\x0c'
  else if c = 'n' then some '\n'
  else if c = 'r' then some '\r'
  else if c = 't' then some '\t'
  else none

/-- Reads the digits of a unicode escape. Two escapes that form a surrogate pair are one character;
a surrogate alone becomes U+FFFD. -/
def readUnicode (s : List Char) : Except Fault (Char × List Char) :=
  match readHex? s with
  | none => .error ⟨.unicodeEscape, s⟩
  | some (high, r) =>
    if 0xD800 ≤ high ∧ high ≤ 0xDBFF then
      match r with
      | '\\' :: 'u' :: t =>
        if t.length ≤ 4 then .ok ('\uFFFD', r)
        else
          match readHex? t with
          | none => .error ⟨.unicodeEscape, t⟩
          | some (low, r') =>
            if 0xDC00 ≤ low ∧ low ≤ 0xDFFF then
              .ok (Char.ofNat (0x10000 + (high - 0xD800) * 0x400 + (low - 0xDC00)), r')
            else .ok ('\uFFFD', r)
      | _ => .ok ('\uFFFD', r)
    else if 0xDC00 ≤ high ∧ high ≤ 0xDFFF then .ok ('\uFFFD', r)
    else .ok (Char.ofNat high, r)

/-- Reads a text behind its opening quote; `opening` is the text from that quote on. -/
def readText (fuel : Nat) (opening s : List Char) : Except Fault (List Char × List Char) :=
  match fuel, s with
  | 0, _ | _, [] => .error ⟨.unterminatedText, opening⟩
  | fuel + 1, c :: r =>
    if c = '"' then .ok ([], r)
    else if c = '\\' then
      match r with
      | [] => .error ⟨.unterminatedText, opening⟩
      | d :: r' =>
        if d = 'u' then do
          let (e, r') ← readUnicode r'
          let (text, rest) ← readText fuel opening r'
          return (e :: text, rest)
        else
          match escaped? d with
          | none => .error ⟨.escape, s⟩
          | some e => do
            let (text, rest) ← readText fuel opening r'
            return (e :: text, rest)
    else if c.toNat ≤ 0x1F then .error ⟨.controlCharacter, s⟩
    else do
      let (text, rest) ← readText fuel opening r
      return (c :: text, rest)

/-- Reads the part of a number behind the point, if a digit comes first. -/
def readFraction (s : List Char) : List Char × List Char :=
  match s with
  | '.' :: d :: r =>
    if Text.isAsciiDigit d then
      ((d :: r).takeWhile Text.isAsciiDigit, (d :: r).dropWhile Text.isAsciiDigit)
    else ([], s)
  | _ => ([], s)

/-- Reads an exponent, if it has digits. -/
def readExponent (s : List Char) : Option Int × List Char :=
  match s with
  | c :: r =>
    if c = 'e' ∨ c = 'E' then
      let (sign, r) := Text.cutOne (fun c => c = '+' || c = '-') r
      let digits := r.takeWhile Text.isAsciiDigit
      if digits.isEmpty then (none, s)
      else
        let n : Int := Text.readDecimal digits
        (some (if sign = ['-'] then -n else n), r.dropWhile Text.isAsciiDigit)
    else (none, s)
  | [] => (none, s)

/-- Reads a number. With a fraction or an exponent it is a floating-point number. -/
def readNumber? (s : List Char) : Option (Value × List Char) :=
  let (sign, r) := Text.cutOne (· = '-') s
  let negative := !sign.isEmpty
  let digits := if r.head? = some '0' then ['0'] else r.takeWhile Text.isAsciiDigit
  if digits.isEmpty then none
  else
    let (fraction, afterFraction) := readFraction (r.drop digits.length)
    let (exponent, rest) := readExponent afterFraction
    if fraction.isEmpty && exponent.isNone then
      let n : Int := Text.readDecimal digits
      some (.int (if negative then -n else n), rest)
    else
      some (.float (Binary.ofDecimal negative (Text.readDecimal (digits ++ fraction))
        (exponent.getD 0 - fraction.length)), rest)

/-- The words that are values. -/
def words : List (List Char × Value) :=
  [(['n', 'u', 'l', 'l'], .null), (['t', 'r', 'u', 'e'], .bool true),
    (['f', 'a', 'l', 's', 'e'], .bool false), (['N', 'a', 'N'], .float .nan),
    (['I', 'n', 'f', 'i', 'n', 'i', 't', 'y'], .float (.infinite false)),
    (['-', 'I', 'n', 'f', 'i', 'n', 'i', 't', 'y'], .float (.infinite true))]

def readWord? (s : List Char) : Option (Value × List Char) :=
  words.findSome? fun (word, v) => (Text.strip? word s).map fun rest => (v, rest)

mutual

/-- Reads a value. Each step takes at least one character, so fuel for the length of the text is
enough. -/
def readValue (fuel : Nat) (s : List Char) : Except Fault (Value × List Char) :=
  match fuel, s with
  | 0, _ | _, [] => .error ⟨.value, s⟩
  | fuel + 1, c :: r =>
    if c = '"' then do
      let (text, rest) ← readText r.length.succ s r
      return (.text text, rest)
    else if c = '[' then
      match skipSpace r with
      | ']' :: rest => .ok (.list [], rest)
      | r => do
        let (items, rest) ← readItems fuel r
        return (.list items, rest)
    else if c = '\x7b' then
      match skipSpace r with
      | '\x7d' :: rest => .ok (.table [], rest)
      | r => do
        let (entries, rest) ← readEntries fuel [] r
        return (.table entries, rest)
    else
      match readWord? s <|> readNumber? s with
      | some found => .ok found
      | none => .error ⟨.value, s⟩

/-- Reads the items of a list, up to and with its closing bracket. -/
def readItems (fuel : Nat) (s : List Char) : Except Fault (List Value × List Char) :=
  match fuel with
  | 0 => .error ⟨.value, s⟩
  | fuel + 1 => do
    let (v, r) ← readValue fuel s
    match skipSpace r with
    | ']' :: rest => return ([v], rest)
    | ',' :: r => do
      let (vs, rest) ← readItems fuel (skipSpace r)
      return (v :: vs, rest)
    | r => .error ⟨.comma, r⟩

/-- Reads the entries of a table behind those read already, up to and with its closing brace. Of
several entries with one key the last counts. -/
def readEntries (fuel : Nat) (read : Table) (s : List Char) : Except Fault (Table × List Char) :=
  match fuel, s with
  | fuel + 1, '"' :: r => do
    let (key, r) ← readText r.length.succ s r
    match skipSpace r with
    | ':' :: r => do
      let (v, r) ← readValue fuel (skipSpace r)
      match skipSpace r with
      | '\x7d' :: rest => return (read.set key v, rest)
      | ',' :: r => readEntries fuel (read.set key v) (skipSpace r)
      | r => .error ⟨.comma, r⟩
    | r => .error ⟨.colon, r⟩
  | _, _ => .error ⟨.key, s⟩

end

/-- Reads a whole text. -/
def parse (s : List Char) : Except Fault Value :=
  match s with
  | '\uFEFF' :: _ => .error ⟨.byteOrderMark, s⟩
  | _ => do
    let (v, r) ← readValue (2 * s.length + 2) (skipSpace s)
    match skipSpace r with
    | [] => return v
    | r => .error ⟨.extraData, r⟩

end Json
end Config
end MiniScriptLayout
