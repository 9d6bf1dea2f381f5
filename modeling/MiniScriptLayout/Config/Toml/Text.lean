import MiniScriptLayout.Config.Json

/-!
Texts, keys and the space between things in TOML. Every reader gives what it read and the rest, or
nothing if the text is not well-formed.
-/

namespace MiniScriptLayout
namespace Config
namespace Toml

def isSpace (c : Char) : Bool :=
  c = ' ' || c = '\t'

def isSpaceOrBreak (c : Char) : Bool :=
  isSpace c || c = '\n'

def skipSpace (s : List Char) : List Char :=
  s.dropWhile isSpace

/-- A control character that may stand neither in a comment nor in a text. -/
def isControl (c : Char) : Bool :=
  (c.toNat < 0x20 || c.toNat = 0x7F) && c != '\t'

/-- Skips a comment, up to the end of its line. -/
def skipComment? : List Char → Option (List Char)
  | '#' :: r =>
    if (r.takeWhile (· ≠ '\n')).any isControl then none else some (r.dropWhile (· ≠ '\n'))
  | r => some r

/-- Skips spaces, line breaks and comments. -/
def skipLines? (fuel : Nat) (s : List Char) : Option (List Char) :=
  match fuel with
  | 0 => some s
  | fuel + 1 =>
    match s.dropWhile isSpaceOrBreak with
    | '#' :: r => do skipLines? fuel (← skipComment? ('#' :: r))
    | r => some r

/-- The number that digits in base sixteen write. -/
def readHex (digits : List Char) : Nat :=
  digits.foldl (fun n c => 16 * n + (Text.hexValue? c).getD 0) 0

/-- Reads a character by its number, in a fixed count of digits. -/
def readCharNumber? (count : Nat) (s : List Char) : Option (Char × List Char) :=
  let digits := s.take count
  let n := readHex digits
  if digits.length = count ∧ digits.all (fun c => (Text.hexValue? c).isSome) ∧ n.isValidChar then
    some (Char.ofNat n, s.drop count)
  else none

/-- The character that a letter behind a backslash stands for. -/
def escaped? (c : Char) : Option Char :=
  if c = '/' then none else Json.escaped? c

/-- Skips a line break that a backslash hides, with all space around it. -/
def skipHiddenBreak? (s : List Char) : Option (List Char) :=
  match skipSpace s with
  | [] => some []
  | '\n' :: r => some (r.dropWhile isSpaceOrBreak)
  | _ => none

/-- Reads what follows a backslash. A hidden line break stands for nothing. -/
def readEscape? (multiline : Bool) (s : List Char) : Option (List Char × List Char) :=
  match s with
  | [] => none
  | c :: r =>
    if multiline && isSpaceOrBreak c then (skipHiddenBreak? s).map fun rest => ([], rest)
    else if c = 'u' then (readCharNumber? 4 r).map fun (d, rest) => ([d], rest)
    else if c = 'U' then (readCharNumber? 8 r).map fun (d, rest) => ([d], rest)
    else (escaped? c).map fun d => ([d], r)

/-- Reads a text with escapes behind its opening quotes. The quotes of a text of several lines are
three, and up to two more before them belong to the text. -/
def readBasic? (multiline : Bool) (fuel : Nat) (s : List Char) : Option (List Char × List Char) :=
  match fuel, s with
  | 0, _ | _, [] => none
  | fuel + 1, c :: r =>
    if c = '"' then
      if multiline then
        match r with
        | '"' :: '"' :: '"' :: '"' :: rest => some (['"', '"'], rest)
        | '"' :: '"' :: '"' :: rest => some (['"'], rest)
        | '"' :: '"' :: rest => some ([], rest)
        | _ => (readBasic? multiline fuel r).map fun (text, rest) => (c :: text, rest)
      else some ([], r)
    else if c = '\\' then do
      let (escaped, r) ← readEscape? multiline r
      let (text, rest) ← readBasic? multiline fuel r
      some (escaped ++ text, rest)
    else if isControl c && !(multiline && c = '\n') then none
    else (readBasic? multiline fuel r).map fun (text, rest) => (c :: text, rest)

/-- Reads a text without escapes behind its opening quote. -/
def readLiteral? : List Char → Option (List Char × List Char)
  | [] => none
  | c :: r =>
    if c = '\'' then some ([], r)
    else if isControl c then none
    else (readLiteral? r).map fun (text, rest) => (c :: text, rest)

/-- Reads a text of several lines without escapes behind its opening quotes. -/
def readLiteralLines? : List Char → Option (List Char × List Char)
  | [] => none
  | '\'' :: '\'' :: '\'' :: '\'' :: '\'' :: rest => some (['\'', '\''], rest)
  | '\'' :: '\'' :: '\'' :: '\'' :: rest => some (['\''], rest)
  | '\'' :: '\'' :: '\'' :: rest => some ([], rest)
  | c :: r =>
    if isControl c && c != '\n' then none
    else (readLiteralLines? r).map fun (text, rest) => (c :: text, rest)

/-- A line break right behind the opening quotes is no part of a text. -/
def skipFirstBreak : List Char → List Char
  | '\n' :: r => r
  | r => r

/-- Reads a text of any kind, if one starts here. -/
def readText? (s : List Char) : Option (List Char × List Char) :=
  match s with
  | '"' :: '"' :: '"' :: r => readBasic? true (s.length + 1) (skipFirstBreak r)
  | '"' :: r => readBasic? false (s.length + 1) r
  | '\'' :: '\'' :: '\'' :: r => readLiteralLines? (skipFirstBreak r)
  | '\'' :: r => readLiteral? r
  | _ => none

/-- A character of a key without quotes. -/
def isKeyChar (c : Char) : Bool :=
  c.isAlphanum || c = '-' || c = '_'

/-- Reads one part of a key. -/
def readKeyPart? (s : List Char) : Option (List Char × List Char) :=
  match s with
  | '"' :: r => readBasic? false (s.length + 1) r
  | '\'' :: r => readLiteral? r
  | _ =>
    let part := s.takeWhile isKeyChar
    if part.isEmpty then none else some (part, s.dropWhile isKeyChar)

/-- Reads a key and the space behind it: parts with dots between them. -/
def readKey? (fuel : Nat) (s : List Char) : Option (List (List Char) × List Char) :=
  match fuel with
  | 0 => none
  | fuel + 1 => do
    let (part, r) ← readKeyPart? s
    match skipSpace r with
    | '.' :: r => do
      let (parts, rest) ← readKey? fuel (skipSpace r)
      some (part :: parts, rest)
    | rest => some ([part], rest)

end Toml
end Config
end MiniScriptLayout
