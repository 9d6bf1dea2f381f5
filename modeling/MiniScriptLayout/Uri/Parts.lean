import MiniScriptLayout.Text.Case
import MiniScriptLayout.Uri.Host

/-!
The parts of a URI, as they are written: the scheme in front of a colon, the authority behind two
slashes and the path. Query and fragment lead to nothing in a file tree and are left out.
-/

namespace MiniScriptLayout
namespace Uri

structure Parts where
  scheme : List Char
  authority : List Char
  path : List Char
  deriving DecidableEq, Repr

def isLetter (c : Char) : Bool :=
  ('a' ≤ c && c ≤ 'z') || ('A' ≤ c && c ≤ 'Z')

def isSchemeChar (c : Char) : Bool :=
  isLetter c || Text.isAsciiDigit c || c == '+' || c == '-' || c == '.'

/-- Drops control characters and spaces in front, and tabs and line breaks everywhere. -/
def clean (s : List Char) : List Char :=
  (s.dropWhile fun c => c.toNat ≤ 0x20).filter fun c => c != '\t' && c != '\n' && c != '\r'

/-- Cuts off the scheme, which begins with a letter and is written small. -/
def cutScheme (s : List Char) : List Char × List Char :=
  match s.takeWhile (· ≠ ':'), s.dropWhile (· ≠ ':') with
  | c :: name, _ :: r =>
    if isLetter c && name.all isSchemeChar then (Text.toLower (c :: name), r) else ([], s)
  | _, _ => ([], s)

/-- The authority ends where path, query or fragment begin. -/
def endsAuthority (c : Char) : Bool :=
  c == '/' || c == '?' || c == '#'

def cutAuthority (s : List Char) : List Char × List Char :=
  match Text.strip? ['/', '/'] s with
  | some r => (r.takeWhile (!endsAuthority ·), r.dropWhile (!endsAuthority ·))
  | none => ([], s)

/-- Compatibility forms of the characters that divide a URI. An authority with one of them could be
taken for something else. -/
def isLookalike (c : Char) : Bool :=
  let n := c.toNat
  (0x2047 ≤ n && n ≤ 0x2049) || n == 0x2100 || n == 0x2101 || n == 0x2105 || n == 0x2106 ||
    n == 0x2A74 || n == 0xFE13 || n == 0xFE16 || n == 0xFE55 || n == 0xFE56 || n == 0xFE5F ||
    n == 0xFE6B || n == 0xFF03 || n == 0xFF0F || n == 0xFF1A || n == 0xFF1F || n == 0xFF20

/-- Brackets of an authority come in pairs and hold a host. -/
def isAuthority (s : List Char) : Bool :=
  !s.any isLookalike &&
    if s.contains '[' || s.contains ']' then
      s.contains '[' && s.contains ']' &&
        isHost (((s.dropWhile (· ≠ '[')).drop 1).takeWhile (· ≠ ']'))
    else true

/-- The schemes whose last path segment may have parameters behind a semicolon. -/
def parameterSchemes : List String :=
  ["", "ftp", "hdl", "prospero", "http", "https", "shttp", "rtsp", "rtspu", "sip", "sips", "mms",
    "sftp", "tel"]

/-- Cuts off the parameters of the last segment. -/
def dropParameters (s : List Char) : List Char :=
  let segment := (s.reverse.takeWhile (· ≠ '/')).reverse
  s.take (s.length - segment.length) ++ segment.takeWhile (· ≠ ';')

/-- Takes a URI apart. -/
def parts? (uri : List Char) : Option Parts :=
  let (scheme, r) := cutScheme (clean uri)
  let (authority, r) := cutAuthority r
  let path := r.takeWhile fun c => c != '?' && c != '#'
  let hasParameters := parameterSchemes.contains (String.ofList scheme)
  if isAuthority authority then
    some ⟨scheme, authority, if hasParameters then dropParameters path else path⟩
  else none

end Uri
end MiniScriptLayout
