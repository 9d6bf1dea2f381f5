import MiniScriptLayout.Text.Quoted

/-!
UTF-8. `decode` reads bytes or says where the first ill-formed sequence stands, `decodeLossy` writes
a replacement character for each ill-formed sequence, and `encode` is the way back.
-/

namespace MiniScriptLayout
namespace Utf8

/-- Why bytes are no character. -/
inductive Cause where
  /-- No character starts with this byte. -/
  | startByte
  /-- The sequence goes on with a byte that cannot stand there. -/
  | continuationByte
  /-- The bytes end inside a character. -/
  | endOfData
  deriving DecidableEq, Repr

def Cause.message : Cause → String
  | startByte => "invalid start byte"
  | continuationByte => "invalid continuation byte"
  | endOfData => "unexpected end of data"

/-- An ill-formed sequence: its first byte, its place among all bytes, and its length. -/
structure Fault where
  byte : UInt8
  start : Nat
  length : Nat
  cause : Cause
  deriving DecidableEq, Repr

def Fault.message (f : Fault) : String :=
  let place :=
    if f.length = 1 then
      "byte 0x" ++ String.ofList (Text.hex 2 f.byte.toNat) ++ s!" in position {f.start}"
    else s!"bytes in position {f.start}-{f.start + f.length - 1}"
  "'utf-8' codec can't decode " ++ place ++ ": " ++ f.cause.message

/-- What a first byte promises: how many bytes follow, the range of the next one, and the bits that
the first byte gives. -/
structure Lead where
  tails : Nat
  low : Nat
  high : Nat
  bits : Nat
  deriving DecidableEq, Repr

def lead? (b : Nat) : Option Lead :=
  if b ≤ 0x7F then some ⟨0, 0x80, 0xBF, b⟩
  else if b < 0xC2 then none
  else if b ≤ 0xDF then some ⟨1, 0x80, 0xBF, b - 0xC0⟩
  else if b = 0xE0 then some ⟨2, 0xA0, 0xBF, 0⟩
  else if b = 0xED then some ⟨2, 0x80, 0x9F, 0xD⟩
  else if b ≤ 0xEF then some ⟨2, 0x80, 0xBF, b - 0xE0⟩
  else if b = 0xF0 then some ⟨3, 0x90, 0xBF, 0⟩
  else if b ≤ 0xF3 then some ⟨3, 0x80, 0xBF, b - 0xF0⟩
  else if b = 0xF4 then some ⟨3, 0x80, 0x8F, 4⟩
  else none

/-- A character, or the number of bytes that form none and why; and the bytes behind. -/
inductive Read where
  | char (c : Char) (rest : List UInt8)
  | ill (length : Nat) (cause : Cause) (rest : List UInt8)
  deriving DecidableEq, Repr

def Read.rest : Read → List UInt8
  | char _ rest => rest
  | ill _ _ rest => rest

/-- Reads the bytes that follow a first byte. `taken` bytes are read already. -/
def readTails (tails low high bits taken : Nat) (s : List UInt8) : Read :=
  match tails with
  | 0 => .char (Char.ofNat bits) s
  | tails + 1 =>
    match s with
    | [] => .ill taken .endOfData []
    | b :: r =>
      if low ≤ b.toNat ∧ b.toNat ≤ high then
        readTails tails 0x80 0xBF (64 * bits + (b.toNat - 0x80)) (taken + 1) r
      else .ill taken .continuationByte (b :: r)

/-- Reads one character. -/
def read (b : UInt8) (r : List UInt8) : Read :=
  match lead? b.toNat with
  | none => .ill 1 .startByte r
  | some l => readTails l.tails l.low l.high l.bits 1 r

theorem length_readTails_le (tails low high bits taken : Nat) (s : List UInt8) :
    (readTails tails low high bits taken s).rest.length ≤ s.length := by
  induction tails generalizing low high bits taken s with
  | zero => exact Nat.le_refl _
  | succ tails ih =>
      cases s with
      | nil => exact Nat.le_refl _
      | cons b r =>
          simp only [readTails]
          split
          · exact Nat.le_succ_of_le (ih ..)
          · exact Nat.le_refl _

theorem length_read_le (b : UInt8) (r : List UInt8) : (read b r).rest.length ≤ r.length := by
  unfold read
  split
  · exact Nat.le_refl _
  · exact length_readTails_le ..

/-- Decodes bytes that stand behind `start` others. -/
def decodeFrom (start : Nat) (s : List UInt8) : Except Fault (List Char) :=
  match s with
  | [] => .ok []
  | b :: r =>
    match _h : read b r with
    | .char c rest => (decodeFrom (start + (r.length + 1 - rest.length)) rest).map (c :: ·)
    | .ill length cause _ => .error ⟨b, start, length, cause⟩
termination_by s.length
decreasing_by
  have := length_read_le b r
  rw [_h] at this
  exact Nat.lt_succ_of_le this

def decode (s : List UInt8) : Except Fault (List Char) :=
  decodeFrom 0 s

/-- Decodes bytes, writing U+FFFD for each ill-formed sequence. -/
def decodeLossy (s : List UInt8) : List Char :=
  match s with
  | [] => []
  | b :: r =>
    match _h : read b r with
    | .char c rest => c :: decodeLossy rest
    | .ill _ _ rest => '\uFFFD' :: decodeLossy rest
termination_by s.length
decreasing_by
  all_goals
    have := length_read_le b r
    rw [_h] at this
    exact Nat.lt_succ_of_le this

def encodeChar (c : Char) : List UInt8 :=
  let n := c.toNat
  let tail (k : Nat) : UInt8 := UInt8.ofNat (0x80 + n / Nat.pow 64 k % 64)
  if n < 0x80 then [UInt8.ofNat n]
  else if n < 0x800 then [UInt8.ofNat (0xC0 + n / 64), tail 0]
  else if n < 0x10000 then [UInt8.ofNat (0xE0 + n / 4096), tail 1, tail 0]
  else [UInt8.ofNat (0xF0 + n / 262144), tail 2, tail 1, tail 0]

def encode (s : List Char) : List UInt8 :=
  s.flatMap encodeChar

end Utf8
end MiniScriptLayout
