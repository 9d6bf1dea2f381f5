import MiniScriptLayout.Proofs.Text.Lines
import MiniScriptLayout.Text.Utf8

/-!
Decoding UTF-8 and encoding it again. A character that is read has the bytes that it was read from,
so that the encoded text is what was decoded.
-/

namespace MiniScriptLayout
namespace Utf8

variable {a b c d : UInt8} {n : Nat}

theorem toNat_ofNat (h : n.isValidChar) : (Char.ofNat n).toNat = n := by
  rw [Char.ofNat, dif_pos h]
  rfl

theorem ofNat_eq {k : Nat} (h : k = a.toNat) : UInt8.ofNat k = a := by
  rw [h, UInt8.ofNat_toNat]

/-- The byte follows another one in a sequence. -/
def IsTail (b : UInt8) : Prop :=
  0x80 ≤ b.toNat ∧ b.toNat ≤ 0xBF

theorem encodeChar_one (h : a.toNat ≤ 0x7F) : encodeChar (Char.ofNat a.toNat) = [a] := by
  have hn : (Char.ofNat a.toNat).toNat = a.toNat := toNat_ofNat (.inl (by omega))
  simp only [encodeChar, hn]
  rw [if_pos (by omega), ofNat_eq rfl]

theorem encodeChar_two (hlow : 0xC2 ≤ a.toNat) (hhigh : a.toNat ≤ 0xDF) (hb : IsTail b)
    (hn : n = 64 * (a.toNat - 0xC0) + (b.toNat - 0x80)) :
    encodeChar (Char.ofNat n) = [a, b] := by
  obtain ⟨hb₁, hb₂⟩ := hb
  have hc : (Char.ofNat n).toNat = n := toNat_ofNat (.inl (by omega))
  have hpow : Nat.pow 64 0 = 1 := rfl
  simp only [encodeChar, hc, hpow]
  rw [if_neg (by omega), if_pos (by omega), ofNat_eq (a := a) (by omega),
    ofNat_eq (a := b) (by omega)]

theorem encodeChar_three (hlow : 0xE0 ≤ a.toNat) (hhigh : a.toNat ≤ 0xEF) (hb : IsTail b)
    (hc : IsTail c) (hn : n = 64 * (64 * (a.toNat - 0xE0) + (b.toNat - 0x80)) + (c.toNat - 0x80))
    (hlong : 0x800 ≤ n) (hvalid : n.isValidChar) :
    encodeChar (Char.ofNat n) = [a, b, c] := by
  obtain ⟨hb₁, hb₂⟩ := hb
  obtain ⟨hc₁, hc₂⟩ := hc
  have hchar : (Char.ofNat n).toNat = n := toNat_ofNat hvalid
  have hpow : Nat.pow 64 0 = 1 ∧ Nat.pow 64 1 = 64 := ⟨rfl, rfl⟩
  simp only [encodeChar, hchar, hpow]
  rw [if_neg (by omega), if_neg (by omega), if_pos (by omega), ofNat_eq (a := a) (by omega),
    ofNat_eq (a := b) (by omega), ofNat_eq (a := c) (by omega)]

theorem encodeChar_four (hlow : 0xF0 ≤ a.toNat) (hhigh : a.toNat ≤ 0xF4) (hb : IsTail b)
    (hc : IsTail c) (hd : IsTail d)
    (hn : n = 64 * (64 * (64 * (a.toNat - 0xF0) + (b.toNat - 0x80)) + (c.toNat - 0x80)) +
      (d.toNat - 0x80))
    (hlong : 0x10000 ≤ n) (hvalid : n.isValidChar) :
    encodeChar (Char.ofNat n) = [a, b, c, d] := by
  obtain ⟨hb₁, hb₂⟩ := hb
  obtain ⟨hc₁, hc₂⟩ := hc
  obtain ⟨hd₁, hd₂⟩ := hd
  have hchar : (Char.ofNat n).toNat = n := toNat_ofNat hvalid
  have hpow : Nat.pow 64 0 = 1 ∧ Nat.pow 64 1 = 64 ∧ Nat.pow 64 2 = 4096 := ⟨rfl, rfl, rfl⟩
  simp only [encodeChar, hchar, hpow]
  rw [if_neg (by omega), if_neg (by omega), if_neg (by omega), ofNat_eq (a := a) (by omega),
    ofNat_eq (a := b) (by omega), ofNat_eq (a := c) (by omega), ofNat_eq (a := d) (by omega)]

theorem readTails_eq_char {tails low high bits taken : Nat} {s rest : List UInt8} {ch : Char}
    (h : readTails (tails + 1) low high bits taken s = .char ch rest) :
    ∃ b r, s = b :: r ∧ (low ≤ b.toNat ∧ b.toNat ≤ high) ∧
      readTails tails 0x80 0xBF (64 * bits + (b.toNat - 0x80)) (taken + 1) r = .char ch rest := by
  cases s with
  | nil => cases h
  | cons b r =>
      rw [readTails] at h
      split at h
      · rename_i hb
        exact ⟨b, r, rfl, hb, h⟩
      · cases h

theorem lead?_eq_some {k : Nat} {l : Lead} (h : lead? k = some l) :
    k ≤ 0x7F ∧ l = ⟨0, 0x80, 0xBF, k⟩ ∨
      (0xC2 ≤ k ∧ k ≤ 0xDF) ∧ l = ⟨1, 0x80, 0xBF, k - 0xC0⟩ ∨
      (0xE0 ≤ k ∧ k ≤ 0xEF) ∧ l.tails = 2 ∧ l.bits = k - 0xE0 ∧ 0x80 ≤ l.low ∧ l.high ≤ 0xBF ∧
        (k = 0xE0 → 0xA0 ≤ l.low) ∧ (k = 0xED → l.high ≤ 0x9F) ∨
      (0xF0 ≤ k ∧ k ≤ 0xF4) ∧ l.tails = 3 ∧ l.bits = k - 0xF0 ∧ 0x80 ≤ l.low ∧ l.high ≤ 0xBF ∧
        (k = 0xF0 → 0x90 ≤ l.low) ∧ (k = 0xF4 → l.high ≤ 0x8F) := by
  unfold lead? at h
  split_ifs at h <;> simp only [Option.some.injEq] at h <;> subst h <;>
    simp <;> omega

/-- A character is read from its own bytes. -/
theorem read_eq_char {r rest : List UInt8} {ch : Char} (h : read a r = .char ch rest) :
    a :: r = encodeChar ch ++ rest := by
  unfold read at h
  split at h
  · cases h
  · rename_i l hl
    rcases lead?_eq_some hl with ⟨ha, rfl⟩ | ⟨⟨ha₁, ha₂⟩, rfl⟩ |
      ⟨⟨ha₁, ha₂⟩, htails, hbits, hlow, hhigh, hfirst, hlast⟩ |
      ⟨⟨ha₁, ha₂⟩, htails, hbits, hlow, hhigh, hfirst, hlast⟩
    · rw [readTails, Read.char.injEq] at h
      obtain ⟨rfl, rfl⟩ := h
      rw [encodeChar_one ha]
      rfl
    · obtain ⟨b, r, rfl, hb, h⟩ := readTails_eq_char h
      rw [readTails, Read.char.injEq] at h
      obtain ⟨rfl, rfl⟩ := h
      rw [encodeChar_two ha₁ ha₂ hb rfl]
      rfl
    · rw [htails] at h
      obtain ⟨b, r, rfl, ⟨hb₁, hb₂⟩, h⟩ := readTails_eq_char h
      obtain ⟨c, r, rfl, hc, h⟩ := readTails_eq_char h
      rw [readTails, Read.char.injEq] at h
      obtain ⟨rfl, rfl⟩ := h
      rw [hbits, encodeChar_three ha₁ ha₂ ⟨by omega, by omega⟩ hc rfl]
      · rfl
      · obtain ⟨hc₁, hc₂⟩ := hc
        omega
      · obtain ⟨hc₁, hc₂⟩ := hc
        rw [Nat.isValidChar]
        omega
    · rw [htails] at h
      obtain ⟨b, r, rfl, ⟨hb₁, hb₂⟩, h⟩ := readTails_eq_char h
      obtain ⟨c, r, rfl, hc, h⟩ := readTails_eq_char h
      obtain ⟨d, r, rfl, hd, h⟩ := readTails_eq_char h
      rw [readTails, Read.char.injEq] at h
      obtain ⟨rfl, rfl⟩ := h
      rw [hbits, encodeChar_four ha₁ ha₂ ⟨by omega, by omega⟩ hc hd rfl]
      · rfl
      · obtain ⟨hc₁, hc₂⟩ := hc
        obtain ⟨hd₁, hd₂⟩ := hd
        omega
      · obtain ⟨hc₁, hc₂⟩ := hc
        obtain ⟨hd₁, hd₂⟩ := hd
        rw [Nat.isValidChar]
        omega

theorem encode_cons (ch : Char) (s : List Char) : encode (ch :: s) = encodeChar ch ++ encode s :=
  rfl

/-- Encoding is the way back from decoding. -/
theorem encode_of_decode {s : List UInt8} {text : List Char} (h : decode s = .ok text) :
    encode text = s := by
  suffices from_start : ∀ start, decodeFrom start s = .ok text → encode text = s from
    from_start 0 h
  clear h
  intro start h
  induction start, s using decodeFrom.induct generalizing text with
  | case1 start =>
      rw [decodeFrom] at h
      cases h
      rfl
  | case2 start b r ch rest hread ih =>
      rw [decodeFrom] at h
      split at h
      · rename_i ch' rest' hread'
        rw [hread] at hread'
        cases hread'
        cases htail : decodeFrom (start + (r.length + 1 - rest.length)) rest with
        | error fault => rw [htail] at h; cases h
        | ok tail =>
            rw [htail] at h
            cases h
            rw [encode_cons, ih htail, read_eq_char hread]
      · rename_i hread'
        rw [hread] at hread'
        cases hread'
  | case3 start b r length cause rest hread =>
      rw [decodeFrom] at h
      split at h
      · rename_i hread'
        rw [hread] at hread'
        cases hread'
      · cases h

/-- Bytes below 128 stand for the characters of their numbers alone. -/
theorem mem_encodeChar {ch : Char} (ha : a.toNat < 0x80) (h : a ∈ encodeChar ch) :
    a.toNat = ch.toNat := by
  have hch : ch.toNat < 0x110000 := by
    rcases ch.valid with h | h
    · exact Nat.lt_trans h (by decide)
    · exact h.2
  have hnot : ∀ k, 0x80 ≤ k → k < 0x100 → a ≠ UInt8.ofNat k := by
    rintro k hlow hhigh rfl
    rw [UInt8.toNat_ofNat_of_lt' hhigh] at ha
    omega
  have htail : ∀ k, a ≠ UInt8.ofNat (0x80 + k % 64) := fun k =>
    hnot _ (by omega) (by omega)
  unfold encodeChar at h
  simp only at h
  split_ifs at h with h₁ h₂ h₃
  · rw [List.mem_singleton] at h
    rw [h, UInt8.toNat_ofNat_of_lt' (show _ < 0x100 by omega)]
  · simp only [List.mem_cons, List.not_mem_nil, or_false, htail] at h
    exact absurd h (hnot _ (by omega) (by omega))
  · simp only [List.mem_cons, List.not_mem_nil, or_false, htail] at h
    exact absurd h (hnot _ (by omega) (by omega))
  · simp only [List.mem_cons, List.not_mem_nil, or_false, htail] at h
    exact absurd h (hnot _ (by omega) (by omega))

theorem mem_encode_return {s : List Char} : 0x0D ∈ encode s ↔ '\r' ∈ s := by
  constructor
  · intro h
    obtain ⟨ch, hch, hmem⟩ := List.mem_flatMap.1 h
    have heq : (0x0D : UInt8).toNat = ch.toNat := mem_encodeChar (by decide) hmem
    have : '\r' = ch := Char.toNat_inj.1 heq
    rwa [this]
  · intro h
    exact List.mem_flatMap.2 ⟨'\r', h, by decide⟩

/-- The bytes of a text that is decoded are those of its lines with line feeds exactly if no
carriage return is in it. -/
theorem encode_toLineFeeds {bytes : List UInt8} {text : List Char} (h : decode bytes = .ok text) :
    encode (Text.toLineFeeds text) = bytes ↔ '\r' ∉ text := by
  rw [← encode_of_decode h]
  constructor
  · intro heq hmem
    rw [← mem_encode_return, ← heq, mem_encode_return] at hmem
    exact Text.not_mem_toLineFeeds text hmem
  · intro hnot
    rw [Text.toLineFeeds_of_not_mem hnot]

end Utf8
end MiniScriptLayout
