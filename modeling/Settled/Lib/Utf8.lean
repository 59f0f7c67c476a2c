/-
  Settled.Lib.Utf8 — text and bytes: the UTF-8 encoder and the decoder that does not fail
  (WHATWG, "replacement" mode).

  Text is a list of Unicode scalar values. The decoder reads a byte at a time; a byte that
  cannot start or continue a sequence, and a sequence that the bytes end in, give U+FFFD,
  and a byte that cannot continue one is read again as the first of the next. No byte
  order mark is removed. `decode_encode`: it reads back what was encoded; so bytes come
  back from decoding and encoding exactly if they are well formed (`encode_decode_iff`).
-/

import Mathlib.Data.UInt

namespace Settled.Lib.Utf8

def replacement : Char := '\uFFFD'

def encode (text : List Char) : List UInt8 := text.flatMap String.utf8EncodeChar

/-- A sequence begun: its code point so far, how many bytes are still to come, and the
    bounds for the next one. -/
structure Pending where
  codePoint : Nat
  needed : Nat
  lower : Nat
  upper : Nat

/-- A byte between sequences: what it gives, and the sequence it begins. -/
def start (b : Nat) : List Char × Option Pending :=
  if b ≤ 0x7F then ([Char.ofNat b], none)
  else if 0xC2 ≤ b ∧ b ≤ 0xDF then ([], some ⟨b % 0x20, 1, 0x80, 0xBF⟩)
  else if 0xE0 ≤ b ∧ b ≤ 0xEF then
    ([], some ⟨b % 0x10, 2, if b = 0xE0 then 0xA0 else 0x80, if b = 0xED then 0x9F else 0xBF⟩)
  else if 0xF0 ≤ b ∧ b ≤ 0xF4 then
    ([], some ⟨b % 0x08, 3, if b = 0xF0 then 0x90 else 0x80, if b = 0xF4 then 0x8F else 0xBF⟩)
  else ([replacement], none)

def decodeFrom : Option Pending → List UInt8 → List Char
  | none, [] => []
  | some _, [] => [replacement]
  | none, b :: bytes => (start b.toNat).1 ++ decodeFrom (start b.toNat).2 bytes
  | some p, b :: bytes =>
    if p.lower ≤ b.toNat ∧ b.toNat ≤ p.upper then
      let codePoint := p.codePoint * 0x40 + b.toNat % 0x40
      if p.needed = 1 then Char.ofNat codePoint :: decodeFrom none bytes
      else decodeFrom (some ⟨codePoint, p.needed - 1, 0x80, 0xBF⟩) bytes
    else replacement :: ((start b.toNat).1 ++ decodeFrom (start b.toNat).2 bytes)

def decode (bytes : List UInt8) : List Char := decodeFrom none bytes

def WellFormed (bytes : List UInt8) : Prop := ∃ text, bytes = encode text

/-! ## One character -/

section

variable {b : Nat} {bytes : List UInt8}

theorem decodeFrom_start (hb : b < 256) : decodeFrom none (UInt8.ofNat b :: bytes) =
    (start b).1 ++ decodeFrom (start b).2 bytes := by
  rw [decodeFrom, UInt8.toNat_ofNat_of_lt' hb]

/-- A byte that continues a sequence, with more to come. -/
theorem decodeFrom_more {p : Pending} (hb : b < 256) (h : p.lower ≤ b ∧ b ≤ p.upper) (hn : p.needed ≠ 1) :
    decodeFrom (some p) (UInt8.ofNat b :: bytes) =
      decodeFrom (some ⟨p.codePoint * 0x40 + b % 0x40, p.needed - 1, 0x80, 0xBF⟩) bytes := by
  rw [decodeFrom, UInt8.toNat_ofNat_of_lt' hb, if_pos h]
  dsimp only
  rw [if_neg hn]

/-- The last byte of a sequence. -/
theorem decodeFrom_last {p : Pending} (hb : b < 256) (h : p.lower ≤ b ∧ b ≤ p.upper) (hn : p.needed = 1) :
    decodeFrom (some p) (UInt8.ofNat b :: bytes) = Char.ofNat (p.codePoint * 0x40 + b % 0x40) :: decodeFrom none bytes := by
  rw [decodeFrom, UInt8.toNat_ofNat_of_lt' hb, if_pos h]
  dsimp only
  rw [if_pos hn]

theorem start_two (h : 0xC2 ≤ b ∧ b ≤ 0xDF) : start b = ([], some ⟨b % 0x20, 1, 0x80, 0xBF⟩) := by
  rw [start, if_neg (by omega), if_pos h]

theorem start_three (h : 0xE0 ≤ b ∧ b ≤ 0xEF) :
    start b = ([], some ⟨b % 0x10, 2, if b = 0xE0 then 0xA0 else 0x80, if b = 0xED then 0x9F else 0xBF⟩) := by
  rw [start, if_neg (by omega), if_neg (by omega), if_pos h]

theorem start_four (h : 0xF0 ≤ b ∧ b ≤ 0xF4) :
    start b = ([], some ⟨b % 0x08, 3, if b = 0xF0 then 0x90 else 0x80, if b = 0xF4 then 0x8F else 0xBF⟩) := by
  rw [start, if_neg (by omega), if_neg (by omega), if_neg (by omega), if_pos h]

theorem decode_one {v : Nat} (h : v ≤ 0x7F) : decodeFrom none (UInt8.ofNat v :: bytes) = Char.ofNat v :: decodeFrom none bytes := by
  rw [decodeFrom_start (by omega), start, if_pos h]
  rfl

theorem decode_two {v : Nat} (h : 0x7F < v ∧ v ≤ 0x7FF) :
    decodeFrom none (UInt8.ofNat (v / 64 % 0x20 + 0xC0) :: UInt8.ofNat (v % 0x40 + 0x80) :: bytes) =
      Char.ofNat v :: decodeFrom none bytes := by
  rw [decodeFrom_start (by omega), start_two (by omega), List.nil_append,
    decodeFrom_last (by omega) (by dsimp only; omega) rfl]
  dsimp only
  rw [show (v / 64 % 32 + 192) % 32 * 64 + (v % 64 + 128) % 64 = v by omega]

/-- The bounds on the second byte leave out shorter forms and surrogates. -/
theorem decode_three {v : Nat} (h : 0x7FF < v ∧ v ≤ 0xFFFF) (hs : v < 0xD800 ∨ 0xDFFF < v) :
    decodeFrom none (UInt8.ofNat (v / 4096 % 0x10 + 0xE0) :: UInt8.ofNat (v / 64 % 0x40 + 0x80) ::
        UInt8.ofNat (v % 0x40 + 0x80) :: bytes) = Char.ofNat v :: decodeFrom none bytes := by
  rw [decodeFrom_start (by omega), start_three (by omega), List.nil_append,
    decodeFrom_more (by omega) (by dsimp only; split <;> split <;> omega) (by dsimp only; omega),
    decodeFrom_last (by omega) (by dsimp only; omega) rfl]
  dsimp only
  rw [show ((v / 4096 % 16 + 224) % 16 * 64 + (v / 64 % 64 + 128) % 64) * 64 + (v % 64 + 128) % 64 = v by omega]

theorem decode_four {v : Nat} (h : 0xFFFF < v ∧ v < 0x110000) :
    decodeFrom none (UInt8.ofNat (v / 262144 % 0x08 + 0xF0) :: UInt8.ofNat (v / 4096 % 0x40 + 0x80) ::
        UInt8.ofNat (v / 64 % 0x40 + 0x80) :: UInt8.ofNat (v % 0x40 + 0x80) :: bytes) =
      Char.ofNat v :: decodeFrom none bytes := by
  rw [decodeFrom_start (by omega), start_four (by omega), List.nil_append,
    decodeFrom_more (by omega) (by dsimp only; split <;> split <;> omega) (by dsimp only; omega),
    decodeFrom_more (by omega) (by dsimp only; omega) (by dsimp only; omega),
    decodeFrom_last (by omega) (by dsimp only; omega) rfl]
  dsimp only
  rw [show (((v / 262144 % 8 + 240) % 8 * 64 + (v / 4096 % 64 + 128) % 64) * 64 + (v / 64 % 64 + 128) % 64) * 64 +
    (v % 64 + 128) % 64 = v by omega]

end

theorem decode_char (c : Char) (bytes : List UInt8) :
    decodeFrom none (String.utf8EncodeChar c ++ bytes) = c :: decodeFrom none bytes := by
  have hvalid : c.val.toNat < 0xD800 ∨ 0xDFFF < c.val.toNat ∧ c.val.toNat < 0x110000 := c.valid
  have hchar : Char.ofNat c.val.toNat = c := Char.ofNat_toNat c
  conv_rhs => rw [← hchar]
  unfold String.utf8EncodeChar
  generalize c.val.toNat = v at hvalid
  dsimp only
  split
  next h1 => exact decode_one h1
  next h1 =>
    split
    next h2 => exact decode_two (by omega)
    next h2 =>
      split
      next h3 => exact decode_three (by omega) (by omega)
      next h3 => exact decode_four (by omega)

/-! ## Round trips -/

theorem decode_encode (text : List Char) : decode (encode text) = text := by
  induction text with
  | nil => rfl
  | cons c text ih =>
    rw [decode, encode, List.flatMap_cons, decode_char]
    exact congrArg (c :: ·) ih

/-- Bytes come back from decoding and encoding exactly if they are well formed. -/
theorem encode_decode_iff (bytes : List UInt8) : encode (decode bytes) = bytes ↔ WellFormed bytes := by
  constructor
  · intro h
    exact ⟨decode bytes, h.symm⟩
  · intro ⟨text, h⟩
    rw [h, decode_encode]

end Settled.Lib.Utf8
