/-
  Settled.Lib.Protobuf — the protocol buffers wire format, as far as records of numbers and
  byte strings use it.

  A message is a list of fields, each a key (number and wire type, as one varint) and a
  value: a varint, 4 or 8 bytes, or a length and so many bytes. A varint is base 128, the
  least digit first, the top bit set on all but the last byte, at most ten bytes. A
  writer leaves out fields at their default and writes the others by number; a reader
  takes them in any order, the last one wins, and goes past numbers it does not know.
  Groups (wire types 3 and 4) are refused.

  `readFields_encode`: a reader meets the fields that were written, in order. What a
  message is, is said by its user: the fields it writes, and how it takes one
  (`Message`).
-/

import Mathlib.Algebra.Group.Nat.Defs
import Mathlib.Data.List.Basic

namespace Settled.Lib

/-- A format: what is written can be read back. -/
structure Codec (α : Type) where
  encode : α → List UInt8
  decode : List UInt8 → Option α
  decode_encode : ∀ a, decode (encode a) = some a

namespace Protobuf

/-! ## Varints -/

def varintLoop : Nat → Nat → List UInt8
  | 0, _ => []
  | left + 1, n => if n < 128 then [UInt8.ofNat n] else UInt8.ofNat (n % 128 + 128) :: varintLoop left (n / 128)

def varint (n : UInt64) : List UInt8 := varintLoop 10 n.toNat

/-- At most `left` bytes; the last of ten has one bit. -/
def readVarintLoop : Nat → List UInt8 → Option (Nat × List UInt8)
  | 0, _ => none
  | _ + 1, [] => none
  | left + 1, b :: rest =>
    if b.toNat < 128 then if left = 0 ∧ 2 ≤ b.toNat then none else some (b.toNat, rest)
    else (readVarintLoop left rest).map fun r => (b.toNat - 128 + 128 * r.1, r.2)

def readVarint (bytes : List UInt8) : Option (UInt64 × List UInt8) :=
  (readVarintLoop 10 bytes).map fun r => (UInt64.ofNat r.1, r.2)

/-- `left + 1` bytes have room for `n`: seven bits each, and one in the last. -/
theorem readVarintLoop_varintLoop (rest : List UInt8) : ∀ {left n : Nat}, n < 2 * 128 ^ left →
    readVarintLoop (left + 1) (varintLoop (left + 1) n ++ rest) = some (n, rest) := by
  intro left
  induction left with
  | zero =>
    intro n hn
    have hbyte : (UInt8.ofNat n).toNat = n := by rw [UInt8.toNat_ofNat']; omega
    rw [varintLoop, if_pos (by omega), List.singleton_append, readVarintLoop, hbyte, if_pos (by omega), if_neg (by omega)]
  | succ left ih =>
    intro n hn
    rw [varintLoop]
    split
    next hlt =>
      have hbyte : (UInt8.ofNat n).toNat = n := by rw [UInt8.toNat_ofNat']; omega
      rw [List.singleton_append, readVarintLoop, hbyte, if_pos hlt, if_neg (by omega)]
    next hge =>
      have hbyte : (UInt8.ofNat (n % 128 + 128)).toNat = n % 128 + 128 := by rw [UInt8.toNat_ofNat']; omega
      have hdiv : n / 128 < 2 * 128 ^ left := by
        rw [Nat.pow_succ] at hn
        omega
      rw [List.cons_append, readVarintLoop, hbyte, if_neg (by omega), ih hdiv, Option.map_some]
      congr 2
      omega

theorem readVarint_varint (n : UInt64) (rest : List UInt8) : readVarint (varint n ++ rest) = some (n, rest) := by
  have hn : n.toNat < 2 * 128 ^ 9 := n.toNat_lt
  rw [readVarint, varint, readVarintLoop_varintLoop rest hn, Option.map_some, UInt64.ofNat_toNat]

/-! ## Fields -/

inductive Value where
  | varint (n : UInt64)
  | fixed64 (bytes : List UInt8)
  | bytes (bytes : List UInt8)
  | fixed32 (bytes : List UInt8)
  deriving DecidableEq

structure Field where
  number : Nat
  value : Value
  deriving DecidableEq

def Value.wireType : Value → Nat
  | varint _ => 0
  | fixed64 _ => 1
  | bytes _ => 2
  | fixed32 _ => 5

def Value.encode : Value → List UInt8
  | varint n => Protobuf.varint n
  | fixed64 b => b
  | bytes b => Protobuf.varint (UInt64.ofNat b.length) ++ b
  | fixed32 b => b

def Field.encode (f : Field) : List UInt8 := varint (UInt64.ofNat (8 * f.number + f.value.wireType)) ++ f.value.encode

/-- The first `n` bytes, if there are so many. -/
def readBytes (n : Nat) (bytes : List UInt8) : Option (List UInt8 × List UInt8) :=
  if bytes.length < n then none else some (bytes.take n, bytes.drop n)

def readValue (wireType : Nat) (bytes : List UInt8) : Option (Value × List UInt8) :=
  match wireType with
  | 0 => (readVarint bytes).map fun r => (.varint r.1, r.2)
  | 1 => (readBytes 8 bytes).map fun r => (.fixed64 r.1, r.2)
  | 2 => (readVarint bytes).bind fun n => (readBytes n.1.toNat n.2).map fun r => (.bytes r.1, r.2)
  | 5 => (readBytes 4 bytes).map fun r => (.fixed32 r.1, r.2)
  | _ => none

/-- A key has 32 bits, and its number is not 0. -/
def readField (bytes : List UInt8) : Option (Field × List UInt8) :=
  match readVarint bytes with
  | none => none
  | some (key, rest) =>
    if 2 ^ 32 ≤ key.toNat ∨ key.toNat / 8 = 0 then none
    else (readValue (key.toNat % 8) rest).map fun r => (⟨key.toNat / 8, r.1⟩, r.2)

/-- All fields of a message; a field has at least one byte, so `fuel` bytes have at most so
    many. -/
def readFieldsLoop : Nat → List UInt8 → Option (List Field)
  | _, [] => some []
  | 0, _ :: _ => none
  | fuel + 1, b :: rest =>
    match readField (b :: rest) with
    | none => none
    | some (f, rest) => (readFieldsLoop fuel rest).map (f :: ·)

def readFields (bytes : List UInt8) : Option (List Field) := readFieldsLoop bytes.length bytes

/-- The number has 29 bits, and the bytes are as many as the wire type has, or can be
    counted. -/
def Field.Fits (f : Field) : Prop :=
  0 < f.number ∧ f.number < 2 ^ 29 ∧
    match f.value with
    | .varint _ => True
    | .fixed64 b => b.length = 8
    | .bytes b => b.length < 2 ^ 64
    | .fixed32 b => b.length = 4

theorem readBytes_append (b rest : List UInt8) : readBytes b.length (b ++ rest) = some (b, rest) := by
  rw [readBytes, if_neg (by rw [List.length_append]; omega), List.take_left, List.drop_left]

theorem readValue_encode {f : Field} (h : f.Fits) (rest : List UInt8) :
    readValue f.value.wireType (f.value.encode ++ rest) = some (f.value, rest) := by
  obtain ⟨number, value⟩ := f
  obtain ⟨-, -, hv⟩ := h
  cases value with
  | varint n => simp [Value.wireType, Value.encode, readValue, readVarint_varint]
  | fixed64 b =>
    change b.length = 8 at hv
    simp only [Value.wireType, Value.encode, readValue]
    rw [← hv, readBytes_append, Option.map_some]
  | bytes b =>
    change b.length < 2 ^ 64 at hv
    have hlen : (UInt64.ofNat b.length).toNat = b.length := by
      rw [UInt64.toNat_ofNat']
      exact Nat.mod_eq_of_lt hv
    simp only [Value.wireType, Value.encode, readValue]
    rw [List.append_assoc, readVarint_varint, Option.bind_some, hlen, readBytes_append, Option.map_some]
  | fixed32 b =>
    change b.length = 4 at hv
    simp only [Value.wireType, Value.encode, readValue]
    rw [← hv, readBytes_append, Option.map_some]

theorem readField_encode {f : Field} (h : f.Fits) (rest : List UInt8) : readField (f.encode ++ rest) = some (f, rest) := by
  have hwt : f.value.wireType < 8 := by cases f.value <;> simp [Value.wireType]
  have hkey : (UInt64.ofNat (8 * f.number + f.value.wireType)).toNat = 8 * f.number + f.value.wireType := by
    rw [UInt64.toNat_ofNat']
    apply Nat.mod_eq_of_lt
    have := h.2.1
    omega
  have hnum : (8 * f.number + f.value.wireType) / 8 = f.number := by omega
  have hmod : (8 * f.number + f.value.wireType) % 8 = f.value.wireType := by omega
  have hin : ¬ (2 ^ 32 ≤ 8 * f.number + f.value.wireType ∨ f.number = 0) := by
    have := h.1
    have := h.2.1
    omega
  rw [Field.encode, List.append_assoc, readField, readVarint_varint]
  simp only [hkey, hnum, hmod, if_neg hin, readValue_encode h, Option.map_some]

theorem varint_ne_nil (n : UInt64) : varint n ≠ [] := by
  rw [varint, varintLoop]
  split <;> simp

theorem Field.encode_ne_nil (f : Field) : f.encode ≠ [] := by
  rw [Field.encode]
  exact List.append_ne_nil_of_left_ne_nil (varint_ne_nil _) _

theorem readFieldsLoop_encode : ∀ {fs : List Field} {fuel : Nat}, (∀ f ∈ fs, f.Fits) → fs.length ≤ fuel →
    readFieldsLoop fuel (fs.flatMap Field.encode) = some fs := by
  intro fs
  induction fs with
  | nil => intro fuel _ _; cases fuel <;> rfl
  | cons f fs ih =>
    intro fuel h hfuel
    obtain ⟨fuel, rfl⟩ : ∃ m, fuel = m + 1 := ⟨fuel - 1, by rw [List.length_cons] at hfuel; omega⟩
    have hf := readField_encode (h f List.mem_cons_self) (fs.flatMap Field.encode)
    rw [List.flatMap_cons]
    cases hb : f.encode ++ fs.flatMap Field.encode with
    | nil => exact absurd (List.append_eq_nil_iff.mp hb).1 f.encode_ne_nil
    | cons b rest =>
      rw [hb] at hf
      rw [readFieldsLoop, hf]
      have hlen : fs.length ≤ fuel := by
        rw [List.length_cons] at hfuel
        omega
      simp only [ih (fun g hg => h g (List.mem_cons_of_mem _ hg)) hlen, Option.map_some]

theorem length_le_encode : ∀ fs : List Field, fs.length ≤ (fs.flatMap Field.encode).length := by
  intro fs
  induction fs with
  | nil => exact Nat.le_refl _
  | cons f fs ih =>
    have := List.length_pos_iff.mpr f.encode_ne_nil
    rw [List.flatMap_cons, List.length_append, List.length_cons]
    omega

/-- A reader meets the fields that were written. -/
theorem readFields_encode {fs : List Field} (h : ∀ f ∈ fs, f.Fits) : readFields (fs.flatMap Field.encode) = some fs :=
  readFieldsLoop_encode h (length_le_encode fs)

/-! ## Messages -/

/-- A field that is left out at its default. -/
def uint64 (number : Nat) (v : UInt64) : List Field := if v = 0 then [] else [⟨number, .varint v⟩]

def int64 (number : Nat) (v : Int64) : List Field := uint64 number v.toUInt64

def uint32 (number : Nat) (v : UInt32) : List Field := uint64 number v.toUInt64

def bytes (number : Nat) (v : List UInt8) : List Field := if v = [] then [] else [⟨number, .bytes v⟩]

/-- A message type: its default, the fields it writes, and how it takes a field it reads
    (`none`: a field of its own in another wire type). -/
structure Message (α : Type) where
  default : α
  fields : α → List Field
  merge : α → Field → Option α

def Message.encode {α : Type} (m : Message α) (a : α) : List UInt8 := (m.fields a).flatMap Field.encode

def Message.decode {α : Type} (m : Message α) (b : List UInt8) : Option α :=
  (readFields b).bind fun fs => fs.foldlM m.merge m.default

/-- A message whose fields, taken in order, make it again. -/
def Message.codec {α : Type} (m : Message α) (hfits : ∀ a, ∀ f ∈ m.fields a, f.Fits)
    (hmerge : ∀ a, (m.fields a).foldlM m.merge m.default = some a) : Codec α where
  encode := m.encode
  decode := m.decode
  decode_encode a := by rw [Message.decode, Message.encode, readFields_encode (hfits a), Option.bind_some, hmerge]

section

variable {α : Type} {merge : α → Field → Option α}

/-- One field after another. -/
theorem foldlM_append_eq {fs gs : List Field} {a b c : α} (hf : fs.foldlM merge a = some b)
    (hg : gs.foldlM merge b = some c) : (fs ++ gs).foldlM merge a = some c := by
  rw [List.foldlM_append, hf]
  exact hg

theorem foldlM_uint64 {number : Nat} {v : UInt64} {a a' : α} (h0 : v = 0 → a = a')
    (h : merge a ⟨number, .varint v⟩ = some a') : (uint64 number v).foldlM merge a = some a' := by
  rw [uint64]
  split
  next hv => rw [List.foldlM_nil, h0 hv]; rfl
  next => rw [List.foldlM_cons, h]; rfl

theorem foldlM_bytes {number : Nat} {v : List UInt8} {a a' : α} (h0 : v = [] → a = a')
    (h : merge a ⟨number, .bytes v⟩ = some a') : (bytes number v).foldlM merge a = some a' := by
  rw [bytes]
  split
  next hv => rw [List.foldlM_nil, h0 hv]; rfl
  next => rw [List.foldlM_cons, h]; rfl

end

theorem fits_append {fs gs : List Field} (hf : ∀ f ∈ fs, f.Fits) (hg : ∀ f ∈ gs, f.Fits) : ∀ f ∈ fs ++ gs, f.Fits :=
  fun f hm => (List.mem_append.mp hm).elim (hf f) (hg f)

theorem fits_uint64 {number : Nat} {v : UInt64} (h : 0 < number ∧ number < 2 ^ 29) : ∀ f ∈ uint64 number v, f.Fits := by
  intro f hf
  rw [uint64] at hf
  split at hf
  · cases hf
  · rw [List.mem_singleton.mp hf]
    exact ⟨h.1, h.2, trivial⟩

theorem fits_bytes {number : Nat} {v : List UInt8} (h : 0 < number ∧ number < 2 ^ 29) (hv : v.length < 2 ^ 64) :
    ∀ f ∈ bytes number v, f.Fits := by
  intro f hf
  rw [bytes] at hf
  split at hf
  · cases hf
  · rw [List.mem_singleton.mp hf]
    exact ⟨h.1, h.2, hv⟩

end Protobuf

end Settled.Lib
