/-
  Settled.Sdk.SigningPayload — the bytes a tree head's signature is over, as the SDKs with
  untyped roots build them: TypeScript (`signingPayload` in `verifier.ts`), Java
  (`signingPayload` in `Verifier.java`), .NET (`SigningPayload` in `Verifier.cs`) and
  Python (`signing_payload` in `verifier.py`).

  The root comes from the wire with any length. Node's `copy` writes what fits into the
  buffer, and the timestamp is written over what goes past its place; .NET copies into a
  span of 32 bytes and throws if there are more; Java puts one field after the other and
  throws if they do not fit. A shorter root leaves zeros behind it: in its place
  (TypeScript, .NET) or, the timestamp moved up, at the end (Java). Python concatenates.

  So a payload of Python's that settled-core would have signed has the root in it
  (`Binds`), and in the other three exactly if the root has 32 bytes
  (`signing_payload_binds_iff`). Of any other length, what they build is the payload of a
  tree head with another root (`short_root_signed`).
-/

import Mathlib.Algebra.Order.Ring.Int
import Settled.Storage.Keys

namespace Settled.Sdk

open Settled.Lib Settled.Core Settled.Storage

/-! ## Buffers -/

/-- `bs` written into a buffer from `off` on. -/
def overwrite (buf : Bytes) (off : Nat) (bs : Bytes) : Bytes := buf.take off ++ bs ++ buf.drop (off + bs.length)

def zeros (n : Nat) : Bytes := List.replicate n 0

namespace TypeScript

/-- Throws a `RangeError` for a value that is no `u64`. -/
def writeBigUInt64BE (buf : Bytes) (value : Int) (off : Nat) : Option Bytes :=
  if 0 ≤ value ∧ value < 2 ^ 64 then some (overwrite buf off (toBeBytes 8 value)) else none

/-- Throws a `RangeError` for a value that is no `i64`. -/
def writeBigInt64BE (buf : Bytes) (value : Int) (off : Nat) : Option Bytes :=
  if -2 ^ 63 ≤ value ∧ value < 2 ^ 63 then some (overwrite buf off (toBeBytes 8 value)) else none

/-- `source.copy(target, targetStart)`: as much as fits. -/
def copy (source target : Bytes) (targetStart : Nat) : Bytes :=
  overwrite target targetStart (source.take (target.length - targetStart))

def signingPayload (treeSize : Int) (rootHash : Bytes) (timestampNs : Int) : Option Bytes := do
  let buf ← writeBigUInt64BE (zeros 48) treeSize 0
  let buf := copy rootHash buf 8
  writeBigInt64BE buf timestampNs 40

end TypeScript

namespace Java

structure ByteBuffer where
  array : Bytes
  position : Nat

def ByteBuffer.allocate (capacity : Nat) : ByteBuffer := ⟨zeros capacity, 0⟩

/-- Throws a `BufferOverflowException` where the bytes do not fit. -/
def ByteBuffer.put (buf : ByteBuffer) (bs : Bytes) : Option ByteBuffer :=
  if buf.array.length < buf.position + bs.length then none
  else some ⟨overwrite buf.array buf.position bs, buf.position + bs.length⟩

def ByteBuffer.putLong (buf : ByteBuffer) (value : BitVec 64) : Option ByteBuffer := buf.put (toBeBytes 8 value.toInt)

def signingPayload (treeSize : BitVec 64) (rootHash : Bytes) (timestampNs : BitVec 64) : Option Bytes := do
  let buf ← (ByteBuffer.allocate 48).putLong treeSize
  let buf ← buf.put rootHash
  let buf ← buf.putLong timestampNs
  some buf.array

end Java

namespace Dotnet

/-- `source.AsSpan().CopyTo(buf.AsSpan(off, length))`: throws if the source is longer. -/
def copyTo (source buf : Bytes) (off length : Nat) : Option Bytes :=
  if length < source.length then none else some (overwrite buf off source)

def signingPayload (treeSize : BitVec 64) (rootHash : Bytes) (timestampNs : BitVec 64) : Option Bytes := do
  let buf := overwrite (zeros 48) 0 (toBeBytes 8 treeSize.toNat)
  let buf ← copyTo rootHash buf 8 32
  some (overwrite buf 40 (toBeBytes 8 timestampNs.toInt))

end Dotnet

namespace Python

/-- `struct.pack(">Q", value)`, an error outside `u64`. -/
def packQ (value : Int) : Option Bytes := if 0 ≤ value ∧ value < 2 ^ 64 then some (toBeBytes 8 value) else none

/-- `struct.pack(">q", value)`, an error outside `i64`. -/
def packq (value : Int) : Option Bytes := if -2 ^ 63 ≤ value ∧ value < 2 ^ 63 then some (toBeBytes 8 value) else none

def signingPayload (treeSize : Int) (rootHash : Bytes) (timestampNs : Int) : Option Bytes := do
  let size ← packQ treeSize
  let timestamp ← packq timestampNs
  some (size ++ rootHash ++ timestamp)

end Python

/-! ## Numbers as bytes -/

/-- Numbers less than `256^w` apart have different bytes. -/
theorem toBeBytes_inj : ∀ {w : Nat} {x y : Int}, x - y < 256 ^ w → y - x < 256 ^ w → toBeBytes w x = toBeBytes w y → x = y := by
  intro w
  induction w with
  | zero => intro x y h1 h2 _; simp only [pow_zero] at h1 h2; omega
  | succ w ih =>
    intro x y h1 h2 h
    rw [pow_succ] at h1 h2
    rw [toBeBytes, toBeBytes] at h
    obtain ⟨hinit, hlast⟩ := List.append_inj' h rfl
    have hbyte : (UInt8.ofNat (x % 256).toNat).toNat = (UInt8.ofNat (y % 256).toNat).toNat := by
      rw [(List.cons.inj hlast).1]
    rw [UInt8.toNat_ofNat_of_lt' (by simp; omega), UInt8.toNat_ofNat_of_lt' (by simp; omega)] at hbyte
    have hdiv := ih (x := x / 256) (y := y / 256) (by omega) (by omega) hinit
    omega

theorem toBeBytes_sub_pow : ∀ (w : Nat) (x : Int), toBeBytes w (x - 256 ^ w) = toBeBytes w x := by
  intro w
  induction w with
  | zero => intro x; rfl
  | succ w ih =>
    intro x
    have hdiv : (x - 256 ^ (w + 1)) / 256 = x / 256 - 256 ^ w := by rw [pow_succ]; omega
    have hmod : (x - 256 ^ (w + 1)) % 256 = x % 256 := by rw [pow_succ]; omega
    rw [toBeBytes, toBeBytes, hdiv, hmod, ih]

theorem toBeBytes_surj : ∀ {w : Nat} {bs : Bytes}, bs.length = w → ∃ x : Int, 0 ≤ x ∧ x < 256 ^ w ∧ toBeBytes w x = bs := by
  intro w
  induction w with
  | zero =>
    intro bs h
    rw [List.length_eq_zero_iff.mp h]
    exact ⟨0, by decide, by decide, rfl⟩
  | succ w ih =>
    intro bs h
    rcases List.eq_nil_or_concat bs with rfl | ⟨init, b, rfl⟩
    · cases h
    · rw [List.concat_eq_append, List.length_append, List.length_singleton, Nat.succ_inj] at h
      obtain ⟨x, h0, hlt, hx⟩ := ih h
      have hb : b.toNat < 256 := b.toNat_lt
      refine ⟨256 * x + b.toNat, by omega, by rw [pow_succ]; omega, ?_⟩
      rw [toBeBytes, show (256 * x + (b.toNat : Int)) / 256 = x by omega,
        show ((256 * x + (b.toNat : Int)) % 256).toNat = b.toNat by omega, hx, UInt8.ofNat_toNat, List.concat_eq_append]

/-- `long`s as bytes, read without their sign. -/
theorem toBeBytes_toInt (x : BitVec 64) : toBeBytes 8 x.toInt = toBeBytes 8 x.toNat := by
  rw [BitVec.toInt_eq_toNat_cond]
  split
  · rfl
  · exact toBeBytes_sub_pow 8 x.toNat

/-! ## What the builders build -/

theorem zeros_add (a b : Nat) : zeros (a + b) = zeros a ++ zeros b := List.replicate_add ..

@[simp] theorem length_zeros (n : Nat) : (zeros n).length = n := List.length_replicate

theorem overwrite_between (before mid after bs : Bytes) {off : Nat} (hoff : before.length = off) (hmid : mid.length = bs.length) :
    overwrite (before ++ (mid ++ after)) off bs = before ++ (bs ++ after) := by
  subst hoff
  rw [overwrite, List.take_left', List.append_assoc, List.drop_append, List.drop_eq_nil_of_le (by omega), List.nil_append,
    Nat.add_sub_cancel_left, ← hmid, List.drop_left]
  rfl

/-- A root in its place of 32 bytes: cut, or followed by zeros. -/
def fit (rootHash : Bytes) : Bytes := rootHash.take 32 ++ zeros (32 - rootHash.length)

theorem length_fit (rootHash : Bytes) : (fit rootHash).length = 32 := by
  rw [fit, List.length_append, List.length_take, length_zeros]
  omega

theorem fit_eq_self {rootHash : Bytes} (h : rootHash.length = 32) : fit rootHash = rootHash := by
  rw [fit, h, List.take_of_length_le (Nat.le_of_eq h), zeros, List.replicate_zero, List.append_nil]

/-- Eight bytes for the size, the root, eight for the timestamp. -/
def framed (treeSize : Int) (rootHash : Bytes) (timestampNs : Int) : Bytes :=
  toBeBytes 8 treeSize ++ (rootHash ++ toBeBytes 8 timestampNs)

/-- A buffer with the size written, and one with the root and the timestamp written too. -/
theorem overwrite_size (treeSize : Int) : overwrite (zeros 48) 0 (toBeBytes 8 treeSize) = toBeBytes 8 treeSize ++ zeros 40 :=
  overwrite_between [] (zeros 8) (zeros 40) _ rfl (by rw [length_toBeBytes, length_zeros])

theorem overwrite_root (treeSize : Int) {rootHash : Bytes} (h : rootHash.length ≤ 40) :
    overwrite (toBeBytes 8 treeSize ++ zeros 40) 8 rootHash =
      toBeBytes 8 treeSize ++ (rootHash ++ zeros (40 - rootHash.length)) := by
  have hzeros : zeros 40 = zeros rootHash.length ++ zeros (40 - rootHash.length) := by
    rw [← zeros_add, Nat.add_sub_cancel' h]
  rw [hzeros]
  exact overwrite_between _ _ _ _ (length_toBeBytes 8 treeSize) (length_zeros _)

theorem overwrite_timestamp (treeSize timestampNs : Int) {rootHash : Bytes} (h : rootHash.length ≤ 40) :
    overwrite (toBeBytes 8 treeSize ++ (rootHash ++ zeros (40 - rootHash.length))) 40 (toBeBytes 8 timestampNs) =
      framed treeSize (fit rootHash) timestampNs := by
  have hfit : (rootHash ++ zeros (40 - rootHash.length)).take 32 = fit rootHash := by
    rw [List.take_append, fit, zeros, List.take_replicate, zeros]
    congr 2
    omega
  have hlen : (rootHash ++ zeros (40 - rootHash.length)).length = 40 := by
    rw [List.length_append, length_zeros]
    omega
  have hsplit : toBeBytes 8 treeSize ++ (rootHash ++ zeros (40 - rootHash.length)) =
      (toBeBytes 8 treeSize ++ fit rootHash) ++ ((rootHash ++ zeros (40 - rootHash.length)).drop 32 ++ []) := by
    rw [List.append_nil, List.append_assoc, ← hfit, List.take_append_drop]
  rw [hsplit, overwrite_between, List.append_nil, List.append_assoc]
  · rfl
  · rw [List.length_append, length_toBeBytes, length_fit]
  · rw [List.length_drop, hlen, length_toBeBytes]

/-- Past its place a root is cut at 40 bytes by the buffer, and at 32 by the timestamp. -/
theorem fit_take (rootHash : Bytes) : fit (rootHash.take 40) = fit rootHash := by
  rw [fit, fit, List.take_take, List.length_take]
  congr 2
  omega

theorem TypeScript.signingPayload_framed {treeSize timestampNs : Int} {rootHash payload : Bytes}
    (h : TypeScript.signingPayload treeSize rootHash timestampNs = some payload) :
    (0 ≤ treeSize ∧ treeSize < 2 ^ 64) ∧ (-2 ^ 63 ≤ timestampNs ∧ timestampNs < 2 ^ 63) ∧
      payload = framed treeSize (fit rootHash) timestampNs := by
  simp only [TypeScript.signingPayload, writeBigUInt64BE, writeBigInt64BE, Option.bind_eq_bind] at h
  split at h
  next hsize =>
    rw [Option.bind_some] at h
    split at h
    next hts =>
      cases h
      refine ⟨hsize, hts, ?_⟩
      have hcut : (rootHash.take 40).length ≤ 40 := by rw [List.length_take]; omega
      have hroom : (toBeBytes 8 treeSize ++ zeros 40).length - 8 = 40 := by
        rw [List.length_append, length_toBeBytes, length_zeros]
      rw [overwrite_size, copy, hroom, overwrite_root treeSize hcut, overwrite_timestamp treeSize timestampNs hcut, fit_take]
    next => cases h
  next => cases h

theorem Dotnet.signingPayload_framed {treeSize timestampNs : BitVec 64} {rootHash payload : Bytes}
    (h : Dotnet.signingPayload treeSize rootHash timestampNs = some payload) :
    payload = framed treeSize.toNat (fit rootHash) timestampNs.toInt := by
  simp only [Dotnet.signingPayload, copyTo, Option.bind_eq_bind] at h
  split at h
  next => cases h
  next hlen =>
    cases h
    rw [overwrite_size, overwrite_root _ (by omega), overwrite_timestamp _ _ (by omega)]

/-- A `put` after what is written so far. -/
theorem Java.put_after {written bs : Bytes} {left : Nat} {buf : ByteBuffer}
    (h : ByteBuffer.put ⟨written ++ zeros left, written.length⟩ bs = some buf) :
    bs.length ≤ left ∧ buf = ⟨(written ++ bs) ++ zeros (left - bs.length), (written ++ bs).length⟩ := by
  simp only [ByteBuffer.put, List.length_append, length_zeros] at h
  split at h
  next => cases h
  next hlen =>
    cases h
    have hle : bs.length ≤ left := by omega
    have hzeros : zeros left = zeros bs.length ++ zeros (left - bs.length) := by rw [← zeros_add, Nat.add_sub_cancel' hle]
    refine ⟨hle, ?_⟩
    rw [hzeros, overwrite_between written _ _ bs rfl (length_zeros _), List.append_assoc, List.length_append]

/-- Java's fields one after the other; what is left of the 48 bytes are zeros. -/
theorem Java.signingPayload_framed {treeSize timestampNs : BitVec 64} {rootHash payload : Bytes}
    (h : Java.signingPayload treeSize rootHash timestampNs = some payload) :
    rootHash.length ≤ 32 ∧ payload = framed treeSize.toNat rootHash timestampNs.toInt ++ zeros (32 - rootHash.length) := by
  simp only [Java.signingPayload, ByteBuffer.putLong, Option.bind_eq_bind, Option.bind_eq_some_iff] at h
  obtain ⟨buf, hsize, buf', hroot, buf'', hts, heq⟩ := h
  cases heq
  obtain ⟨-, rfl⟩ := Java.put_after (show ByteBuffer.put ⟨[] ++ zeros 48, 0⟩ _ = some buf from hsize)
  obtain ⟨hlen, rfl⟩ := Java.put_after hroot
  obtain ⟨hlen', rfl⟩ := Java.put_after hts
  simp only [length_toBeBytes, List.nil_append] at hlen hlen' ⊢
  refine ⟨by omega, ?_⟩
  rw [toBeBytes_toInt treeSize, framed, show 48 - 8 - rootHash.length - 8 = 32 - rootHash.length by omega]
  simp only [List.append_assoc]

theorem Python.signingPayload_framed {treeSize timestampNs : Int} {rootHash payload : Bytes}
    (h : Python.signingPayload treeSize rootHash timestampNs = some payload) :
    (0 ≤ treeSize ∧ treeSize < 2 ^ 64) ∧ (-2 ^ 63 ≤ timestampNs ∧ timestampNs < 2 ^ 63) ∧
      payload = framed treeSize rootHash timestampNs := by
  simp only [Python.signingPayload, packQ, packq, Option.bind_eq_bind] at h
  split at h
  next hsize =>
    rw [Option.bind_some] at h
    split at h
    next hts =>
      cases h
      exact ⟨hsize, hts, List.append_assoc ..⟩
    next => cases h
  next => cases h

/-! ## What they bind -/

/-- Of the payloads settled-core signs, it is no other tree head's. -/
def Binds (payload : Bytes) (treeSize : Int) (rootHash : Bytes) (timestampNs : Int) : Prop :=
  ∀ (treeSize' : Nat) (rootHash' : Hash) (timestampNs' : Int), treeSize' < 2 ^ 64 →
    -2 ^ 63 ≤ timestampNs' ∧ timestampNs' < 2 ^ 63 → payload = signingPayload treeSize' rootHash' timestampNs' →
    treeSize = treeSize' ∧ rootHash = rootHash'.val ∧ timestampNs = timestampNs'

theorem signingPayload_framed (treeSize : Nat) (rootHash : Hash) (timestampNs : Int) :
    signingPayload treeSize rootHash timestampNs = framed treeSize rootHash.val timestampNs := List.append_assoc ..

/-- A frame with a root of 32 bytes has only these fields. -/
theorem framed_inj {treeSize treeSize' timestampNs timestampNs' : Int} {rootHash rootHash' : Bytes}
    (hsize : 0 ≤ treeSize ∧ treeSize < 2 ^ 64) (hsize' : 0 ≤ treeSize' ∧ treeSize' < 2 ^ 64)
    (hts : -2 ^ 63 ≤ timestampNs ∧ timestampNs < 2 ^ 63) (hts' : -2 ^ 63 ≤ timestampNs' ∧ timestampNs' < 2 ^ 63)
    (h : framed treeSize rootHash timestampNs = framed treeSize' rootHash' timestampNs') :
    treeSize = treeSize' ∧ rootHash = rootHash' ∧ timestampNs = timestampNs' := by
  obtain ⟨h1, h⟩ := List.append_inj h (by rw [length_toBeBytes, length_toBeBytes])
  obtain ⟨h2, h3⟩ := List.append_inj' h (by rw [length_toBeBytes, length_toBeBytes])
  exact ⟨toBeBytes_inj (w := 8) (by omega) (by omega) h1, h2, toBeBytes_inj (w := 8) (by omega) (by omega) h3⟩

theorem binds_framed {treeSize timestampNs : Int} (rootHash : Bytes) (hsize : 0 ≤ treeSize ∧ treeSize < 2 ^ 64)
    (hts : -2 ^ 63 ≤ timestampNs ∧ timestampNs < 2 ^ 63) : Binds (framed treeSize rootHash timestampNs) treeSize rootHash timestampNs := by
  intro treeSize' rootHash' timestampNs' hsize' hts' h
  rw [signingPayload_framed] at h
  exact framed_inj hsize ⟨by omega, by omega⟩ hts hts' h

/-- A frame with the root in its place binds exactly a root that fills it. -/
theorem binds_fit_iff {treeSize timestampNs : Int} (rootHash : Bytes) (hsize : 0 ≤ treeSize ∧ treeSize < 2 ^ 64)
    (hts : -2 ^ 63 ≤ timestampNs ∧ timestampNs < 2 ^ 63) :
    Binds (framed treeSize (fit rootHash) timestampNs) treeSize rootHash timestampNs ↔ rootHash.length = 32 := by
  constructor
  · intro h
    -- the root that is there in its stead
    obtain ⟨-, hroot, -⟩ := h treeSize.toNat ⟨fit rootHash, length_fit rootHash⟩ timestampNs (by omega) hts
      (by rw [signingPayload_framed, Int.toNat_of_nonneg hsize.1])
    rw [hroot]
    exact length_fit rootHash
  · intro h
    rw [fit_eq_self h]
    exact binds_framed rootHash hsize hts

/-- Any 48 bytes are the payload of a tree head. -/
theorem exists_signingPayload {payload : Bytes} (h : payload.length = 48) : ∃ (treeSize : Nat) (rootHash : Hash) (timestampNs : Int),
    treeSize < 2 ^ 64 ∧ (-2 ^ 63 ≤ timestampNs ∧ timestampNs < 2 ^ 63) ∧
      payload = signingPayload treeSize rootHash timestampNs := by
  obtain ⟨x, hx0, hx, hsize⟩ := toBeBytes_surj (show (payload.take 8).length = 8 by rw [List.length_take]; omega)
  obtain ⟨y, hy0, hy, hts⟩ := toBeBytes_surj (show (payload.drop 40).length = 8 by rw [List.length_drop]; omega)
  have hroot : ((payload.drop 8).take 32).length = 32 := by rw [List.length_take, List.length_drop]; omega
  have hsplit : payload = payload.take 8 ++ ((payload.drop 8).take 32 ++ payload.drop 40) := by
    rw [show payload.drop 40 = (payload.drop 8).drop 32 by rw [List.drop_drop], List.take_append_drop, List.take_append_drop]
  obtain ⟨z, hz, hzy⟩ : ∃ z : Int, (-2 ^ 63 ≤ z ∧ z < 2 ^ 63) ∧ toBeBytes 8 z = toBeBytes 8 y := by
    by_cases hlow : y < 2 ^ 63
    · exact ⟨y, by omega, rfl⟩
    · exact ⟨y - 256 ^ 8, by omega, toBeBytes_sub_pow 8 y⟩
  refine ⟨x.toNat, ⟨_, hroot⟩, z, by omega, hz, ?_⟩
  rw [signingPayload_framed, framed, Int.toNat_of_nonneg hx0, hsize, hzy, hts]
  exact hsplit

/-- What the three builders with a buffer of 48 bytes accept binds the tree head exactly if
    its root has 32 bytes; what Python's accepts always does. -/
theorem signing_payload_binds_iff (rootHash payload : Bytes) :
    (∀ treeSize timestampNs : Int, TypeScript.signingPayload treeSize rootHash timestampNs = some payload →
      (Binds payload treeSize rootHash timestampNs ↔ rootHash.length = 32)) ∧
    (∀ treeSize timestampNs : BitVec 64, Java.signingPayload treeSize rootHash timestampNs = some payload →
      (Binds payload treeSize.toNat rootHash timestampNs.toInt ↔ rootHash.length = 32)) ∧
    (∀ treeSize timestampNs : BitVec 64, Dotnet.signingPayload treeSize rootHash timestampNs = some payload →
      (Binds payload treeSize.toNat rootHash timestampNs.toInt ↔ rootHash.length = 32)) ∧
    ∀ treeSize timestampNs : Int, Python.signingPayload treeSize rootHash timestampNs = some payload →
      Binds payload treeSize rootHash timestampNs := by
  have hlong : ∀ x : BitVec 64, (0 ≤ (x.toNat : Int) ∧ (x.toNat : Int) < 2 ^ 64) ∧ (-2 ^ 63 ≤ x.toInt ∧ x.toInt < 2 ^ 63) := by
    intro x
    have := x.isLt
    rw [BitVec.toInt_eq_toNat_cond]
    omega
  refine ⟨fun treeSize timestampNs h => ?_, fun treeSize timestampNs h => ?_, fun treeSize timestampNs h => ?_,
    fun treeSize timestampNs h => ?_⟩
  · obtain ⟨hsize, hts, rfl⟩ := TypeScript.signingPayload_framed h
    exact binds_fit_iff rootHash hsize hts
  · obtain ⟨hlen, rfl⟩ := Java.signingPayload_framed h
    by_cases h32 : rootHash.length = 32
    · have hzero : zeros (32 - rootHash.length) = [] := by rw [h32]; rfl
      rw [hzero, List.append_nil]
      exact iff_of_true (binds_framed rootHash (hlong treeSize).1 (hlong timestampNs).2) h32
    · refine iff_of_false (fun hb => h32 ?_) h32
      have h48 : (framed treeSize.toNat rootHash timestampNs.toInt ++ zeros (32 - rootHash.length)).length = 48 := by
        simp only [framed, List.length_append, length_toBeBytes, length_zeros]
        omega
      obtain ⟨treeSize', rootHash', timestampNs', hsize, hts, heq⟩ := exists_signingPayload h48
      obtain ⟨-, hroot, -⟩ := hb treeSize' rootHash' timestampNs' hsize hts heq
      rw [hroot]
      exact rootHash'.property
  · obtain rfl := Dotnet.signingPayload_framed h
    exact binds_fit_iff rootHash (hlong treeSize).1 (hlong timestampNs).2
  · obtain ⟨hsize, hts, rfl⟩ := Python.signingPayload_framed h
    exact binds_framed rootHash hsize hts

/-- A root of 32 bytes, in each SDK. -/
theorem signing_payload_binds_iff_whole_root :
    let root : Bytes := List.replicate 32 7
    ∃ payload, TypeScript.signingPayload 1 root 5 = some payload ∧ Binds payload 1 root 5 ∧
      Java.signingPayload 1#64 root 5#64 = some payload ∧ Binds payload (1#64).toNat root (5#64).toInt ∧
      Dotnet.signingPayload 1#64 root 5#64 = some payload ∧ Python.signingPayload 1 root 5 = some payload := by
  intro root
  have hts : TypeScript.signingPayload 1 root 5 = some (framed 1 root 5) := by decide +kernel
  have hjava : Java.signingPayload 1#64 root 5#64 = some (framed 1 root 5) := by decide +kernel
  have hdotnet : Dotnet.signingPayload 1#64 root 5#64 = some (framed 1 root 5) := by decide +kernel
  have hpython : Python.signingPayload 1 root 5 = some (framed 1 root 5) := by decide +kernel
  obtain ⟨ts, java, -, -⟩ := signing_payload_binds_iff root (framed 1 root 5)
  exact ⟨_, hts, (ts _ _ hts).mpr rfl, hjava, (java _ _ hjava).mpr rfl, hdotnet, hpython⟩

/-- A genuine root that ends in a zero byte, presented without it: TypeScript and .NET build
    the very payload that was signed, and so does TypeScript with a byte too many. Java
    builds the payload of a later timestamp. -/
theorem short_root_signed :
    let root : Hash := ⟨List.replicate 31 7 ++ [0], by decide⟩
    TypeScript.signingPayload 1 (List.replicate 31 7) 5 = some (signingPayload 1 root 5) ∧
    TypeScript.signingPayload 1 (root.val ++ [9]) 5 = some (signingPayload 1 root 5) ∧
    Dotnet.signingPayload 1#64 (List.replicate 31 7) 5#64 = some (signingPayload 1 root 5) ∧
    Java.signingPayload 1#64 (List.replicate 31 7) 5#64 = some (signingPayload 1 root 1280) ∧
    root.val ≠ List.replicate 31 7 ∧ root.val ≠ root.val ++ [9] := by
  decide +kernel

end Settled.Sdk
