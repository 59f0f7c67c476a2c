/-
  Settled.Sdk.Verifier — the verifiers of the SDKs whose hashes are untyped byte
  strings: Python (`sdks/python/src/settled/verifier.py`), TypeScript
  (`sdks/typescript/src/verifier.ts`), Java (`.../io/settled/sdk/Verifier.java`) and
  .NET (`sdks/dotnet/Settled.Sdk/Verifier.cs`); and of those whose hashes are 32-byte
  arrays: Rust (`sdks/rust/src/verifier.rs`) and Go (`sdks/go/verifier/verifier.go`).

  The first four are one program over different integers, and are one definition here over
  `Ints`: Python's `int` and JavaScript's `bigint` are unbounded and signed; Java's
  `long` is 64 bits, compared unsigned everywhere but in the loop of `k`; .NET's
  `ulong` is 64 bits and unsigned. `k` is a doubling loop that need not end on every
  integer, so it and the recursion that calls it take fuel: `none` is a run that has
  not returned yet.

  Hashes are byte strings of any length: none of the four checks the length of a proof
  element or a root. Rust and Go run the same program over .NET's integers, on arrays
  that are byte strings of length 32. The inner `while` of `verify_inclusion` ends on every integer (`size_shr`).
-/

import Mathlib.Data.Int.Order.Basic
import Settled.Core.Proof

namespace Settled.Sdk

open Settled.Lib Settled.Core

/-- What a verifier does with indices and sizes. -/
structure Ints (ι : Type) where
  zero : ι
  one : ι
  lt : ι → ι → Bool
  /-- The comparison in the loop of `k`. -/
  loopLt : ι → ι → Bool
  sub : ι → ι → ι
  /-- `p * 2`, also written `p <<= 1`. -/
  dbl : ι → ι
  /-- `x >>= 1` (`>>>=` in Java). -/
  shr : ι → ι
  /-- `(x & 1) != 0`. -/
  odd : ι → Bool
  size : ι → Nat
  size_shr : ∀ x, x ≠ zero → odd x = false → size (shr x) < size x

/-- `node_hash` over byte strings: SHA-256(0x01 || left || right). -/
def hasher (sha256 : Bytes → Hash) : Hasher Bytes Bytes := ⟨nodeInput, fun q => (sha256 q).val⟩

section

variable {ι : Type} [DecidableEq ι] (I : Ints ι) (sha256 : Bytes → Hash)

def skipLevels (fn sn : ι) : ι × ι :=
  if _ : fn ≠ I.zero ∧ I.odd fn = false then skipLevels (I.shr fn) (I.shr sn) else (fn, sn)
termination_by I.size fn
decreasing_by exact I.size_shr fn (by simp_all) (by simp_all)

def verifyInclusionLoop (root : Bytes) (fn sn : ι) (r : Bytes) : List Bytes → Traced Bytes Bool
  | [] => pure (decide (sn = I.zero) && decide (r = root))
  | step :: proof =>
    if sn = I.zero then pure false
    else if I.odd fn = true ∨ fn = sn then do
      let r ← (hasher sha256).nodeHash step r
      let (fn, sn) := skipLevels I fn sn
      verifyInclusionLoop root (I.shr fn) (I.shr sn) r proof
    else do
      let r ← (hasher sha256).nodeHash r step
      verifyInclusionLoop root (I.shr fn) (I.shr sn) r proof

def verifyInclusion (leaf : Bytes) (leafIndex treeSize : ι) (proof : List Bytes) (root : Bytes) : Traced Bytes Bool :=
  if treeSize = I.zero ∨ I.lt leafIndex treeSize = false then pure false
  else verifyInclusionLoop I sha256 root leafIndex (I.sub treeSize I.one) leaf proof

/-- `while (p * 2 < n) p <<= 1; return p`. -/
def kLoop (n : ι) : Nat → ι → Option ι
  | 0, _ => none
  | fuel + 1, p => if I.loopLt (I.dbl p) n then kLoop n fuel (I.dbl p) else some p

/-- Meant as the largest power of 2 strictly less than `n`. -/
def k (fuel : Nat) (n : ι) : Option ι := kLoop I n fuel I.one

def verifySubproof (oldRoot : Bytes) : Nat → ι → ι → List Bytes → Bool →
    Option (Traced Bytes (Option ((Bytes × Bytes) × List Bytes)))
  | 0, _, _, _, _ => none
  | fuel + 1, m, n, iter, b =>
    if m = n then
      if b then some (pure (some ((oldRoot, oldRoot), iter)))
      else match iter with
        | [] => some (pure none)
        | h :: iter => some (pure (some ((h, h), iter)))
    else match k I fuel n with
      | none => none
      | some split =>
        if I.lt split m = false then
          match verifySubproof oldRoot fuel m split iter b with
          | none => none
          | some sub => some do
            match ← sub with
            | none => pure none
            | some (_, []) => pure none
            | some ((lo, ln), rh :: iter) => do
              let new ← (hasher sha256).nodeHash ln rh
              pure (some ((lo, new), iter))
        else
          match verifySubproof oldRoot fuel (I.sub m split) (I.sub n split) iter false with
          | none => none
          | some sub => some do
            match ← sub with
            | none => pure none
            | some (_, []) => pure none
            | some ((ro, rn), lh :: iter) => do
              let old ← (hasher sha256).nodeHash lh ro
              let new ← (hasher sha256).nodeHash lh rn
              pure (some ((old, new), iter))

def verifyConsistency (fuel : Nat) (oldSize newSize : ι) (proof : List Bytes) (oldRoot newRoot : Bytes) :
    Option (Traced Bytes Bool) :=
  if oldSize = newSize then some (pure (proof.isEmpty && decide (oldRoot = newRoot)))
  else if oldSize = I.zero ∨ I.lt newSize oldSize = true then some (pure false)
  else match verifySubproof I sha256 oldRoot fuel oldSize newSize proof true with
    | none => none
    | some sub => some do
      match ← sub with
      | some ((computedOld, computedNew), iter) =>
        pure (iter.isEmpty && decide (computedOld = oldRoot) && decide (computedNew = newRoot))
      | none => pure false

end

/-! ## The four SDKs -/

/-- Python's `int` and JavaScript's `bigint`. -/
def bigInts : Ints Int where
  zero := 0
  one := 1
  lt a b := decide (a < b)
  loopLt a b := decide (a < b)
  sub a b := a - b
  dbl p := p * 2
  shr x := x >>> (1 : Nat)
  odd x := decide (x % 2 ≠ 0)
  size x := x.natAbs
  size_shr x h0 h := by
    have e : x >>> (1 : Nat) = x / 2 := by rw [Int.shiftRight_eq_div_pow]; rfl
    rw [e]
    simp at h
    omega

/-- Java's `long`: indices and sizes are compared with `Long.compareUnsigned`, but the
    loop of `k` compares with `<`, which is signed. -/
def longs : Ints (BitVec 64) where
  zero := 0#64
  one := 1#64
  lt a b := a.ult b
  loopLt a b := a.slt b
  sub a b := a - b
  dbl p := p * 2#64
  shr x := x >>> (1 : Nat)
  odd x := decide (x &&& 1#64 ≠ 0#64)
  size x := x.toNat
  size_shr x h0 _ := by
    have : x.toNat ≠ 0 := fun h => h0 (BitVec.eq_of_toNat_eq (by simpa using h))
    rw [BitVec.toNat_ushiftRight, Nat.shiftRight_one]
    omega

/-- .NET's `ulong`, Rust's `u64` (wrapping) and Go's `uint64`. -/
def ulongs : Ints (BitVec 64) := { longs with loopLt := fun a b => a.ult b }

namespace Python
def verifyInclusion := Sdk.verifyInclusion bigInts
def verifyConsistency := Sdk.verifyConsistency bigInts
end Python

namespace TypeScript
def verifyInclusion := Sdk.verifyInclusion bigInts
def verifyConsistency := Sdk.verifyConsistency bigInts
end TypeScript

namespace Java
def verifyInclusion := Sdk.verifyInclusion longs
def verifyConsistency := Sdk.verifyConsistency longs
end Java

namespace Dotnet
def verifyInclusion := Sdk.verifyInclusion ulongs
def verifyConsistency := Sdk.verifyConsistency ulongs
end Dotnet

namespace Rust

def verifyInclusion (sha256 : Bytes → Hash) (leaf : Hash) (leafIndex treeSize : BitVec 64) (proof : List Hash) (root : Hash) :
    Traced Bytes Bool :=
  Sdk.verifyInclusion ulongs sha256 leaf.val leafIndex treeSize (proof.map (·.val)) root.val

def verifyConsistency (sha256 : Bytes → Hash) (fuel : Nat) (oldSize newSize : BitVec 64) (proof : List Hash)
    (oldRoot newRoot : Hash) : Option (Traced Bytes Bool) :=
  Sdk.verifyConsistency ulongs sha256 fuel oldSize newSize (proof.map (·.val)) oldRoot.val newRoot.val

end Rust

namespace Go
def verifyInclusion := Rust.verifyInclusion
def verifyConsistency := Rust.verifyConsistency
end Go

end Settled.Sdk
