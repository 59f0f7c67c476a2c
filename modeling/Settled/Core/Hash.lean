/-
  Settled.Core.Hash — the hash primitives (`settled-core/src/hash.rs`).

  The Merkle code only ever combines two hashes with `node_hash`. A `Hasher` is that
  function split in two: the query put to the underlying function and its answer, so
  that a run can be traced query by query. Two instances:
  - `pairs f`: `node_hash` is an arbitrary function `f` and a query is its argument
    pair;
  - `sha sha256`: the code's own, over 32-byte hashes, a query being the byte string
    `0x01 || left || right`.
  `sha256` (the `sha2` crate) is a parameter: any function from byte strings to
  32-byte digests.
-/

import Settled.Lib.Traced

namespace Settled.Core

open Settled.Lib

abbrev Bytes := List UInt8

/-- A 32-byte value (`[u8; 32]`). -/
abbrev Hash := { b : Bytes // b.length = 32 }

def Hash.zero : Hash := ⟨List.replicate 32 0, by simp⟩

/-- 32 times the byte `b`. -/
def Hash.fill (b : UInt8) : Hash := ⟨List.replicate 32 b, List.length_replicate⟩

instance : Inhabited Hash := ⟨Hash.zero⟩

structure Hasher (H Q : Type) where
  query : H → H → Q
  digest : Q → H

namespace Hasher

variable {H Q : Type}

/-- `node_hash`, its result only. -/
def node (hs : Hasher H Q) (left right : H) : H := hs.digest (hs.query left right)

/-- `node_hash`, traced. -/
def nodeHash (hs : Hasher H Q) (left right : H) : Traced Q H := Traced.ask hs.digest (hs.query left right)

@[simp] theorem val_nodeHash (hs : Hasher H Q) (l r : H) : (hs.nodeHash l r).val = hs.node l r := rfl
@[simp] theorem calls_nodeHash (hs : Hasher H Q) (l r : H) : (hs.nodeHash l r).calls = [hs.query l r] := rfl

/-- An arbitrary `node_hash`: a query is its argument pair. -/
def pairs (f : H → H → H) : Hasher H (H × H) := ⟨Prod.mk, fun p => f p.1 p.2⟩

end Hasher

/-! ## SHA-256 with the RFC 6962 prefixes -/

/-- What `node_hash` hashes: `0x01 || left || right`. -/
def nodeInput (left right : Bytes) : Bytes := 0x01 :: (left ++ right)

/-- What `leaf_hash` hashes: `0x00 || data`. -/
def leafInput (data : Bytes) : Bytes := 0x00 :: data

def leafHash (sha256 : Bytes → Hash) (data : Bytes) : Hash := sha256 (leafInput data)

def Hasher.sha (sha256 : Bytes → Hash) : Hasher Hash Bytes := ⟨fun l r => nodeInput l.val r.val, sha256⟩

end Settled.Core
