/-
  Settled.Core.Sth — `settled-core/src/sth.rs`: what an Ed25519 signature on a tree head
  commits to. The signature scheme (`ed25519-dalek`) is a parameter of the development.
-/

import Settled.Core.Sha256

namespace Settled.Core

/-- The `w` big-endian bytes of `x` (`to_be_bytes`; a negative `i64` as two's complement). -/
def toBeBytes : Nat → Int → Bytes
  | 0, _ => []
  | w + 1, x => toBeBytes w (x / 256) ++ [UInt8.ofNat (x % 256).toNat]

/-- `tree_size (u64 BE) || root_hash || timestamp_ns (i64 BE)`. -/
def signingPayload (treeSize : Nat) (rootHash : Hash) (timestampNs : Int) : Bytes :=
  toBeBytes 8 treeSize ++ rootHash.val ++ toBeBytes 8 timestampNs

/-- What the server uses of a signature scheme: keys are 32-byte seeds. -/
structure Ed25519 where
  publicKey : Hash → Hash
  sign : Hash → Bytes → Bytes
  verify : Hash → Bytes → Bytes → Bool

/-- `verify_tree_head`. -/
def Ed25519.verifyTreeHead (E : Ed25519) (publicKey : Hash) (treeSize : Nat) (rootHash : Hash) (timestampNs : Int)
    (signature : Bytes) : Bool :=
  E.verify publicKey (signingPayload treeSize rootHash timestampNs) signature

/-- A signature scheme for runs with signatures of 64 bytes: the key, and a digest of the
    key and the message. -/
def digestKeys : Ed25519 where
  publicKey := id
  sign key m := key.val ++ (Sha256.sha256 (key.val ++ m)).val
  verify pub m sig := decide (sig = pub.val ++ (Sha256.sha256 (pub.val ++ m)).val)

theorem digestKeys_verify (key : Hash) (m : Bytes) :
    digestKeys.verify (digestKeys.publicKey key) m (digestKeys.sign key m) = true := decide_eq_true rfl

theorem digestKeys_length (key : Hash) (m : Bytes) : (digestKeys.sign key m).length = 64 := by
  show (key.val ++ (Sha256.sha256 (key.val ++ m)).val).length = 64
  rw [List.length_append, key.property, (Sha256.sha256 (key.val ++ m)).property]

end Settled.Core
