/-
  Settled.Sdk.TreeHead — signed tree heads in the Rust SDK (`sdks/rust/src/verifier.rs`).

  Keys and signatures arrive as byte slices of any length. A public key that is no point
  of the curve is one under which nothing verifies (`E.verify`). The SDK's key records
  have the fields of the server's.
-/

import Settled.Core.Sth
import Settled.Storage.Store

namespace Settled.Sdk.Rust

open Settled.Core Settled.Storage

variable (E : Ed25519)

def verifyTreeHead (treeSize : Nat) (rootHash : Hash) (timestampNs : Int) (signature publicKey : Bytes) : Bool :=
  if h : publicKey.length = 32 then
    if signature.length = 64 then E.verify ⟨publicKey, h⟩ (signingPayload treeSize rootHash timestampNs) signature
    else false
  else false

def verifyTreeHeadWithChain (treeSize : Nat) (rootHash : Hash) (timestampNs : Int) (signature : Bytes) (keyVersion : Nat)
    (chain : List KeyRecord) : Bool :=
  match chain.find? fun r => r.version = keyVersion with
  | none => false
  | some record => verifyTreeHead E treeSize rootHash timestampNs signature record.publicKey.val

def verifyTreeHeadSequential (treeSize : Nat) (rootHash : Hash) (timestampNs : Int) (signature publicKey : Bytes)
    (previousTimestampNs : Int) : Bool :=
  if timestampNs ≤ previousTimestampNs then false
  else verifyTreeHead E treeSize rootHash timestampNs signature publicKey

variable {E}

/-- With 64-byte signatures it is settled-core's check. -/
theorem verifyTreeHead_eq {signature : Bytes} (h : signature.length = 64) (treeSize : Nat) (rootHash : Hash)
    (timestampNs : Int) (publicKey : Hash) : verifyTreeHead E treeSize rootHash timestampNs signature publicKey.val =
      E.verifyTreeHead publicKey treeSize rootHash timestampNs signature := by
  rw [verifyTreeHead, dif_pos publicKey.property, if_pos h]
  rfl

end Settled.Sdk.Rust
