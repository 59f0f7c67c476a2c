/-
  Settled.Storage.Proto — the messages in which entries, heads and key records are stored
  (`proto.rs`), and the conversions from and to the records (`types.rs`, `decode` in
  `key_store.rs`).

  The format is the `prost` crate's: a parameter of the storage model, of which it uses
  that a message is read back as it was written (`Formats`). `Formats.protobuf` is the wire
  format of `Settled.Lib.Protobuf` with the tags of the source.

  A record of the model has numbers where the source has machine integers; `Fits` says
  that they are in range. A record that fits comes back from its message
  (`readHead_write`, `readKey_write`), and so does an entry (`readEntry_write`).
-/

import Settled.Lib.Protobuf
import Settled.Storage.Store

namespace Settled.Storage

open Settled.Lib Settled.Core

/-- `Vec<u8>`: no more than `isize::MAX` bytes. -/
abbrev Vec := { b : Bytes // b.length < 2 ^ 63 }

def Vec.empty : Vec := ⟨[], by decide⟩

def Hash.toVec (h : Hash) : Vec := ⟨h.val, by rw [h.property]; decide⟩

/-! ## Messages -/

structure LogEntryProto where
  seq : UInt64
  timestampNs : Int64
  key : Vec
  data : Vec
  leafHash : Vec
  deriving DecidableEq

structure SignedTreeHeadProto where
  treeSize : UInt64
  rootHash : Vec
  timestampNs : Int64
  signature : Vec
  publicKey : Vec
  keyVersion : UInt32
  deriving DecidableEq

structure KeyRecordProto where
  version : UInt32
  publicKey : Vec
  activatedAtTreeSize : UInt64
  deriving DecidableEq

/-- `prost::Message` for the three. -/
structure Formats where
  entry : Codec LogEntryProto
  head : Codec SignedTreeHeadProto
  key : Codec KeyRecordProto

/-! ## Errors -/

inductive Error where
  | rocksDb (message : String)
  | decode
  | corruption (message : String)
  | schemaMismatch (found supported : Nat)
  deriving DecidableEq

/-- `try_into` a `[u8; n]`. -/
def tryArray (n : Nat) (message : String) (b : Bytes) : Except Error { b : Bytes // b.length = n } :=
  if h : b.length = n then .ok ⟨b, h⟩ else .error (.corruption message)

theorem tryArray_val {n : Nat} (message : String) (a : { b : Bytes // b.length = n }) :
    tryArray n message a.val = .ok a := dif_pos a.property

/-! ## Records from messages -/

def LogEntryProto.tryFrom (p : LogEntryProto) : Except Error LogEntry :=
  (tryArray 32 "leaf_hash must be 32 bytes" p.leafHash.val).map fun leafHash =>
    ⟨p.seq.toNat, p.timestampNs.toInt, p.key.val, p.data.val, leafHash⟩

/-- The message on a signature of another length says 32, not 64. -/
def SignedTreeHeadProto.tryFrom (p : SignedTreeHeadProto) : Except Error SignedTreeHead := do
  let rootHash ← tryArray 32 "root_hash must be 32 bytes" p.rootHash.val
  let signature ← tryArray 64 "signature must be 32 bytes" p.signature.val
  let publicKey ← tryArray 32 "public_key must be 32 bytes" p.publicKey.val
  return ⟨p.treeSize.toNat, rootHash, p.timestampNs.toInt, signature.val, publicKey, p.keyVersion.toNat⟩

def KeyRecordProto.tryFrom (p : KeyRecordProto) : Except Error KeyRecord :=
  (tryArray 32 "KeyRecord public_key must be 32 bytes" p.publicKey.val).map fun publicKey =>
    ⟨p.version.toNat, publicKey, p.activatedAtTreeSize.toNat⟩

/-- `decode` of the message, then the record. -/
def readAs {P R : Type} (C : Codec P) (tryFrom : P → Except Error R) (v : Bytes) : Except Error R :=
  match C.decode v with
  | none => .error .decode
  | some p => tryFrom p

def Formats.readEntry (F : Formats) (v : Bytes) : Except Error LogEntry := readAs F.entry LogEntryProto.tryFrom v

def Formats.readHead (F : Formats) (v : Bytes) : Except Error SignedTreeHead := readAs F.head SignedTreeHeadProto.tryFrom v

def Formats.readKey (F : Formats) (v : Bytes) : Except Error KeyRecord := readAs F.key KeyRecordProto.tryFrom v

theorem readAs_encode {P R : Type} (C : Codec P) (tryFrom : P → Except Error R) (p : P) :
    readAs C tryFrom (C.encode p) = tryFrom p := by
  rw [readAs, C.decode_encode]

/-! ## Messages from records -/

/-- What `append` makes of an entry. -/
def LogEntryProto.new (sha256 : Bytes → Hash) (seq : UInt64) (timestampNs : Int64) (key data : Vec) : LogEntryProto :=
  ⟨seq, timestampNs, key, data, Hash.toVec (Core.leafHash sha256 data.val)⟩

theorem readEntry_write (F : Formats) (sha256 : Bytes → Hash) (seq : UInt64) (timestampNs : Int64) (key data : Vec) :
    F.readEntry (F.entry.encode (.new sha256 seq timestampNs key data)) =
      .ok ⟨seq.toNat, timestampNs.toInt, key.val, data.val, leafHash sha256 data.val⟩ := by
  have hleaf := tryArray_val "leaf_hash must be 32 bytes" (leafHash sha256 data.val)
  rw [Formats.readEntry, readAs_encode]
  simp only [LogEntryProto.tryFrom, LogEntryProto.new, Hash.toVec, hleaf]
  rfl

/-- The fields are in the ranges of their types. -/
structure SignedTreeHead.Fits (sth : SignedTreeHead) : Prop where
  treeSize : sth.treeSize < 2 ^ 64
  timestampNs : -2 ^ 63 ≤ sth.timestampNs ∧ sth.timestampNs < 2 ^ 63
  signature : sth.signature.length = 64
  keyVersion : sth.keyVersion < 2 ^ 32

structure KeyRecord.Fits (r : KeyRecord) : Prop where
  version : r.version < 2 ^ 32
  activatedAtTreeSize : r.activatedAtTreeSize < 2 ^ 64

def SignedTreeHeadProto.of (sth : SignedTreeHead) (h : sth.Fits) : SignedTreeHeadProto :=
  ⟨.ofNat sth.treeSize, Hash.toVec sth.rootHash, .ofInt sth.timestampNs,
    ⟨sth.signature, by rw [h.signature]; decide⟩, Hash.toVec sth.publicKey, .ofNat sth.keyVersion⟩

def KeyRecordProto.of (r : KeyRecord) : KeyRecordProto :=
  ⟨.ofNat r.version, Hash.toVec r.publicKey, .ofNat r.activatedAtTreeSize⟩

theorem readHead_write (F : Formats) {sth : SignedTreeHead} (h : sth.Fits) :
    F.readHead (F.head.encode (.of sth h)) = .ok sth := by
  have hroot := tryArray_val "root_hash must be 32 bytes" sth.rootHash
  have hsig : tryArray 64 "signature must be 32 bytes" sth.signature = .ok ⟨sth.signature, h.signature⟩ := dif_pos h.signature
  have hpub := tryArray_val "public_key must be 32 bytes" sth.publicKey
  have hsize : (UInt64.ofNat sth.treeSize).toNat = sth.treeSize := by
    rw [UInt64.toNat_ofNat', Nat.mod_eq_of_lt h.treeSize]
  have hts : (Int64.ofInt sth.timestampNs).toInt = sth.timestampNs :=
    Int64.toInt_ofInt_of_le h.timestampNs.1 h.timestampNs.2
  have hver : (UInt32.ofNat sth.keyVersion).toNat = sth.keyVersion := by
    rw [UInt32.toNat_ofNat', Nat.mod_eq_of_lt h.keyVersion]
  rw [Formats.readHead, readAs_encode]
  simp only [SignedTreeHeadProto.tryFrom, SignedTreeHeadProto.of, Hash.toVec, hroot, hsig, hpub, hsize, hts, hver]
  rfl

theorem readKey_write (F : Formats) {r : KeyRecord} (h : r.Fits) : F.readKey (F.key.encode (.of r)) = .ok r := by
  have hpub := tryArray_val "KeyRecord public_key must be 32 bytes" r.publicKey
  have hver : (UInt32.ofNat r.version).toNat = r.version := by
    rw [UInt32.toNat_ofNat', Nat.mod_eq_of_lt h.version]
  have hat : (UInt64.ofNat r.activatedAtTreeSize).toNat = r.activatedAtTreeSize := by
    rw [UInt64.toNat_ofNat', Nat.mod_eq_of_lt h.activatedAtTreeSize]
  rw [Formats.readKey, readAs_encode]
  simp only [KeyRecordProto.tryFrom, KeyRecordProto.of, Hash.toVec, hpub, hver, hat]
  rfl

/-! ## The wire format -/

section

open Protobuf

/-- A `bytes` field read: what is set is a `Vec`. -/
def mergeBytes {α : Type} (set : Vec → α) : Value → Option α
  | .bytes b => if h : b.length < 2 ^ 63 then some (set ⟨b, h⟩) else none
  | _ => none

def mergeVarint {α : Type} (set : UInt64 → α) : Value → Option α
  | .varint n => some (set n)
  | _ => none

theorem mergeBytes_bytes {α : Type} (set : Vec → α) (v : Vec) : mergeBytes set (.bytes v.val) = some (set v) :=
  dif_pos v.property

def LogEntryProto.message : Message LogEntryProto where
  default := ⟨0, 0, .empty, .empty, .empty⟩
  fields p := uint64 1 p.seq ++ int64 2 p.timestampNs ++ bytes 3 p.key.val ++ bytes 4 p.data.val ++ bytes 5 p.leafHash.val
  merge p f :=
    match f.number with
    | 1 => mergeVarint (fun v => { p with seq := v }) f.value
    | 2 => mergeVarint (fun v => { p with timestampNs := v.toInt64 }) f.value
    | 3 => mergeBytes (fun v => { p with key := v }) f.value
    | 4 => mergeBytes (fun v => { p with data := v }) f.value
    | 5 => mergeBytes (fun v => { p with leafHash := v }) f.value
    | _ => some p

def SignedTreeHeadProto.message : Message SignedTreeHeadProto where
  default := ⟨0, .empty, 0, .empty, .empty, 0⟩
  fields p := uint64 1 p.treeSize ++ bytes 2 p.rootHash.val ++ int64 3 p.timestampNs ++ bytes 4 p.signature.val ++
    bytes 5 p.publicKey.val ++ uint32 6 p.keyVersion
  merge p f :=
    match f.number with
    | 1 => mergeVarint (fun v => { p with treeSize := v }) f.value
    | 2 => mergeBytes (fun v => { p with rootHash := v }) f.value
    | 3 => mergeVarint (fun v => { p with timestampNs := v.toInt64 }) f.value
    | 4 => mergeBytes (fun v => { p with signature := v }) f.value
    | 5 => mergeBytes (fun v => { p with publicKey := v }) f.value
    | 6 => mergeVarint (fun v => { p with keyVersion := v.toUInt32 }) f.value
    | _ => some p

def KeyRecordProto.message : Message KeyRecordProto where
  default := ⟨0, .empty, 0⟩
  fields p := uint32 1 p.version ++ bytes 2 p.publicKey.val ++ uint64 3 p.activatedAtTreeSize
  merge p f :=
    match f.number with
    | 1 => mergeVarint (fun v => { p with version := v.toUInt32 }) f.value
    | 2 => mergeBytes (fun v => { p with publicKey := v }) f.value
    | 3 => mergeVarint (fun v => { p with activatedAtTreeSize := v }) f.value
    | _ => some p

theorem Vec.eq_empty {v : Vec} (h : v.val = []) : v = .empty := Subtype.ext h

theorem Vec.length_lt (v : Vec) : v.val.length < 2 ^ 64 := Nat.lt_trans v.property (by decide)

section

variable {α : Type} {merge : α → Field → Option α} {number : Nat} {a : α}

/-- A field taken where the record still has its default. -/
theorem foldlM_vec (set : Vec → α) (h0 : set .empty = a) (hm : ∀ x, merge a ⟨number, x⟩ = mergeBytes set x) (v : Vec) :
    (bytes number v.val).foldlM merge a = some (set v) := by
  apply foldlM_bytes
  · intro hv
    rw [Vec.eq_empty hv, h0]
  · rw [hm, mergeBytes_bytes]

theorem foldlM_varint (set : UInt64 → α) (h0 : set 0 = a) (hm : ∀ x, merge a ⟨number, x⟩ = mergeVarint set x) (v : UInt64) :
    (uint64 number v).foldlM merge a = some (set v) := by
  apply foldlM_uint64
  · intro hv
    rw [hv, h0]
  · rw [hm]
    rfl

end

theorem LogEntryProto.foldlM_fields (p : LogEntryProto) : (message.fields p).foldlM message.merge message.default = some p := by
  obtain ⟨seq, ts, key, data, leafHash⟩ := p
  have h1 : (uint64 1 seq).foldlM message.merge message.default = some ⟨seq, 0, .empty, .empty, .empty⟩ :=
    foldlM_varint (fun v => LogEntryProto.mk v 0 .empty .empty .empty) rfl (fun _ => rfl) seq
  have h2 : (int64 2 ts).foldlM message.merge ⟨seq, 0, .empty, .empty, .empty⟩ = some ⟨seq, ts, .empty, .empty, .empty⟩ :=
    foldlM_varint (fun v => LogEntryProto.mk seq v.toInt64 .empty .empty .empty) rfl (fun _ => rfl) ts.toUInt64
  have h3 : (bytes 3 key.val).foldlM message.merge ⟨seq, ts, .empty, .empty, .empty⟩ = some ⟨seq, ts, key, .empty, .empty⟩ :=
    foldlM_vec (fun v => LogEntryProto.mk seq ts v .empty .empty) rfl (fun _ => rfl) key
  have h4 : (bytes 4 data.val).foldlM message.merge ⟨seq, ts, key, .empty, .empty⟩ = some ⟨seq, ts, key, data, .empty⟩ :=
    foldlM_vec (fun v => LogEntryProto.mk seq ts key v .empty) rfl (fun _ => rfl) data
  have h5 : (bytes 5 leafHash.val).foldlM message.merge ⟨seq, ts, key, data, .empty⟩ = some ⟨seq, ts, key, data, leafHash⟩ :=
    foldlM_vec (fun v => LogEntryProto.mk seq ts key data v) rfl (fun _ => rfl) leafHash
  exact foldlM_append_eq (foldlM_append_eq (foldlM_append_eq (foldlM_append_eq h1 h2) h3) h4) h5

theorem SignedTreeHeadProto.foldlM_fields (p : SignedTreeHeadProto) :
    (message.fields p).foldlM message.merge message.default = some p := by
  obtain ⟨size, root, ts, sig, pub, version⟩ := p
  have h1 : (uint64 1 size).foldlM message.merge message.default = some ⟨size, .empty, 0, .empty, .empty, 0⟩ :=
    foldlM_varint (fun v => SignedTreeHeadProto.mk v .empty 0 .empty .empty 0) rfl (fun _ => rfl) size
  have h2 : (bytes 2 root.val).foldlM message.merge ⟨size, .empty, 0, .empty, .empty, 0⟩ =
      some ⟨size, root, 0, .empty, .empty, 0⟩ := foldlM_vec (fun v => SignedTreeHeadProto.mk size v 0 .empty .empty 0) rfl (fun _ => rfl) root
  have h3 : (int64 3 ts).foldlM message.merge ⟨size, root, 0, .empty, .empty, 0⟩ = some ⟨size, root, ts, .empty, .empty, 0⟩ :=
    foldlM_varint (fun v => SignedTreeHeadProto.mk size root v.toInt64 .empty .empty 0) rfl (fun _ => rfl) ts.toUInt64
  have h4 : (bytes 4 sig.val).foldlM message.merge ⟨size, root, ts, .empty, .empty, 0⟩ =
      some ⟨size, root, ts, sig, .empty, 0⟩ := foldlM_vec (fun v => SignedTreeHeadProto.mk size root ts v .empty 0) rfl (fun _ => rfl) sig
  have h5 : (bytes 5 pub.val).foldlM message.merge ⟨size, root, ts, sig, .empty, 0⟩ = some ⟨size, root, ts, sig, pub, 0⟩ :=
    foldlM_vec (fun v => SignedTreeHeadProto.mk size root ts sig v 0) rfl (fun _ => rfl) pub
  have h6 : (uint32 6 version).foldlM message.merge ⟨size, root, ts, sig, pub, 0⟩ =
      some ⟨size, root, ts, sig, pub, version.toUInt64.toUInt32⟩ :=
    foldlM_varint (fun v => SignedTreeHeadProto.mk size root ts sig pub v.toUInt32) rfl (fun _ => rfl) version.toUInt64
  rw [UInt32.toUInt32_toUInt64] at h6
  exact foldlM_append_eq (foldlM_append_eq (foldlM_append_eq (foldlM_append_eq (foldlM_append_eq h1 h2) h3) h4) h5) h6

theorem KeyRecordProto.foldlM_fields (p : KeyRecordProto) :
    (message.fields p).foldlM message.merge message.default = some p := by
  obtain ⟨version, pub, size⟩ := p
  have h1 : (uint32 1 version).foldlM message.merge message.default = some ⟨version.toUInt64.toUInt32, .empty, 0⟩ :=
    foldlM_varint (fun v => KeyRecordProto.mk v.toUInt32 .empty 0) rfl (fun _ => rfl) version.toUInt64
  rw [UInt32.toUInt32_toUInt64] at h1
  have h2 : (bytes 2 pub.val).foldlM message.merge ⟨version, .empty, 0⟩ = some ⟨version, pub, 0⟩ :=
    foldlM_vec (fun v => KeyRecordProto.mk version v 0) rfl (fun _ => rfl) pub
  have h3 : (uint64 3 size).foldlM message.merge ⟨version, pub, 0⟩ = some ⟨version, pub, size⟩ :=
    foldlM_varint (fun v => KeyRecordProto.mk version pub v) rfl (fun _ => rfl) size
  exact foldlM_append_eq (foldlM_append_eq h1 h2) h3

theorem fits_vec {number : Nat} (h : 0 < number ∧ number < 2 ^ 29) (v : Vec) : ∀ f ∈ bytes number v.val, f.Fits :=
  fits_bytes h v.length_lt

theorem LogEntryProto.fits (p : LogEntryProto) : ∀ f ∈ message.fields p, f.Fits :=
  fits_append (fits_append (fits_append (fits_append (fits_uint64 (by decide)) (fits_uint64 (by decide)))
    (fits_vec (by decide) p.key)) (fits_vec (by decide) p.data)) (fits_vec (by decide) p.leafHash)

theorem SignedTreeHeadProto.fits (p : SignedTreeHeadProto) : ∀ f ∈ message.fields p, f.Fits :=
  fits_append (fits_append (fits_append (fits_append (fits_append (fits_uint64 (by decide)) (fits_vec (by decide) p.rootHash))
    (fits_uint64 (by decide))) (fits_vec (by decide) p.signature)) (fits_vec (by decide) p.publicKey)) (fits_uint64 (by decide))

theorem KeyRecordProto.fits (p : KeyRecordProto) : ∀ f ∈ message.fields p, f.Fits :=
  fits_append (fits_append (fits_uint64 (by decide)) (fits_vec (by decide) p.publicKey)) (fits_uint64 (by decide))

/-- The three messages on the wire. -/
def Formats.protobuf : Formats where
  entry := LogEntryProto.message.codec LogEntryProto.fits LogEntryProto.foldlM_fields
  head := SignedTreeHeadProto.message.codec SignedTreeHeadProto.fits SignedTreeHeadProto.foldlM_fields
  key := KeyRecordProto.message.codec KeyRecordProto.fits KeyRecordProto.foldlM_fields

/-- Version 300, a key of 32 bytes 7, tree size 0 (left out). -/
example : Formats.protobuf.key.encode (.of ⟨300, .fill 7, 0⟩) = [8, 172, 2, 18, 32] ++ List.replicate 32 7 := by decide

end

end Settled.Storage
