/-
  Settled.Storage.Disk — `settled-storage` down to the bytes: column families from byte keys
  to byte strings, and the loops of `log_store.rs`, `head_store.rs`, `key_store.rs` and
  `db.rs` over them, with every error they can return.

  Clones of the stores are used at the same time: a call of `append` or `append_batch`
  reserves its numbers and commits one `WriteBatch` later, and any other call may come
  between. A commit may fail, and then writes nothing; the process may be closed or lost at
  any point and the database opened again. The format of the messages is a parameter
  (`Formats`).

  `Mem` is the same component over the records of `Settled.Storage.Store`: what the rest of
  the development uses. `disk_refines`: in every sequence of operations that reserves fewer
  than `2^64` numbers the two answer alike. So of the errors only a failed write is ever
  returned: no row the store has written is corrupt, no message fails to decode, the schema
  is always its own, and a scan of byte keys meets the records in the order of their
  numbers.
-/

import Settled.Lib.Paired
import Settled.Lib.Tasks
import Settled.Server.Queries
import Settled.Storage.Proto

namespace Settled.Storage

open Settled.Lib Settled.Core

/-! ## The database -/

inductive Cf where
  | default
  | log
  | heads
  | index
  | keys
  deriving DecidableEq

abbrev Disk := Cf → OrdMap Key Bytes

structure Put where
  cf : Cf
  key : Key
  value : Bytes

def Disk.put (d : Disk) (p : Put) : Disk := fun cf => if cf = p.cf then (d cf).put p.key p.value else d cf

/-- One `WriteBatch`. -/
def Disk.write (d : Disk) (batch : List Put) : Disk := batch.foldl Disk.put d

def Disk.empty : Disk := fun _ => .empty

def schemaVersionKey : Key := ⟨"schema_version".toList.map fun c => UInt8.ofNat c.toNat⟩
def currentSchemaVersion : Nat := 1

/-- `u64::from_be_bytes` of a key. -/
def seqOfKey (message : String) (k : Key) : Except Error UInt64 :=
  match fromBeBytes k.bytes with
  | none => .error (.corruption message)
  | some n => .ok (.ofNat n)

def Disk.checkSchema (d : Disk) : Except Error Disk :=
  match (d .default).get? schemaVersionKey with
  | none => .ok (d.put ⟨.default, schemaVersionKey, toBeBytes 4 currentSchemaVersion⟩)
  | some v =>
    if v.length = 4 then
      let version := v.foldl (fun n x => 256 * n + x.toNat) 0
      if currentSchemaVersion < version then .error (.schemaMismatch version currentSchemaVersion) else .ok d
    else .error (.corruption "bad schema_version length")

/-- `Db::open`: the database and `next_seq`. -/
def Disk.open (d : Disk) : Except Error (Disk × UInt64) := do
  let d ← d.checkSchema
  match (d .log).last? with
  | none => return (d, 0)
  | some (k, _) =>
    let seq ← seqOfKey "bad seq key length" k
    return (d, seq + 1)

/-! ## Reads -/

section

variable (F : Formats)

def decodeEntry (v : Bytes) : Except Error LogEntryProto :=
  match F.entry.decode v with
  | none => .error .decode
  | some p => .ok p

/-- A value that may not be there, decoded. -/
def readOption {R : Type} (read : Bytes → Except Error R) : Option Bytes → Except Error (Option R)
  | none => .ok none
  | some v => (read v).map some

def Disk.getBySeq (d : Disk) (seq : UInt64) : Except Error (Option LogEntry) :=
  readOption F.readEntry ((d .log).get? (seqKey seq.toNat))

def Disk.getSeqByKey (d : Disk) (key : Bytes) : Except Error (Option UInt64) :=
  match (d .index).get? ⟨key⟩ with
  | none => .ok none
  | some v =>
    match fromBeBytes v with
    | none => .error (.corruption "bad seq value in index CF")
    | some n => .ok (some (.ofNat n))

/-- `IteratorMode::From(key, Forward)`. -/
def rowsFrom (cf : OrdMap Key Bytes) (key : Key) : List (Key × Bytes) := cf.entries.dropWhile fun row => row.1 < key

def entriesByKeyLoop (key : Bytes) (limit : Nat) :
    List (Key × Bytes) → List LogEntry → Except Error (List LogEntry × UInt64)
  | [], entries => .ok (entries, 0)
  | (k, v) :: rows, entries => do
    let seq ← seqOfKey "bad seq key length" k
    let proto ← decodeEntry F v
    if proto.key.val = key then
      let e ← proto.tryFrom
      let entries := entries ++ [e]
      if limit ≤ entries.length then return (entries, seq + 1)
      else entriesByKeyLoop key limit rows entries
    else entriesByKeyLoop key limit rows entries

def Disk.entriesByKey (d : Disk) (key : Bytes) (fromSeq : UInt64) (limit : Nat) : Except Error (List LogEntry × UInt64) :=
  if limit = 0 then .ok ([], 0) else entriesByKeyLoop F key limit (rowsFrom (d .log) (seqKey fromSeq.toNat)) []

def seqRangePagedLoop (stop : UInt64) (limit : Nat) :
    List (Key × Bytes) → List LogEntry → Except Error (List LogEntry × UInt64)
  | [], entries => .ok (entries, 0)
  | (k, v) :: rows, entries => do
    let seq ← seqOfKey "bad seq key length" k
    if stop ≠ 0 ∧ stop ≤ seq then return (entries, 0)
    else
      let proto ← decodeEntry F v
      let e ← proto.tryFrom
      let entries := entries ++ [e]
      if limit ≤ entries.length then
        let next := seq + 1
        return (entries, if stop = 0 ∨ next < stop then next else 0)
      else seqRangePagedLoop stop limit rows entries

def Disk.seqRangePaged (d : Disk) (start stop : UInt64) (limit : Nat) : Except Error (List LogEntry × UInt64) :=
  if limit = 0 then .ok ([], 0) else seqRangePagedLoop F stop limit (rowsFrom (d .log) (seqKey start.toNat)) []

def seqRangeLoop (stop : UInt64) : List (Key × Bytes) → List LogEntry → Except Error (List LogEntry)
  | [], entries => .ok entries
  | (k, v) :: rows, entries => do
    let seq ← seqOfKey "bad seq key length" k
    if stop ≤ seq then return entries
    else
      let proto ← decodeEntry F v
      let e ← proto.tryFrom
      seqRangeLoop stop rows (entries ++ [e])

def Disk.seqRange (d : Disk) (start stop : UInt64) : Except Error (List LogEntry) :=
  seqRangeLoop F stop (rowsFrom (d .log) (seqKey start.toNat)) []

/-- Over the rows from the last one back. -/
def latestLoop (n : Nat) : List (Key × Bytes) → List LogEntry → Except Error (List LogEntry)
  | [], entries => .ok entries
  | (_, v) :: rows, entries => do
    let proto ← decodeEntry F v
    let e ← proto.tryFrom
    let entries := entries ++ [e]
    if n ≤ entries.length then return entries else latestLoop n rows entries

def Disk.latest (d : Disk) (n : Nat) : Except Error (List LogEntry) :=
  if n = 0 then .ok [] else latestLoop F n (d .log).entries.reverse []

def Disk.latestHead (d : Disk) : Except Error (Option SignedTreeHead) :=
  readOption F.readHead ((d .heads).last?.map (·.2))

def Disk.headAtSize (d : Disk) (treeSize : UInt64) : Except Error (Option SignedTreeHead) :=
  readOption F.readHead ((d .heads).get? (seqKey treeSize.toNat))

def headRangeLoop (toSize : UInt64) : List (Key × Bytes) → List SignedTreeHead → Except Error (List SignedTreeHead)
  | [], heads => .ok heads
  | (k, v) :: rows, heads => do
    let size ← seqOfKey "bad tree_size key length" k
    if toSize < size then return heads
    else
      let sth ← F.readHead v
      headRangeLoop toSize rows (heads ++ [sth])

def Disk.headRange (d : Disk) (fromSize toSize : UInt64) : Except Error (List SignedTreeHead) :=
  headRangeLoop F toSize (rowsFrom (d .heads) (seqKey fromSize.toNat)) []

/-- `version.to_be_bytes()`. -/
def versionKey (version : Nat) : Key := ⟨toBeBytes 4 version⟩

def Disk.getKey (d : Disk) (version : UInt32) : Except Error (Option KeyRecord) :=
  readOption F.readKey ((d .keys).get? (versionKey version.toNat))

def Disk.latestKey (d : Disk) : Except Error (Option KeyRecord) := readOption F.readKey ((d .keys).last?.map (·.2))

def allKeysLoop : List (Key × Bytes) → List KeyRecord → Except Error (List KeyRecord)
  | [], records => .ok records
  | (_, v) :: rows, records => do
    let r ← F.readKey v
    allKeysLoop rows (records ++ [r])

def Disk.allKeys (d : Disk) : Except Error (List KeyRecord) := allKeysLoop F (d .keys).entries []

end

/-! ## Operations -/

inductive StoreOp where
  /-- `append`, up to its write. -/
  | append (key data : Vec) (timestampNs : Int64)
  | appendBatch (entries : List (Vec × Vec)) (timestampNs : Int64)
  /-- The write of call `i`. -/
  | commit (i : Nat)
  | commitFails (i : Nat) (message : String)
  | count
  | getBySeq (seq : UInt64)
  | getSeqByKey (key : Bytes)
  | entriesByKey (key : Bytes) (fromSeq : UInt64) (limit : Nat)
  | seqRangePaged (start stop : UInt64) (limit : Nat)
  | seqRange (start stop : UInt64)
  | latest (n : Nat)
  | writeHead (sth : { sth : SignedTreeHead // sth.Fits })
  | latestHead
  | headAtSize (treeSize : UInt64)
  | headRange (fromSize toSize : UInt64)
  | putKey (r : { r : KeyRecord // r.Fits })
  | getKey (version : UInt32)
  | latestKey
  | allKeys
  /-- A write to the heads or keys that fails. -/
  | writeFails (message : String)
  /-- The process ends, wherever its calls are, and `Db::open` runs in the next. -/
  | reopen

inductive Reply where
  | appended (seq : Nat) (timestampNs : Int)
  | batch (results : List (Nat × Int × Hash))
  | count (n : Nat)
  | entry (e : Option LogEntry)
  | seq (n : Option Nat)
  | page (entries : List LogEntry) (next : Nat)
  | entries (entries : List LogEntry)
  | head (sth : Option SignedTreeHead)
  | heads (heads : List SignedTreeHead)
  | key (r : Option KeyRecord)
  | keys (records : List KeyRecord)
  | done
  deriving DecidableEq

/-- The numbers an operation reserves. -/
def StoreOp.reserves : StoreOp → Nat
  | append _ _ _ => 1
  | appendBatch entries _ => entries.length
  | _ => 0

section

variable (F : Formats) (sha256 : Bytes → Hash)

/-- The puts of a call whose first number is `seq`. -/
def batchOf (timestampNs : Int64) : UInt64 → List (Vec × Vec) → List Put
  | _, [] => []
  | seq, (key, data) :: rest =>
    ⟨.log, seqKey seq.toNat, F.entry.encode (.new sha256 seq timestampNs key data)⟩ ::
      ⟨.index, ⟨key.val⟩, toBeBytes 8 seq.toNat⟩ :: batchOf timestampNs (seq + 1) rest

def resultsOf (timestampNs : Int64) : UInt64 → List (Vec × Vec) → List (Nat × Int × Hash)
  | _, [] => []
  | seq, (_, data) :: rest =>
    (seq.toNat, timestampNs.toInt, leafHash sha256 data.val) :: resultsOf timestampNs (seq + 1) rest

/-- `DbInner`, with the calls that have reserved and not committed. -/
structure Db where
  disk : Disk
  nextSeq : UInt64
  calls : List (List Put × Reply)

/-- Before the first `Db::open`. -/
def Db.init : Db := ⟨.empty, 0, []⟩

def Db.step (db : Db) : StoreOp → Db × Option (Except Error Reply)
  | .append key data ts =>
    let call := (batchOf F sha256 ts db.nextSeq [(key, data)], .appended db.nextSeq.toNat ts.toInt)
    ({ db with nextSeq := db.nextSeq + 1, calls := db.calls ++ [call] }, none)
  | .appendBatch [] _ => (db, some (.ok (.batch [])))
  | .appendBatch (e :: entries) ts =>
    let call := (batchOf F sha256 ts db.nextSeq (e :: entries), .batch (resultsOf sha256 ts db.nextSeq (e :: entries)))
    ({ db with nextSeq := db.nextSeq + .ofNat (e :: entries).length, calls := db.calls ++ [call] }, none)
  | .commit i =>
    match db.calls[i]? with
    | none => (db, none)
    | some call => ({ db with disk := db.disk.write call.1, calls := db.calls.eraseIdx i }, some (.ok call.2))
  | .commitFails i message =>
    match db.calls[i]? with
    | none => (db, none)
    | some _ => ({ db with calls := db.calls.eraseIdx i }, some (.error (.rocksDb message)))
  | .count => (db, some (.ok (.count db.nextSeq.toNat)))
  | .getBySeq seq => (db, some ((db.disk.getBySeq F seq).map .entry))
  | .getSeqByKey key => (db, some ((db.disk.getSeqByKey key).map fun n => .seq (n.map UInt64.toNat)))
  | .entriesByKey key fromSeq limit => (db, some ((db.disk.entriesByKey F key fromSeq limit).map fun r => .page r.1 r.2.toNat))
  | .seqRangePaged start stop limit => (db, some ((db.disk.seqRangePaged F start stop limit).map fun r => .page r.1 r.2.toNat))
  | .seqRange start stop => (db, some ((db.disk.seqRange F start stop).map .entries))
  | .latest n => (db, some ((db.disk.latest F n).map .entries))
  | .writeHead sth =>
    ({ db with disk := db.disk.write [⟨.heads, seqKey sth.val.treeSize, F.head.encode (.of sth.val sth.property)⟩] },
      some (.ok .done))
  | .latestHead => (db, some ((db.disk.latestHead F).map .head))
  | .headAtSize treeSize => (db, some ((db.disk.headAtSize F treeSize).map .head))
  | .headRange fromSize toSize => (db, some ((db.disk.headRange F fromSize toSize).map .heads))
  | .putKey r =>
    ({ db with disk := db.disk.put ⟨.keys, versionKey r.val.version, F.key.encode (.of r.val)⟩ }, some (.ok .done))
  | .getKey version => (db, some ((db.disk.getKey F version).map .key))
  | .latestKey => (db, some ((db.disk.latestKey F).map .key))
  | .allKeys => (db, some ((db.disk.allKeys F).map .keys))
  | .writeFails message => (db, some (.error (.rocksDb message)))
  | .reopen =>
    match db.disk.open with
    | .error e => (db, some (.error e))
    | .ok r => (⟨r.1, r.2, []⟩, some (.ok .done))

/-! ## The same over records -/

/-- The entries of a call, with bounded byte strings. -/
def pairsOf (entries : List (Vec × Vec)) : List (Bytes × Bytes) := entries.map fun e => (e.1.val, e.2.val)

/-- The log in the order of its numbers. -/
def Store.entries (s : Store) : List LogEntry := s.log.entries.map (·.2)

def Store.entriesByKey (s : Store) (key : Bytes) (fromSeq limit : Nat) : List LogEntry × Nat :=
  Server.pageOf 0 limit (Server.between (fun e => e.key = key) fromSeq 0 s.entries)

def Store.headRange (s : Store) (fromSize toSize : Nat) : List SignedTreeHead :=
  (s.heads.entries.filter fun row => decide (fromSize ≤ row.1 ∧ row.1 ≤ toSize)).map (·.2)

structure Mem where
  store : Store
  nextSeq : Nat
  calls : List (List LogEntry × Reply)

def Mem.init : Mem := ⟨.empty, 0, []⟩

/-- The only error is that of a write that failed. -/
def Mem.step (m : Mem) : StoreOp → Mem × Option (Except String Reply)
  | .append key data ts =>
    let call := (entriesOf sha256 m.nextSeq ts.toInt [(key.val, data.val)], .appended m.nextSeq ts.toInt)
    ({ m with nextSeq := m.nextSeq + 1, calls := m.calls ++ [call] }, none)
  | .appendBatch [] _ => (m, some (.ok (.batch [])))
  | .appendBatch (e :: entries) ts =>
    let batch := entriesOf sha256 m.nextSeq ts.toInt (pairsOf (e :: entries))
    let call := (batch, .batch (batch.map fun e => (e.seq, e.timestampNs, e.leafHash)))
    ({ m with nextSeq := m.nextSeq + (e :: entries).length, calls := m.calls ++ [call] }, none)
  | .commit i =>
    match m.calls[i]? with
    | none => (m, none)
    | some call => ({ m with store := m.store.writeBatch call.1, calls := m.calls.eraseIdx i }, some (.ok call.2))
  | .commitFails i message =>
    match m.calls[i]? with
    | none => (m, none)
    | some _ => ({ m with calls := m.calls.eraseIdx i }, some (.error message))
  | .count => (m, some (.ok (.count m.nextSeq)))
  | .getBySeq seq => (m, some (.ok (.entry (m.store.getBySeq seq.toNat))))
  | .getSeqByKey key => (m, some (.ok (.seq (m.store.getSeqByKey key))))
  | .entriesByKey key fromSeq limit =>
    let r := m.store.entriesByKey key fromSeq.toNat limit
    (m, some (.ok (.page r.1 r.2)))
  | .seqRangePaged start stop limit =>
    let r := m.store.seqRangePaged start.toNat stop.toNat limit
    (m, some (.ok (.page r.1 r.2)))
  | .seqRange start stop => (m, some (.ok (.entries (m.store.seqRange start.toNat stop.toNat))))
  | .latest n => (m, some (.ok (.entries (Server.latestEntries m.store n))))
  | .writeHead sth => ({ m with store := m.store.writeHead sth.val }, some (.ok .done))
  | .latestHead => (m, some (.ok (.head m.store.latestHead)))
  | .headAtSize treeSize => (m, some (.ok (.head (m.store.headAtSize treeSize.toNat))))
  | .headRange fromSize toSize => (m, some (.ok (.heads (m.store.headRange fromSize.toNat toSize.toNat))))
  | .putKey r => ({ m with store := m.store.putKey r.val }, some (.ok .done))
  | .getKey version => (m, some (.ok (.key (m.store.getKey version.toNat))))
  | .latestKey => (m, some (.ok (.key m.store.latestKey)))
  | .allKeys => (m, some (.ok (.keys m.store.allKeys)))
  | .writeFails message => (m, some (.error message))
  | .reopen => (⟨m.store, m.store.nextSeq, []⟩, some (.ok .done))

end

/-! ## A disk and the store it stands for -/

def SeqRow (k : Key) (n : Nat) : Prop := n < 2 ^ 64 ∧ k = seqKey n

def VersionRow (k : Key) (n : Nat) : Prop := n < 2 ^ 32 ∧ k = versionKey n

def SeqBytes (v : Bytes) (n : Nat) : Prop := n < 2 ^ 64 ∧ v = toBeBytes 8 n

/-- The value of a row in the log CF. -/
def ReadsEntry (F : Formats) (v : Bytes) (e : LogEntry) : Prop := ∃ p, F.entry.decode v = some p ∧ p.tryFrom = .ok e

structure Represents (F : Formats) (d : Disk) (s : Store) : Prop where
  log : Mirrors SeqRow (ReadsEntry F) (d .log) s.log
  index : ∀ k, Option.Rel SeqBytes ((d .index).get? ⟨k⟩) (s.index k)
  heads : Mirrors SeqRow (fun v sth => F.readHead v = .ok sth) (d .heads) s.heads
  keys : Mirrors VersionRow (fun v r => F.readKey v = .ok r) (d .keys) s.keys
  /-- Not written before the first open. -/
  schema : ∀ v, (d .default).get? schemaVersionKey = some v → v = toBeBytes 4 currentSchemaVersion

section

variable {F : Formats} {d : Disk} {s : Store}

theorem SeqRow.lt {a b : Key} {m n : Nat} (ha : SeqRow a m) (hb : SeqRow b n) : a < b ↔ m < n := by
  rw [ha.2, hb.2]
  exact seqKey_lt ha.1 hb.1

theorem VersionRow.lt {a b : Key} {m n : Nat} (ha : VersionRow a m) (hb : VersionRow b n) : a < b ↔ m < n := by
  rw [ha.2, hb.2]
  exact Key.lt_iff.trans (digits_lt (w := 4) ha.1 hb.1)

theorem SeqRow.of (n : UInt64) : SeqRow (seqKey n.toNat) n.toNat := ⟨n.toNat_lt, rfl⟩

theorem VersionRow.of (n : UInt32) : VersionRow (versionKey n.toNat) n.toNat := ⟨n.toNat_lt, rfl⟩

theorem SeqRow.seqOfKey {k : Key} {n : Nat} (h : SeqRow k n) (message : String) :
    Storage.seqOfKey message k = .ok (.ofNat n) := by
  rw [Storage.seqOfKey, h.2, fromBeBytes_seqKey h.1]

/-! ### Writing -/

theorem Disk.put_self (d : Disk) (p : Put) : d.put p p.cf = (d p.cf).put p.key p.value := if_pos rfl

theorem Disk.put_of_ne {cf : Cf} {p : Put} (h : cf ≠ p.cf) : d.put p cf = d cf := if_neg h

theorem Represents.putLog (h : Represents F d s) {e : LogEntry} {v : Bytes} (hseq : e.seq < 2 ^ 64) (hv : ReadsEntry F v e) :
    Represents F (d.put ⟨.log, seqKey e.seq, v⟩) { s with log := s.log.put e.seq e } where
  log := by rw [Disk.put_self]; exact h.log.put SeqRow.lt ⟨hseq, rfl⟩ hv
  index := h.index
  heads := h.heads
  keys := h.keys
  schema := h.schema

theorem Represents.putIndex (h : Represents F d s) {key : Bytes} {n : Nat} (hn : n < 2 ^ 64) :
    Represents F (d.put ⟨.index, ⟨key⟩, toBeBytes 8 n⟩)
      { s with index := fun k => if k = key then some n else s.index k } where
  log := h.log
  index k := by
    rw [Disk.put_self, OrdMap.get?_put]
    dsimp only
    by_cases hk : k = key
    · rw [if_pos (by rw [hk]), if_pos hk]
      exact .some ⟨hn, rfl⟩
    · rw [if_neg (fun hkey => hk (Key.mk.inj hkey)), if_neg hk]
      exact h.index k
  heads := h.heads
  keys := h.keys
  schema := h.schema

theorem Represents.writeHead (h : Represents F d s) {sth : SignedTreeHead} (hf : sth.Fits) :
    Represents F (d.put ⟨.heads, seqKey sth.treeSize, F.head.encode (.of sth hf)⟩) (s.writeHead sth) where
  log := h.log
  index := h.index
  heads := by rw [Disk.put_self]; exact h.heads.put SeqRow.lt ⟨hf.treeSize, rfl⟩ (readHead_write F hf)
  keys := h.keys
  schema := h.schema

theorem Represents.putKey (h : Represents F d s) {r : KeyRecord} (hf : r.Fits) :
    Represents F (d.put ⟨.keys, versionKey r.version, F.key.encode (.of r)⟩) (s.putKey r) where
  log := h.log
  index := h.index
  heads := h.heads
  keys := by rw [Disk.put_self]; exact h.keys.put VersionRow.lt ⟨hf.version, rfl⟩ (readKey_write F hf)
  schema := h.schema

/-- The puts of a batch, and its entries. -/
inductive BatchOf (F : Formats) : List Put → List LogEntry → Prop
  | nil : BatchOf F [] []
  | cons {e : LogEntry} {v : Bytes} {puts : List Put} {es : List LogEntry} : e.seq < 2 ^ 64 → ReadsEntry F v e →
      BatchOf F puts es →
      BatchOf F (⟨.log, seqKey e.seq, v⟩ :: ⟨.index, ⟨e.key⟩, toBeBytes 8 e.seq⟩ :: puts) (e :: es)

theorem Represents.write {puts : List Put} {es : List LogEntry} (hb : BatchOf F puts es) :
    ∀ {d : Disk} {s : Store}, Represents F d s → Represents F (d.write puts) (s.writeBatch es) := by
  induction hb with
  | nil => intro d s h; exact h
  | cons hseq hv _ ih => intro d s h; exact ih ((h.putLog hseq hv).putIndex hseq)

theorem batchOf_entriesOf (F : Formats) (sha256 : Bytes → Hash) (ts : Int64) : ∀ (entries : List (Vec × Vec)) (seq : UInt64),
    seq.toNat + entries.length ≤ u64Max →
    BatchOf F (batchOf F sha256 ts seq entries) (entriesOf sha256 seq.toNat ts.toInt (pairsOf entries)) := by
  intro entries
  induction entries with
  | nil => intro seq _; exact .nil
  | cons e entries ih =>
    intro seq hb
    obtain ⟨key, data⟩ := e
    rw [List.length_cons] at hb
    have hnext : (seq + 1).toNat = seq.toNat + 1 := by
      unfold u64Max at hb
      rw [UInt64.toNat_add, UInt64.toNat_one]
      omega
    have hrest := ih (seq + 1) (by omega)
    rw [hnext] at hrest
    have hread := readEntry_write F sha256 seq ts key data
    rw [Formats.readEntry, readAs_encode] at hread
    rw [batchOf, pairsOf, List.map_cons, entriesOf]
    exact .cons (e := ⟨seq.toNat, ts.toInt, key.val, data.val, leafHash sha256 data.val⟩) seq.toNat_lt
      ⟨_, F.entry.decode_encode _, hread⟩ hrest

theorem resultsOf_entriesOf (sha256 : Bytes → Hash) (ts : Int64) : ∀ (entries : List (Vec × Vec)) {seq : UInt64},
    seq.toNat + entries.length ≤ u64Max →
    resultsOf sha256 ts seq entries =
      (entriesOf sha256 seq.toNat ts.toInt (pairsOf entries)).map fun e => (e.seq, e.timestampNs, e.leafHash) := by
  intro entries
  induction entries with
  | nil => intro seq _; rfl
  | cons e entries ih =>
    intro seq hb
    obtain ⟨key, data⟩ := e
    rw [List.length_cons] at hb
    have hnext : (seq + 1).toNat = seq.toNat + 1 := by
      unfold u64Max at hb
      rw [UInt64.toNat_add, UInt64.toNat_one]
      omega
    rw [resultsOf, ih (by omega), hnext]
    rfl

/-! ### Reading -/

theorem ReadsEntry.decodeEntry {v : Bytes} {e : LogEntry} (h : ReadsEntry F v e) :
    ∃ p, Storage.decodeEntry F v = .ok p ∧ p.tryFrom = .ok e ∧ p.key.val = e.key := by
  obtain ⟨p, hp, he⟩ := h
  refine ⟨p, by rw [Storage.decodeEntry, hp], he, ?_⟩
  unfold LogEntryProto.tryFrom at he
  cases harr : tryArray 32 "leaf_hash must be 32 bytes" p.leafHash.val with
  | error err => rw [harr] at he; cases he
  | ok leaf => rw [harr] at he; cases he; rfl

theorem ReadsEntry.readEntry {v : Bytes} {e : LogEntry} (h : ReadsEntry F v e) : F.readEntry v = .ok e := by
  obtain ⟨p, hp, he⟩ := h
  rw [Formats.readEntry, readAs, hp]
  exact he

theorem readOption_eq {R : Type} {rv : Bytes → R → Prop} {read : Bytes → Except Error R}
    (hread : ∀ v r, rv v r → read v = .ok r) {v : Option Bytes} {r : Option R} (h : Option.Rel rv v r) :
    readOption read v = .ok r := by
  cases h with
  | none => rfl
  | some hv => rw [readOption, hread _ _ hv]; rfl

/-- The value of the last row. -/
theorem rel_last_value {K V K' V' : Type} {rk : K → K' → Prop} {rv : V → V' → Prop} {x : Option (K × V)} {y : Option (K' × V')}
    (h : Option.Rel (RowRel rk rv) x y) : Option.Rel rv (x.map (·.2)) (y.map (·.2)) := by
  cases h with
  | none => exact .none
  | some hxy => exact .some hxy.2

theorem Represents.getBySeq (h : Represents F d s) (seq : UInt64) : d.getBySeq F seq = .ok (s.getBySeq seq.toNat) :=
  readOption_eq (fun _ _ hv => hv.readEntry) (h.log.get? SeqRow.lt (SeqRow.of seq))

theorem Represents.latestHead (h : Represents F d s) : d.latestHead F = .ok s.latestHead :=
  readOption_eq (fun _ _ hv => hv) (rel_last_value h.heads.last?)

theorem Represents.headAtSize (h : Represents F d s) (size : UInt64) : d.headAtSize F size = .ok (s.headAtSize size.toNat) :=
  readOption_eq (fun _ _ hv => hv) (h.heads.get? SeqRow.lt (SeqRow.of size))

theorem Represents.getKey (h : Represents F d s) (version : UInt32) : d.getKey F version = .ok (s.getKey version.toNat) :=
  readOption_eq (fun _ _ hv => hv) (h.keys.get? VersionRow.lt (VersionRow.of version))

theorem Represents.latestKey (h : Represents F d s) : d.latestKey F = .ok s.latestKey :=
  readOption_eq (fun _ _ hv => hv) (rel_last_value h.keys.last?)

theorem Represents.getSeqByKey (h : Represents F d s) (key : Bytes) :
    ∃ n, d.getSeqByKey key = .ok n ∧ n.map UInt64.toNat = s.getSeqByKey key := by
  have hrel := h.index key
  unfold Disk.getSeqByKey Store.getSeqByKey
  cases hv : (d .index).get? ⟨key⟩ with
  | none =>
    rw [hv] at hrel
    cases hn : s.index key with
    | none => exact ⟨none, rfl, rfl⟩
    | some n => rw [hn] at hrel; cases hrel
  | some v =>
    rw [hv] at hrel
    cases hn : s.index key with
    | none => rw [hn] at hrel; cases hrel
    | some n =>
      rw [hn] at hrel
      cases hrel with
      | some hvn =>
        have hread : fromBeBytes v = some n := by
          rw [hvn.2]
          exact fromBeBytes_seqKey hvn.1
        refine ⟨some (.ofNat n), by simp only [hread], ?_⟩
        rw [Option.map_some, UInt64.toNat_ofNat', Nat.mod_eq_of_lt hvn.1]

/-- Rows of the log CF and rows of the log. -/
abbrev LogRows (F : Formats) : List (Key × Bytes) → List (Nat × LogEntry) → Prop :=
  List.Forall₂ (RowRel SeqRow (ReadsEntry F))

theorem ofNat_le_iff {stop : UInt64} {n : Nat} (hn : n < 2 ^ 64) : stop ≤ UInt64.ofNat n ↔ stop.toNat ≤ n := by
  rw [UInt64.le_iff_toNat_le, UInt64.toNat_ofNat', Nat.mod_eq_of_lt hn]

theorem seqRangeLoop_eq (stop : UInt64) {rows : List (Key × Bytes)} {trows : List (Nat × LogEntry)} (h : LogRows F rows trows) :
    ∀ entries, seqRangeLoop F stop rows entries =
      .ok (entries ++ (trows.takeWhile fun row => row.1 < stop.toNat).map (·.2)) := by
  induction h with
  | nil => intro entries; simp [seqRangeLoop]
  | @cons row trow rows trows hrow _ ih =>
    intro entries
    obtain ⟨p, hp, he, -⟩ := hrow.2.decodeEntry
    simp only [seqRangeLoop, hrow.1.seqOfKey, hp, he, bind, Except.bind, ofNat_le_iff hrow.1.1, List.takeWhile_cons]
    by_cases hstop : stop.toNat ≤ trow.1
    · rw [if_pos hstop, if_neg (by simpa using hstop), List.map_nil, List.append_nil]
      rfl
    · rw [if_neg hstop, if_pos (by simpa using hstop), ih, List.map_cons, List.append_assoc, List.singleton_append]

theorem Represents.seqRange (h : Represents F d s) (start stop : UInt64) :
    d.seqRange F start stop = .ok (s.seqRange start.toNat stop.toNat) := by
  rw [Disk.seqRange, rowsFrom, seqRangeLoop_eq stop (paired_dropWhile SeqRow.lt (SeqRow.of start) h.log), List.nil_append]
  rfl

theorem latestLoop_eq (n : Nat) {rows : List (Key × Bytes)} {trows : List (Nat × LogEntry)} (h : LogRows F rows trows) :
    ∀ entries, latestLoop F n rows entries = .ok (Server.latestLoop n trows entries) := by
  induction h with
  | nil => intro entries; rfl
  | @cons row trow rows trows hrow _ ih =>
    intro entries
    obtain ⟨p, hp, he, -⟩ := hrow.2.decodeEntry
    simp only [latestLoop, Server.latestLoop, hp, he, bind, Except.bind]
    split
    · rfl
    · exact ih _

theorem Represents.latest (h : Represents F d s) (n : Nat) : d.latest F n = .ok (Server.latestEntries s n) := by
  rw [Disk.latest, Server.latestEntries]
  split
  · rfl
  · exact latestLoop_eq n (List.rel_reverse h.log) []

theorem allKeysLoop_eq {rows : List (Key × Bytes)} {trows : List (Nat × KeyRecord)}
    (h : List.Forall₂ (RowRel VersionRow fun v r => F.readKey v = .ok r) rows trows) :
    ∀ records, allKeysLoop F rows records = .ok (records ++ trows.map (·.2)) := by
  induction h with
  | nil => intro records; simp [allKeysLoop]
  | @cons row trow rows trows hrow _ ih =>
    intro records
    simp only [allKeysLoop, hrow.2, bind, Except.bind, ih, List.map_cons, List.append_assoc, List.singleton_append]

theorem Represents.allKeys (h : Represents F d s) : d.allKeys F = .ok s.allKeys := allKeysLoop_eq h.keys []

theorem headRangeLoop_eq (toSize : UInt64) {rows : List (Key × Bytes)} {trows : List (Nat × SignedTreeHead)}
    (h : List.Forall₂ (RowRel SeqRow fun v sth => F.readHead v = .ok sth) rows trows) :
    ∀ heads, headRangeLoop F toSize rows heads = .ok (heads ++ (trows.takeWhile fun row => row.1 ≤ toSize.toNat).map (·.2)) := by
  induction h with
  | nil => intro heads; simp [headRangeLoop]
  | @cons row trow rows trows hrow _ ih =>
    intro heads
    have hlt : toSize < UInt64.ofNat trow.1 ↔ toSize.toNat < trow.1 := by
      rw [UInt64.lt_iff_toNat_lt, UInt64.toNat_ofNat', Nat.mod_eq_of_lt hrow.1.1]
    simp only [headRangeLoop, hrow.1.seqOfKey, hrow.2, bind, Except.bind, hlt, List.takeWhile_cons]
    by_cases hto : toSize.toNat < trow.1
    · rw [if_pos hto, if_neg (by simpa using hto), List.map_nil, List.append_nil]
      rfl
    · rw [if_neg hto, if_pos (by simpa using hto), ih, List.map_cons, List.append_assoc, List.singleton_append]

theorem Represents.headRange (h : Represents F d s) (fromSize toSize : UInt64) :
    d.headRange F fromSize toSize = .ok (s.headRange fromSize.toNat toSize.toNat) := by
  have hsorted := s.heads.sorted
  have hdrop := OrdMap.dropWhile_eq_filter (fun row : Nat × SignedTreeHead => row.1) fromSize.toNat hsorted
  have htake := OrdMap.takeWhile_eq_filter (fun row : Nat × SignedTreeHead => row.1) (p := fun row => decide (row.1 ≤ toSize.toNat))
    (fun a b hab hb => decide_eq_true (Nat.le_trans (Nat.le_of_lt hab) (of_decide_eq_true hb)))
    (hsorted.filter fun row => fromSize.toNat ≤ row.1)
  rw [Disk.headRange, rowsFrom, headRangeLoop_eq toSize (paired_dropWhile SeqRow.lt (SeqRow.of fromSize) h.heads),
    List.nil_append, hdrop, htake, List.filter_filter, Store.headRange]
  congr 2
  apply List.filter_congr
  intro row _
  rw [← Bool.decide_and, decide_eq_decide]
  exact and_comm

/-! ### Pages -/

/-- Each row of the log stands under its entry's number, which has a successor. -/
def OwnRows (trows : List (Nat × LogEntry)) : Prop := ∀ row ∈ trows, row.2.seq = row.1 ∧ row.1 < u64Max

theorem OwnRows.tail {row : Nat × LogEntry} {trows : List (Nat × LogEntry)} (h : OwnRows (row :: trows)) : OwnRows trows :=
  fun r hr => h r (List.mem_cons_of_mem _ hr)

theorem ofNat_succ {n : Nat} : UInt64.ofNat n + 1 = UInt64.ofNat (n + 1) := by
  rw [UInt64.ofNat_add]
  rfl

/-- The loops over bytes collect what the loop over records does. -/
theorem entriesByKeyLoop_eq (key : Bytes) (limit : Nat) {rows : List (Key × Bytes)} {trows : List (Nat × LogEntry)}
    (h : LogRows F rows trows) : OwnRows trows → ∀ {entries : List LogEntry} {r : List LogEntry × Nat},
    Server.scanLoop (fun e => e.key = key) 0 limit (Server.rowsOf (trows.map (·.2))) entries = .ok r →
    entriesByKeyLoop F key limit rows entries = .ok (r.1, .ofNat r.2) := by
  induction h with
  | nil => intro _ entries r hr; cases hr; rfl
  | @cons row trow rows trows hrow _ ih =>
    intro hown entries r hr
    obtain ⟨hseq, -⟩ := hown trow List.mem_cons_self
    obtain ⟨p, hp, he, hkey⟩ := hrow.2.decodeEntry
    rw [List.map_cons, Server.rowsOf, List.map_cons, Server.scanLoop, hseq, fromBeBytes_seqKey hrow.1.1] at hr
    simp only [entriesByKeyLoop, hrow.1.seqOfKey, hp, he, hkey, bind, Except.bind]
    simp only [ne_eq, not_true_eq_false, false_and, if_false, decide_eq_true_eq, true_or, if_true] at hr
    split at hr
    next hk =>
      rw [if_pos hk]
      split at hr
      next hfull => cases hr; rw [if_pos hfull, ofNat_succ]; rfl
      next hfull => rw [if_neg hfull]; exact ih hown.tail hr
    next hk => rw [if_neg hk]; exact ih hown.tail hr

theorem seqRangePagedLoop_eq (stop : UInt64) (limit : Nat) {rows : List (Key × Bytes)} {trows : List (Nat × LogEntry)}
    (h : LogRows F rows trows) : OwnRows trows → ∀ {entries : List LogEntry} {r : List LogEntry × Nat},
    Server.scanLoop (fun _ => true) stop.toNat limit (Server.rowsOf (trows.map (·.2))) entries = .ok r →
    seqRangePagedLoop F stop limit rows entries = .ok (r.1, .ofNat r.2) := by
  induction h with
  | nil => intro _ entries r hr; cases hr; rfl
  | @cons row trow rows trows hrow _ ih =>
    intro hown entries r hr
    obtain ⟨hseq, hbound⟩ := hown trow List.mem_cons_self
    obtain ⟨p, hp, he, -⟩ := hrow.2.decodeEntry
    have hzero : stop = 0 ↔ stop.toNat = 0 := by
      rw [← UInt64.toNat_inj]
      rfl
    have hnext : UInt64.ofNat (trow.1 + 1) < stop ↔ trow.1 + 1 < stop.toNat := by
      unfold u64Max at hbound
      rw [UInt64.lt_iff_toNat_lt, UInt64.toNat_ofNat', Nat.mod_eq_of_lt (by omega)]
    rw [List.map_cons, Server.rowsOf, List.map_cons, Server.scanLoop, hseq, fromBeBytes_seqKey hrow.1.1] at hr
    simp only [seqRangePagedLoop, hrow.1.seqOfKey, hp, he, bind, Except.bind, ofNat_le_iff hrow.1.1, ne_eq, hzero, ofNat_succ, hnext]
    simp only [if_true] at hr
    split at hr
    next hstop => cases hr; rw [if_pos hstop]; rfl
    next hstop =>
      rw [if_neg hstop]
      split at hr
      next hfull =>
        cases hr
        rw [if_pos hfull]
        by_cases hlt : stop.toNat = 0 ∨ trow.1 + 1 < stop.toNat
        · rw [if_pos hlt, if_pos hlt]; rfl
        · rw [if_neg hlt, if_neg hlt]; rfl
      next hfull => rw [if_neg hfull]; exact ih hown.tail hr

theorem OwnRows.logged (h : OwnRows s.log.entries) : Logged s s.entries := by
  have hrow : ∀ row ∈ s.log.entries, (row.2.seq, row.2) = id row := fun row hr => by rw [(h row hr).1]; rfl
  refine ⟨?_, fun e he => ?_⟩
  · rw [Store.entries, List.map_map]
    exact ((List.map_congr_left hrow).trans (List.map_id _)).symm
  · obtain ⟨row, hr, rfl⟩ := List.mem_map.mp he
    obtain ⟨hseq, hlt⟩ := h row hr
    rw [hseq]
    exact hlt

/-- A scan from `start` meets the entries from number `start` on. -/
theorem OwnRows.dropWhile (h : OwnRows s.log.entries) (start : Nat) :
    (s.log.entries.dropWhile fun row => row.1 < start).map (·.2) = s.entries.filter fun e => start ≤ e.seq := by
  rw [OrdMap.dropWhile_eq_filter (fun row : Nat × LogEntry => row.1) start s.log.sorted, Store.entries, List.filter_map]
  congr 1
  apply List.filter_congr
  intro row hr
  rw [Function.comp_apply, (h row hr).1]

theorem OwnRows.scanLoop (h : OwnRows s.log.entries) (keep : LogEntry → Bool) (start stop : Nat) {limit : Nat} (hl : 0 < limit) :
    Server.scanLoop keep stop limit (Server.rowsOf ((s.log.entries.dropWhile fun row => row.1 < start).map (·.2))) [] =
      .ok (Server.pageOf stop limit (Server.between keep start stop s.entries)) := by
  have hasc := (Server.ascending_of_logged h.logged).filter fun e => start ≤ e.seq
  have hfilter : (s.entries.filter fun e => start ≤ e.seq).filter (fun e => keep e && Server.below stop e) =
      Server.between keep start stop s.entries := by
    rw [Server.between, List.filter_filter]
    simp only [Bool.and_comm]
  rw [h.dropWhile, hasc.scanLoop keep [] (by rw [List.length_nil]; exact hl), List.nil_append, List.length_nil, Nat.sub_zero,
    hfilter]

theorem pageOf_zero (stop : Nat) (es : List LogEntry) : Server.pageOf stop 0 es = ([], 0) := by
  rw [Server.pageOf, List.take_zero]
  rfl

/-- A cursor is a number of the log and one more, or 0. -/
theorem pageOf_cursor {stop limit : Nat} {es : List LogEntry} (h : ∀ e ∈ es, e.seq < u64Max) :
    (Server.pageOf stop limit es).2 < 2 ^ 64 := by
  unfold Server.pageOf Server.nextCursor
  dsimp only
  split
  · decide
  next e he =>
    have hlt := h e (List.mem_of_mem_take (List.mem_of_getLast? he))
    unfold u64Max at hlt
    split
    · decide
    · split
      · omega
      · decide

theorem OwnRows.page_reply (hown : OwnRows s.log.entries) {keep : LogEntry → Bool} {start stop limit : Nat}
    {r : List LogEntry × UInt64}
    (hr : r = ((Server.pageOf stop limit (Server.between keep start stop s.entries)).1,
      .ofNat (Server.pageOf stop limit (Server.between keep start stop s.entries)).2)) :
    Reply.page r.1 r.2.toNat = Reply.page (Server.pageOf stop limit (Server.between keep start stop s.entries)).1
      (Server.pageOf stop limit (Server.between keep start stop s.entries)).2 := by
  have hcursor : (Server.pageOf stop limit (Server.between keep start stop s.entries)).2 < 2 ^ 64 :=
    pageOf_cursor fun e he => hown.logged.bound e (List.mem_filter.mp he).1
  rw [hr, UInt64.toNat_ofNat', Nat.mod_eq_of_lt hcursor]

theorem Represents.entriesByKey (h : Represents F d s) (hown : OwnRows s.log.entries) (key : Bytes) (fromSeq : UInt64) (limit : Nat) :
    (d.entriesByKey F key fromSeq limit).map (fun r => Reply.page r.1 r.2.toNat) =
      .ok (.page (s.entriesByKey key fromSeq.toNat limit).1 (s.entriesByKey key fromSeq.toNat limit).2) := by
  rw [Disk.entriesByKey, Store.entriesByKey]
  split
  next h0 => rw [h0, pageOf_zero]; rfl
  next h0 =>
    have hrows := paired_dropWhile SeqRow.lt (SeqRow.of fromSeq) h.log
    have hown' : OwnRows (s.log.entries.dropWhile fun row => row.1 < fromSeq.toNat) :=
      fun row hr => hown row ((List.dropWhile_sublist _).mem hr)
    have hloop := entriesByKeyLoop_eq key limit hrows hown' (hown.scanLoop (fun e => e.key = key) fromSeq.toNat 0 (Nat.pos_of_ne_zero h0))
    rw [rowsFrom, hloop]
    exact congrArg Except.ok (hown.page_reply rfl)

theorem seqRangePaged_eq_pageOf (hown : OwnRows s.log.entries) (start stop limit : Nat) :
    s.seqRangePaged start stop limit = Server.pageOf stop limit (Server.between (fun _ => true) start stop s.entries) := by
  have hrows : ∀ es : List LogEntry, (es.map fun e => (e.seq, e)).map (·.2) = es := fun es => by
    rw [List.map_map]
    exact List.map_id es
  have hlog := hown.logged.log
  have hsorted := s.log.sorted
  rw [Store.seqRangePaged]
  split
  next h0 => rw [h0, pageOf_zero]
  next h0 =>
    have hdrop : (s.log.entries.dropWhile fun row => row.1 < start) = (s.entries.filter fun e => start ≤ e.seq).map fun e => (e.seq, e) := by
      rw [OrdMap.dropWhile_eq_filter (fun row : Nat × LogEntry => row.1) start hsorted, hlog, List.filter_map]
      rfl
    have hbetween : (if stop = 0 then (s.log.entries.dropWhile fun row => row.1 < start)
        else (s.log.entries.dropWhile fun row => row.1 < start).takeWhile fun row => row.1 < stop) =
        (Server.between (fun _ => true) start stop s.entries).map fun e => (e.seq, e) := by
      have hfilter : Server.between (fun _ => true) start stop s.entries =
          (s.entries.filter fun e => start ≤ e.seq).filter (Server.below stop) := by
        rw [Server.between, List.filter_filter]
        simp only [Bool.true_and, Bool.and_comm]
      rw [hfilter, hdrop]
      split
      next hs0 =>
        congr 1
        exact (List.filter_eq_self.mpr fun e _ => decide_eq_true (Or.inl hs0)).symm
      next hs0 =>
        have hasc := ((Server.ascending_of_logged hown.logged).filter fun e => start ≤ e.seq).1
        rw [List.takeWhile_map, ← OrdMap.takeWhile_eq_filter (fun e : LogEntry => e.seq) ?_ hasc]
        · congr 2
          funext e
          rw [Function.comp_apply, Server.below, decide_eq_decide]
          omega
        · intro a b hab hb
          have hb := of_decide_eq_true hb
          exact decide_eq_true (by omega)
    dsimp only
    rw [hbetween, ← List.map_take, hrows, Server.pageOf, Server.nextCursor, List.getLast?_map, List.length_map]
    cases ((Server.between (fun _ => true) start stop s.entries).take limit).getLast? with
    | none => rfl
    | some e => rfl

theorem Represents.seqRangePaged (h : Represents F d s) (hown : OwnRows s.log.entries) (start stop : UInt64) (limit : Nat) :
    (d.seqRangePaged F start stop limit).map (fun r => Reply.page r.1 r.2.toNat) =
      .ok (.page (s.seqRangePaged start.toNat stop.toNat limit).1 (s.seqRangePaged start.toNat stop.toNat limit).2) := by
  rw [Disk.seqRangePaged, seqRangePaged_eq_pageOf hown]
  split
  next h0 => rw [h0, pageOf_zero]; rfl
  next h0 =>
    have hrows := paired_dropWhile SeqRow.lt (SeqRow.of start) h.log
    have hown' : OwnRows (s.log.entries.dropWhile fun row => row.1 < start.toNat) :=
      fun row hr => hown row ((List.dropWhile_sublist _).mem hr)
    have hloop := seqRangePagedLoop_eq stop limit hrows hown' (hown.scanLoop (fun _ => true) start.toNat stop.toNat (Nat.pos_of_ne_zero h0))
    rw [rowsFrom, hloop]
    exact congrArg Except.ok (hown.page_reply rfl)

/-! ### Opening -/

theorem Represents.checkSchema (h : Represents F d s) : ∃ d', d.checkSchema = .ok d' ∧ d' .log = d .log ∧ Represents F d' s := by
  unfold Disk.checkSchema
  split
  next hnone =>
    refine ⟨_, rfl, rfl, h.log, h.index, h.heads, h.keys, fun v hv => ?_⟩
    rw [Disk.put_self, OrdMap.get?_put, if_pos rfl] at hv
    exact (Option.some.inj hv).symm
  next v hv =>
    have hv := h.schema v hv
    subst hv
    exact ⟨d, rfl, rfl, h⟩

theorem Represents.open (h : Represents F d s) :
    ∃ d', d.open = .ok (d', .ofNat s.nextSeq) ∧ Represents F d' s := by
  obtain ⟨d', hd', hlog, hrep⟩ := h.checkSchema
  refine ⟨d', ?_, hrep⟩
  have hlast := h.log.last?
  rw [← hlog] at hlast
  simp only [Disk.open, hd', bind, Except.bind, Store.nextSeq]
  cases hb : (d' .log).last? with
  | none =>
    rw [hb] at hlast
    cases hs : s.log.last? with
    | none => rfl
    | some row => rw [hs] at hlast; cases hlast
  | some row =>
    rw [hb] at hlast
    cases hs : s.log.last? with
    | none => rw [hs] at hlast; cases hlast
    | some trow =>
      rw [hs] at hlast
      cases hlast with
      | some hrow =>
        simp only [hrow.1.seqOfKey, ofNat_succ]
        rfl

/-! ## In step -/

/-- A call under way, and the same over records. -/
structure CallOf (F : Formats) (nextSeq : Nat) (c : List Put × Reply) (c' : List LogEntry × Reply) : Prop where
  batch : BatchOf F c.1 c'.1
  reply : c.2 = c'.2
  lt : ∀ e ∈ c'.1, e.seq < nextSeq

structure InStep (F : Formats) (db : Db) (m : Mem) : Prop where
  disk : Represents F db.disk m.store
  nextSeq : db.nextSeq.toNat = m.nextSeq
  own : ∀ row ∈ m.store.log.entries, row.2.seq = row.1 ∧ row.1 < m.nextSeq
  calls : List.Forall₂ (CallOf F m.nextSeq) db.calls m.calls

variable {db : Db} {m : Mem}

theorem CallOf.grow {n n' : Nat} (hle : n ≤ n') {c : List Put × Reply} {c' : List LogEntry × Reply} (h : CallOf F n c c') :
    CallOf F n' c c' := ⟨h.batch, h.reply, fun e he => Nat.lt_of_lt_of_le (h.lt e he) hle⟩

theorem InStep.ownRows (h : InStep F db m) (hb : m.nextSeq ≤ u64Max) : OwnRows m.store.log.entries :=
  fun row hr => ⟨(h.own row hr).1, Nat.lt_of_lt_of_le (h.own row hr).2 hb⟩

theorem own_writeBatch {n : Nat} : ∀ {es : List LogEntry} {s : Store},
    (∀ row ∈ s.log.entries, row.2.seq = row.1 ∧ row.1 < n) → (∀ e ∈ es, e.seq < n) →
    ∀ row ∈ (s.writeBatch es).log.entries, row.2.seq = row.1 ∧ row.1 < n := by
  intro es
  induction es with
  | nil => intro s h _; exact h
  | cons e es ih =>
    intro s h hes
    refine ih (s := s.putEntry e) (fun row hr => ?_) fun f hf => hes f (List.mem_cons_of_mem _ hf)
    rcases OrdMap.mem_insert hr with rfl | hr
    · exact ⟨rfl, hes e List.mem_cons_self⟩
    · exact h row hr

/-- A call reserves `n` numbers. -/
theorem InStep.reserve (h : InStep F db m) {n : Nat} (hb : m.nextSeq + n ≤ u64Max) {c : List Put × Reply}
    {c' : List LogEntry × Reply} (hbatch : BatchOf F c.1 c'.1) (hreply : c.2 = c'.2)
    (hlt : ∀ e ∈ c'.1, e.seq < m.nextSeq + n) :
    InStep F { db with nextSeq := db.nextSeq + .ofNat n, calls := db.calls ++ [c] }
      { m with nextSeq := m.nextSeq + n, calls := m.calls ++ [c'] } where
  disk := h.disk
  nextSeq := by
    show (db.nextSeq + UInt64.ofNat n).toNat = m.nextSeq + n
    unfold u64Max at hb
    rw [UInt64.toNat_add, UInt64.toNat_ofNat', h.nextSeq]
    omega
  own row hr := ⟨(h.own row hr).1, Nat.lt_of_lt_of_le (h.own row hr).2 (Nat.le_add_right _ _)⟩
  calls := paired_push (h.calls.imp fun _ _ hc => hc.grow (Nat.le_add_right _ _)) ⟨hbatch, hreply, hlt⟩

theorem seq_lt_of_mem_entriesOf {sha256 : Bytes → Hash} {first : Nat} {ts : Int} {reqs : List (Bytes × Bytes)} {e : LogEntry}
    (he : e ∈ entriesOf sha256 first ts reqs) : e.seq < first + reqs.length := by
  obtain ⟨i, hi⟩ := List.mem_iff_getElem?.mp he
  have hseq := (numbered_entriesOf sha256 reqs first ts i e hi).1
  have hlt := (List.getElem?_eq_some_iff.mp hi).1
  rw [length_entriesOf] at hlt
  omega

theorem InStep.commit (h : InStep F db m) {i : Nat} {c : List Put × Reply} {c' : List LogEntry × Reply}
    (hc : CallOf F m.nextSeq c c') :
    InStep F { db with disk := db.disk.write c.1, calls := db.calls.eraseIdx i }
      { m with store := m.store.writeBatch c'.1, calls := m.calls.eraseIdx i } where
  disk := Represents.write hc.batch h.disk
  nextSeq := h.nextSeq
  own := own_writeBatch h.own hc.lt
  calls := paired_eraseIdx h.calls i

theorem InStep.reopen (h : InStep F db m) (hb : m.nextSeq ≤ u64Max) :
    m.store.nextSeq ≤ m.nextSeq ∧
      ∃ disk, db.disk.open = .ok (disk, .ofNat m.store.nextSeq) ∧
        InStep F ⟨disk, .ofNat m.store.nextSeq, []⟩ ⟨m.store, m.store.nextSeq, []⟩ := by
  have hown := h.ownRows hb
  obtain ⟨hlt, hmax⟩ := hown.logged.nextSeq
  obtain ⟨disk, hopen, hrep⟩ := h.disk.open
  have hle : m.store.nextSeq ≤ m.nextSeq := by
    unfold Store.nextSeq
    split
    · exact Nat.zero_le _
    next seq e hlast => exact (h.own (seq, e) (OrdMap.mem_entries.mpr (OrdMap.get?_last? hlast).1)).2
  refine ⟨hle, disk, hopen, hrep, ?_, fun row hr => ?_, .nil⟩
  · unfold u64Max at hmax
    rw [UInt64.toNat_ofNat', Nat.mod_eq_of_lt (by omega)]
  · have hrow := (hown row hr).1
    exact ⟨hrow, by rw [← hrow]; exact hlt row.2 (List.mem_map_of_mem hr)⟩

end

/-- The answers of a store over records, as those of one over bytes: the only error is a
    write that failed. -/
def asBytes (r : Except String Reply) : Except Error Reply := r.mapError .rocksDb

/-- One operation. -/
theorem step_inStep (F : Formats) (sha256 : Bytes → Hash) {db : Db} {m : Mem} (op : StoreOp) (h : InStep F db m)
    (hb : m.nextSeq + op.reserves ≤ u64Max) :
    (InStep F (db.step F sha256 op).1 (m.step sha256 op).1 ∧ (m.step sha256 op).1.nextSeq ≤ m.nextSeq + op.reserves) ∧
      (db.step F sha256 op).2 = (m.step sha256 op).2.map asBytes := by
  have hown := h.ownRows (by omega)
  cases op with
  | append key data ts =>
    have hbatch := batchOf_entriesOf F sha256 ts [(key, data)] db.nextSeq (by rw [h.nextSeq]; exact hb)
    rw [h.nextSeq] at hbatch
    refine ⟨⟨h.reserve hb hbatch ?_ fun e he => seq_lt_of_mem_entriesOf he, Nat.le_refl _⟩, rfl⟩
    rw [h.nextSeq]
  | appendBatch entries ts =>
    cases entries with
    | nil => exact ⟨⟨h, Nat.le_refl _⟩, rfl⟩
    | cons e entries =>
      have hseq : db.nextSeq.toNat + (e :: entries).length ≤ u64Max := by rw [h.nextSeq]; exact hb
      have hbatch := batchOf_entriesOf F sha256 ts (e :: entries) _ hseq
      have hresults := resultsOf_entriesOf sha256 ts (e :: entries) hseq
      rw [h.nextSeq] at hbatch hresults
      refine ⟨⟨h.reserve hb hbatch (congrArg Reply.batch hresults) fun f hf => ?_, Nat.le_refl _⟩, rfl⟩
      have := seq_lt_of_mem_entriesOf hf
      rw [pairsOf, List.length_map] at this
      exact this
  | commit i =>
    cases hi : m.calls[i]? with
    | none =>
      have hnone : db.calls[i]? = none := by
        rw [List.getElem?_eq_none_iff, h.calls.length_eq]
        exact List.getElem?_eq_none_iff.mp hi
      simp only [Db.step, Mem.step, hi, hnone]
      exact ⟨⟨h, Nat.le_refl _⟩, rfl⟩
    | some c' =>
      obtain ⟨c, hc, hcall⟩ := paired_getElem? h.calls hi
      simp only [Db.step, Mem.step, hi, hc]
      exact ⟨⟨h.commit hcall, Nat.le_refl _⟩, by rw [hcall.reply]; rfl⟩
  | commitFails i message =>
    cases hi : m.calls[i]? with
    | none =>
      have hnone : db.calls[i]? = none := by
        rw [List.getElem?_eq_none_iff, h.calls.length_eq]
        exact List.getElem?_eq_none_iff.mp hi
      simp only [Db.step, Mem.step, hi, hnone]
      exact ⟨⟨h, Nat.le_refl _⟩, rfl⟩
    | some c' =>
      obtain ⟨c, hc, -⟩ := paired_getElem? h.calls hi
      simp only [Db.step, Mem.step, hi, hc]
      exact ⟨⟨⟨h.disk, h.nextSeq, h.own, paired_eraseIdx h.calls i⟩, Nat.le_refl _⟩, rfl⟩
  | count => exact ⟨⟨h, Nat.le_refl _⟩, by simp only [Db.step, h.nextSeq]; rfl⟩
  | getBySeq seq => exact ⟨⟨h, Nat.le_refl _⟩, by simp only [Db.step, h.disk.getBySeq]; rfl⟩
  | getSeqByKey key =>
    obtain ⟨n, hget, hn⟩ := h.disk.getSeqByKey key
    refine ⟨⟨h, Nat.le_refl _⟩, ?_⟩
    simp only [Db.step, Mem.step, hget, ← hn]
    rfl
  | entriesByKey key fromSeq limit =>
    exact ⟨⟨h, Nat.le_refl _⟩, congrArg some (h.disk.entriesByKey hown key fromSeq limit)⟩
  | seqRangePaged start stop limit =>
    exact ⟨⟨h, Nat.le_refl _⟩, congrArg some (h.disk.seqRangePaged hown start stop limit)⟩
  | seqRange start stop => exact ⟨⟨h, Nat.le_refl _⟩, by simp only [Db.step, h.disk.seqRange]; rfl⟩
  | latest n => exact ⟨⟨h, Nat.le_refl _⟩, by simp only [Db.step, h.disk.latest]; rfl⟩
  | writeHead sth => exact ⟨⟨⟨h.disk.writeHead sth.property, h.nextSeq, h.own, h.calls⟩, Nat.le_refl _⟩, rfl⟩
  | latestHead => exact ⟨⟨h, Nat.le_refl _⟩, by simp only [Db.step, h.disk.latestHead]; rfl⟩
  | headAtSize size => exact ⟨⟨h, Nat.le_refl _⟩, by simp only [Db.step, h.disk.headAtSize]; rfl⟩
  | headRange fromSize toSize => exact ⟨⟨h, Nat.le_refl _⟩, by simp only [Db.step, h.disk.headRange]; rfl⟩
  | putKey r => exact ⟨⟨⟨h.disk.putKey r.property, h.nextSeq, h.own, h.calls⟩, Nat.le_refl _⟩, rfl⟩
  | getKey version => exact ⟨⟨h, Nat.le_refl _⟩, by simp only [Db.step, h.disk.getKey]; rfl⟩
  | latestKey => exact ⟨⟨h, Nat.le_refl _⟩, by simp only [Db.step, h.disk.latestKey]; rfl⟩
  | allKeys => exact ⟨⟨h, Nat.le_refl _⟩, by simp only [Db.step, h.disk.allKeys]; rfl⟩
  | writeFails message => exact ⟨⟨h, Nat.le_refl _⟩, rfl⟩
  | reopen =>
    obtain ⟨hle, disk, hopen, hstep⟩ := h.reopen (by omega)
    simp only [Db.step, Mem.step, hopen]
    exact ⟨⟨hstep, hle⟩, rfl⟩

theorem InStep.init (F : Formats) : InStep F .init .init where
  disk := ⟨.empty, fun _ => .none, .empty, .empty, fun v hv => by cases hv⟩
  nextSeq := rfl
  own row hr := by cases hr
  calls := .nil

/-- From the first open on, the store over bytes answers as the store over records: only
    what RocksDB reports of a write is an error. -/
theorem disk_refines (F : Formats) (sha256 : Bytes → Hash) (ops : List StoreOp) (hroom : sumOf StoreOp.reserves ops ≤ u64Max) :
    answers (Db.step F sha256) .init (.reopen :: ops) = (answers (Mem.step sha256) .init (.reopen :: ops)).map asBytes := by
  refine answers_eq (R := fun ops db m => InStep F db m ∧ m.nextSeq + sumOf StoreOp.reserves ops ≤ u64Max) ?_ ⟨.init F, ?_⟩
  · intro op ops db m ⟨h, hb⟩
    rw [sumOf_cons] at hb
    obtain ⟨⟨hstep, hle⟩, hout⟩ := step_inStep F sha256 op h (by omega)
    exact ⟨⟨hstep, by omega⟩, hout⟩
  · rw [sumOf_cons]
    show 0 + (0 + sumOf StoreOp.reserves ops) ≤ u64Max
    omega

/-- Two calls at once; the one with the later numbers commits, the process is lost with the
    other, and the next process reads. -/
def lostCall : List StoreOp :=
  [.append ⟨[1], by decide⟩ ⟨[10], by decide⟩ 5,
    .appendBatch [(⟨[2], by decide⟩, ⟨[20], by decide⟩), (⟨[1], by decide⟩, ⟨[30], by decide⟩)] 6, .commit 1, .reopen, .count,
    .getBySeq 0, .getSeqByKey [1], .entriesByKey [1] 0 5, .seqRangePaged 0 3 1]

theorem disk_refines_lostCall : sumOf StoreOp.reserves lostCall ≤ u64Max ∧
    answers (Db.step Formats.protobuf Sha256.sha256) .init (.reopen :: lostCall) =
      let e1 : LogEntry := ⟨1, 6, [2], [20], leafHash Sha256.sha256 [20]⟩
      let e2 : LogEntry := ⟨2, 6, [1], [30], leafHash Sha256.sha256 [30]⟩
      [.ok .done, .ok (.batch [(1, 6, e1.leafHash), (2, 6, e2.leafHash)]), .ok .done, .ok (.count 3), .ok (.entry none),
        .ok (.seq (some 2)), .ok (.page [e2] 0), .ok (.page [e1] 2)] := by
  refine ⟨by decide, ?_⟩
  rw [disk_refines Formats.protobuf Sha256.sha256 lostCall (by decide)]
  rfl

end Settled.Storage
