/-
  Settled.Server.Machine — the server (`settled-server`) as one state machine.

  The state is what is on disk (the store and the key file), the running process, if
  there is one, and a history of what was answered and signed, which nothing reads. A
  process is its in-memory state and its tasks, each at some point of its handler; an
  event is one step of one task. Steps are atomic where the code's are: a RocksDB read
  or write, one access to the signer under its lock, one channel operation. `none` is a
  step that cannot happen.

  - append / batch_append (`service.rs`): checks; then, under `append_mu`, reserve
    numbers, write one batch, append each leaf to the tree; then, outside it, broadcast
    each entry and answer.
  - sign_and_store (`sth_task.rs`): snapshot under `append_mu`, check of the latest head,
    clock, sign, public key, key version, write.
  - inclusion_proof / consistency_proof: heads, log and heads again.
  - rotate_key (`admin.rs`, `signer.rs`): size, version, key file, swap, key record.
  - watch: subscribe, replay in pages, live.
  - a crash loses the process at any point; a restart is `Db::open` and `AppState::build`.

  The rate limiter and the clock are the environment's. The counter stays below the end
  of `u64` (`reserve`). Key versions are naturals: the end of `u32`, which the code comes to
  after 2^32 - 1 rotations, is not modelled. Reads do not fail.
-/

import Settled.Core.Proof
import Settled.Core.Sth
import Settled.Lib.Run
import Settled.Storage.Store

namespace Settled.Server

open Settled.Lib Settled.Core Settled.Storage

inductive Code where
  | notFound
  | invalidArgument
  | internal
  | resourceExhausted
  deriving DecidableEq

structure Status where
  code : Code
  message : String
  deriving DecidableEq

/-! ## Appending -/

inductive AppendReq where
  | append (key data : Bytes)
  | batchAppend (entries : List (Bytes × Bytes))
  deriving DecidableEq

def AppendReq.entries : AppendReq → List (Bytes × Bytes)
  | append key data => [(key, data)]
  | batchAppend entries => entries

structure AppendResponse where
  seq : Nat
  timestampNs : Int
  leafHash : Hash
  key : Bytes
  deriving DecidableEq

def AppendResponse.of (e : LogEntry) : AppendResponse := ⟨e.seq, e.timestampNs, e.leafHash, e.key⟩

def maxBatch : Nat := 1000

/-- The checks before the critical section: `ok true` goes on, `ok false` is the answer
    to an empty batch. `tokens` is what the rate limiter says. -/
def AppendReq.check (tokens : Bool) : AppendReq → Except Status Bool
  | append _ _ =>
    if tokens then .ok true else .error ⟨.resourceExhausted, "append rate limit exceeded; slow down"⟩
  | batchAppend entries =>
    let n := entries.length
    if n = 0 then .ok false
    else if maxBatch < n then .error ⟨.invalidArgument, s!"batch size {n} exceeds maximum {maxBatch}"⟩
    else if tokens then .ok true
    else .error ⟨.resourceExhausted, "append rate limit exceeded; slow down"⟩

/-- The critical section, by what has been done in it. -/
inductive Crit where
  | locked (req : AppendReq)
  | reserved (req : AppendReq) (first : Nat) (timestampNs : Int)
  /-- Written; `left` are the leaves not yet in the tree. -/
  | written (req : AppendReq) (results : List LogEntry) (left : List Hash)
  deriving DecidableEq

/-- A handler past its critical section: `unsent` is not broadcast yet. -/
structure Writer where
  req : AppendReq
  results : List LogEntry
  unsent : List LogEntry
  deriving DecidableEq

/-! ## Signing and keys -/

/-- `SignerInner`. -/
structure Signer where
  key : Hash
  version : Nat
  deriving DecidableEq

/-- A head between its signature and its assembly; `signer` is who signed. -/
structure Draft where
  treeSize : Nat
  rootHash : Hash
  timestampNs : Int
  signature : Bytes
  signer : Signer
  deriving DecidableEq

inductive SignTask where
  | snapped (treeSize : Nat) (root : Option Hash)
  | checked (treeSize : Nat) (root : Hash)
  | stamped (treeSize : Nat) (root : Hash) (timestampNs : Int)
  | signed (d : Draft)
  | keyed (d : Draft) (publicKey : Hash)
  | assembled (d : Draft) (publicKey : Hash) (keyVersion : Nat)
  deriving DecidableEq

def Draft.head (d : Draft) (publicKey : Hash) (keyVersion : Nat) : SignedTreeHead :=
  ⟨d.treeSize, d.rootHash, d.timestampNs, d.signature, publicKey, keyVersion⟩

inductive RotateTask where
  | sized (activatedAt : Nat)
  | numbered (activatedAt newVersion : Nat)
  | filed (activatedAt newVersion : Nat) (newKey : Hash)
  | swapped (activatedAt newVersion : Nat) (newKey : Hash)
  deriving DecidableEq

/-! ## Proofs -/

inductive ProofReq where
  | inclusion (seq treeSize : Nat)
  | consistency (oldSize newSize : Nat)
  deriving DecidableEq

inductive ProofResponse where
  | inclusion (leafIndex treeSize : Nat) (proof : List Hash) (sth : SignedTreeHead)
  | consistency (oldSize newSize : Nat) (proof : List Hash) (oldSth newSth : SignedTreeHead)
  deriving DecidableEq

inductive ProofPhase where
  | sized
  | proved (proof : List Hash)
  | oldHead (proof : List Hash) (oldSth : SignedTreeHead)
  deriving DecidableEq

/-- `size` is the request's `tree_size` or `new_size`, resolved; `known` are the heads
    there were when the request came. -/
structure ProofTask where
  req : ProofReq
  size : Nat
  phase : ProofPhase
  known : OrdMap Nat SignedTreeHead

structure ProofReply where
  req : ProofReq
  known : OrdMap Nat SignedTreeHead
  result : Except Status ProofResponse

/-- The tree size asked for: 0 is the latest head's. -/
def latestSize (s : Store) (size : Nat) : Except Status Nat :=
  if size = 0 then
    match s.latestHead with
    | none => .error ⟨.notFound, "no STH available yet"⟩
    | some sth => .ok sth.treeSize
  else .ok size

/-- The checks up to the log read. -/
def ProofReq.resolve (s : Store) : ProofReq → Except Status Nat
  | inclusion seq treeSize =>
    match latestSize s treeSize with
    | .error e => .error e
    | .ok treeSize =>
      if treeSize ≤ seq then .error ⟨.invalidArgument, s!"seq {seq} is out of range for tree_size {treeSize}"⟩
      else .ok treeSize
  | consistency oldSize newSize =>
    if oldSize = 0 then .error ⟨.invalidArgument, "old_size must be > 0"⟩
    else match latestSize s newSize with
      | .error e => .error e
      | .ok newSize =>
        if newSize < oldSize then .error ⟨.invalidArgument, s!"old_size {oldSize} > new_size {newSize}"⟩
        else .ok newSize

def proofErrorMessage : ProofError → String
  | .leafIndexOutOfRange leafIndex treeSize => s!"leaf index {leafIndex} out of range for tree size {treeSize}"
  | .invalidSizes oldSize newSize => s!"invalid tree sizes: old={oldSize} new={newSize}"
  | .panic => "panic"

/-- The proof over the leaves read. -/
def ProofReq.prove (sha256 : Bytes → Hash) (leafHashes : List Hash) : ProofReq → Except ProofError (List Hash)
  | inclusion seq _ => inclusionProof (.sha sha256) leafHashes seq
  | consistency oldSize _ => consistencyProof (.sha sha256) leafHashes oldSize

/-- A head read: go on to the next phase, or answer. -/
def ProofTask.readHead (s : Store) (t : ProofTask) : Option (ProofTask ⊕ Except Status ProofResponse) :=
  let size := t.size
  match t.phase, t.req with
  | .sized, _ => none
  | .proved proof, .inclusion seq _ =>
    match s.headAtSize size with
    | none => some (.inr (.error ⟨.notFound, s!"no STH at tree_size {size}"⟩))
    | some sth => some (.inr (.ok (.inclusion seq size proof sth)))
  | .proved proof, .consistency oldSize _ =>
    match s.headAtSize oldSize with
    | none => some (.inr (.error ⟨.notFound, s!"no STH at old_size {oldSize}"⟩))
    | some oldSth => some (.inl { t with phase := .oldHead proof oldSth })
  | .oldHead _ _, .inclusion _ _ => none
  | .oldHead proof oldSth, .consistency oldSize _ =>
    match s.headAtSize size with
    | none => some (.inr (.error ⟨.notFound, s!"no STH at new_size {size}"⟩))
    | some newSth => some (.inr (.ok (.consistency oldSize size proof oldSth newSth)))

/-! ## Watching -/

def watchChannelCap : Nat := 1024
def replayPage : Nat := 200

inductive StreamPhase where
  | replay (cursor : Nat)
  /-- A page read, its entries not yet delivered. -/
  | paging (page : List LogEntry) (next : Nat)
  | live
  deriving DecidableEq

/-- `queue` is what the stream's receiver still holds and `missed` how many entries it
    lost to the channel's capacity; `sent` is everything broadcast since it subscribed
    and `delivered` what went out on the stream. -/
structure Stream where
  fromSeq : Nat
  phase : StreamPhase
  queue : List LogEntry
  missed : Nat
  lastSent : Option Nat
  sent : List LogEntry
  delivered : List LogEntry
  deriving DecidableEq

def Stream.subscribe (fromSeq : Nat) : Stream :=
  ⟨fromSeq, if 0 < fromSeq then .replay fromSeq else .live, [], 0, none, [], []⟩

/-- One broadcast: past its capacity the channel drops the receiver's oldest entry. -/
def Stream.push (st : Stream) (e : LogEntry) : Stream :=
  let queue := st.queue ++ [e]
  if watchChannelCap < queue.length then
    { st with queue := queue.drop 1, missed := st.missed + 1, sent := st.sent ++ [e] }
  else { st with queue := queue, sent := st.sent ++ [e] }

def Stream.deliver (st : Stream) (e : LogEntry) : Stream :=
  { st with lastSent := some e.seq, delivered := st.delivered ++ [e] }

/-- The stream's next step; `none` for a stream that ends (it lagged). -/
def Stream.next (s : Store) (st : Stream) : Option (Option Stream) :=
  match st.phase with
  | .replay cursor =>
    let (page, next) := s.seqRangePaged cursor 0 replayPage
    some (some { st with phase := .paging page next })
  | .paging [] next => some (some { st with phase := if next = 0 then .live else .replay next })
  | .paging (e :: page) next => some (some { st.deliver e with phase := .paging page next })
  | .live =>
    if 0 < st.missed then some none
    else match st.queue with
      | [] => none
      | e :: queue =>
        let st := { st with queue := queue }
        if st.lastSent.any (e.seq ≤ ·) then some (some st) else some (some (st.deliver e))

/-! ## The state -/

structure Proc where
  nextSeq : Nat
  merkle : MerkleTree Hash
  /-- `append_mu` and what its holder has done. -/
  mu : Option Crit
  writers : List Writer
  streams : List Stream
  signer : Signer
  signs : List SignTask
  rotations : List RotateTask
  proofs : List ProofTask

structure Hist where
  replies : List (AppendReq × Except Status (List AppendResponse))
  /-- Every head written, with who signed it. -/
  signed : List (SignedTreeHead × Signer)
  proofs : List ProofReply

structure St where
  store : Store
  keyFile : Option Hash
  proc : Option Proc
  hist : Hist

def St.init : St := ⟨.empty, none, none, ⟨[], [], []⟩⟩

/-! ## Steps -/

inductive AppendEv where
  | request (req : AppendReq) (tokens : Bool)
  | reserve (timestampNs : Int)
  | write
  | writeFails (message : String)
  | merkle
  | unlock
  | send (i : Nat)
  | reply (i : Nat)
  deriving DecidableEq

inductive SignEv where
  | snapshot
  /-- The next step of task `i`; `now` is what the clock would say. -/
  | next (i : Nat) (now : Int)
  | writeFails (i : Nat)
  deriving DecidableEq

inductive RotateEv where
  | start
  /-- The next step of task `i`; `newKey` is what the generator would return. -/
  | next (i : Nat) (newKey : Hash)
  | fails (i : Nat)
  deriving DecidableEq

inductive ProofEv where
  | request (req : ProofReq)
  | readLog (i : Nat)
  | readHead (i : Nat)
  deriving DecidableEq

inductive WatchEv where
  | subscribe (fromSeq : Nat)
  | next (i : Nat)
  | close (i : Nat)
  deriving DecidableEq

inductive Ev where
  | append (e : AppendEv)
  | sign (e : SignEv)
  | rotate (e : RotateEv)
  | proof (e : ProofEv)
  | watch (e : WatchEv)
  | crash
  /-- `newKey` is used if there is no key file; `seeded := false` is a crash before the
      first key record is written. -/
  | restart (newKey : Hash) (seeded : Bool)
  deriving DecidableEq

section

variable (sha256 : Bytes → Hash) (E : Ed25519)

def stepAppend (s : St) (p : Proc) : AppendEv → Option St
  | .request req tokens =>
    match req.check tokens with
    | .error e => some { s with hist := { s.hist with replies := s.hist.replies ++ [(req, .error e)] } }
    | .ok false => some { s with hist := { s.hist with replies := s.hist.replies ++ [(req, .ok [])] } }
    | .ok true =>
      match p.mu with
      | some _ => none
      | none => some { s with proc := some { p with mu := some (.locked req) } }
  | .reserve timestampNs =>
    match p.mu with
    | some (.locked req) =>
      if p.nextSeq + req.entries.length ≤ u64Max then
        let p' := { p with nextSeq := p.nextSeq + req.entries.length, mu := some (.reserved req p.nextSeq timestampNs) }
        some { s with proc := some p' }
      else none
    | _ => none
  | .write =>
    match p.mu with
    | some (.reserved req first timestampNs) =>
      let results := entriesOf sha256 first timestampNs req.entries
      some { s with store := s.store.writeBatch results,
                    proc := some { p with mu := some (.written req results (hashes results)) } }
    | _ => none
  | .writeFails message =>
    match p.mu with
    | some (.reserved req _ _) =>
      some { s with proc := some { p with mu := none },
                    hist := { s.hist with replies := s.hist.replies ++ [(req, .error ⟨.internal, message⟩)] } }
    | _ => none
  | .merkle =>
    match p.mu with
    | some (.written req results (lh :: left)) =>
      match p.merkle.append (.sha sha256) lh with
      | none => none
      | some (_, merkle) => some { s with proc := some { p with merkle := merkle, mu := some (.written req results left) } }
    | _ => none
  | .unlock =>
    match p.mu with
    | some (.written req results []) =>
      some { s with proc := some { p with mu := none, writers := p.writers ++ [⟨req, results, results⟩] } }
    | _ => none
  | .send i =>
    match p.writers[i]? with
    | some ⟨req, results, e :: unsent⟩ =>
      let p' := { p with writers := p.writers.set i ⟨req, results, unsent⟩, streams := p.streams.map (·.push e) }
      some { s with proc := some p' }
    | _ => none
  | .reply i =>
    match p.writers[i]? with
    | some ⟨req, results, []⟩ =>
      some { s with proc := some { p with writers := p.writers.eraseIdx i },
                    hist := { s.hist with
                      replies := s.hist.replies ++ [(req, .ok (results.map AppendResponse.of))] } }
    | _ => none

/-- One step of a signing task that has not come to its write: the task after it, or
    `none` when it is done without one. -/
def SignTask.next (store : Store) (signer : Signer) (now : Int) : SignTask → Option SignTask
  | snapped treeSize root =>
    if treeSize = 0 then none
    else if store.latestHead.any fun latest => latest.treeSize = treeSize then none
    else root.map (checked treeSize)
  | checked treeSize root => some (stamped treeSize root now)
  | stamped treeSize root timestampNs =>
    some (signed ⟨treeSize, root, timestampNs, E.sign signer.key (signingPayload treeSize root timestampNs), signer⟩)
  | signed d => some (keyed d (E.publicKey signer.key))
  | keyed d publicKey => some (assembled d publicKey signer.version)
  | assembled _ _ _ => none

def stepSign (s : St) (p : Proc) : SignEv → Option St
  | .snapshot =>
    match p.mu with
    | some _ => none
    | none => some { s with proc := some { p with signs := p.signs ++ [.snapped p.merkle.size (p.merkle.root (.sha sha256))] } }
  | .next i now =>
    match p.signs[i]? with
    | none => none
    | some (.assembled d publicKey keyVersion) =>
      some { s with store := s.store.writeHead (d.head publicKey keyVersion),
                    proc := some { p with signs := p.signs.eraseIdx i },
                    hist := { s.hist with signed := s.hist.signed ++ [(d.head publicKey keyVersion, d.signer)] } }
    | some t =>
      match t.next E s.store p.signer now with
      | none => some { s with proc := some { p with signs := p.signs.eraseIdx i } }
      | some t => some { s with proc := some { p with signs := p.signs.set i t } }
  | .writeFails i =>
    match p.signs[i]? with
    | some (.assembled _ _ _) => some { s with proc := some { p with signs := p.signs.eraseIdx i } }
    | _ => none

def stepRotate (s : St) (p : Proc) : RotateEv → Option St
  | .start =>
    match p.mu with
    | some _ => none
    | none => some { s with proc := some { p with rotations := p.rotations ++ [.sized p.merkle.size] } }
  | .next i newKey =>
    match p.rotations[i]? with
    | none => none
    | some (.sized activatedAt) =>
      some { s with proc := some { p with rotations := p.rotations.set i (.numbered activatedAt (p.signer.version + 1)) } }
    | some (.numbered activatedAt newVersion) =>
      some { s with keyFile := some newKey,
                    proc := some { p with rotations := p.rotations.set i (.filed activatedAt newVersion newKey) } }
    | some (.filed activatedAt newVersion newKey) =>
      some { s with proc := some { p with signer := ⟨newKey, newVersion⟩,
                                          rotations := p.rotations.set i (.swapped activatedAt newVersion newKey) } }
    | some (.swapped activatedAt newVersion newKey) =>
      some { s with store := s.store.putKey ⟨newVersion, E.publicKey newKey, activatedAt⟩,
                    proc := some { p with rotations := p.rotations.eraseIdx i } }
  | .fails i =>
    match p.rotations[i]? with
    | some (.numbered _ _) => some { s with proc := some { p with rotations := p.rotations.eraseIdx i } }
    | some (.swapped _ _ _) => some { s with proc := some { p with rotations := p.rotations.eraseIdx i } }
    | _ => none

def stepProof (s : St) (p : Proc) : ProofEv → Option St
  | .request req =>
    match req.resolve s.store with
    | .error e => some { s with hist := { s.hist with proofs := s.hist.proofs ++ [⟨req, s.store.heads, .error e⟩] } }
    | .ok size => some { s with proc := some { p with proofs := p.proofs ++ [⟨req, size, .sized, s.store.heads⟩] } }
  | .readLog i =>
    match p.proofs[i]? with
    | some ⟨req, size, .sized, known⟩ =>
      match req.prove sha256 (hashes (s.store.seqRange 0 size)) with
      | .error e =>
        some { s with proc := some { p with proofs := p.proofs.eraseIdx i },
                      hist := { s.hist with
                        proofs := s.hist.proofs ++ [⟨req, known, .error ⟨.internal, proofErrorMessage e⟩⟩] } }
      | .ok proof => some { s with proc := some { p with proofs := p.proofs.set i ⟨req, size, .proved proof, known⟩ } }
    | _ => none
  | .readHead i =>
    match p.proofs[i]? with
    | none => none
    | some t =>
      match t.readHead s.store with
      | none => none
      | some (.inl t) => some { s with proc := some { p with proofs := p.proofs.set i t } }
      | some (.inr result) =>
        some { s with proc := some { p with proofs := p.proofs.eraseIdx i },
                      hist := { s.hist with proofs := s.hist.proofs ++ [⟨t.req, t.known, result⟩] } }

def stepWatch (s : St) (p : Proc) : WatchEv → Option St
  | .subscribe fromSeq => some { s with proc := some { p with streams := p.streams ++ [.subscribe fromSeq] } }
  | .next i =>
    match p.streams[i]? with
    | none => none
    | some st =>
      match st.next s.store with
      | none => none
      | some none => some { s with proc := some { p with streams := p.streams.eraseIdx i } }
      | some (some st) => some { s with proc := some { p with streams := p.streams.set i st } }
  | .close i =>
    if i < p.streams.length then some { s with proc := some { p with streams := p.streams.eraseIdx i } } else none

/-- `Db::open` and `AppState::build`. -/
def restart (s : St) (newKey : Hash) (seeded : Bool) : Option St :=
  match MerkleTree.new.appendAll (.sha sha256) (hashes (s.store.seqRange 0 u64Max)) with
  | none => none
  | some merkle =>
    let version := match s.store.latestKey with
      | none => 1
      | some r => r.version
    let key := s.keyFile.getD newKey
    let s := { s with keyFile := some key }
    if seeded then
      let store := match s.store.latestKey with
        | none => s.store.putKey ⟨1, E.publicKey key, 0⟩
        | some _ => s.store
      some { s with store := store, proc := some ⟨s.store.nextSeq, merkle, none, [], [], ⟨key, version⟩, [], [], []⟩ }
    else some s

def step (s : St) : Ev → Option St
  | .append e => s.proc.bind fun p => stepAppend sha256 s p e
  | .sign e => s.proc.bind fun p => stepSign sha256 E s p e
  | .rotate e => s.proc.bind fun p => stepRotate E s p e
  | .proof e => s.proc.bind fun p => stepProof sha256 s p e
  | .watch e => s.proc.bind fun p => stepWatch s p e
  | .crash => s.proc.map fun _ => { s with proc := none }
  | .restart newKey seeded =>
    match s.proc with
    | some _ => none
    | none => restart sha256 E s newKey seeded

end

end Settled.Server
