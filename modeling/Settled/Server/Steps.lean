/-
  Settled.Server.Steps — what each kind of step can do, as relations: the step functions
  of `Settled.Server.Machine` inverted once (`stepAppend_step`, ..., `step_step`), so that
  every invariant is a case analysis on them.
-/

import Settled.Server.Machine

namespace Settled.Server

open Settled.Lib Settled.Core Settled.Storage

variable (sha256 : Bytes → Hash) (E : Ed25519)

def St.reply (s : St) (req : AppendReq) (result : Except Status (List AppendResponse)) : St :=
  { s with hist := { s.hist with replies := s.hist.replies ++ [(req, result)] } }

def St.proofReply (s : St) (r : ProofReply) : St := { s with hist := { s.hist with proofs := s.hist.proofs ++ [r] } }

def St.withProc (s : St) (p : Proc) : St := { s with proc := some p }

inductive AppendStep (s : St) (p : Proc) : AppendEv → St → Prop
  | refused {req : AppendReq} {tokens : Bool} {err : Status} : req.check tokens = .error err →
      AppendStep s p (.request req tokens) (s.reply req (.error err))
  | emptyBatch {req : AppendReq} {tokens : Bool} : req.check tokens = .ok false →
      AppendStep s p (.request req tokens) (s.reply req (.ok []))
  | locked {req : AppendReq} {tokens : Bool} : req.check tokens = .ok true → p.mu = none →
      AppendStep s p (.request req tokens) (s.withProc { p with mu := some (.locked req) })
  | reserved {req : AppendReq} {ts : Int} : p.mu = some (.locked req) → p.nextSeq + req.entries.length ≤ u64Max →
      AppendStep s p (.reserve ts)
        (s.withProc { p with nextSeq := p.nextSeq + req.entries.length, mu := some (.reserved req p.nextSeq ts) })
  | written {req : AppendReq} {first : Nat} {ts : Int} {results : List LogEntry} :
      p.mu = some (.reserved req first ts) → results = entriesOf sha256 first ts req.entries →
      AppendStep s p .write
        { s with store := s.store.writeBatch results,
                 proc := some { p with mu := some (.written req results (hashes results)) } }
  | failed {req : AppendReq} {first : Nat} {ts : Int} {message : String} : p.mu = some (.reserved req first ts) →
      AppendStep s p (.writeFails message)
        ((s.withProc { p with mu := none }).reply req (.error ⟨.internal, message⟩))
  | leaf {req : AppendReq} {results : List LogEntry} {lh : Hash} {left : List Hash} {i : Nat} {merkle : MerkleTree Hash} :
      p.mu = some (.written req results (lh :: left)) → p.merkle.append (.sha sha256) lh = some (i, merkle) →
      AppendStep s p .merkle (s.withProc { p with merkle := merkle, mu := some (.written req results left) })
  | unlocked {req : AppendReq} {results : List LogEntry} : p.mu = some (.written req results []) →
      AppendStep s p .unlock (s.withProc { p with mu := none, writers := p.writers ++ [⟨req, results, results⟩] })
  | sent {i : Nat} {req : AppendReq} {results unsent : List LogEntry} {e : LogEntry} :
      p.writers[i]? = some ⟨req, results, e :: unsent⟩ →
      AppendStep s p (.send i)
        (s.withProc { p with writers := p.writers.set i ⟨req, results, unsent⟩, streams := p.streams.map (·.push e) })
  | replied {i : Nat} {req : AppendReq} {results : List LogEntry} : p.writers[i]? = some ⟨req, results, []⟩ →
      AppendStep s p (.reply i)
        ((s.withProc { p with writers := p.writers.eraseIdx i }).reply req (.ok (results.map AppendResponse.of)))

theorem stepAppend_step {s s' : St} {p : Proc} {e : AppendEv} (h : stepAppend sha256 s p e = some s') :
    AppendStep sha256 s p e s' := by
  cases e with
  | request req tokens =>
    simp only [stepAppend] at h
    split at h
    next err ha => cases h; exact .refused ha
    next ha => cases h; exact .emptyBatch ha
    next ha =>
      split at h
      · cases h
      next hmu => cases h; exact .locked ha hmu
  | reserve ts =>
    simp only [stepAppend] at h
    split at h
    next req hmu =>
      split at h
      next hle => cases h; exact .reserved hmu hle
      · cases h
    · cases h
  | write =>
    simp only [stepAppend] at h
    split at h
    next req first ts hmu => cases h; exact .written hmu rfl
    · cases h
  | writeFails m =>
    simp only [stepAppend] at h
    split at h
    next req first ts hmu => cases h; exact .failed hmu
    · cases h
  | merkle =>
    simp only [stepAppend] at h
    split at h
    next req results lh left hmu =>
      split at h
      · cases h
      next i merkle ha => cases h; exact .leaf hmu ha
    · cases h
  | unlock =>
    simp only [stepAppend] at h
    split at h
    next req results hmu => cases h; exact .unlocked hmu
    · cases h
  | send i =>
    simp only [stepAppend] at h
    split at h
    next req results e unsent hw => cases h; exact .sent hw
    · cases h
  | reply i =>
    simp only [stepAppend] at h
    split at h
    next req results hw => cases h; exact .replied hw
    · cases h

/-- What a cycle's check lets through: the root it took, where the latest head has another
    size. -/
theorem SignTask.next_snapped {store : Store} {signer : Signer} {now : Int} {treeSize : Nat} {root : Option Hash}
    {t' : SignTask} (h : (SignTask.snapped treeSize root).next E store signer now = some t') :
    (store.latestHead.any fun latest => latest.treeSize = treeSize) = false ∧
      ∃ r, root = some r ∧ t' = .checked treeSize r := by
  simp only [SignTask.next] at h
  split at h
  · cases h
  · split at h
    · cases h
    next hl =>
      obtain ⟨r, hr, rfl⟩ := Option.map_eq_some_iff.mp h
      exact ⟨Bool.not_eq_true _ ▸ hl, r, hr, rfl⟩

inductive SignStep (s : St) (p : Proc) : SignEv → St → Prop
  | snapped : p.mu = none →
      SignStep s p .snapshot
        (s.withProc { p with signs := p.signs ++ [.snapped p.merkle.size (p.merkle.root (.sha sha256))] })
  | wrote {i : Nat} {now : Int} {d : Draft} {publicKey : Hash} {keyVersion : Nat} :
      p.signs[i]? = some (.assembled d publicKey keyVersion) →
      SignStep s p (.next i now)
        { s with store := s.store.writeHead (d.head publicKey keyVersion),
                 proc := some { p with signs := p.signs.eraseIdx i },
                 hist := { s.hist with signed := s.hist.signed ++ [(d.head publicKey keyVersion, d.signer)] } }
  | skipped {i : Nat} {now : Int} {t : SignTask} : p.signs[i]? = some t → t.next E s.store p.signer now = none →
      SignStep s p (.next i now) (s.withProc { p with signs := p.signs.eraseIdx i })
  | moved {i : Nat} {now : Int} {t t' : SignTask} : p.signs[i]? = some t → t.next E s.store p.signer now = some t' →
      SignStep s p (.next i now) (s.withProc { p with signs := p.signs.set i t' })
  | failed {i : Nat} : SignStep s p (.writeFails i) (s.withProc { p with signs := p.signs.eraseIdx i })

theorem stepSign_step {s s' : St} {p : Proc} {e : SignEv} (h : stepSign sha256 E s p e = some s') :
    SignStep sha256 E s p e s' := by
  cases e with
  | snapshot =>
    simp only [stepSign] at h
    split at h
    · cases h
    next hmu => cases h; exact .snapped hmu
  | next i now =>
    simp only [stepSign] at h
    split at h
    · cases h
    next d publicKey keyVersion ht => cases h; exact .wrote ht
    next t hne ht =>
      split at h
      next hn => cases h; exact .skipped ht hn
      next t' hn => cases h; exact .moved ht hn
  | writeFails i =>
    simp only [stepSign] at h
    split at h
    · cases h; exact .failed
    · cases h

inductive RotateStep (s : St) (p : Proc) : RotateEv → St → Prop
  | sized : p.mu = none → RotateStep s p .start (s.withProc { p with rotations := p.rotations ++ [.sized p.merkle.size] })
  | numbered {i at_ : Nat} {newKey : Hash} : p.rotations[i]? = some (.sized at_) →
      RotateStep s p (.next i newKey)
        (s.withProc { p with rotations := p.rotations.set i (.numbered at_ (p.signer.version + 1)) })
  | filed {i at_ version : Nat} {newKey : Hash} : p.rotations[i]? = some (.numbered at_ version) →
      RotateStep s p (.next i newKey)
        { s with keyFile := some newKey, proc := some { p with rotations := p.rotations.set i (.filed at_ version newKey) } }
  | swapped {i at_ version : Nat} {key newKey : Hash} : p.rotations[i]? = some (.filed at_ version key) →
      RotateStep s p (.next i newKey)
        (s.withProc { p with signer := ⟨key, version⟩, rotations := p.rotations.set i (.swapped at_ version key) })
  | recorded {i at_ version : Nat} {key newKey : Hash} : p.rotations[i]? = some (.swapped at_ version key) →
      RotateStep s p (.next i newKey)
        { s with store := s.store.putKey ⟨version, E.publicKey key, at_⟩,
                 proc := some { p with rotations := p.rotations.eraseIdx i } }
  | failed {i : Nat} : RotateStep s p (.fails i) (s.withProc { p with rotations := p.rotations.eraseIdx i })

theorem stepRotate_step {s s' : St} {p : Proc} {e : RotateEv} (h : stepRotate E s p e = some s') :
    RotateStep E s p e s' := by
  cases e with
  | start =>
    simp only [stepRotate] at h
    split at h
    · cases h
    next hmu => cases h; exact .sized hmu
  | next i newKey =>
    simp only [stepRotate] at h
    split at h
    · cases h
    next ht => cases h; exact .numbered ht
    next ht => cases h; exact .filed ht
    next ht => cases h; exact .swapped ht
    next ht => cases h; exact .recorded ht
  | fails i =>
    simp only [stepRotate] at h
    split at h
    · cases h; exact .failed
    · cases h; exact .failed
    · cases h

inductive ProofStep (s : St) (p : Proc) : ProofEv → St → Prop
  | refused {req : ProofReq} {err : Status} : req.resolve s.store = .error err →
      ProofStep s p (.request req) (s.proofReply ⟨req, s.store.heads, .error err⟩)
  | sized {req : ProofReq} {size : Nat} : req.resolve s.store = .ok size →
      ProofStep s p (.request req) (s.withProc { p with proofs := p.proofs ++ [⟨req, size, .sized, s.store.heads⟩] })
  | unproved {i size : Nat} {req : ProofReq} {known : OrdMap Nat SignedTreeHead} {err : ProofError} :
      p.proofs[i]? = some ⟨req, size, .sized, known⟩ →
      req.prove sha256 (hashes (s.store.seqRange 0 size)) = .error err →
      ProofStep s p (.readLog i) ((s.withProc { p with proofs := p.proofs.eraseIdx i }).proofReply
        ⟨req, known, .error ⟨.internal, proofErrorMessage err⟩⟩)
  | proved {i size : Nat} {req : ProofReq} {known : OrdMap Nat SignedTreeHead} {proof : List Hash} :
      p.proofs[i]? = some ⟨req, size, .sized, known⟩ →
      req.prove sha256 (hashes (s.store.seqRange 0 size)) = .ok proof →
      ProofStep s p (.readLog i) (s.withProc { p with proofs := p.proofs.set i ⟨req, size, .proved proof, known⟩ })
  | headRead {i : Nat} {t t' : ProofTask} : p.proofs[i]? = some t → t.readHead s.store = some (.inl t') →
      ProofStep s p (.readHead i) (s.withProc { p with proofs := p.proofs.set i t' })
  | answered {i : Nat} {t : ProofTask} {result : Except Status ProofResponse} : p.proofs[i]? = some t →
      t.readHead s.store = some (.inr result) →
      ProofStep s p (.readHead i)
        ((s.withProc { p with proofs := p.proofs.eraseIdx i }).proofReply ⟨t.req, t.known, result⟩)

theorem stepProof_step {s s' : St} {p : Proc} {e : ProofEv} (h : stepProof sha256 s p e = some s') :
    ProofStep sha256 s p e s' := by
  cases e with
  | request req =>
    simp only [stepProof] at h
    split at h
    next err hr => cases h; exact .refused hr
    next size hr => cases h; exact .sized hr
  | readLog i =>
    simp only [stepProof] at h
    split at h
    next req size known ht =>
      split at h
      next err hp => cases h; exact .unproved ht hp
      next proof hp => cases h; exact .proved ht hp
    · cases h
  | readHead i =>
    simp only [stepProof] at h
    split at h
    · cases h
    next t ht =>
      split at h
      · cases h
      next t' hr => cases h; exact .headRead ht hr
      next result hr => cases h; exact .answered ht hr

inductive WatchStep (s : St) (p : Proc) : WatchEv → St → Prop
  | subscribed {fromSeq : Nat} :
      WatchStep s p (.subscribe fromSeq) (s.withProc { p with streams := p.streams ++ [.subscribe fromSeq] })
  | lagged {i : Nat} : WatchStep s p (.next i) (s.withProc { p with streams := p.streams.eraseIdx i })
  | moved {i : Nat} {st st' : Stream} : p.streams[i]? = some st → st.next s.store = some (some st') →
      WatchStep s p (.next i) (s.withProc { p with streams := p.streams.set i st' })
  | closed {i : Nat} : WatchStep s p (.close i) (s.withProc { p with streams := p.streams.eraseIdx i })

theorem stepWatch_step {s s' : St} {p : Proc} {e : WatchEv} (h : stepWatch s p e = some s') : WatchStep s p e s' := by
  cases e with
  | subscribe fromSeq => cases h; exact .subscribed
  | next i =>
    simp only [stepWatch] at h
    split at h
    · cases h
    next st hst =>
      split at h
      · cases h
      · cases h; exact .lagged
      next st' hn => cases h; exact .moved hst hn
  | close i =>
    simp only [stepWatch] at h
    split at h
    · cases h; exact .closed
    · cases h

/-- One step of the server. -/
inductive Step (s : St) : Ev → St → Prop
  | append {p : Proc} {e : AppendEv} {s' : St} : s.proc = some p → AppendStep sha256 s p e s' → Step s (.append e) s'
  | sign {p : Proc} {e : SignEv} {s' : St} : s.proc = some p → SignStep sha256 E s p e s' → Step s (.sign e) s'
  | rotate {p : Proc} {e : RotateEv} {s' : St} : s.proc = some p → RotateStep E s p e s' → Step s (.rotate e) s'
  | proof {p : Proc} {e : ProofEv} {s' : St} : s.proc = some p → ProofStep sha256 s p e s' → Step s (.proof e) s'
  | watch {p : Proc} {e : WatchEv} {s' : St} : s.proc = some p → WatchStep s p e s' → Step s (.watch e) s'
  | crash {p : Proc} : s.proc = some p → Step s .crash { s with proc := none }
  | restart {newKey : Hash} {seeded : Bool} {s' : St} : s.proc = none → restart sha256 E s newKey seeded = some s' →
      Step s (.restart newKey seeded) s'

theorem step_step {s s' : St} {e : Ev} (h : step sha256 E s e = some s') : Step sha256 E s e s' := by
  cases e with
  | append e =>
    obtain ⟨p, hp, hs⟩ := Option.bind_eq_some_iff.mp h
    exact .append hp (stepAppend_step sha256 hs)
  | sign e =>
    obtain ⟨p, hp, hs⟩ := Option.bind_eq_some_iff.mp h
    exact .sign hp (stepSign_step sha256 E hs)
  | rotate e =>
    obtain ⟨p, hp, hs⟩ := Option.bind_eq_some_iff.mp h
    exact .rotate hp (stepRotate_step E hs)
  | proof e =>
    obtain ⟨p, hp, hs⟩ := Option.bind_eq_some_iff.mp h
    exact .proof hp (stepProof_step sha256 hs)
  | watch e =>
    obtain ⟨p, hp, hs⟩ := Option.bind_eq_some_iff.mp h
    exact .watch hp (stepWatch_step hs)
  | crash =>
    obtain ⟨p, hp, rfl⟩ := Option.map_eq_some_iff.mp h
    exact .crash hp
  | restart newKey seeded =>
    simp only [step] at h
    split at h
    · cases h
    next hp => exact .restart hp h

/-- A restart: the counter, the tree and the signer from disk, no tasks. -/
structure Restarted (s s' : St) : Prop where
  log : s'.store.log = s.store.log
  index : s'.store.index = s.store.index
  heads : s'.store.heads = s.store.heads
  hist : s'.hist = s.hist
  proc : ∀ p, s'.proc = some p → p.nextSeq = s.store.nextSeq ∧
    MerkleTree.new.appendAll (.sha sha256) (hashes (s.store.seqRange 0 u64Max)) = some p.merkle ∧
    p.mu = none ∧ p.writers = [] ∧ p.streams = [] ∧ p.signs = [] ∧ p.rotations = [] ∧ p.proofs = []

theorem restart_restarted {s s' : St} (hp : s.proc = none) {newKey : Hash} {seeded : Bool}
    (h : restart sha256 E s newKey seeded = some s') : Restarted sha256 s s' := by
  unfold restart at h
  split at h
  · cases h
  next merkle hm =>
    cases seeded with
    | false =>
      cases h
      exact ⟨rfl, rfl, rfl, rfl, fun p hp' => by rw [hp] at hp'; cases hp'⟩
    | true =>
      simp only [if_true] at h
      cases hk : s.store.latestKey with
      | none =>
        simp only [hk] at h
        cases h
        exact ⟨rfl, rfl, rfl, rfl, fun p hp' => by cases hp'; exact ⟨rfl, hm, rfl, rfl, rfl, rfl, rfl, rfl⟩⟩
      | some r =>
        simp only [hk] at h
        cases h
        exact ⟨rfl, rfl, rfl, rfl, fun p hp' => by cases hp'; exact ⟨rfl, hm, rfl, rfl, rfl, rfl, rfl, rfl⟩⟩

/-! ## What a step leaves alone -/

/-- No head was written, and no signing task has moved. -/
structure SignsKept (s s' : St) : Prop where
  heads : s'.store.heads = s.store.heads
  signed : s'.hist.signed = s.hist.signed
  proc : ∀ p', s'.proc = some p' → p'.signs = [] ∨ ∃ p, s.proc = some p ∧ p'.signs = p.signs

/-- The keys are the same, on disk and in the process, and no rotation has moved. -/
structure KeysKept (s s' : St) : Prop where
  keys : s'.store.keys = s.store.keys
  keyFile : s'.keyFile = s.keyFile
  proc : ∃ p p', s.proc = some p ∧ s'.proc = some p' ∧ p'.signer = p.signer ∧ p'.rotations = p.rotations

/-- Events of requests other than rotations. -/
def Ev.keepsKeys : Ev → Bool
  | .append _ | .sign _ | .proof _ | .watch _ => true
  | .rotate _ | .crash | .restart _ _ => false

section

variable {sha256 E} {s s' : St} {e : Ev}

theorem Step.signsKept (hs : Step sha256 E s e s') (he : ∀ e', e ≠ .sign e') : SignsKept s s' := by
  cases hs with
  | append hp hs =>
    cases hs with
    | refused | emptyBatch => exact ⟨rfl, rfl, fun p' hp' => Or.inr ⟨p', hp', rfl⟩⟩
    | written => exact ⟨(writeBatch_frame _ s.store).1, rfl, fun p' hp' => Or.inr ⟨_, hp, by cases hp'; rfl⟩⟩
    | locked | reserved | failed | leaf | unlocked | sent | replied =>
      exact ⟨rfl, rfl, fun p' hp' => Or.inr ⟨_, hp, by cases hp'; rfl⟩⟩
  | sign => exact absurd rfl (he _)
  | rotate hp hs => cases hs <;> exact ⟨rfl, rfl, fun p' hp' => Or.inr ⟨_, hp, by cases hp'; rfl⟩⟩
  | proof hp hs =>
    cases hs with
    | refused => exact ⟨rfl, rfl, fun p' hp' => Or.inr ⟨p', hp', rfl⟩⟩
    | sized | unproved | proved | headRead | answered =>
      exact ⟨rfl, rfl, fun p' hp' => Or.inr ⟨_, hp, by cases hp'; rfl⟩⟩
  | watch hp hs => cases hs <;> exact ⟨rfl, rfl, fun p' hp' => Or.inr ⟨_, hp, by cases hp'; rfl⟩⟩
  | crash => exact ⟨rfl, rfl, fun p' hp' => by cases hp'⟩
  | restart hp hr =>
    have hr := restart_restarted sha256 E hp hr
    exact ⟨hr.heads, by rw [hr.hist], fun p' hp' => Or.inl (hr.proc p' hp').2.2.2.2.2.1⟩

theorem Step.keysKept (hs : Step sha256 E s e s') (he : e.keepsKeys = true) : KeysKept s s' := by
  cases hs with
  | append hp hs =>
    cases hs with
    | refused | emptyBatch => exact ⟨rfl, rfl, _, _, hp, hp, rfl, rfl⟩
    | written => exact ⟨(writeBatch_frame _ s.store).2, rfl, _, _, hp, rfl, rfl, rfl⟩
    | locked | reserved | failed | leaf | unlocked | sent | replied => exact ⟨rfl, rfl, _, _, hp, rfl, rfl, rfl⟩
  | sign hp hs => cases hs <;> exact ⟨rfl, rfl, _, _, hp, rfl, rfl, rfl⟩
  | rotate => cases he
  | proof hp hs =>
    cases hs with
    | refused => exact ⟨rfl, rfl, _, _, hp, hp, rfl, rfl⟩
    | sized | unproved | proved | headRead | answered => exact ⟨rfl, rfl, _, _, hp, rfl, rfl, rfl⟩
  | watch hp hs => cases hs <;> exact ⟨rfl, rfl, _, _, hp, rfl, rfl, rfl⟩
  | crash => cases he
  | restart => cases he

end

end Settled.Server
