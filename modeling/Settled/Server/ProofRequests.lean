/-
  Settled.Server.ProofRequests — the proofs the server hands out.

  A request reads heads, log and heads again while appends and signing go on. Between
  its reads it holds a size; what ties them together is that the log only grows and that
  a head of size `t` is always the root of the first `t` entries. So once a request has
  read all `t` leaves, its proof is a proof under any head of size `t` (`TaskOk`).

  But a request may name a size the log has not reached yet. It then reads fewer leaves,
  and proves over those; if the log grows to that size and is signed before the last
  read, the answer is a proof for a smaller tree under a head it does not belong to
  (`future_size_proof_fails`). With the log read covered (`logReadCovered`), every
  proof handed out verifies and every request whose heads exist is answered
  (`proofs_verify`).
-/

import Settled.Server.Invariant

namespace Settled.Server

open Settled.Lib Settled.Core Settled.Storage

variable (sha256 : Bytes → Hash) (E : Ed25519)

/-! ## What a request is owed -/

/-- The size a request means: 0 is the latest head's. -/
def meantSize (known : OrdMap Nat SignedTreeHead) (size : Nat) : Option Nat :=
  if size = 0 then known.last?.map (·.2.treeSize) else some size

/-- The heads the request needs existed when it came, and its sizes are in order. -/
def Owed (known : OrdMap Nat SignedTreeHead) : ProofReq → Prop
  | .inclusion seq treeSize => ∃ n, meantSize known treeSize = some n ∧ (known.get? n).isSome ∧ seq < n
  | .consistency oldSize newSize => ∃ n, meantSize known newSize = some n ∧ (known.get? oldSize).isSome ∧
      (known.get? n).isSome ∧ 0 < oldSize ∧ oldSize ≤ n

/-- The answer verifies; `es` are the entries stored. -/
def Verifies (es : List LogEntry) : ProofReq → ProofResponse → Prop
  | .inclusion seq _, .inclusion leafIndex treeSize proof sth => leafIndex = seq ∧ ∃ e, es[seq]? = some e ∧
      (verifyInclusion (.sha sha256) (leafHash sha256 e.data) leafIndex treeSize proof sth.rootHash).val = true
  | .consistency _ _, .consistency oldSize newSize proof oldSth newSth =>
      (verifyConsistency (.sha sha256) oldSize newSize proof oldSth.rootHash newSth.rootHash).val = true
  | _, _ => False

theorem Verifies.append {es fs : List LogEntry} {req : ProofReq} {resp : ProofResponse} (h : Verifies sha256 es req resp) :
    Verifies sha256 (es ++ fs) req resp := by
  cases req with
  | inclusion seq treeSize =>
    cases resp with
    | consistency => exact h
    | inclusion leafIndex treeSize proof sth =>
      obtain ⟨h1, e, he, hv⟩ := h
      exact ⟨h1, e, by rw [List.getElem?_append_left (List.getElem?_eq_some_iff.mp he).1]; exact he, hv⟩
  | consistency oldSize newSize =>
    cases resp with
    | inclusion => exact h
    | consistency => exact h

/-! ## The invariant of the requests in flight -/

/-- The sizes a request was resolved to. -/
def SizeOk (known : OrdMap Nat SignedTreeHead) (size : Nat) : ProofReq → Prop
  | .inclusion seq treeSize => seq < size ∧ meantSize known treeSize = some size
  | .consistency oldSize newSize => 0 < oldSize ∧ oldSize ≤ size ∧ meantSize known newSize = some size

/-- A proof over all the leaves of its size. -/
def Proved (es : List LogEntry) (size : Nat) (req : ProofReq) (proof : List Hash) : Prop :=
  size ≤ es.length ∧ req.prove sha256 (hashes (es.take size)) = .ok proof

def PhaseOk (es : List LogEntry) (size : Nat) (req : ProofReq) : ProofPhase → Prop
  | .sized => True
  | .proved proof => Proved sha256 es size req proof
  | .oldHead proof oldSth => Proved sha256 es size req proof ∧
      ∃ oldSize newSize, req = .consistency oldSize newSize ∧ HeadOk sha256 es oldSize oldSth

structure TaskOk (heads : OrdMap Nat SignedTreeHead) (es : List LogEntry) (t : ProofTask) : Prop where
  size : SizeOk t.known t.size t.req
  known : ∀ n, (t.known.get? n).isSome → (heads.get? n).isSome
  phase : PhaseOk sha256 es t.size t.req t.phase

structure ReplyOk (es : List LogEntry) (r : ProofReply) : Prop where
  sound : ∀ resp, r.result = .ok resp → Verifies sha256 es r.req resp
  answered : Owed r.known r.req → ∃ resp, r.result = .ok resp

/-- An error is an answer to a request that is owed nothing. -/
theorem ReplyOk.error {es : List LogEntry} {req : ProofReq} {known : OrdMap Nat SignedTreeHead} {err : Status}
    (h : ¬ Owed known req) : ReplyOk sha256 es ⟨req, known, .error err⟩ where
  sound resp hr := by cases hr
  answered howed := absurd howed h

structure ProofInv (s : St) (es : List LogEntry) : Prop where
  tasks : ∀ p, s.proc = some p → ∀ t ∈ p.proofs, TaskOk sha256 s.store.heads es t
  replies : ∀ r ∈ s.hist.proofs, ReplyOk sha256 es r

theorem ProofInv.init : ProofInv sha256 .init [] where
  tasks p h := by cases h
  replies r h := by cases h

theorem Proved.append {es fs : List LogEntry} {size : Nat} {req : ProofReq} {proof : List Hash}
    (h : Proved sha256 es size req proof) : Proved sha256 (es ++ fs) size req proof := by
  obtain ⟨h1, h2⟩ := h
  exact ⟨by rw [List.length_append]; omega, by rw [List.take_append_of_le_length h1]; exact h2⟩

theorem TaskOk.grow {heads heads' : OrdMap Nat SignedTreeHead} {es fs : List LogEntry} {t : ProofTask}
    (h : TaskOk sha256 heads es t) (hh : ∀ n, (heads.get? n).isSome → (heads'.get? n).isSome) :
    TaskOk sha256 heads' (es ++ fs) t := by
  refine ⟨h.size, fun n hn => hh n (h.known n hn), ?_⟩
  have hp := h.phase
  cases hph : t.phase with
  | sized => trivial
  | proved proof => rw [hph] at hp; exact Proved.append sha256 hp
  | oldHead proof oldSth =>
    rw [hph] at hp
    obtain ⟨h1, oldSize, newSize, h2, h3⟩ := hp
    exact ⟨h1.append, oldSize, newSize, h2, h3.append⟩

/-! ## Steps of other tasks -/

/-- The requests in flight and the answers are as they were, and no head is gone. -/
structure Apart (s s' : St) : Prop where
  replies : s'.hist.proofs = s.hist.proofs
  heads : ∀ n, (s.store.heads.get? n).isSome → (s'.store.heads.get? n).isSome
  tasks : ∀ p', s'.proc = some p' → p'.proofs = [] ∨ ∃ p, s.proc = some p ∧ p'.proofs = p.proofs

theorem ProofInv.apart {s s' : St} {es fs : List LogEntry} (h : ProofInv sha256 s es) (ha : Apart s s') :
    ProofInv sha256 s' (es ++ fs) where
  tasks p' hp' t ht := by
    rcases ha.tasks p' hp' with h0 | ⟨p, hp, he⟩
    · rw [h0] at ht; cases ht
    · rw [he] at ht
      exact (h.tasks p hp t ht).grow sha256 ha.heads
  replies r hr := by
    rw [ha.replies] at hr
    obtain ⟨h1, h2⟩ := h.replies r hr
    exact ⟨fun resp hresp => (h1 resp hresp).append, h2⟩

theorem Apart.of_proc {s : St} {p p' : Proc} {keyFile : Option Hash} {keys : OrdMap Nat KeyRecord} {hist : Hist}
    (hp : s.proc = some p) (h : p'.proofs = p.proofs) (hr : hist.proofs = s.hist.proofs) :
    Apart s { s with store := { s.store with keys := keys }, keyFile := keyFile, proc := some p', hist := hist } :=
  ⟨hr, fun n hn => hn, fun q hq => Or.inr ⟨p, hp, by cases hq; exact h⟩⟩

theorem AppendStep.apart {s s' : St} {p : Proc} (hp : s.proc = some p) {e : AppendEv} (h : AppendStep sha256 s p e s') :
    Apart s s' := by
  cases h with
  | refused | emptyBatch => exact ⟨rfl, fun n hn => hn, fun q hq => Or.inr ⟨q, hq, rfl⟩⟩
  | written =>
    refine ⟨rfl, fun n hn => ?_, fun q hq => Or.inr ⟨p, hp, by cases hq; rfl⟩⟩
    rw [(writeBatch_frame _ s.store).1]
    exact hn
  | locked | reserved | failed | leaf | unlocked | sent | replied => exact .of_proc hp rfl rfl

theorem SignStep.apart {s s' : St} {p : Proc} (hp : s.proc = some p) {e : SignEv} (h : SignStep sha256 E s p e s') :
    Apart s s' := by
  cases h with
  | @wrote i now d publicKey keyVersion =>
    refine ⟨rfl, fun n hn => ?_, fun q hq => Or.inr ⟨p, hp, by cases hq; rfl⟩⟩
    show ((s.store.heads.put d.treeSize (d.head publicKey keyVersion)).get? n).isSome
    rw [OrdMap.get?_put]
    split
    · rfl
    · exact hn
  | snapped | skipped | moved | failed => exact .of_proc hp rfl rfl

theorem RotateStep.apart {s s' : St} {p : Proc} (hp : s.proc = some p) {e : RotateEv} (h : RotateStep E s p e s') :
    Apart s s' := by
  cases h <;> exact .of_proc hp rfl rfl

theorem WatchStep.apart {s s' : St} {p : Proc} (hp : s.proc = some p) {e : WatchEv} (h : WatchStep s p e s') :
    Apart s s' := by
  cases h <;> exact .of_proc hp rfl rfl

theorem Restarted.apart {s s' : St} (h : Restarted sha256 s s') : Apart s s' := by
  refine ⟨by rw [h.hist], fun n hn => by rw [h.heads]; exact hn, fun p hp => Or.inl ?_⟩
  exact (h.proc p hp).2.2.2.2.2.2.2

/-! ## Steps of the requests -/

theorem latestSize_toOption (store : Store) (size : Nat) : (latestSize store size).toOption = meantSize store.heads size := by
  unfold latestSize meantSize
  split
  next =>
    unfold Store.latestHead
    cases store.heads.last? with
    | none => rfl
    | some x => rfl
  next => rfl

theorem latestSize_ok {store : Store} {size n : Nat} (h : latestSize store size = .ok n) :
    meantSize store.heads size = some n := by
  rw [← latestSize_toOption, h]
  rfl

theorem latestSize_error {store : Store} {size : Nat} {err : Status} (h : latestSize store size = .error err) :
    meantSize store.heads size = none := by
  rw [← latestSize_toOption, h]
  rfl

theorem resolve_ok {store : Store} {req : ProofReq} {size : Nat} (h : req.resolve store = .ok size) :
    SizeOk store.heads size req := by
  cases req with
  | inclusion seq treeSize =>
    simp only [ProofReq.resolve] at h
    split at h
    · cases h
    next n hn =>
      split at h
      · cases h
      next hlt =>
        cases h
        exact ⟨by omega, latestSize_ok hn⟩
  | consistency oldSize newSize =>
    simp only [ProofReq.resolve] at h
    split at h
    · cases h
    next h0 =>
      split at h
      · cases h
      next n hn =>
        split at h
        · cases h
        next hlt =>
          cases h
          exact ⟨by omega, by omega, latestSize_ok hn⟩

/-- A request that is refused is owed nothing. -/
theorem resolve_error {store : Store} {req : ProofReq} {err : Status} (h : req.resolve store = .error err) :
    ¬ Owed store.heads req := by
  cases req with
  | inclusion seq treeSize =>
    intro howed
    obtain ⟨n, hn, -, hlt⟩ := howed
    simp only [ProofReq.resolve] at h
    split at h
    next e he => rw [latestSize_error he] at hn; cases hn
    next m hm =>
      rw [latestSize_ok hm] at hn
      cases hn
      split at h
      · omega
      · cases h
  | consistency oldSize newSize =>
    intro howed
    obtain ⟨n, hn, -, -, h0, hle⟩ := howed
    simp only [ProofReq.resolve] at h
    split at h
    · omega
    next =>
      split at h
      next e he => rw [latestSize_error he] at hn; cases hn
      next m hm =>
        rw [latestSize_ok hm] at hn
        cases hn
        split at h
        · omega
        · cases h

/-- Over all the leaves of its size every request has a proof. -/
theorem prove_ok {es : List LogEntry} {known : OrdMap Nat SignedTreeHead} {size : Nat} {req : ProofReq}
    (hs : SizeOk known size req) (hle : size ≤ es.length) : ∃ proof, req.prove sha256 (hashes (es.take size)) = .ok proof := by
  have hlen : (hashes (es.take size)).length = size := by rw [length_hashes, List.length_take]; omega
  cases req with
  | inclusion seq treeSize =>
    have hlt : seq < (hashes (es.take size)).length := by rw [hlen]; exact hs.1
    obtain ⟨P, r, c, hP, -⟩ := inclusionProof_opens (.sha sha256) (List.getElem?_eq_getElem hlt)
    exact ⟨P, hP⟩
  | consistency oldSize newSize =>
    obtain ⟨P, o, w, hP, -⟩ := consistencyProof_extends (.sha sha256) (L := hashes (es.take size)) hs.1
      (by rw [hlen]; exact hs.2.1)
    exact ⟨P, hP⟩

theorem inclusion_verifies {es : List LogEntry} (hnum : Numbered sha256 0 es) {seq treeSize size : Nat} {proof : List Hash}
    {sth : SignedTreeHead} (hlt : seq < size) (hp : Proved sha256 es size (.inclusion seq treeSize) proof)
    (hh : HeadOk sha256 es size sth) : Verifies sha256 es (.inclusion seq treeSize) (.inclusion seq size proof sth) := by
  obtain ⟨hle, hprove⟩ := hp
  obtain ⟨-, -, hroot⟩ := hh
  obtain ⟨e, P, r, he, hr, hP, hv⟩ := rootAt_proof sha256 hnum hlt hle
  rw [hr] at hroot
  rw [ProofReq.prove, hP] at hprove
  cases hroot
  cases hprove
  exact ⟨rfl, e, he, hv⟩

theorem consistency_verifies {es : List LogEntry} {oldSize newSize size : Nat} {proof : List Hash}
    {oldSth newSth : SignedTreeHead} (h0 : 0 < oldSize) (hle : oldSize ≤ size)
    (hp : Proved sha256 es size (.consistency oldSize newSize) proof) (ho : HeadOk sha256 es oldSize oldSth)
    (hn : HeadOk sha256 es size newSth) :
    Verifies sha256 es (.consistency oldSize newSize) (.consistency oldSize size proof oldSth newSth) := by
  obtain ⟨hsize, hprove⟩ := hp
  obtain ⟨-, -, hor⟩ := ho
  obtain ⟨-, -, hnr⟩ := hn
  have hlen : (hashes (es.take size)).length = size := by rw [length_hashes, List.length_take]; omega
  obtain ⟨P, o, w, hP, hov, hwv, hver⟩ := consistencyProof_extends (.sha sha256) (L := hashes (es.take size)) h0
    (by rw [hlen]; exact hle)
  have htake : (hashes (es.take size)).take oldSize = hashes (es.take oldSize) := by
    rw [hashes, hashes, ← List.map_take, List.take_take, Nat.min_eq_left hle]
  rw [htake] at hov
  rw [rootAt, hov] at hor
  rw [rootAt, hwv] at hnr
  rw [ProofReq.prove, hP] at hprove
  rw [hlen] at hver
  cases hor
  cases hnr
  cases hprove
  exact hver

/-- The heads a request reads. -/
def ProofReq.sizes (size : Nat) : ProofReq → List Nat
  | inclusion _ _ => [size]
  | consistency oldSize _ => [oldSize, size]

/-- A request that is owed an answer found all the heads it reads when it came. -/
theorem Owed.sizes {known : OrdMap Nat SignedTreeHead} {size : Nat} {req : ProofReq} (h : Owed known req)
    (hs : SizeOk known size req) : ∀ n ∈ req.sizes size, (known.get? n).isSome := by
  intro m hm
  cases req with
  | inclusion seq treeSize =>
    obtain ⟨n, hn, hk, -⟩ := h
    rw [hs.2, Option.some.injEq] at hn
    rw [List.mem_singleton.mp hm, hn]
    exact hk
  | consistency oldSize newSize =>
    obtain ⟨n, hn, hold, hnew, -⟩ := h
    rw [hs.2.2, Option.some.injEq] at hn
    rcases List.mem_cons.mp hm with hm | hm
    · rw [hm]; exact hold
    · rw [List.mem_singleton.mp hm, hn]; exact hnew

/-- What a head read can do. -/
inductive HeadRead (s : Store) : ProofTask → ProofTask ⊕ Except Status ProofResponse → Prop
  | missing {t : ProofTask} {n : Nat} {err : Status} : n ∈ t.req.sizes t.size → s.headAtSize n = none →
      HeadRead s t (.inr (.error err))
  | inclusion {seq treeSize size : Nat} {proof : List Hash} {known : OrdMap Nat SignedTreeHead} {sth : SignedTreeHead} :
      s.headAtSize size = some sth →
      HeadRead s ⟨.inclusion seq treeSize, size, .proved proof, known⟩ (.inr (.ok (.inclusion seq size proof sth)))
  | oldHead {oldSize newSize size : Nat} {proof : List Hash} {known : OrdMap Nat SignedTreeHead} {oldSth : SignedTreeHead} :
      s.headAtSize oldSize = some oldSth →
      HeadRead s ⟨.consistency oldSize newSize, size, .proved proof, known⟩
        (.inl ⟨.consistency oldSize newSize, size, .oldHead proof oldSth, known⟩)
  | consistency {oldSize newSize size : Nat} {proof : List Hash} {known : OrdMap Nat SignedTreeHead}
      {oldSth newSth : SignedTreeHead} : s.headAtSize size = some newSth →
      HeadRead s ⟨.consistency oldSize newSize, size, .oldHead proof oldSth, known⟩
        (.inr (.ok (.consistency oldSize size proof oldSth newSth)))

theorem readHead_headRead {s : Store} {t : ProofTask} {r : ProofTask ⊕ Except Status ProofResponse}
    (h : t.readHead s = some r) : HeadRead s t r := by
  obtain ⟨req, size, phase, known⟩ := t
  simp only [ProofTask.readHead] at h
  split at h
  · cases h
  · split at h
    next hh => cases h; exact .missing (List.mem_singleton_self size) hh
    next sth hh => cases h; exact .inclusion hh
  · split at h
    next hh => cases h; exact .missing List.mem_cons_self hh
    next oldSth hh => cases h; exact .oldHead hh
  · cases h
  · split at h
    next hh => cases h; exact .missing (List.mem_cons_of_mem _ (List.mem_singleton_self size)) hh
    next newSth hh => cases h; exact .consistency hh

/-- A task goes on as it should, and its answer is what it is owed. -/
def ReadOk (heads : OrdMap Nat SignedTreeHead) (es : List LogEntry) (t : ProofTask) :
    ProofTask ⊕ Except Status ProofResponse → Prop
  | .inl t' => TaskOk sha256 heads es t'
  | .inr result => ReplyOk sha256 es ⟨t.req, t.known, result⟩

theorem HeadRead.inv {s : St} {es : List LogEntry} (hi : Inv sha256 s es) {t : ProofTask}
    (ht : TaskOk sha256 s.store.heads es t) {r : ProofTask ⊕ Except Status ProofResponse} (h : HeadRead s.store t r) :
    ReadOk sha256 s.store.heads es t r := by
  obtain ⟨hsize, hknown, hphase⟩ := ht
  cases h with
  | @missing _ n _ hn hh =>
    refine ReplyOk.error sha256 fun howed => ?_
    have hthere := hknown n (howed.sizes hsize n hn)
    unfold Store.headAtSize at hh
    rw [hh] at hthere
    cases hthere
  | inclusion hh =>
    refine ⟨fun resp hresp => ?_, fun _ => ⟨_, rfl⟩⟩
    cases hresp
    exact inclusion_verifies sha256 hi.holds.numbered hsize.1 hphase (hi.heads _ _ hh)
  | oldHead hh => exact ⟨hsize, hknown, hphase, _, _, rfl, hi.heads _ _ hh⟩
  | consistency hh =>
    obtain ⟨hproved, o, n, he, hold⟩ := hphase
    cases he
    refine ⟨fun resp hresp => ?_, fun _ => ⟨_, rfl⟩⟩
    cases hresp
    exact consistency_verifies sha256 hsize.1 hsize.2.1 hproved hold (hi.heads _ _ hh)

/-- A log read by a request sees all the leaves of the size it proves over. -/
def logReadCovered (s : St) : Ev → Bool
  | .append (.writeFails _) => false
  | .proof (.readLog i) => (s.proc.bind (·.proofs[i]?)).all fun t => t.size ≤ s.store.log.entries.length
  | _ => true

theorem logReadCovered_noError {s : St} {e : Ev} (h : logReadCovered s e = true) : noLogWriteError s e = true := by
  cases e with
  | append e =>
    cases e with
    | writeFails m => cases h
    | request | reserve | write | merkle | unlock | send | reply => rfl
  | sign | rotate | proof | watch | crash | restart => rfl

theorem Holds.count {s : Store} {es : List LogEntry} (h : Holds sha256 s es) : s.log.entries.length = es.length := by
  rw [← List.length_map (f := Prod.fst), Holds.keys sha256 h, List.length_range]

theorem ProofStep.inv {s s' : St} {p : Proc} {es : List LogEntry} (hi : Inv sha256 s es) (h : ProofInv sha256 s es)
    (hp : s.proc = some p) {e : ProofEv} (hok : logReadCovered s (.proof e) = true) (hs : ProofStep sha256 s p e s') :
    ProofInv sha256 s' es := by
  have htasks := h.tasks p hp
  have herase : ∀ i, ∀ t ∈ p.proofs.eraseIdx i, TaskOk sha256 s.store.heads es t := fun i t ht =>
    htasks t (List.mem_of_mem_eraseIdx ht)
  have hset : ∀ i t', TaskOk sha256 s.store.heads es t' → ∀ t ∈ p.proofs.set i t', TaskOk sha256 s.store.heads es t := by
    intro i t' ht' t ht
    rcases List.mem_or_eq_of_mem_set ht with ht | rfl
    · exact htasks t ht
    · exact ht'
  have hreply : ∀ r, ReplyOk sha256 es r → ∀ r' ∈ s.hist.proofs ++ [r], ReplyOk sha256 es r' := by
    intro r hr r' hr'
    rcases List.mem_append.mp hr' with hr' | hr'
    · exact h.replies r' hr'
    · rw [List.mem_singleton] at hr'
      rw [hr']
      exact hr
  cases hs with
  | refused hr => exact ⟨h.tasks, hreply _ (.error sha256 (resolve_error hr))⟩
  | sized hr =>
    refine ⟨fun q hq t ht => ?_, h.replies⟩
    cases hq
    rcases List.mem_append.mp ht with ht | ht
    · exact htasks t ht
    · rw [List.mem_singleton] at ht
      rw [ht]
      exact ⟨resolve_ok hr, fun n hn => hn, trivial⟩
  | @unproved i size req known err ht hprove =>
    have hcov : size ≤ es.length := by
      simpa [logReadCovered, hp, ht, Holds.count sha256 hi.holds] using hok
    obtain ⟨proof, hproof⟩ := prove_ok sha256 (htasks _ (List.mem_of_getElem? ht)).size hcov
    rw [hi.holds.seqRange, hproof] at hprove
    cases hprove
  | @proved i size req known proof ht hprove =>
    have hcov : size ≤ es.length := by
      simpa [logReadCovered, hp, ht, Holds.count sha256 hi.holds] using hok
    obtain ⟨hsize, hknown, -⟩ := htasks _ (List.mem_of_getElem? ht)
    rw [hi.holds.seqRange] at hprove
    exact ⟨fun q hq => by cases hq; exact hset i _ ⟨hsize, hknown, hcov, hprove⟩, h.replies⟩
  | headRead ht hread =>
    have hok' := (readHead_headRead hread).inv sha256 hi (htasks _ (List.mem_of_getElem? ht))
    exact ⟨fun q hq => by cases hq; exact hset _ _ hok', h.replies⟩
  | answered ht hread =>
    have hok' := (readHead_headRead hread).inv sha256 hi (htasks _ (List.mem_of_getElem? ht))
    exact ⟨fun q hq => by cases hq; exact herase _, hreply _ hok'⟩

/-! ## Runs -/

theorem reach_proofInv {s : St} (h : Reach (step sha256 E) logReadCovered .init s) :
    ∃ es, Inv sha256 s es ∧ ProofInv sha256 s es := by
  apply h.inv (P := fun s => ∃ es, Inv sha256 s es ∧ ProofInv sha256 s es) ⟨[], Inv.init sha256, ProofInv.init sha256⟩
  intro s e s' ⟨es, hi, hpi⟩ hok hs
  have hs := step_step sha256 E hs
  obtain ⟨fs, hi'⟩ := hs.inv sha256 E hi (logReadCovered_noError hok)
  cases hs with
  | append hp hs => exact ⟨es ++ fs, hi', hpi.apart sha256 (hs.apart sha256 hp)⟩
  | sign hp hs => exact ⟨es ++ fs, hi', hpi.apart sha256 (hs.apart sha256 E hp)⟩
  | rotate hp hs => exact ⟨es ++ fs, hi', hpi.apart sha256 (hs.apart E hp)⟩
  | watch hp hs => exact ⟨es ++ fs, hi', hpi.apart sha256 (hs.apart hp)⟩
  | crash => exact ⟨es ++ fs, hi', hpi.apart sha256 ⟨rfl, fun n hn => hn, fun q hq => by cases hq⟩⟩
  | restart hp hr => exact ⟨es ++ fs, hi', hpi.apart sha256 (restart_restarted sha256 E hp hr).apart⟩
  | proof hp hs => exact ⟨es, hi.quiet sha256 (hs.quiet sha256 hp), hs.inv sha256 hi hpi hp hok⟩

/-! ## A request that is owed an answer can always get it -/

/-- The remaining reads of task `i` lead to its answer. -/
def Finishes (s : St) (i : Nat) (t : ProofTask) : Prop :=
  ∃ evs s' resp, (∀ e ∈ evs, e = .proof (.readLog i) ∨ e = .proof (.readHead i)) ∧
    run (step sha256 E) logReadCovered s evs = some s' ∧
    s'.hist.proofs = s.hist.proofs ++ [⟨t.req, t.known, .ok resp⟩]

/-- A read after which the task goes on as `t1`. -/
theorem Finishes.cons {s : St} {i : Nat} {t t1 : ProofTask} {p : Proc} {e : Ev}
    (he : e = .proof (.readLog i) ∨ e = .proof (.readHead i)) (hok : logReadCovered s e = true)
    (hs : step sha256 E s e = some (s.withProc p)) (hr : t1.req = t.req ∧ t1.known = t.known)
    (h : Finishes sha256 E (s.withProc p) i t1) : Finishes sha256 E s i t := by
  obtain ⟨evs, s', resp, hevs, hrun, hrep⟩ := h
  refine ⟨e :: evs, s', resp, fun e' he' => ?_, by rw [run_cons hok hs]; exact hrun, ?_⟩
  · rcases List.mem_cons.mp he' with rfl | he'
    · exact he
    · exact hevs e' he'
  · rw [hrep, hr.1, hr.2]
    rfl

theorem finishes_of_readHead {s : St} {p : Proc} (hp : s.proc = some p) {i : Nat} {t : ProofTask}
    (ht : p.proofs[i]? = some t) (resp : ProofResponse) (hread : t.readHead s.store = some (.inr (.ok resp))) :
    Finishes sha256 E s i t := by
  refine ⟨[.proof (.readHead i)],
    (s.withProc { p with proofs := p.proofs.eraseIdx i }).proofReply ⟨t.req, t.known, .ok resp⟩, resp, fun e he => ?_, ?_, rfl⟩
  · exact Or.inr (List.mem_singleton.mp he)
  · simp only [St.proofReply, St.withProc, run, logReadCovered, if_true, step, hp, Option.bind_some, stepProof, ht, hread]

theorem finishes_of_proved {s : St} {p : Proc} (hp : s.proc = some p) {i size : Nat} {req : ProofReq} {proof : List Hash}
    {known : OrdMap Nat SignedTreeHead} (ht : p.proofs[i]? = some ⟨req, size, .proved proof, known⟩)
    (hheads : ∀ n ∈ req.sizes size, ∃ sth, s.store.headAtSize n = some sth) :
    Finishes sha256 E s i ⟨req, size, .proved proof, known⟩ := by
  cases req with
  | inclusion seq treeSize =>
    obtain ⟨sth, hsth⟩ := hheads size (List.mem_singleton_self size)
    exact finishes_of_readHead sha256 E hp ht (.inclusion seq size proof sth) (by simp only [ProofTask.readHead, hsth])
  | consistency oldSize newSize =>
    obtain ⟨oldSth, hold⟩ := hheads oldSize List.mem_cons_self
    obtain ⟨sth, hsth⟩ := hheads size (List.mem_cons_of_mem _ (List.mem_singleton_self size))
    have hlt : i < p.proofs.length := (List.getElem?_eq_some_iff.mp ht).1
    let t1 : ProofTask := ⟨.consistency oldSize newSize, size, .oldHead proof oldSth, known⟩
    have hread : ProofTask.readHead s.store ⟨.consistency oldSize newSize, size, .proved proof, known⟩ = some (.inl t1) := by
      simp only [ProofTask.readHead, hold, t1]
    have hstep : step sha256 E s (.proof (.readHead i)) = some (s.withProc { p with proofs := p.proofs.set i t1 }) := by
      simp only [step, hp, Option.bind_some, stepProof, ht, hread]
      rfl
    refine .cons sha256 E (Or.inr rfl) rfl hstep (show t1.req = _ ∧ t1.known = _ from ⟨rfl, rfl⟩) ?_
    refine finishes_of_readHead sha256 E (p := { p with proofs := p.proofs.set i t1 }) rfl
      (List.getElem?_set_self hlt) (.consistency oldSize size proof oldSth sth) ?_
    show ProofTask.readHead s.store t1 = _
    simp only [ProofTask.readHead, hsth, t1]

theorem owed_finishes {s : St} {es : List LogEntry} (hi : Inv sha256 s es) {p : Proc} (hp : s.proc = some p) {i : Nat}
    {t : ProofTask} (ht : p.proofs[i]? = some t) (hok : TaskOk sha256 s.store.heads es t) (howed : Owed t.known t.req) :
    Finishes sha256 E s i t := by
  obtain ⟨req, size, phase, known⟩ := t
  obtain ⟨hsize, hknown, hphase⟩ := hok
  have hheads : ∀ n ∈ req.sizes size, ∃ sth, s.store.headAtSize n = some sth := fun n hn =>
    Option.isSome_iff_exists.mp (hknown n (howed.sizes hsize n hn))
  have hsize_mem : size ∈ req.sizes size := by
    cases req with
    | inclusion => exact List.mem_singleton_self size
    | consistency => exact List.mem_cons_of_mem _ (List.mem_singleton_self size)
  obtain ⟨sth, hsth⟩ := hheads size hsize_mem
  cases phase with
  | proved proof => exact finishes_of_proved sha256 E hp ht hheads
  | oldHead proof oldSth =>
    obtain ⟨-, oldSize, newSize, he, -⟩ := hphase
    cases he
    exact finishes_of_readHead sha256 E hp ht (.consistency oldSize size proof oldSth sth)
      (by simp only [ProofTask.readHead, hsth])
  | sized =>
    have hcov : size ≤ es.length := (hi.heads size sth hsth).2.1
    obtain ⟨proof, hproof⟩ := prove_ok sha256 hsize hcov
    rw [← hi.holds.seqRange] at hproof
    have hlt : i < p.proofs.length := (List.getElem?_eq_some_iff.mp ht).1
    let t1 : ProofTask := ⟨req, size, .proved proof, known⟩
    have hok : logReadCovered s (.proof (.readLog i)) = true := by
      simp [logReadCovered, hp, ht, Holds.count sha256 hi.holds, hcov]
    have hstep : step sha256 E s (.proof (.readLog i)) = some (s.withProc { p with proofs := p.proofs.set i t1 }) := by
      simp only [step, hp, Option.bind_some, stepProof, ht, hproof]
      rfl
    refine .cons sha256 E (Or.inl rfl) hok hstep (show t1.req = _ ∧ t1.known = _ from ⟨rfl, rfl⟩) ?_
    exact finishes_of_proved sha256 E (p := { p with proofs := p.proofs.set i t1 }) rfl (List.getElem?_set_self hlt) hheads

/-- In every run whose log reads are covered (and no log write fails) every proof handed
    out verifies: an inclusion proof for the entry stored at the requested number, under
    the head it comes with; a consistency proof between the two heads it comes with. Every
    request whose heads existed when it came, with its sizes in order, is answered with a
    proof, and while it is in flight its own reads alone lead there. -/
theorem proofs_verify {s : St} (h : Reach (step sha256 E) logReadCovered .init s) :
    (∀ r ∈ s.hist.proofs,
      (∀ leafIndex treeSize proof sth, r.result = .ok (.inclusion leafIndex treeSize proof sth) →
        ∃ requested e, r.req = .inclusion leafIndex requested ∧ s.store.getBySeq leafIndex = some e ∧
          (verifyInclusion (.sha sha256) (leafHash sha256 e.data) leafIndex treeSize proof sth.rootHash).val = true) ∧
      (∀ oldSize newSize proof oldSth newSth, r.result = .ok (.consistency oldSize newSize proof oldSth newSth) →
        (verifyConsistency (.sha sha256) oldSize newSize proof oldSth.rootHash newSth.rootHash).val = true) ∧
      (Owed r.known r.req → ∃ resp, r.result = .ok resp)) ∧
    ∀ (p : Proc) (i : Nat) (t : ProofTask), s.proc = some p → p.proofs[i]? = some t → Owed t.known t.req →
      Finishes sha256 E s i t := by
  obtain ⟨es, hi, hpi⟩ := reach_proofInv sha256 E h
  refine ⟨fun r hr => ?_, fun p i t hp ht howed =>
    owed_finishes sha256 E hi hp ht (hpi.tasks p hp t (List.mem_of_getElem? ht)) howed⟩
  obtain ⟨hsound, hanswered⟩ := hpi.replies r hr
  obtain ⟨req, known, result⟩ := r
  refine ⟨fun leafIndex treeSize proof sth hres => ?_, fun oldSize newSize proof oldSth newSth hres => ?_, hanswered⟩
  · have hv := hsound _ hres
    cases req with
    | consistency => exact hv.elim
    | inclusion seq requested =>
      obtain ⟨rfl, e, he, hv⟩ := hv
      exact ⟨requested, e, rfl, by rw [hi.holds.getBySeq]; exact he, hv⟩
  · have hv := hsound _ hres
    cases req with
    | inclusion => exact hv.elim
    | consistency => exact hv

/-- Two entries, a head, and a proof of the second entry under it. -/
def proofRun : List Ev :=
  [.restart .zero true] ++ appendEvs [1] [10] 5 ++ appendEvs [2] [20] 6 ++ signEvs 7 ++
    [.proof (.request (.inclusion 1 0)), .proof (.readLog 0), .proof (.readHead 0)]

theorem proofs_verify_second : ∃ s r, Reach (step Sha256.sha256 plainKeys) logReadCovered .init s ∧ r ∈ s.hist.proofs ∧
    r.req = .inclusion 1 0 ∧ ∃ treeSize proof sth e, r.result = .ok (.inclusion 1 treeSize proof sth) ∧
      s.store.getBySeq 1 = some e ∧
      (verifyInclusion (.sha Sha256.sha256) (leafHash Sha256.sha256 e.data) 1 treeSize proof sth.rootHash).val = true := by
  have hrun : (run (step Sha256.sha256 plainKeys) logReadCovered .init proofRun).map
      (fun s => s.hist.proofs.map fun r => (r.req, r.result.toOption.map fun resp => match resp with
        | .inclusion i _ _ _ => some i
        | .consistency _ _ _ _ _ => none)) = some [(.inclusion 1 0, some (some 1))] := by decide +kernel
  obtain ⟨s, hs, hr⟩ := Option.map_eq_some_iff.mp hrun
  have hreach : Reach (step Sha256.sha256 plainKeys) logReadCovered .init s := Reach.init.run hs
  obtain ⟨r, hr', hres⟩ := List.map_eq_singleton_iff.mp hr
  have hmem : r ∈ s.hist.proofs := by rw [hr']; exact List.mem_singleton_self r
  obtain ⟨hreq, hres⟩ := Prod.mk.inj hres
  have hv := (proofs_verify Sha256.sha256 plainKeys hreach).1 r hmem
  cases hresult : r.result with
  | error e => rw [hresult] at hres; cases hres
  | ok resp =>
    rw [hresult] at hres
    cases resp with
    | consistency => cases hres
    | inclusion i treeSize proof sth =>
      cases hres
      obtain ⟨requested, e, -, he, hver⟩ := hv.1 1 treeSize proof sth hresult
      exact ⟨s, r, hreach, hmem, hreq, treeSize, proof, sth, e, hresult, he, hver⟩

/-- A request for entry 0 in a tree of 2 while the log holds one entry: it reads one leaf
    and proves over that; then the second entry is appended and signed. -/
def futureSizeRun : List Ev :=
  [.restart .zero true] ++ appendEvs [1] [10] 5 ++
    [.proof (.request (.inclusion 0 2)), .proof (.readLog 0)] ++ appendEvs [2] [20] 6 ++ signEvs 7 ++
    [.proof (.readHead 0)]

theorem future_size_proof_fails : ∃ s r e sth, Reach (step Sha256.sha256 plainKeys) noLogWriteError .init s ∧
    r ∈ s.hist.proofs ∧ r.req = .inclusion 0 2 ∧ r.result = .ok (.inclusion 0 2 [] sth) ∧
    s.store.getBySeq 0 = some e ∧
    (verifyInclusion (.sha Sha256.sha256) (leafHash Sha256.sha256 e.data) 0 2 [] sth.rootHash).val = false := by
  let l0 := leafHash Sha256.sha256 [10]
  let root := Sha256.sha256 (nodeInput l0.val (leafHash Sha256.sha256 [20]).val)
  let sth : SignedTreeHead := ⟨2, root, 7, Hash.zero.val ++ signingPayload 2 root 7, .zero, 1⟩
  have hrun : (run (step Sha256.sha256 plainKeys) noLogWriteError .init futureSizeRun).map
      (fun s => (s.hist.proofs.map fun r => (r.req, r.result.toOption), s.store.getBySeq 0)) =
        some ([(.inclusion 0 2, some (.inclusion 0 2 [] sth))], some ⟨0, 5, [1], [10], l0⟩) := by decide +kernel
  have hfail : (verifyInclusion (.sha Sha256.sha256) l0 0 2 [] root).val = false := by decide +kernel
  obtain ⟨s, hs, hr⟩ := Option.map_eq_some_iff.mp hrun
  obtain ⟨hr, he⟩ := Prod.mk.inj hr
  obtain ⟨r, hr', hres⟩ := List.map_eq_singleton_iff.mp hr
  obtain ⟨hreq, hres⟩ := Prod.mk.inj hres
  have hresult : r.result = .ok (.inclusion 0 2 [] sth) := by
    cases hc : r.result with
    | error e => rw [hc] at hres; cases hres
    | ok resp => rw [hc] at hres; exact congrArg _ (Option.some.inj hres)
  exact ⟨s, r, _, sth, Reach.init.run hs, by rw [hr']; exact List.mem_singleton_self r, hreq, hresult, he, hfail⟩

end Settled.Server
