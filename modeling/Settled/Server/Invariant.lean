/-
  Settled.Server.Invariant — what holds of the server in every run in which no write to
  the log fails, with crashes and restarts anywhere.

  Abstractly the server is one list of entries that only grows. `Inv s es`: the log and
  the index hold exactly `es`; every head is the root of a prefix of `es`; every answer
  to an append names entries of `es`; and the process agrees, at each point of its
  critical section, on how much of `es` is in its counter and its tree. Each step keeps
  it for `es` or a longer list (`Step.inv`); only the write of a batch adds to it.

  Everything but append, sign, crash and restart leaves all of this alone (`Quiet`).
-/

import Settled.Core.MerkleTree
import Settled.Core.Sha256
import Settled.Server.Steps

namespace Settled.Server

open Settled.Lib Settled.Core Settled.Storage

variable (sha256 : Bytes → Hash) (E : Ed25519)

/-! ## Facts about a growing list of entries -/

/-- The root of the first `t` entries. -/
def rootAt (es : List LogEntry) (t : Nat) : Option Hash := (mth (.sha sha256) (hashes (es.take t))).val

theorem rootAt_append {es fs : List LogEntry} {t : Nat} (h : t ≤ es.length) : rootAt sha256 (es ++ fs) t = rootAt sha256 es t := by
  rw [rootAt, List.take_append_of_le_length h, rootAt]

theorem rootAt_length (es : List LogEntry) : rootAt sha256 es es.length = (mth (.sha sha256) (hashes es)).val := by
  rw [rootAt, List.take_length]

/-- An entry's proof from the first `size` entries verifies under their root. -/
theorem rootAt_proof {es : List LogEntry} (hnum : Numbered sha256 0 es) {seq size : Nat} (hlt : seq < size)
    (hle : size ≤ es.length) : ∃ e proof root, es[seq]? = some e ∧ rootAt sha256 es size = some root ∧
      inclusionProof (.sha sha256) (hashes (es.take size)) seq = .ok proof ∧
      (verifyInclusion (.sha sha256) (leafHash sha256 e.data) seq size proof root).val = true := by
  have hlen : (hashes (es.take size)).length = size := by rw [length_hashes, List.length_take]; omega
  have hseq : es[seq]? = some es[seq] := List.getElem?_eq_getElem (by omega)
  have hleaf : (hashes (es.take size))[seq]? = some (leafHash sha256 es[seq].data) := by
    rw [hashes, List.getElem?_map, List.getElem?_take_of_lt hlt, hseq, Option.map_some, (hnum seq _ hseq).2]
  obtain ⟨proof, root, c, hproof, hroot, ho, -⟩ := inclusionProof_opens (.sha sha256) hleaf
  rw [hlen] at ho
  exact ⟨_, proof, root, hseq, hroot, hproof, by rw [verifyInclusion_iff.mpr ho]⟩

/-- `fs` are the entries of one request, and `es` has them under their numbers. -/
def Stored (es : List LogEntry) (req : AppendReq) (fs : List LogEntry) : Prop :=
  (∃ first ts, fs = entriesOf sha256 first ts req.entries) ∧ ∀ e ∈ fs, es[e.seq]? = some e

theorem Stored.append {es fs gs : List LogEntry} {req : AppendReq} (h : Stored sha256 es req fs) :
    Stored sha256 (es ++ gs) req fs := by
  refine ⟨h.1, fun e he => ?_⟩
  have hi := h.2 e he
  rw [List.getElem?_append_left (List.getElem?_eq_some_iff.mp hi).1]
  exact hi

/-! ## The invariant -/

def HeadOk (es : List LogEntry) (t : Nat) (sth : SignedTreeHead) : Prop :=
  sth.treeSize = t ∧ t ≤ es.length ∧ rootAt sha256 es t = some sth.rootHash

/-- What a signing task has of the tree it took. -/
def SignTask.snap : SignTask → Nat × Option Hash
  | snapped treeSize root => (treeSize, root)
  | checked treeSize root => (treeSize, some root)
  | stamped treeSize root _ => (treeSize, some root)
  | signed d => (d.treeSize, some d.rootHash)
  | keyed d _ => (d.treeSize, some d.rootHash)
  | assembled d _ _ => (d.treeSize, some d.rootHash)

def SnapOk (es : List LogEntry) (snap : Nat × Option Hash) : Prop :=
  snap.1 ≤ es.length ∧ rootAt sha256 es snap.1 = snap.2

/-- The counter and the tree, by where the critical section is. -/
def CritInv (es : List LogEntry) (nextSeq : Nat) (merkle : MerkleTree Hash) : Option Crit → Prop
  | none => nextSeq = es.length ∧ merkle.Rep (.sha sha256) (hashes es)
  | some (.locked _) => nextSeq = es.length ∧ merkle.Rep (.sha sha256) (hashes es)
  | some (.reserved req first _) =>
    first = es.length ∧ nextSeq = es.length + req.entries.length ∧ nextSeq ≤ u64Max ∧
      merkle.Rep (.sha sha256) (hashes es)
  | some (.written req results left) =>
    nextSeq = es.length ∧ Stored sha256 es req results ∧
      ∃ L, hashes es = L ++ left ∧ merkle.Rep (.sha sha256) L

structure ProcInv (es : List LogEntry) (p : Proc) : Prop where
  crit : CritInv sha256 es p.nextSeq p.merkle p.mu
  writers : ∀ w ∈ p.writers, Stored sha256 es w.req w.results
  signs : ∀ t ∈ p.signs, SnapOk sha256 es t.snap

structure Inv (s : St) (es : List LogEntry) : Prop where
  holds : Holds sha256 s.store es
  bound : es.length ≤ u64Max
  heads : ∀ t sth, s.store.heads.get? t = some sth → HeadOk sha256 es t sth
  replies : ∀ req resps, (req, Except.ok resps) ∈ s.hist.replies →
    ∃ fs, Stored sha256 es req fs ∧ resps = fs.map AppendResponse.of
  proc : ∀ p, s.proc = some p → ProcInv sha256 es p

theorem Inv.init : Inv sha256 .init [] where
  holds := .empty sha256
  bound := Nat.zero_le _
  heads t sth h := by cases h
  replies req resps h := by cases h
  proc p h := by cases h

/-! ## Quiet steps -/

/-- Nothing the invariant speaks of has changed. -/
structure Quiet (s s' : St) : Prop where
  log : s'.store.log = s.store.log
  index : s'.store.index = s.store.index
  heads : s'.store.heads = s.store.heads
  replies : s'.hist.replies = s.hist.replies
  proc : ∀ p', s'.proc = some p' → ∃ p, s.proc = some p ∧ p'.nextSeq = p.nextSeq ∧ p'.merkle = p.merkle ∧
    p'.mu = p.mu ∧ p'.writers = p.writers ∧ p'.signs = p.signs

theorem Inv.quiet {s s' : St} {es : List LogEntry} (h : Inv sha256 s es) (hq : Quiet s s') : Inv sha256 s' es where
  holds := ⟨hq.log.trans h.holds.log, hq.index.trans h.holds.index, h.holds.numbered⟩
  bound := h.bound
  heads := by rw [hq.heads]; exact h.heads
  replies := by rw [hq.replies]; exact h.replies
  proc p' hp' := by
    obtain ⟨p, hp, h1, h2, h3, h4, h5⟩ := hq.proc p' hp'
    obtain ⟨hc, hw, hs⟩ := h.proc p hp
    exact ⟨by rw [h1, h2, h3]; exact hc, by rw [h4]; exact hw, by rw [h5]; exact hs⟩

/-- A step of the process that changes only its other fields. -/
theorem Quiet.of_proc {s : St} {p p' : Proc} {keyFile : Option Hash} {keys : OrdMap Nat KeyRecord} {hist : Hist}
    (hp : s.proc = some p) (h : p'.nextSeq = p.nextSeq ∧ p'.merkle = p.merkle ∧ p'.mu = p.mu ∧ p'.writers = p.writers ∧
      p'.signs = p.signs) (hr : hist.replies = s.hist.replies) :
    Quiet s { s with store := { s.store with keys := keys }, keyFile := keyFile, proc := some p', hist := hist } where
  log := rfl
  index := rfl
  heads := rfl
  replies := hr
  proc q hq := ⟨p, hp, by cases hq; exact h⟩

theorem RotateStep.quiet {s s' : St} {p : Proc} (hp : s.proc = some p) {e : RotateEv} (h : RotateStep E s p e s') :
    Quiet s s' := by
  cases h <;> exact .of_proc hp ⟨rfl, rfl, rfl, rfl, rfl⟩ rfl

theorem ProofStep.quiet {s s' : St} {p : Proc} (hp : s.proc = some p) {e : ProofEv} (h : ProofStep sha256 s p e s') :
    Quiet s s' := by
  cases h with
  | refused => exact ⟨rfl, rfl, rfl, rfl, fun q hq => ⟨q, hq, rfl, rfl, rfl, rfl, rfl⟩⟩
  | sized | unproved | proved | headRead | answered => exact .of_proc hp ⟨rfl, rfl, rfl, rfl, rfl⟩ rfl

theorem WatchStep.quiet {s s' : St} {p : Proc} (hp : s.proc = some p) {e : WatchEv} (h : WatchStep s p e s') :
    Quiet s s' := by
  cases h <;> exact .of_proc hp ⟨rfl, rfl, rfl, rfl, rfl⟩ rfl

/-! ## Appending -/

theorem mem_replies_append {l : List (AppendReq × Except Status (List AppendResponse))} {req req' : AppendReq}
    {result : Except Status (List AppendResponse)} {resps : List AppendResponse}
    (h : (req, Except.ok resps) ∈ l ++ [(req', result)]) : (req, Except.ok resps) ∈ l ∨ (req = req' ∧ result = .ok resps) := by
  rcases List.mem_append.mp h with h | h
  · exact Or.inl h
  · rw [List.mem_singleton, Prod.mk.injEq] at h
    exact Or.inr ⟨h.1, h.2.symm⟩

theorem check_false {req : AppendReq} {tokens : Bool} (h : req.check tokens = .ok false) : req.entries = [] := by
  cases req with
  | append key data =>
    simp only [AppendReq.check] at h
    split at h <;> cases h
  | batchAppend entries =>
    simp only [AppendReq.check] at h
    split at h
    next h0 => exact List.length_eq_zero_iff.mp h0
    next =>
      split at h
      · cases h
      · split at h <;> cases h

theorem stored_entriesOf (es : List LogEntry) (req : AppendReq) (ts : Int) :
    Stored sha256 (es ++ entriesOf sha256 es.length ts req.entries) req (entriesOf sha256 es.length ts req.entries) := by
  refine ⟨⟨_, _, rfl⟩, fun e he => ?_⟩
  obtain ⟨i, hi, rfl⟩ := List.getElem_of_mem he
  have hn := (numbered_entriesOf sha256 req.entries es.length ts i _ (List.getElem?_eq_getElem hi)).1
  rw [hn, List.getElem?_append_right (by omega), Nat.add_sub_cancel_left, List.getElem?_eq_getElem hi]

theorem HeadOk.append {es fs : List LogEntry} {t : Nat} {sth : SignedTreeHead} (h : HeadOk sha256 es t sth) :
    HeadOk sha256 (es ++ fs) t sth := by
  obtain ⟨h1, h2, h3⟩ := h
  exact ⟨h1, by rw [List.length_append]; omega, by rw [rootAt_append sha256 h2]; exact h3⟩

theorem SnapOk.append {es fs : List LogEntry} {snap : Nat × Option Hash} (h : SnapOk sha256 es snap) :
    SnapOk sha256 (es ++ fs) snap := by
  obtain ⟨h1, h2⟩ := h
  exact ⟨by rw [List.length_append]; omega, by rw [rootAt_append sha256 h1]; exact h2⟩

/-- What of the invariant does not depend on the critical section. -/
theorem Inv.grow {s : St} {es : List LogEntry} (h : Inv sha256 s es) (fs : List LogEntry) :
    (∀ t sth, s.store.heads.get? t = some sth → HeadOk sha256 (es ++ fs) t sth) ∧
    (∀ req resps, (req, Except.ok resps) ∈ s.hist.replies →
      ∃ gs, Stored sha256 (es ++ fs) req gs ∧ resps = gs.map AppendResponse.of) ∧
    ∀ p, s.proc = some p → (∀ w ∈ p.writers, Stored sha256 (es ++ fs) w.req w.results) ∧
      ∀ t ∈ p.signs, SnapOk sha256 (es ++ fs) t.snap := by
  refine ⟨fun t sth ht => ?_, fun req resps hr => ?_, fun p hp => ⟨fun w hw => ?_, fun t ht => ?_⟩⟩
  · exact (h.heads t sth ht).append sha256
  · obtain ⟨gs, hg, he⟩ := h.replies req resps hr
    exact ⟨gs, hg.append, he⟩
  · exact ((h.proc p hp).writers w hw).append
  · exact ((h.proc p hp).signs t ht).append sha256

/-- A step that changes only the process, keeping its part of the invariant. -/
theorem Inv.proc_only {s : St} {es : List LogEntry} (h : Inv sha256 s es) {p' : Proc} (hp' : ProcInv sha256 es p') :
    Inv sha256 { s with proc := some p' } es :=
  ⟨h.holds, h.bound, h.heads, h.replies, fun p hp => by cases hp; exact hp'⟩

theorem AppendStep.inv {s s' : St} {p : Proc} {es : List LogEntry} (h : Inv sha256 s es) (hp : s.proc = some p)
    {e : AppendEv} (hs : AppendStep sha256 s p e s') (he : ∀ m, e ≠ .writeFails m) : ∃ fs, Inv sha256 s' (es ++ fs) := by
  obtain ⟨hcrit, hwriters, hsigns⟩ := h.proc p hp
  have same : Inv sha256 s' es → ∃ fs, Inv sha256 s' (es ++ fs) := fun h => ⟨[], by rw [List.append_nil]; exact h⟩
  cases hs with
  | refused ha =>
    refine same ⟨h.holds, h.bound, h.heads, fun req' resps hr => ?_, h.proc⟩
    rcases mem_replies_append hr with hr | ⟨-, hr'⟩
    · exact h.replies req' resps hr
    · cases hr'
  | emptyBatch ha =>
    refine same ⟨h.holds, h.bound, h.heads, fun req' resps hr => ?_, h.proc⟩
    rcases mem_replies_append hr with hr | ⟨rfl, hr'⟩
    · exact h.replies req' resps hr
    · cases hr'
      exact ⟨[], ⟨⟨0, 0, by rw [check_false ha]; rfl⟩, fun e he => absurd he List.not_mem_nil⟩, rfl⟩
  | locked ha hmu =>
    rw [hmu] at hcrit
    exact same (h.proc_only sha256 ⟨hcrit, hwriters, hsigns⟩)
  | reserved hmu hle =>
    rw [hmu] at hcrit
    obtain ⟨hn, hrep⟩ := hcrit
    exact same (h.proc_only sha256 ⟨⟨hn, by rw [hn], hle, hrep⟩, hwriters, hsigns⟩)
  | @written req first ts results hmu hres =>
    rw [hmu] at hcrit
    obtain ⟨rfl, hn, hb, hrep⟩ := hcrit
    subst hres
    have hlen := length_entriesOf sha256 req.entries es.length ts
    have hnum := numbered_entriesOf sha256 req.entries es.length ts
    obtain ⟨gheads, greplies, gproc⟩ := h.grow sha256 (entriesOf sha256 es.length ts req.entries)
    obtain ⟨gwriters, gsigns⟩ := gproc p hp
    refine ⟨entriesOf sha256 es.length ts req.entries, h.holds.writeBatch sha256 hnum, ?_, ?_, greplies, ?_⟩
    · rw [List.length_append, hlen]; omega
    · intro t sth ht
      rw [(writeBatch_frame _ s.store).1] at ht
      exact gheads t sth ht
    · intro p' hp'
      cases hp'
      refine ⟨⟨?_, stored_entriesOf sha256 es req ts, hashes es, hashes_append _ _, hrep⟩, gwriters, gsigns⟩
      rw [List.length_append, hlen]
      exact hn
  | failed => exact absurd rfl (he _)
  | @leaf req results lh left i merkle hmu happ =>
    rw [hmu] at hcrit
    obtain ⟨hn, hst, L, hL, hrep⟩ := hcrit
    obtain ⟨t, ht, hrep'⟩ := hrep.append lh
    rw [happ] at ht
    cases ht
    refine same (h.proc_only sha256 ⟨⟨hn, hst, L ++ [lh], ?_, hrep'⟩, hwriters, hsigns⟩)
    rw [hL, List.append_assoc, List.singleton_append]
  | unlocked hmu =>
    rw [hmu] at hcrit
    obtain ⟨hn, hst, L, hL, hrep⟩ := hcrit
    rw [List.append_nil] at hL
    refine same (h.proc_only sha256 ⟨⟨hn, by rw [hL]; exact hrep⟩, fun w hw => ?_, hsigns⟩)
    rcases List.mem_append.mp hw with hw | hw
    · exact hwriters w hw
    · rw [List.mem_singleton] at hw
      rw [hw]
      exact hst
  | sent hw =>
    have hst := hwriters _ (List.mem_of_getElem? hw)
    refine same (h.proc_only sha256 ⟨hcrit, fun w hw' => ?_, hsigns⟩)
    rcases List.mem_or_eq_of_mem_set hw' with hw' | rfl
    · exact hwriters w hw'
    · exact hst
  | @replied i req results hw =>
    have hst := hwriters _ (List.mem_of_getElem? hw)
    refine same ⟨h.holds, h.bound, h.heads, fun req' resps hr => ?_, fun p' hp' => ?_⟩
    · rcases mem_replies_append hr with hr | ⟨rfl, hr'⟩
      · exact h.replies req' resps hr
      · cases hr'
        exact ⟨results, hst, rfl⟩
    · cases hp'
      exact ⟨hcrit, fun w hw' => hwriters w (List.mem_of_mem_eraseIdx hw'), hsigns⟩

/-! ## Signing -/

/-- A signing task keeps what it took of the tree. -/
theorem SignTask.next_snap {store : Store} {signer : Signer} {now : Int} {t t' : SignTask}
    (h : t.next E store signer now = some t') : t'.snap = t.snap := by
  cases t with
  | snapped treeSize root =>
    obtain ⟨-, r, rfl, rfl⟩ := SignTask.next_snapped E h
    rfl
  | checked => cases h; rfl
  | stamped => cases h; rfl
  | signed => cases h; rfl
  | keyed => cases h; rfl
  | assembled => cases h

theorem SignStep.inv {s s' : St} {p : Proc} {es : List LogEntry} (h : Inv sha256 s es) (hp : s.proc = some p)
    {e : SignEv} (hs : SignStep sha256 E s p e s') : Inv sha256 s' es := by
  obtain ⟨hcrit, hwriters, hsigns⟩ := h.proc p hp
  have herase : ∀ i, ProcInv sha256 es { p with signs := p.signs.eraseIdx i } := fun i =>
    ⟨hcrit, hwriters, fun t ht => hsigns t (List.mem_of_mem_eraseIdx ht)⟩
  cases hs with
  | snapped hmu =>
    rw [hmu] at hcrit
    obtain ⟨hn, hrep⟩ := hcrit
    refine h.proc_only sha256 ⟨by rw [hmu]; exact ⟨hn, hrep⟩, hwriters, fun t ht => ?_⟩
    rcases List.mem_append.mp ht with ht | ht
    · exact hsigns t ht
    · rw [List.mem_singleton] at ht
      have hsize : p.merkle.size = es.length := by rw [hrep.size, length_hashes]
      have hroot : rootAt sha256 es p.merkle.size = p.merkle.root (.sha sha256) := by
        rw [hsize, rootAt_length, hrep.root]
      rw [ht]
      exact ⟨Nat.le_of_eq hsize, hroot⟩
  | @wrote i now d publicKey keyVersion ht =>
    obtain ⟨h1, h2⟩ := hsigns _ (List.mem_of_getElem? ht)
    refine ⟨⟨h.holds.log, h.holds.index, h.holds.numbered⟩, h.bound, fun t sth hsth => ?_, h.replies, fun p' hp' => by
      cases hp'; exact herase i⟩
    have hput : (s.store.heads.put d.treeSize (d.head publicKey keyVersion)).get? t = some sth := hsth
    rw [OrdMap.get?_put] at hput
    split at hput
    next heq =>
      cases hput
      exact ⟨heq.symm, by rw [heq]; exact h1, by rw [heq]; exact h2⟩
    · exact h.heads t sth hput
  | skipped => exact h.proc_only sha256 (herase _)
  | @moved i now t t' ht hnext =>
    refine h.proc_only sha256 ⟨hcrit, hwriters, fun u hu => ?_⟩
    rcases List.mem_or_eq_of_mem_set hu with hu | rfl
    · exact hsigns u hu
    · rw [SignTask.next_snap E hnext]
      exact hsigns t (List.mem_of_getElem? ht)
  | failed => exact h.proc_only sha256 (herase _)

/-! ## Restarts -/

theorem Restarted.inv {s s' : St} {es : List LogEntry} (h : Inv sha256 s es) (hr : Restarted sha256 s s') :
    Inv sha256 s' es := by
  refine ⟨⟨hr.log.trans h.holds.log, hr.index.trans h.holds.index, h.holds.numbered⟩, h.bound,
    by rw [hr.heads]; exact h.heads, by rw [hr.hist]; exact h.replies, fun p hp => ?_⟩
  obtain ⟨hn, hm, hmu, hw, -, hs, -, -⟩ := hr.proc p hp
  -- the tree is rebuilt from all of the log
  rw [h.holds.seqRange, List.take_of_length_le h.bound] at hm
  obtain ⟨t, ht, hrep⟩ := (MerkleTree.Rep.new (.sha sha256)).appendAll (hashes es)
  rw [hm] at ht
  cases ht
  rw [List.nil_append] at hrep
  refine ⟨by rw [hmu]; exact ⟨hn.trans h.holds.nextSeq, hrep⟩, fun w hw' => ?_, fun t ht => ?_⟩
  · rw [hw] at hw'; cases hw'
  · rw [hs] at ht; cases ht

/-! ## Runs -/

/-- No write to the log fails. -/
def noLogWriteError (_ : St) : Ev → Bool
  | .append (.writeFails _) => false
  | _ => true

theorem Step.inv {s s' : St} {e : Ev} {es : List LogEntry} (h : Inv sha256 s es) (hok : noLogWriteError s e = true)
    (hs : Step sha256 E s e s') : ∃ fs, Inv sha256 s' (es ++ fs) := by
  have same : Inv sha256 s' es → ∃ fs, Inv sha256 s' (es ++ fs) := fun h => ⟨[], by rw [List.append_nil]; exact h⟩
  cases hs with
  | append hp hs => exact hs.inv sha256 h hp (fun m hm => by subst hm; cases hok)
  | sign hp hs => exact same (hs.inv sha256 E h hp)
  | rotate hp hs => exact same (h.quiet sha256 (hs.quiet E hp))
  | proof hp hs => exact same (h.quiet sha256 (hs.quiet sha256 hp))
  | watch hp hs => exact same (h.quiet sha256 (hs.quiet hp))
  | crash => exact same ⟨h.holds, h.bound, h.heads, h.replies, fun q hq => by cases hq⟩
  | restart hp hr => exact same ((restart_restarted sha256 E hp hr).inv sha256 h)

theorem reach_inv {s : St} (h : Reach (step sha256 E) noLogWriteError .init s) : ∃ es, Inv sha256 s es := by
  apply h.inv (P := fun s => ∃ es, Inv sha256 s es) ⟨[], Inv.init sha256⟩
  intro s e s' ⟨es, hi⟩ hok hs
  obtain ⟨fs, hi'⟩ := (step_step sha256 E hs).inv sha256 E hi hok
  exact ⟨es ++ fs, hi'⟩

theorem Holds.keys {s : Store} {es : List LogEntry} (h : Holds sha256 s es) :
    s.log.entries.map (·.1) = List.range es.length := by
  rw [h.log]
  show (es.zipIdx.map fun x => (x.2, x.1)).map (·.1) = List.range es.length
  rw [List.map_map, List.range_eq_range', ← List.zipIdx_map_snd 0 es]
  rfl

theorem Holds.entries {s : Store} {es : List LogEntry} (h : Holds sha256 s es) : s.log.entries.map (·.2) = es := by
  rw [h.log]
  show (es.zipIdx.map fun x => (x.2, x.1)).map (·.2) = es
  rw [List.map_map]
  exact List.zipIdx_map_fst 0 es

/-- In every run in which no log write fails, with the process up and `append_mu` free:
    the log's keys are `0, ..., next_seq - 1`; each entry has its own number and its
    data's leaf hash; the tree has `next_seq` leaves and the root of the stored hashes;
    the index has the last number of each key of the log and nothing else; every
    acknowledged append is in the log as answered, a batch under contiguous numbers in
    input order; and every head is the root of its prefix of the log. -/
theorem server_state_invariant {s : St} {p : Proc} (h : Reach (step sha256 E) noLogWriteError .init s)
    (hp : s.proc = some p) (hmu : p.mu = none) :
    s.store.log.entries.map (·.1) = List.range p.nextSeq ∧
    (∀ i e, s.store.getBySeq i = some e → e.seq = i ∧ e.leafHash = leafHash sha256 e.data) ∧
    p.merkle.size = p.nextSeq ∧
    p.merkle.root (.sha sha256) = (mth (.sha sha256) (hashes (s.store.seqRange 0 p.nextSeq))).val ∧
    (∀ k n, s.store.getSeqByKey k = some n ↔
      (∃ e, s.store.getBySeq n = some e ∧ e.key = k) ∧ ∀ i e, s.store.getBySeq i = some e → e.key = k → i ≤ n) ∧
    (∀ req resps, (req, Except.ok resps) ∈ s.hist.replies →
      (∃ first, resps.map (·.seq) = List.range' first req.entries.length) ∧
      ∀ (i : Nat) (r : AppendResponse), resps[i]? = some r → ∃ e, s.store.getBySeq r.seq = some e ∧ req.entries[i]? = some (e.key, e.data) ∧
        r.key = e.key ∧ r.leafHash = e.leafHash ∧ r.timestampNs = e.timestampNs) ∧
    ∀ t sth, s.store.headAtSize t = some sth → sth.treeSize = t ∧ t ≤ p.nextSeq ∧
      (mth (.sha sha256) (hashes (s.store.seqRange 0 t))).val = some sth.rootHash := by
  obtain ⟨es, hi⟩ := reach_inv sha256 E h
  obtain ⟨hcrit, -, -⟩ := hi.proc p hp
  rw [hmu] at hcrit
  obtain ⟨hn, hrep⟩ := hcrit
  have hget := hi.holds.getBySeq
  refine ⟨?_, fun i e he => ?_, ?_, ?_, fun k n => ?_, fun req resps hr => ?_, fun t sth hsth => ?_⟩
  · rw [hn]; exact Holds.keys sha256 hi.holds
  · rw [hget] at he
    have := hi.holds.numbered i e he
    exact ⟨by omega, this.2⟩
  · rw [hrep.size, hn, length_hashes]
  · rw [hrep.root, hi.holds.seqRange, hn, List.take_length]
  · simp only [hget]
    rw [Store.getSeqByKey, hi.holds.index]
    exact indexOf_eq_some sha256 hi.holds.numbered
  · obtain ⟨fs, ⟨⟨first, ts, rfl⟩, hst⟩, rfl⟩ := hi.replies req resps hr
    refine ⟨⟨first, ?_⟩, fun i r hri => ?_⟩
    · rw [List.map_map]
      exact map_seq_entriesOf sha256 req.entries first ts
    · rw [List.getElem?_map, Option.map_eq_some_iff] at hri
      obtain ⟨e, he, rfl⟩ := hri
      refine ⟨e, by rw [hget]; exact hst e (List.mem_of_getElem? he), ?_, rfl, rfl, rfl⟩
      rw [getElem?_entriesOf, Option.map_eq_some_iff] at he
      obtain ⟨kd, hkd, rfl⟩ := he
      exact hkd
  · obtain ⟨h1, h2, h3⟩ := hi.heads t sth hsth
    rw [hi.holds.seqRange, hn]
    exact ⟨h1, h2, h3⟩

/-- A signature scheme for runs: a key is its own public key, and a signature is the key
    and what it signs. -/
def plainKeys : Ed25519 := ⟨id, fun key m => key.val ++ m, fun pub m sig => decide (sig = pub.val ++ m)⟩

/-- One append, one step at a time. -/
def appendEvs (key data : Bytes) (now : Int) : List Ev :=
  [.append (.request (.append key data) true), .append (.reserve now), .append .write, .append .merkle, .append .unlock,
   .append (.send 0), .append (.reply 0)]

def signEvs (now : Int) : List Ev := .sign .snapshot :: List.replicate 6 (.sign (.next 0 now))

/-- An append and a batch with a repeated key; a crash between a batch's write and its
    leaves; after the restart a signed head. -/
def invariantRun : List Ev :=
  [.restart .zero true] ++ appendEvs [1] [10] 5 ++
    [.append (.request (.batchAppend [([2], [20]), ([1], [30])]) true), .append (.reserve 6), .append .write,
     .append .merkle, .crash, .restart .zero true] ++ signEvs 7

theorem server_state_invariant_after_crash : ∃ s p, Reach (step Sha256.sha256 plainKeys) noLogWriteError .init s ∧
    s.proc = some p ∧ p.mu = none ∧ p.nextSeq = 3 ∧ s.store.log.entries.map (·.1) = List.range p.nextSeq ∧
    p.merkle.size = p.nextSeq := by
  have hrun : ((run (step Sha256.sha256 plainKeys) noLogWriteError .init invariantRun).bind (·.proc)).map
      (fun p => (p.mu, p.nextSeq)) = some (none, 3) := by decide +kernel
  rw [Option.map_eq_some_iff] at hrun
  obtain ⟨p, hp, hmu⟩ := hrun
  obtain ⟨s, hs, hp⟩ := Option.bind_eq_some_iff.mp hp
  obtain ⟨hmu, hn⟩ := Prod.mk.inj hmu
  have hr := Reach.init.run hs
  have h := server_state_invariant Sha256.sha256 plainKeys hr hp hmu
  exact ⟨s, p, hr, hp, hmu, hn, h.1, h.2.2.1⟩

end Settled.Server
