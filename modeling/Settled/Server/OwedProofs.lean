/-
  Settled.Server.OwedProofs — one proof request among others (`inclusion_proof` and
  `consistency_proof` in `service.rs`).

  A request for a size the log has not reached can be answered with a proof that does not
  verify. What such requests do has no effect on others: a request whose heads existed
  when it came finds at least as many entries in the log as its size, at whatever moment
  it reads it, and the heads it reads are still there. So in every run without a failed
  log write, while it is in flight its own reads alone lead to its answer, and what it is
  answered with is a proof that verifies (`owed_proofs_verify`). For a request for the
  latest head, any answer but an error is of this kind.
-/

import Settled.Server.Heads
import Settled.Server.ProofRequests

namespace Settled.Server

open Settled.Lib Settled.Core Settled.Storage

section

variable {sha256 : Bytes → Hash} {E : Ed25519} {s s' : St} {p : Proc} {es : List LogEntry}

/-- A head that was written, of the first `n` entries. -/
def Published (sha256 : Bytes → Hash) (signed : List (SignedTreeHead × Signer)) (es : List LogEntry) (n : Nat)
    (sth : SignedTreeHead) : Prop :=
  HeadOk sha256 es n sth ∧ ∃ signer, (sth, signer) ∈ signed

/-- A request under way: once it has read the log, its proof is over all the leaves of its
    size, if a head of that size was there when it came. -/
structure OwedTask (sha256 : Bytes → Hash) (heads : OrdMap Nat SignedTreeHead) (es : List LogEntry) (t : ProofTask) : Prop where
  size : SizeOk t.known t.size t.req
  known : ∀ n, (t.known.get? n).isSome → (heads.get? n).isSome
  latest : ∀ seq, t.req = .inclusion seq 0 → (t.known.get? t.size).isSome
  phase : (t.known.get? t.size).isSome → PhaseOk sha256 es t.size t.req t.phase

structure OwedReply (sha256 : Bytes → Hash) (signed : List (SignedTreeHead × Signer)) (es : List LogEntry) (r : ProofReply) :
    Prop where
  owed : Owed r.known r.req → ∃ resp, r.result = .ok resp ∧ Verifies sha256 es r.req resp
  latest : ∀ seq resp, r.req = .inclusion seq 0 → r.result = .ok resp → Owed r.known r.req
  written : ∀ seq n proof sth, r.result = .ok (.inclusion seq n proof sth) → Published sha256 signed es n sth

structure OwedInv (sha256 : Bytes → Hash) (s : St) (es : List LogEntry) : Prop where
  tasks : ∀ p, s.proc = some p → ∀ t ∈ p.proofs, OwedTask sha256 s.store.heads es t
  replies : ∀ r ∈ s.hist.proofs, OwedReply sha256 s.hist.signed es r

theorem OwedInv.init : OwedInv sha256 .init [] where
  tasks p hp := by cases hp
  replies r hr := by cases hr

/-! ## The log grows, and heads are written -/

theorem PhaseOk.append {fs : List LogEntry} {size : Nat} {req : ProofReq} {phase : ProofPhase}
    (h : PhaseOk sha256 es size req phase) : PhaseOk sha256 (es ++ fs) size req phase := by
  cases phase with
  | sized => trivial
  | proved proof => exact Proved.append sha256 h
  | oldHead proof oldSth =>
    obtain ⟨hproved, oldSize, newSize, hreq, hhead⟩ := h
    exact ⟨hproved.append, oldSize, newSize, hreq, hhead.append⟩

theorem OwedTask.grow {heads heads' : OrdMap Nat SignedTreeHead} {fs : List LogEntry} {t : ProofTask}
    (h : OwedTask sha256 heads es t) (hh : ∀ n, (heads.get? n).isSome → (heads'.get? n).isSome) :
    OwedTask sha256 heads' (es ++ fs) t :=
  ⟨h.size, fun n hn => hh n (h.known n hn), h.latest, fun hk => (h.phase hk).append⟩

theorem Published.grow {signed signed' : List (SignedTreeHead × Signer)} {fs : List LogEntry} {n : Nat} {sth : SignedTreeHead}
    (h : Published sha256 signed es n sth) (hsigned : ∀ x ∈ signed, x ∈ signed') : Published sha256 signed' (es ++ fs) n sth := by
  obtain ⟨hhead, signer, hmem⟩ := h
  exact ⟨hhead.append, signer, hsigned _ hmem⟩

theorem OwedReply.grow {signed signed' : List (SignedTreeHead × Signer)} {fs : List LogEntry} {r : ProofReply}
    (h : OwedReply sha256 signed es r) (hsigned : ∀ x ∈ signed, x ∈ signed') : OwedReply sha256 signed' (es ++ fs) r where
  owed howed := by
    obtain ⟨resp, hres, hv⟩ := h.owed howed
    exact ⟨resp, hres, hv.append⟩
  latest := h.latest
  written seq n proof sth hres := (h.written seq n proof sth hres).grow hsigned

theorem OwedInv.apart {fs : List LogEntry} (h : OwedInv sha256 s es) (ha : Apart s s')
    (hsigned : ∀ x ∈ s.hist.signed, x ∈ s'.hist.signed) : OwedInv sha256 s' (es ++ fs) where
  tasks p' hp' t ht := by
    rcases ha.tasks p' hp' with h0 | ⟨p, hp, he⟩
    · rw [h0] at ht; cases ht
    · rw [he] at ht
      exact (h.tasks p hp t ht).grow ha.heads
  replies r hr := by
    rw [ha.replies] at hr
    exact (h.replies r hr).grow hsigned

theorem Step.signed_grow {e : Ev} (hs : Step sha256 E s e s') : ∀ x ∈ s.hist.signed, x ∈ s'.hist.signed := by
  intro x hx
  by_cases he : ∃ e', e = .sign e'
  · obtain ⟨e', rfl⟩ := he
    cases hs with
    | sign hp hs =>
      cases hs with
      | wrote => exact List.mem_append_left _ hx
      | snapped | skipped | moved | failed => exact hx
  · rw [(hs.signsKept fun e' h => he ⟨e', h⟩).signed]
    exact hx

/-- Every head in the store was written, by whoever signed it. -/
def HeadsWritten (s : St) : Prop := ∀ t sth, s.store.headAtSize t = some sth → ∃ signer, (sth, signer) ∈ s.hist.signed

theorem Step.headsWritten {e : Ev} (h : HeadsWritten s) (hs : Step sha256 E s e s') : HeadsWritten s' := by
  by_cases he : ∃ e', e = .sign e'
  · obtain ⟨e', rfl⟩ := he
    cases hs with
    | sign hp hs =>
      cases hs with
      | snapped | skipped | moved | failed => exact h
      | wrote =>
        intro t sth hsth
        rw [headAtSize_writeHead] at hsth
        split at hsth
        · cases hsth
          exact ⟨_, List.mem_append_right _ (List.mem_singleton_self _)⟩
        · obtain ⟨signer, hmem⟩ := h t sth hsth
          exact ⟨signer, List.mem_append_left _ hmem⟩
  · have hkept := hs.signsKept fun e' h => he ⟨e', h⟩
    intro t sth hsth
    rw [Store.headAtSize, hkept.heads] at hsth
    rw [hkept.signed]
    exact h t sth hsth

/-! ## The requests' own steps -/

/-- The latest head is under its own size. -/
theorem latest_known (hi : Inv sha256 s es) {size : Nat} (h : meantSize s.store.heads 0 = some size) :
    (s.store.heads.get? size).isSome := by
  rw [meantSize, if_pos rfl] at h
  obtain ⟨⟨n, sth⟩, hl, rfl⟩ := Option.map_eq_some_iff.mp h
  have hget := (OrdMap.get?_last? hl).1
  rw [(hi.heads n sth hget).1, hget]
  rfl

theorem OwedTask.sized (hi : Inv sha256 s es) {req : ProofReq} {size : Nat} (hr : req.resolve s.store = .ok size) :
    OwedTask sha256 s.store.heads es ⟨req, size, .sized, s.store.heads⟩ where
  size := resolve_ok hr
  known n hn := hn
  latest seq hreq := by
    change req = .inclusion seq 0 at hreq
    subst hreq
    exact latest_known hi (resolve_ok hr).2
  phase _ := trivial

/-- A head that was there when the request came: the log has all its leaves. -/
theorem OwedTask.covered (hi : Inv sha256 s es) {t : ProofTask} (h : OwedTask sha256 s.store.heads es t)
    (hk : (t.known.get? t.size).isSome) : t.size ≤ es.length := by
  obtain ⟨sth, hsth⟩ := Option.isSome_iff_exists.mp (h.known _ hk)
  exact (hi.heads _ _ hsth).2.1

theorem Owed.known_size {known : OrdMap Nat SignedTreeHead} {size : Nat} {req : ProofReq} (h : Owed known req)
    (hs : SizeOk known size req) : (known.get? size).isSome := by
  cases req with
  | inclusion => exact h.sizes hs size (List.mem_singleton_self size)
  | consistency => exact h.sizes hs size (List.mem_cons_of_mem _ (List.mem_singleton_self size))

theorem OwedReply.error {signed : List (SignedTreeHead × Signer)} {req : ProofReq} {known : OrdMap Nat SignedTreeHead}
    {err : Status} (h : ¬ Owed known req) : OwedReply sha256 signed es ⟨req, known, .error err⟩ where
  owed howed := absurd howed h
  latest seq resp _ hres := by cases hres
  written seq n proof sth hres := by cases hres

theorem OwedTask.proved (hi : Inv sha256 s es) {req : ProofReq} {size : Nat} {known : OrdMap Nat SignedTreeHead}
    (h : OwedTask sha256 s.store.heads es ⟨req, size, .sized, known⟩) {proof : List Hash}
    (hprove : req.prove sha256 (hashes (s.store.seqRange 0 size)) = .ok proof) :
    OwedTask sha256 s.store.heads es ⟨req, size, .proved proof, known⟩ where
  size := h.size
  known := h.known
  latest := h.latest
  phase hk := by
    rw [hi.holds.seqRange] at hprove
    exact ⟨h.covered hi hk, hprove⟩

theorem OwedTask.answered (hi : Inv sha256 s es) (hwritten : HeadsWritten s) {t : ProofTask}
    (h : OwedTask sha256 s.store.heads es t) {result : Except Status ProofResponse}
    (hread : t.readHead s.store = some (.inr result)) : OwedReply sha256 s.hist.signed es ⟨t.req, t.known, result⟩ := by
  cases readHead_headRead hread with
  | @missing _ n err hn hh =>
    refine .error fun howed => ?_
    have hthere := h.known n (howed.sizes h.size n hn)
    unfold Store.headAtSize at hh
    rw [hh] at hthere
    cases hthere
  | @inclusion seq treeSize size proof known sth hh =>
    have hhead := hi.heads _ _ hh
    refine ⟨fun howed => ⟨_, rfl, ?_⟩, fun seq' resp hreq hres => ?_, fun seq' n proof' sth' hres => ?_⟩
    · exact inclusion_verifies sha256 hi.holds.numbered h.size.1 (h.phase (howed.known_size h.size)) hhead
    · cases hreq
      exact ⟨size, h.size.2, h.latest seq rfl, h.size.1⟩
    · cases hres
      exact ⟨hhead, hwritten _ _ hh⟩
  | @consistency oldSize newSize size proof known oldSth newSth hh =>
    refine ⟨fun howed => ⟨_, rfl, ?_⟩, fun seq' resp hreq _ => ?_, fun seq' n proof' sth' hres => ?_⟩
    · obtain ⟨hproved, o, n, hreq, hold⟩ := h.phase (howed.known_size h.size)
      cases hreq
      exact consistency_verifies sha256 h.size.1 h.size.2.1 hproved hold (hi.heads _ _ hh)
    · cases hreq
    · cases hres

theorem OwedTask.headRead (hi : Inv sha256 s es) {t t' : ProofTask} (h : OwedTask sha256 s.store.heads es t)
    (hread : t.readHead s.store = some (.inl t')) : OwedTask sha256 s.store.heads es t' := by
  cases readHead_headRead hread with
  | oldHead hh =>
    refine ⟨h.size, h.known, fun seq hreq => ?_, fun hk => ⟨h.phase hk, _, _, rfl, hi.heads _ _ hh⟩⟩
    cases hreq

theorem ProofStep.owed (hi : Inv sha256 s es) (h : OwedInv sha256 s es) (hwritten : HeadsWritten s) (hp : s.proc = some p)
    {e : ProofEv} (hs : ProofStep sha256 s p e s') : OwedInv sha256 s' es := by
  have htasks := h.tasks p hp
  have hset : ∀ i t', OwedTask sha256 s.store.heads es t' → ∀ t ∈ p.proofs.set i t', OwedTask sha256 s.store.heads es t := by
    intro i t' ht' t ht
    rcases List.mem_or_eq_of_mem_set ht with ht | rfl
    · exact htasks t ht
    · exact ht'
  have hreply : ∀ r, OwedReply sha256 s.hist.signed es r → ∀ r' ∈ s.hist.proofs ++ [r], OwedReply sha256 s.hist.signed es r' := by
    intro r hr r' hr'
    rcases List.mem_append.mp hr' with hr' | hr'
    · exact h.replies r' hr'
    · rw [List.mem_singleton.mp hr']
      exact hr
  cases hs with
  | refused hr => exact ⟨h.tasks, hreply _ (.error (resolve_error hr))⟩
  | sized hr =>
    refine ⟨fun q hq t ht => ?_, h.replies⟩
    cases hq
    rcases List.mem_append.mp ht with ht | ht
    · exact htasks t ht
    · rw [List.mem_singleton.mp ht]
      exact .sized hi hr
  | @unproved i size req known err ht hprove =>
    have hok := htasks _ (List.mem_of_getElem? ht)
    refine ⟨fun q hq t ht => by cases hq; exact htasks t (List.mem_of_mem_eraseIdx ht), hreply _ (.error fun howed => ?_)⟩
    have hcov : size ≤ es.length := hok.covered hi (howed.known_size hok.size)
    obtain ⟨proof, hproof⟩ := prove_ok sha256 hok.size hcov
    rw [hi.holds.seqRange, hproof] at hprove
    cases hprove
  | @proved i size req known proof ht hprove =>
    have hok := (htasks _ (List.mem_of_getElem? ht)).proved hi hprove
    exact ⟨fun q hq => by cases hq; exact hset i _ hok, h.replies⟩
  | headRead ht hread =>
    exact ⟨fun q hq => by cases hq; exact hset _ _ ((htasks _ (List.mem_of_getElem? ht)).headRead hi hread), h.replies⟩
  | answered ht hread =>
    have hok := (htasks _ (List.mem_of_getElem? ht)).answered hi hwritten hread
    exact ⟨fun q hq t ht => by cases hq; exact htasks t (List.mem_of_mem_eraseIdx ht), hreply _ hok⟩

/-! ## Runs -/

/-- The log, the heads and the requests, while no log write fails. -/
structure Sound (sha256 : Bytes → Hash) (s : St) (es : List LogEntry) : Prop where
  log : Inv sha256 s es
  written : HeadsWritten s
  proofs : OwedInv sha256 s es

theorem Sound.init : Sound sha256 .init [] where
  log := .init sha256
  written t sth h := by cases h
  proofs := .init

theorem Sound.step {e : Ev} (h : Sound sha256 s es) (hok : noLogWriteError s e = true)
    (hs : Server.step sha256 E s e = some s') : ∃ fs, Sound sha256 s' (es ++ fs) := by
  have hs := step_step sha256 E hs
  obtain ⟨fs, hi'⟩ := hs.inv sha256 E h.log hok
  have hwritten := hs.headsWritten h.written
  have hsigned := hs.signed_grow
  cases hs with
  | append hp hs => exact ⟨fs, hi', hwritten, h.proofs.apart (hs.apart sha256 hp) hsigned⟩
  | sign hp hs => exact ⟨fs, hi', hwritten, h.proofs.apart (hs.apart sha256 E hp) hsigned⟩
  | rotate hp hs => exact ⟨fs, hi', hwritten, h.proofs.apart (hs.apart E hp) hsigned⟩
  | watch hp hs => exact ⟨fs, hi', hwritten, h.proofs.apart (hs.apart hp) hsigned⟩
  | crash => exact ⟨fs, hi', hwritten, h.proofs.apart ⟨rfl, fun n hn => hn, fun q hq => by cases hq⟩ hsigned⟩
  | restart hp hr => exact ⟨fs, hi', hwritten, h.proofs.apart (restart_restarted sha256 E hp hr).apart hsigned⟩
  | proof hp hs =>
    refine ⟨[], ?_, hwritten, ?_⟩
    · rw [List.append_nil]
      exact h.log.quiet sha256 (hs.quiet sha256 hp)
    · rw [List.append_nil]
      exact hs.owed h.log h.proofs h.written hp

end

end Settled.Server
