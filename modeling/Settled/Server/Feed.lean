/-
  Settled.Server.Feed — the server as its Watch streams see it (`watch` in `service.rs`).

  A feed is the log in the order of its numbers, the entries committed and still to be
  broadcast, the first number not yet given, and the streams. A step commits the next
  entries, broadcasts a pending one, or moves one stream (`FeedStep`); what the rest of
  the server does is idle. Every step of the server is one of its feed (`Step.fed`), so
  that an invariant of streams is shown on feeds and holds in every run (`FeedInv`).

  Log writes may fail: the numbers of a failed batch are given and never stored.
-/

import Settled.Server.Watch

namespace Settled.Server

open Settled.Lib Settled.Core Settled.Storage

variable (sha256 : Bytes → Hash) (E : Ed25519)

/-! ## Feeds -/

structure Feed where
  log : List LogEntry
  pending : List LogEntry
  fresh : Nat
  streams : List Stream

/-- The entries of the log CF, by number. -/
def stored (s : Store) : List LogEntry := s.log.entries.map (·.2)

theorem stored_eq {s : Store} {es : List LogEntry} (h : Logged s es) : stored s = es := by
  rw [stored, h.log, List.map_map]
  exact List.map_id es

theorem logged_ascending {s : Store} {es : List LogEntry} (h : Logged s es) : (seqs es).Pairwise (· < ·) := by
  have hsorted := s.log.sorted
  rw [h.log, List.pairwise_map] at hsorted
  exact List.pairwise_map.mpr hsorted

def feedOf (s : St) (p : Proc) : Feed := ⟨stored s.store, p.unsent ++ critUnsent p.mu, p.fresh, p.streams⟩

inductive FeedEv where
  | idle
  | commit (fs : List LogEntry)
  /-- `before` are the pending entries in front of `e`. -/
  | send (before : List LogEntry) (e : LogEntry)
  | subscribe (fromSeq : Nat)
  | next (i : Nat)
  | close (i : Nat)

inductive FeedStep (store : Store) (F : Feed) : FeedEv → Feed → Prop
  | idle {F' : Feed} : F'.log = F.log → F'.pending = F.pending → F'.streams = F.streams → F.fresh ≤ F'.fresh →
      FeedStep store F .idle F'
  | commit {fs : List LogEntry} : seqs fs = List.range' F.fresh fs.length →
      FeedStep store F (.commit fs)
        { F with log := F.log ++ fs, pending := F.pending ++ fs, fresh := F.fresh + fs.length }
  | send {before after : List LogEntry} {e : LogEntry} : F.pending = before ++ e :: after →
      FeedStep store F (.send before e) { F with pending := before ++ after, streams := F.streams.map (·.push e) }
  | subscribe {fromSeq : Nat} :
      FeedStep store F (.subscribe fromSeq) { F with streams := F.streams ++ [.subscribe fromSeq] }
  | next {i : Nat} {st st' : Stream} : F.streams[i]? = some st → st.next store = some (some st') →
      FeedStep store F (.next i) { F with streams := F.streams.set i st' }
  | close {i : Nat} : FeedStep store F (.close i) { F with streams := F.streams.eraseIdx i }

/-- A feed whose log is ascending and below the numbers still to be given. -/
structure FeedOk (F : Feed) : Prop where
  ascending : (seqs F.log).Pairwise (· < ·)
  below : ∀ e ∈ F.log, e.seq < F.fresh

theorem mem_range_of_seqs {fs : List LogEntry} {first : Nat} (h : seqs fs = List.range' first fs.length) {e : LogEntry}
    (he : e ∈ fs) : first ≤ e.seq ∧ e.seq < first + fs.length := by
  have hmem : e.seq ∈ List.range' first fs.length := by
    rw [← h]
    exact List.mem_map_of_mem he
  exact List.mem_range'_1.mp hmem

theorem FeedStep.feedOk {store : Store} {F F' : Feed} {ev : FeedEv} (h : FeedOk F) (hs : FeedStep store F ev F') : FeedOk F' := by
  cases hs with
  | idle hlog _ _ hle =>
    refine ⟨by rw [hlog]; exact h.ascending, fun e he => ?_⟩
    rw [hlog] at he
    exact Nat.lt_of_lt_of_le (h.below e he) hle
  | @commit fs hfs =>
    refine ⟨?_, fun e he => ?_⟩
    · show (seqs (F.log ++ fs)).Pairwise (· < ·)
      rw [seqs_append]
      refine List.pairwise_append.mpr ⟨h.ascending, by rw [hfs]; exact List.pairwise_lt_range', fun a ha b hb => ?_⟩
      obtain ⟨e, he, rfl⟩ := mem_seqs.mp ha
      obtain ⟨f, hf, rfl⟩ := mem_seqs.mp hb
      exact Nat.lt_of_lt_of_le (h.below e he) (mem_range_of_seqs hfs hf).1
    · show e.seq < F.fresh + fs.length
      rcases List.mem_append.mp he with he | he
      · exact Nat.lt_of_lt_of_le (h.below e he) (Nat.le_add_right _ _)
      · exact (mem_range_of_seqs hfs he).2
  | send | subscribe | next | close => exact ⟨h.ascending, h.below⟩

/-! ## The server's feed -/

/-- The numbers a handler holds are those it reserved. -/
def Proc.Reserved (p : Proc) : Prop :=
  ∀ req first ts, p.mu = some (.reserved req first ts) → p.nextSeq = first + req.entries.length ∧ p.nextSeq ≤ u64Max

structure FeedInv (s : St) : Prop where
  logged : Logged s.store (stored s.store)
  reserved : ∀ p, s.proc = some p → p.Reserved
  feed : ∀ p, s.proc = some p → FeedOk (feedOf s p)

theorem FeedInv.init : FeedInv .init := ⟨.empty, fun p hp => by (cases hp), fun p hp => by cases hp⟩

/-- Which step of the server a feed's step is. -/
def FeedEv.Of (p : Proc) (e : Ev) : FeedEv → Prop
  | .commit _ => e = .append .write ∧ critUnsent p.mu = []
  | .send before _ => ∃ l₁ w l₂, p.writers = l₁ ++ w :: l₂ ∧ w.unsent ≠ [] ∧ before = l₁.flatMap (·.unsent)
  | .next i => e = .watch (.next i)
  | _ => True

/-- `p'` is `p` after a step of its feed. -/
def Fed (s : St) (p : Proc) (e : Ev) (s' : St) (p' : Proc) : Prop :=
  ∃ ev : FeedEv, ev.Of p e ∧ FeedStep s.store (feedOf s p) ev (feedOf s' p')

/-- What streams do not see. -/
theorem Fed.idle {s s' : St} {p p' : Proc} {e : Ev} (hlog : s'.store.log = s.store.log)
    (hpend : p'.unsent ++ critUnsent p'.mu = p.unsent ++ critUnsent p.mu) (hst : p'.streams = p.streams)
    (hle : p.fresh ≤ p'.fresh) : Fed s p e s' p' := by
  refine ⟨.idle, trivial, .idle ?_ hpend hst hle⟩
  show stored s'.store = stored s.store
  rw [stored, hlog, stored]

section

variable {s s' : St} {p : Proc}

theorem WatchStep.fed {e : WatchEv} (hs : WatchStep s p e s') :
    s'.store = s.store ∧ ∃ p', s'.proc = some p' ∧ p'.mu = p.mu ∧ p'.nextSeq = p.nextSeq ∧ Fed s p (.watch e) s' p' := by
  cases hs with
  | @subscribed fromSeq => exact ⟨rfl, _, rfl, rfl, rfl, .subscribe fromSeq, trivial, .subscribe⟩
  | @lagged i => exact ⟨rfl, _, rfl, rfl, rfl, .close i, trivial, .close⟩
  | @moved i _ _ hst hn => exact ⟨rfl, _, rfl, rfl, rfl, .next i, rfl, .next hst hn⟩
  | @closed i => exact ⟨rfl, _, rfl, rfl, rfl, .close i, trivial, .close⟩

/-- A batch committed: the log and what is to be broadcast both get it. -/
theorem fed_write (hi : FeedInv s) (hp : s.proc = some p) {req : AppendReq} {first : Nat} {ts : Int}
    (hmu : p.mu = some (.reserved req first ts)) (s' : St)
    (hstore : s'.store = s.store.writeBatch (entriesOf sha256 first ts req.entries)) (left : List Hash) :
    Logged s'.store (stored s'.store) ∧ Fed s p (.append .write) s'
      { p with mu := some (.written req (entriesOf sha256 first ts req.entries) left) } := by
  obtain ⟨hn, hb⟩ := hi.reserved p hp req first ts hmu
  have hfresh : p.fresh = first := by rw [Proc.fresh, hmu]
  have hlen := length_entriesOf sha256 req.entries first ts
  have hlogged : Logged s'.store (stored s.store ++ entriesOf sha256 first ts req.entries) := by
    rw [hstore]
    apply hi.logged.writeBatch sha256 (fun e he => ?_) (numbered_entriesOf sha256 req.entries first ts) (by omega)
    rw [← hfresh]
    exact (hi.feed p hp).below e he
  have hstored := stored_eq hlogged
  refine ⟨by rw [hstored]; exact hlogged, .commit (entriesOf sha256 first ts req.entries), ⟨rfl, by rw [hmu]; rfl⟩, ?_⟩
  have hfeed : feedOf s' { p with mu := some (.written req (entriesOf sha256 first ts req.entries) left) } =
      { feedOf s p with
        log := (feedOf s p).log ++ entriesOf sha256 first ts req.entries,
        pending := (feedOf s p).pending ++ entriesOf sha256 first ts req.entries,
        fresh := (feedOf s p).fresh + (entriesOf sha256 first ts req.entries).length } := by
    simp only [feedOf, hstored, hmu, critUnsent, List.append_nil, hfresh, hlen, ← hn]
    rfl
  rw [hfeed]
  refine .commit ?_
  rw [hlen, show (feedOf s p).fresh = first from hfresh]
  exact map_seq_entriesOf sha256 req.entries first ts

theorem fed_send {i : Nat} {req : AppendReq} {results unsent : List LogEntry} {e : LogEntry}
    (hw : p.writers[i]? = some ⟨req, results, e :: unsent⟩) (ev : Ev) : Fed s p ev
      (s.withProc { p with writers := p.writers.set i ⟨req, results, unsent⟩, streams := p.streams.map (·.push e) })
      { p with writers := p.writers.set i ⟨req, results, unsent⟩, streams := p.streams.map (·.push e) } := by
  obtain ⟨l₁, l₂, hl, hset, -⟩ := split_at hw
  refine ⟨.send (l₁.flatMap (·.unsent)) e, ⟨l₁, _, l₂, hl, List.cons_ne_nil _ _, rfl⟩, ?_⟩
  have hbefore : (feedOf s p).pending =
      l₁.flatMap (·.unsent) ++ e :: (unsent ++ l₂.flatMap (·.unsent) ++ critUnsent p.mu) := by
    rw [feedOf, Proc.unsent, hl]
    simp only [List.flatMap_append, List.flatMap_cons, List.append_assoc, List.cons_append]
  have hafter : feedOf (s.withProc { p with writers := p.writers.set i ⟨req, results, unsent⟩,
                                            streams := p.streams.map (·.push e) })
      { p with writers := p.writers.set i ⟨req, results, unsent⟩, streams := p.streams.map (·.push e) } =
      { feedOf s p with
        pending := l₁.flatMap (·.unsent) ++ (unsent ++ l₂.flatMap (·.unsent) ++ critUnsent p.mu),
        streams := (feedOf s p).streams.map (·.push e) } := by
    simp only [feedOf, Proc.unsent, hset, List.flatMap_append, List.flatMap_cons, List.append_assoc]
    rfl
  rw [hafter]
  exact .send hbefore

/-- A handler's step. -/
theorem AppendStep.fed (hi : FeedInv s) (hp : s.proc = some p) {e : AppendEv} (hs : AppendStep sha256 s p e s') :
    Logged s'.store (stored s'.store) ∧ ∃ p', s'.proc = some p' ∧ p'.Reserved ∧ Fed s p (.append e) s' p' := by
  have hres := hi.reserved p hp
  cases hs with
  | refused | emptyBatch => exact ⟨hi.logged, p, hp, hres, .idle rfl rfl rfl (Nat.le_refl _)⟩
  | locked ha hmu =>
    refine ⟨hi.logged, _, rfl, fun req first ts h => by (cases h), .idle rfl (by rw [hmu]; rfl) rfl ?_⟩
    rw [Proc.fresh, hmu]
    exact Nat.le_refl _
  | reserved hmu hle =>
    refine ⟨hi.logged, _, rfl, fun req first ts h => by (cases h; exact ⟨rfl, hle⟩), .idle rfl (by rw [hmu]; rfl) rfl ?_⟩
    rw [Proc.fresh, hmu]
    exact Nat.le_refl _
  | written hmu hres =>
    subst hres
    obtain ⟨hlogged, hfed⟩ := fed_write sha256 hi hp hmu { s with store := _, proc := _ } rfl _
    exact ⟨hlogged, _, rfl, fun req first ts h => by (cases h), hfed⟩
  | @failed req first ts message hmu =>
    -- the numbers are lost: the next batch starts above them
    refine ⟨hi.logged, _, rfl, fun req first ts h => by (cases h), .idle rfl (by rw [hmu]; rfl) rfl ?_⟩
    rw [Proc.fresh, hmu]
    show first ≤ p.nextSeq
    rw [(hres req first ts hmu).1]
    exact Nat.le_add_right _ _
  | leaf hmu =>
    refine ⟨hi.logged, _, rfl, fun req first ts h => by (cases h), .idle rfl (by rw [hmu]; rfl) rfl ?_⟩
    rw [Proc.fresh, hmu]
    exact Nat.le_refl _
  | unlocked hmu =>
    refine ⟨hi.logged, _, rfl, fun req first ts h => by (cases h), .idle rfl ?_ rfl ?_⟩
    · simp only [Proc.unsent, hmu, critUnsent, List.flatMap_append, List.flatMap_singleton, List.append_nil]
    · rw [Proc.fresh, hmu]
      exact Nat.le_refl _
  | sent hw => exact ⟨hi.logged, _, rfl, hres, fed_send hw _⟩
  | replied hw =>
    refine ⟨hi.logged, _, rfl, hres, .idle rfl ?_ rfl (Nat.le_refl _)⟩
    show (p.writers.eraseIdx _).flatMap (·.unsent) ++ critUnsent p.mu = p.unsent ++ critUnsent p.mu
    rw [unsent_reply hw]

theorem SignStep.fed {e : SignEv} (hs : SignStep sha256 E s p e s') :
    s'.store.log = s.store.log ∧ ∃ p', s'.proc = some p' ∧ p'.mu = p.mu ∧ p'.nextSeq = p.nextSeq ∧ Fed s p (.sign e) s' p' := by
  cases hs <;> exact ⟨rfl, _, rfl, rfl, rfl, .idle rfl rfl rfl (Nat.le_refl _)⟩

theorem RotateStep.fed {e : RotateEv} (hs : RotateStep E s p e s') :
    s'.store.log = s.store.log ∧ ∃ p', s'.proc = some p' ∧ p'.mu = p.mu ∧ p'.nextSeq = p.nextSeq ∧ Fed s p (.rotate e) s' p' := by
  cases hs <;> exact ⟨rfl, _, rfl, rfl, rfl, .idle rfl rfl rfl (Nat.le_refl _)⟩

theorem ProofStep.fed (hp : s.proc = some p) {e : ProofEv} (hs : ProofStep sha256 s p e s') :
    s'.store.log = s.store.log ∧ ∃ p', s'.proc = some p' ∧ p'.mu = p.mu ∧ p'.nextSeq = p.nextSeq ∧ Fed s p (.proof e) s' p' := by
  cases hs with
  | refused => exact ⟨rfl, p, hp, rfl, rfl, .idle rfl rfl rfl (Nat.le_refl _)⟩
  | sized | unproved | proved | headRead | answered =>
    exact ⟨rfl, _, rfl, rfl, rfl, .idle rfl rfl rfl (Nat.le_refl _)⟩

theorem logged_congr {store store' : Store} (h : Logged store (stored store)) (hlog : store'.log = store.log) :
    Logged store' (stored store') := by
  have hst : stored store' = stored store := by rw [stored, hlog, stored]
  rw [hst]
  exact ⟨by rw [hlog]; exact h.log, h.bound⟩

/-- After a step of the feed. -/
theorem FeedInv.fed (hi : FeedInv s) (hp : s.proc = some p) {e : Ev} (hlogged : Logged s'.store (stored s'.store))
    {p' : Proc} (hp' : s'.proc = some p') (hres : p'.Reserved) (hfed : Fed s p e s' p') : FeedInv s' := by
  refine ⟨hlogged, fun q hq => ?_, fun q hq => ?_⟩
  · rw [hp'] at hq
    cases hq
    exact hres
  · rw [hp'] at hq
    cases hq
    obtain ⟨ev, -, hs⟩ := hfed
    exact hs.feedOk (hi.feed p hp)

/-- A step that leaves the log and the critical section alone. -/
theorem FeedInv.quiet (hi : FeedInv s) (hp : s.proc = some p) {e : Ev} (h : s'.store.log = s.store.log ∧
      ∃ p', s'.proc = some p' ∧ p'.mu = p.mu ∧ p'.nextSeq = p.nextSeq ∧ Fed s p e s' p') :
    FeedInv s' ∧ ∃ p', s'.proc = some p' ∧ Fed s p e s' p' := by
  obtain ⟨hlog, p', hp', hmu, hn, hfed⟩ := h
  have hres : p'.Reserved := by
    unfold Proc.Reserved
    rw [hmu, hn]
    exact hi.reserved p hp
  exact ⟨hi.fed hp (logged_congr hi.logged hlog) hp' hres hfed, p', hp', hfed⟩

theorem Restarted.feedInv (hi : FeedInv s) (hr : Restarted sha256 s s') : FeedInv s' := by
  have hlogged := logged_congr hi.logged hr.log
  refine ⟨hlogged, fun p hp req first ts hmu => ?_, fun p hp => ?_⟩
  · rw [(hr.proc p hp).2.2.1] at hmu
    cases hmu
  · obtain ⟨hn, -, hmu, -⟩ := hr.proc p hp
    have hfresh : p.fresh = s.store.nextSeq := by rw [Proc.fresh, hmu]; exact hn
    have hst : stored s'.store = stored s.store := by rw [stored, hr.log, stored]
    refine ⟨logged_ascending hlogged, fun e he => ?_⟩
    show e.seq < p.fresh
    have he : e ∈ stored s'.store := he
    rw [hst] at he
    rw [hfresh]
    exact hi.logged.nextSeq.1 e he

/-- Every step of the server is one of its feed, or starts a process without handlers
    and streams. -/
theorem Step.fed {e : Ev} (hi : FeedInv s) (hs : Step sha256 E s e s') :
    FeedInv s' ∧ ∀ p', s'.proc = some p' →
      (p'.mu = none ∧ p'.writers = [] ∧ p'.streams = []) ∨ ∃ p, s.proc = some p ∧ Fed s p e s' p' := by
  have goes : ∀ {p : Proc}, s.proc = some p → (FeedInv s' ∧ ∃ p', s'.proc = some p' ∧ Fed s p e s' p') →
      FeedInv s' ∧ ∀ p', s'.proc = some p' →
        (p'.mu = none ∧ p'.writers = [] ∧ p'.streams = []) ∨ ∃ p, s.proc = some p ∧ Fed s p e s' p' := by
    intro p hp ⟨hi', p', hp', hfed⟩
    refine ⟨hi', fun q hq => Or.inr ⟨p, hp, ?_⟩⟩
    rw [hp'] at hq
    cases hq
    exact hfed
  cases hs with
  | append hp hs =>
    obtain ⟨hlogged, p', hp', hres, hfed⟩ := hs.fed sha256 hi hp
    exact goes hp ⟨hi.fed hp hlogged hp' hres hfed, p', hp', hfed⟩
  | sign hp hs => exact goes hp (hi.quiet hp (hs.fed sha256 E))
  | rotate hp hs => exact goes hp (hi.quiet hp (hs.fed E))
  | proof hp hs => exact goes hp (hi.quiet hp (hs.fed sha256 hp))
  | watch hp hs =>
    obtain ⟨hstore, hrest⟩ := hs.fed
    exact goes hp (hi.quiet hp ⟨by rw [hstore], hrest⟩)
  | crash => exact ⟨⟨hi.logged, fun p hp => by (cases hp), fun p hp => by cases hp⟩, fun p' hp' => by cases hp'⟩
  | restart hp hr =>
    have hre := restart_restarted sha256 E hp hr
    refine ⟨hre.feedInv sha256 hi, fun p' hp' => ?_⟩
    obtain ⟨-, -, hmu, hw, hst, -⟩ := hre.proc p' hp'
    exact Or.inl ⟨hmu, hw, hst⟩

end

end Settled.Server
