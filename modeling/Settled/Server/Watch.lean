/-
  Settled.Server.Watch — live Watch streams (`watch` with `from_seq = 0`).

  A handler commits its entries under `append_mu` and broadcasts them after it, outside
  the lock; a stream drops what is not above the last number it delivered, a filter
  against the overlap of replay and live that assumes the broadcasts come in the order
  of the numbers. Nothing orders the broadcasts of two handlers: if the later one
  broadcasts first, the entry of the earlier one is dropped (`live_watch_drops`).

  If whoever broadcasts to a live stream holds the smallest number not broadcast yet
  (`sendsAscend`), a stream that does not lag loses nothing (`live_watch_complete`).
  `WatchInv` is about the numbers still to be broadcast: they are all different, all
  below the counter, and all above everything the live streams were sent. Log writes may
  fail and the process may crash.
-/

import Mathlib.Data.List.Nodup
import Settled.Lib.Tasks
import Settled.Server.Invariant

namespace Settled.Server

open Settled.Lib Settled.Core Settled.Storage

variable (sha256 : Bytes → Hash) (E : Ed25519)

/-! ## What is still to be broadcast -/

/-- The entries written by the holder of `append_mu`. -/
def critUnsent : Option Crit → List LogEntry
  | some (.written _ results _) => results
  | _ => []

def Proc.unsent (p : Proc) : List LogEntry := p.writers.flatMap (·.unsent)

/-- The first number not yet given to an entry. -/
def Proc.fresh (p : Proc) : Nat :=
  match p.mu with
  | some (.reserved _ first _) => first
  | _ => p.nextSeq

def seqs (es : List LogEntry) : List Nat := es.map (·.seq)

theorem mem_seqs {es : List LogEntry} {n : Nat} : n ∈ seqs es ↔ ∃ e ∈ es, e.seq = n := List.mem_map

/-! ## Live streams -/

/-- A live stream: what it was sent is ascending, and below `bound` and all of `unsent`;
    and while it has missed nothing, all of it is delivered or in the queue. -/
structure LiveOk (unsent : List LogEntry) (bound : Nat) (st : Stream) : Prop where
  live : st.phase = .live
  ascending : (seqs st.sent).Pairwise (· < ·)
  below : ∀ e ∈ st.sent, e.seq < bound
  before : ∀ e ∈ st.sent, ∀ f ∈ unsent, e.seq < f.seq
  intact : st.missed = 0 → st.delivered ++ st.queue = st.sent
  last : st.lastSent = (seqs st.delivered).getLast?

theorem LiveOk.subscribe (unsent : List LogEntry) (bound : Nat) : LiveOk unsent bound (.subscribe 0) where
  live := rfl
  ascending := List.Pairwise.nil
  below _ he := absurd he List.not_mem_nil
  before _ he := absurd he List.not_mem_nil
  intact _ := rfl
  last := rfl

theorem LiveOk.mono {unsent unsent' : List LogEntry} {bound bound' : Nat} {st : Stream} (h : LiveOk unsent bound st)
    (hb : bound ≤ bound') (hu : ∀ f ∈ unsent', f ∈ unsent ∨ bound ≤ f.seq) : LiveOk unsent' bound' st where
  live := h.live
  ascending := h.ascending
  below e he := Nat.lt_of_lt_of_le (h.below e he) hb
  before e he f hf := by
    rcases hu f hf with hf | hf
    · exact h.before e he f hf
    · exact Nat.lt_of_lt_of_le (h.below e he) hf
  intact := h.intact
  last := h.last

theorem seqs_append (es fs : List LogEntry) : seqs (es ++ fs) = seqs es ++ seqs fs := List.map_append

theorem push_fromSeq (st : Stream) (e : LogEntry) : (st.push e).fromSeq = st.fromSeq := by
  unfold Stream.push
  extract_lets queue
  split <;> rfl

/-- A broadcast of the smallest number to come. -/
theorem LiveOk.push {unsent unsent' : List LogEntry} {bound : Nat} {st : Stream} {e : LogEntry} (h : LiveOk unsent bound st)
    (he : e ∈ unsent) (hb : e.seq < bound) (hsub : ∀ f ∈ unsent', f ∈ unsent) (hmin : ∀ f ∈ unsent', e.seq < f.seq) :
    LiveOk unsent' bound (st.push e) := by
  have hasc : (seqs (st.sent ++ [e])).Pairwise (· < ·) := by
    rw [seqs_append, List.pairwise_append]
    refine ⟨h.ascending, List.pairwise_singleton _ _, fun a ha b hb => ?_⟩
    obtain ⟨f, hf, rfl⟩ := mem_seqs.mp ha
    rw [seqs, List.map_singleton, List.mem_singleton] at hb
    rw [hb]
    exact h.before f hf e he
  have hbelow : ∀ f ∈ st.sent ++ [e], f.seq < bound := by
    intro f hf
    rcases List.mem_append.mp hf with hf | hf
    · exact h.below f hf
    · rw [List.mem_singleton.mp hf]; exact hb
  have hbefore : ∀ f ∈ st.sent ++ [e], ∀ g ∈ unsent', f.seq < g.seq := by
    intro f hf g hg
    rcases List.mem_append.mp hf with hf | hf
    · exact h.before f hf g (hsub g hg)
    · rw [List.mem_singleton.mp hf]; exact hmin g hg
  unfold Stream.push
  extract_lets queue
  split
  -- the receiver is full: it misses its oldest entry
  · exact ⟨h.live, hasc, hbelow, hbefore, fun hm => absurd hm (Nat.succ_ne_zero _), h.last⟩
  · refine ⟨h.live, hasc, hbelow, hbefore, fun hm => ?_, h.last⟩
    rw [← h.intact hm, List.append_assoc]

/-- A live stream that has missed nothing delivers the next entry of its queue: it is
    above the last number delivered. -/
theorem LiveOk.next_eq {unsent : List LogEntry} {bound : Nat} {st : Stream} {e : LogEntry} {queue : List LogEntry}
    (h : LiveOk unsent bound st) (hm : st.missed = 0) (hq : st.queue = e :: queue) (store : Store) :
    st.next store = some (some ({ st with queue := queue }.deliver e)) := by
  have hlast : st.lastSent.any (fun last => decide (e.seq ≤ last)) = false := by
    rw [h.last]
    cases hl : (seqs st.delivered).getLast? with
    | none => rfl
    | some last =>
      have hmem : last ∈ seqs st.delivered := List.mem_of_getLast? hl
      have hasc := h.ascending
      rw [← h.intact hm, seqs_append, List.pairwise_append] at hasc
      have hlt : last < e.seq := hasc.2.2 last hmem e.seq (by rw [hq]; exact List.mem_cons_self)
      simp only [Option.any_some, decide_eq_false_iff_not]
      omega
  unfold Stream.next
  simp only [h.live, hm, hq, hlast, Nat.lt_irrefl, if_false, Bool.false_eq_true]

theorem LiveOk.deliver {unsent : List LogEntry} {bound : Nat} {st : Stream} {e : LogEntry} {queue : List LogEntry}
    (h : LiveOk unsent bound st) (hq : st.queue = e :: queue) :
    LiveOk unsent bound ({ st with queue := queue }.deliver e) where
  live := h.live
  ascending := h.ascending
  below := h.below
  before := h.before
  intact hm := by
    show (st.delivered ++ [e]) ++ queue = st.sent
    rw [List.append_assoc, List.singleton_append, ← hq]
    exact h.intact hm
  last := by
    show some e.seq = (seqs (st.delivered ++ [e])).getLast?
    rw [seqs_append]
    exact List.getLast?_concat.symm

theorem LiveOk.next {unsent : List LogEntry} {bound : Nat} {st st' : Stream} {store : Store} (h : LiveOk unsent bound st)
    (hn : st.next store = some (some st')) : LiveOk unsent bound st' := by
  by_cases hm : st.missed = 0
  · cases hq : st.queue with
    | nil =>
      simp only [Stream.next, h.live, hm, hq, Nat.lt_irrefl, if_false] at hn
      cases hn
    | cons e queue =>
      rw [h.next_eq hm hq] at hn
      cases hn
      exact h.deliver hq
  · simp only [Stream.next, h.live, Nat.pos_of_ne_zero hm, if_true] at hn
    cases hn

/-! ## The invariant -/

structure WatchInv (p : Proc) : Prop where
  reserved : ∀ req first ts, p.mu = some (.reserved req first ts) → p.nextSeq = first + req.entries.length
  below : ∀ e ∈ p.unsent ++ critUnsent p.mu, e.seq < p.fresh
  order : ∀ e ∈ p.unsent, ∀ f ∈ critUnsent p.mu, e.seq < f.seq
  nodup : (seqs p.unsent).Nodup
  critNodup : (seqs (critUnsent p.mu)).Nodup
  streams : ∀ st ∈ p.streams, st.fromSeq = 0 → LiveOk (p.unsent ++ critUnsent p.mu) p.fresh st

/-- A process that has only started. -/
theorem WatchInv.start {p : Proc} (hmu : p.mu = none) (hw : p.writers = []) (hst : p.streams = []) : WatchInv p := by
  have hun : p.unsent = [] := by rw [Proc.unsent, hw]; rfl
  refine ⟨fun req first ts h => ?_, fun e he => ?_, fun e he => ?_, ?_, ?_, fun st h => ?_⟩
  · rw [hmu] at h; cases h
  · rw [hun, hmu] at he; cases he
  · rw [hun] at he; cases he
  · rw [hun]; exact List.nodup_nil
  · rw [hmu]; exact List.nodup_nil
  · rw [hst] at h; cases h

/-- The same entries are to be broadcast, to the same streams, and no number is free
    again. -/
theorem WatchInv.advance {p p' : Proc} (h : WatchInv p) (hun : p'.unsent = p.unsent) (hst : p'.streams = p.streams)
    (hcrit : critUnsent p'.mu = critUnsent p.mu) (hle : p.fresh ≤ p'.fresh)
    (hres : ∀ req first ts, p'.mu = some (.reserved req first ts) → p'.nextSeq = first + req.entries.length) :
    WatchInv p' := by
  refine ⟨hres, ?_, ?_, ?_, ?_, ?_⟩
  · rw [hun, hcrit]; exact fun e he => Nat.lt_of_lt_of_le (h.below e he) hle
  · rw [hun, hcrit]; exact h.order
  · rw [hun]; exact h.nodup
  · rw [hcrit]; exact h.critNodup
  · rw [hst, hun, hcrit]; exact fun st hst h0 => (h.streams st hst h0).mono hle fun f hf => Or.inl hf

/-- Whoever broadcasts while a live stream is open holds the smallest number not
    broadcast yet. -/
def sendsAscend (s : St) : Ev → Bool
  | .append (.send i) =>
    match s.proc with
    | none => true
    | some p =>
      match p.writers[i]? with
      | some ⟨_, _, e :: _⟩ => p.streams.all (fun st => st.fromSeq ≠ 0) || p.unsent.all fun f => e.seq ≤ f.seq
      | _ => true
  | _ => true

theorem sendsAscend_send {s : St} {p : Proc} (hp : s.proc = some p) {i : Nat} {req : AppendReq}
    {results unsent : List LogEntry} {e : LogEntry} (hw : p.writers[i]? = some ⟨req, results, e :: unsent⟩)
    (h : sendsAscend s (.append (.send i)) = true) {st : Stream} (hst : st ∈ p.streams) (h0 : st.fromSeq = 0) :
    ∀ f ∈ p.unsent, e.seq ≤ f.seq := by
  simp only [sendsAscend, hp, hw, Bool.or_eq_true, List.all_eq_true, decide_eq_true_eq] at h
  rcases h with h | h
  · exact absurd h0 (h st hst)
  · exact h

/-- A broadcast takes one entry out of what is to be broadcast. -/
theorem unsent_send {p : Proc} {i : Nat} {req : AppendReq} {results unsent : List LogEntry} {e : LogEntry}
    (hw : p.writers[i]? = some ⟨req, results, e :: unsent⟩) :
    p.unsent.Perm (e :: (p.writers.set i ⟨req, results, unsent⟩).flatMap (·.unsent)) := by
  obtain ⟨l₁, l₂, hl, hset, -⟩ := split_at hw
  rw [hset, Proc.unsent, hl]
  simp only [List.flatMap_append, List.flatMap_cons, List.cons_append]
  exact List.perm_middle

theorem unsent_reply {p : Proc} {i : Nat} {req : AppendReq} {results : List LogEntry}
    (hw : p.writers[i]? = some ⟨req, results, []⟩) : (p.writers.eraseIdx i).flatMap (·.unsent) = p.unsent := by
  obtain ⟨l₁, l₂, hl, -, herase⟩ := split_at hw
  rw [herase, Proc.unsent, hl]
  simp only [List.flatMap_append, List.flatMap_cons, List.nil_append]

theorem WatchInv.send {p : Proc} (h : WatchInv p) {i : Nat} {req : AppendReq} {results unsent : List LogEntry} {e : LogEntry}
    (hw : p.writers[i]? = some ⟨req, results, e :: unsent⟩)
    (hmin : ∀ st ∈ p.streams, st.fromSeq = 0 → ∀ f ∈ p.unsent, e.seq ≤ f.seq) :
    WatchInv { p with writers := p.writers.set i ⟨req, results, unsent⟩, streams := p.streams.map (·.push e) } := by
  let p' : Proc := { p with writers := p.writers.set i ⟨req, results, unsent⟩, streams := p.streams.map (·.push e) }
  have hperm : p.unsent.Perm (e :: p'.unsent) := unsent_send hw
  have he : e ∈ p.unsent := hperm.mem_iff.mpr List.mem_cons_self
  have hsub : ∀ f ∈ p'.unsent, f ∈ p.unsent := fun f hf => hperm.mem_iff.mpr (List.mem_cons_of_mem e hf)
  have hsub' : ∀ f ∈ p'.unsent ++ critUnsent p.mu, f ∈ p.unsent ++ critUnsent p.mu := by
    intro f hf
    rcases List.mem_append.mp hf with hf | hf
    · exact List.mem_append_left _ (hsub f hf)
    · exact List.mem_append_right _ hf
  have hnodup : (e.seq :: seqs p'.unsent).Nodup := (hperm.map LogEntry.seq).nodup_iff.mp h.nodup
  obtain ⟨hnew, hnodup⟩ := List.nodup_cons.mp hnodup
  refine ⟨h.reserved, fun f hf => h.below f (hsub' f hf), fun f hf => h.order f (hsub f hf), hnodup, h.critNodup,
    fun st hst h0 => ?_⟩
  obtain ⟨st0, hst0, rfl⟩ := List.mem_map.mp hst
  have h0' : st0.fromSeq = 0 := by rw [← push_fromSeq st0 e]; exact h0
  apply (h.streams st0 hst0 h0').push (List.mem_append_left _ he) (h.below e (List.mem_append_left _ he)) hsub'
  intro f hf
  rcases List.mem_append.mp hf with hf | hf
  · have hle := hmin st0 hst0 h0' f (hsub f hf)
    have hne : e.seq ≠ f.seq := fun heq => hnew (mem_seqs.mpr ⟨f, hf, heq.symm⟩)
    omega
  · exact h.order e he f hf

/-- The entries of a batch get the numbers it reserved. -/
theorem WatchInv.write {p : Proc} (h : WatchInv p) {req : AppendReq} {first : Nat} {ts : Int}
    (hmu : p.mu = some (.reserved req first ts)) (left : List Hash) :
    WatchInv { p with mu := some (.written req (entriesOf sha256 first ts req.entries) left) } := by
  have hfresh : p.fresh = first := by rw [Proc.fresh, hmu]
  have hcrit : critUnsent p.mu = [] := by rw [hmu]; rfl
  have hnext := h.reserved req first ts hmu
  have hbelow : ∀ e ∈ p.unsent, e.seq < first := by
    intro e he
    rw [← hfresh]
    exact h.below e (List.mem_append_left _ he)
  have hseqs := map_seq_entriesOf sha256 req.entries first ts
  have hres : ∀ e ∈ entriesOf sha256 first ts req.entries, first ≤ e.seq ∧ e.seq < p.nextSeq := by
    intro e he
    have hmem : e.seq ∈ List.range' first req.entries.length := by
      rw [← hseqs]
      exact List.mem_map_of_mem he
    obtain ⟨h1, h2⟩ := List.mem_range'_1.mp hmem
    exact ⟨h1, by omega⟩
  have hle : first ≤ p.nextSeq := by omega
  refine ⟨fun req' first' ts' h' => ?_, fun e he => ?_, fun e he f hf => ?_, h.nodup, ?_, fun st hst h0 => ?_⟩
  · cases h'
  · rcases List.mem_append.mp he with he | he
    · exact Nat.lt_of_lt_of_le (hbelow e he) hle
    · exact (hres e he).2
  · exact Nat.lt_of_lt_of_le (hbelow e he) (hres f hf).1
  · show (seqs (entriesOf sha256 first ts req.entries)).Nodup
    rw [seqs, hseqs]
    exact List.nodup_range'
  · refine (h.streams st hst h0).mono (by rw [hfresh]; exact hle) fun f hf => ?_
    rcases List.mem_append.mp hf with hf | hf
    · exact Or.inl (List.mem_append_left _ hf)
    · exact Or.inr (by rw [hfresh]; exact (hres f hf).1)

theorem AppendStep.watchInv {s s' : St} {p : Proc} (hi : ∀ q, s.proc = some q → WatchInv q) (hp : s.proc = some p)
    {e : AppendEv} (hok : sendsAscend s (.append e) = true) (hs : AppendStep sha256 s p e s') :
    ∀ p', s'.proc = some p' → WatchInv p' := by
  intro p' hp'
  have h := hi p hp
  cases hs with
  | refused | emptyBatch => exact hi p' hp'
  | locked ha hmu =>
    cases hp'
    have hfresh : p.fresh = p.nextSeq := by rw [Proc.fresh, hmu]
    exact h.advance rfl rfl (by rw [hmu]; rfl) (by rw [hfresh]; exact Nat.le_refl _) fun req first ts h' => by cases h'
  | reserved hmu hle =>
    cases hp'
    have hfresh : p.fresh = p.nextSeq := by rw [Proc.fresh, hmu]
    exact h.advance rfl rfl (by rw [hmu]; rfl) (by rw [hfresh]; exact Nat.le_refl _) fun req first ts h' => by cases h'; rfl
  | written hmu hres =>
    cases hp'
    subst hres
    exact h.write sha256 hmu _
  | @failed req first ts message hmu =>
    -- the numbers are lost: the next batch starts above them
    cases hp'
    have hfresh : p.fresh = first := by rw [Proc.fresh, hmu]
    have hle : first ≤ p.nextSeq := by rw [h.reserved _ _ _ hmu]; exact Nat.le_add_right _ _
    exact h.advance rfl rfl (by rw [hmu]; rfl) (by rw [hfresh]; exact hle) fun req first ts h' => by cases h'
  | leaf hmu =>
    cases hp'
    have hfresh : p.fresh = p.nextSeq := by rw [Proc.fresh, hmu]
    exact h.advance rfl rfl (by rw [hmu]; rfl) (by rw [hfresh]; exact Nat.le_refl _) fun req first ts h' => by cases h'
  | @unlocked req results hmu =>
    cases hp'
    have hfresh : p.fresh = p.nextSeq := by rw [Proc.fresh, hmu]
    obtain ⟨-, hbelow, horder, hnodup, hcrit, hstreams⟩ := h
    rw [hmu] at hbelow horder hcrit hstreams
    rw [hfresh] at hbelow hstreams
    have hun : (p.writers ++ [Writer.mk req results results]).flatMap (·.unsent) = p.unsent ++ results := by
      rw [List.flatMap_append, List.flatMap_singleton]
      rfl
    refine ⟨fun req first ts h' => by (cases h'), ?_, fun e he f hf => absurd hf List.not_mem_nil, ?_, List.nodup_nil, ?_⟩
    · show ∀ e ∈ (p.writers ++ [Writer.mk req results results]).flatMap (·.unsent) ++ [], e.seq < p.nextSeq
      rw [hun, List.append_nil]
      exact hbelow
    · rw [Proc.unsent, hun, seqs_append]
      refine List.nodup_append.mpr ⟨hnodup, hcrit, fun a ha b hb => ?_⟩
      obtain ⟨e, he, rfl⟩ := mem_seqs.mp ha
      obtain ⟨f, hf, rfl⟩ := mem_seqs.mp hb
      exact Nat.ne_of_lt (horder e he f hf)
    · show ∀ st ∈ p.streams, st.fromSeq = 0 →
        LiveOk ((p.writers ++ [Writer.mk req results results]).flatMap (·.unsent) ++ []) p.nextSeq st
      rw [hun, List.append_nil]
      exact hstreams
  | sent hw =>
    cases hp'
    exact h.send hw fun st hst h0 => sendsAscend_send hp hw hok hst h0
  | replied hw =>
    cases hp'
    exact h.advance (unsent_reply hw) rfl rfl (Nat.le_refl _) h.reserved

/-! ## Runs -/

/-- The other parts of the process leave handlers and streams alone. -/
theorem SignStep.watchInv {s s' : St} {p : Proc} (h : WatchInv p) {e : SignEv} (hs : SignStep sha256 E s p e s') :
    ∀ p', s'.proc = some p' → WatchInv p' := by
  intro p' hp'
  cases hs <;> cases hp' <;> exact h.advance rfl rfl rfl (Nat.le_refl _) h.reserved

theorem RotateStep.watchInv {s s' : St} {p : Proc} (h : WatchInv p) {e : RotateEv} (hs : RotateStep E s p e s') :
    ∀ p', s'.proc = some p' → WatchInv p' := by
  intro p' hp'
  cases hs <;> cases hp' <;> exact h.advance rfl rfl rfl (Nat.le_refl _) h.reserved

theorem ProofStep.watchInv {s s' : St} {p : Proc} (hi : ∀ q, s.proc = some q → WatchInv q) (hp : s.proc = some p)
    {e : ProofEv} (hs : ProofStep sha256 s p e s') : ∀ p', s'.proc = some p' → WatchInv p' := by
  intro p' hp'
  cases hs with
  | refused => exact hi p' hp'
  | sized | unproved | proved | headRead | answered =>
    cases hp'
    exact (hi p hp).advance rfl rfl rfl (Nat.le_refl _) (hi p hp).reserved

theorem WatchInv.streams_only {p : Proc} (h : WatchInv p) {streams : List Stream}
    (hst : ∀ st ∈ streams, st.fromSeq = 0 → LiveOk (p.unsent ++ critUnsent p.mu) p.fresh st) :
    WatchInv { p with streams := streams } := ⟨h.reserved, h.below, h.order, h.nodup, h.critNodup, hst⟩

theorem next_fromSeq {store : Store} {st st' : Stream} (h : st.next store = some (some st')) : st'.fromSeq = st.fromSeq := by
  unfold Stream.next at h
  split at h
  next => cases h; rfl
  next => cases h; rfl
  next => cases h; rfl
  next =>
    split at h
    · cases h
    · split at h
      · cases h
      · dsimp only at h
        split at h <;> cases h <;> rfl

theorem WatchStep.watchInv {s s' : St} {p : Proc} (h : WatchInv p) {e : WatchEv} (hs : WatchStep s p e s') :
    ∀ p', s'.proc = some p' → WatchInv p' := by
  intro p' hp'
  cases hs with
  | @subscribed fromSeq =>
    cases hp'
    refine h.streams_only fun st hst h0 => ?_
    rcases List.mem_append.mp hst with hst | hst
    · exact h.streams st hst h0
    · rw [List.mem_singleton] at hst
      rw [hst] at h0 ⊢
      cases h0
      exact .subscribe _ _
  | lagged =>
    cases hp'
    exact h.streams_only fun st hst h0 => h.streams st (List.mem_of_mem_eraseIdx hst) h0
  | moved hst hn =>
    cases hp'
    refine h.streams_only fun st hst' h0 => ?_
    rcases List.mem_or_eq_of_mem_set hst' with hst' | rfl
    · exact h.streams st hst' h0
    · rw [next_fromSeq hn] at h0
      exact (h.streams _ (List.mem_of_getElem? hst) h0).next hn
  | closed =>
    cases hp'
    exact h.streams_only fun st hst h0 => h.streams st (List.mem_of_mem_eraseIdx hst) h0

theorem Step.watchInv {s s' : St} {e : Ev} (h : ∀ p, s.proc = some p → WatchInv p) (hok : sendsAscend s e = true)
    (hs : Step sha256 E s e s') : ∀ p', s'.proc = some p' → WatchInv p' := by
  cases hs with
  | append hp hs => exact hs.watchInv sha256 h hp hok
  | sign hp hs => exact hs.watchInv sha256 E (h _ hp)
  | rotate hp hs => exact hs.watchInv E (h _ hp)
  | proof hp hs => exact hs.watchInv sha256 h hp
  | watch hp hs => exact hs.watchInv (h _ hp)
  | crash => intro p' hp'; cases hp'
  | restart hp hr =>
    intro p' hp'
    obtain ⟨-, -, hmu, hw, hst, -⟩ := (restart_restarted sha256 E hp hr).proc p' hp'
    exact .start hmu hw hst

theorem reach_watchInv {s : St} (h : Reach (step sha256 E) sendsAscend .init s) : ∀ p, s.proc = some p → WatchInv p := by
  apply h.inv (P := fun s => ∀ p, s.proc = some p → WatchInv p) (fun p hp => by cases hp)
  intro s e s' hi hok hs
  exact (step_step sha256 E hs).watchInv sha256 E hi hok

/-- Receiving as often as there are entries in the queue delivers them all. -/
theorem drain {i : Nat} {unsent : List LogEntry} {bound : Nat} : ∀ (queue : List LogEntry) {s : St} {p : Proc} {st : Stream},
    s.proc = some p → p.streams[i]? = some st → LiveOk unsent bound st → st.missed = 0 → st.queue = queue →
    ∃ s' p' st', run (step sha256 E) sendsAscend s (List.replicate queue.length (.watch (.next i))) = some s' ∧
      s'.proc = some p' ∧ p'.streams[i]? = some st' ∧ st'.sent = st.sent ∧ st'.delivered = st.sent := by
  intro queue
  induction queue with
  | nil =>
    intro s p st hp hst h hm hq
    have hall := h.intact hm
    rw [hq, List.append_nil] at hall
    exact ⟨s, p, st, rfl, hp, hst, rfl, hall⟩
  | cons e queue ih =>
    intro s p st hp hst h hm hq
    have hnext := h.next_eq hm hq s.store
    have hlt : i < p.streams.length := (List.getElem?_eq_some_iff.mp hst).1
    let st1 := { st with queue := queue }.deliver e
    have hstep : step sha256 E s (.watch (.next i)) = some (s.withProc { p with streams := p.streams.set i st1 }) := by
      simp only [step, hp, Option.bind_some, stepWatch, hst, hnext]
      rfl
    obtain ⟨s', p', st', hrun, hp', hst', hsent, hall⟩ := ih (s := s.withProc { p with streams := p.streams.set i st1 })
      rfl (List.getElem?_set_self hlt) (h.deliver hq) hm rfl
    refine ⟨s', p', st', ?_, hp', hst', hsent, hall⟩
    rw [List.length_cons, List.replicate_succ, run, hstep]
    exact hrun

/-- In every run in which whoever broadcasts to a live stream holds the smallest number
    not broadcast yet, a stream opened with `from_seq = 0` that has not lagged has, of
    what was sent since its subscription, delivered a first part in strictly ascending
    order and has the rest in its queue; and receiving that rest delivers every entry
    sent, exactly once. -/
theorem live_watch_complete {s : St} {p : Proc} {i : Nat} {st : Stream} (h : Reach (step sha256 E) sendsAscend .init s)
    (hp : s.proc = some p) (hst : p.streams[i]? = some st) (h0 : st.fromSeq = 0) (hm : st.missed = 0) :
    st.delivered ++ st.queue = st.sent ∧ (st.delivered.map (·.seq)).Pairwise (· < ·) ∧
    ∃ s' p' st', run (step sha256 E) sendsAscend s (List.replicate st.queue.length (.watch (.next i))) = some s' ∧
      s'.proc = some p' ∧ p'.streams[i]? = some st' ∧ st'.sent = st.sent ∧ st'.delivered = st.sent ∧
      (st'.delivered.map (·.seq)).Pairwise (· < ·) ∧ ∀ e ∈ st.sent, st'.delivered.count e = 1 := by
  have hlive := (reach_watchInv sha256 E h p hp).streams st (List.mem_of_getElem? hst) h0
  have hasc := hlive.ascending
  have hdelivered : (seqs st.delivered).Pairwise (· < ·) := by
    rw [← hlive.intact hm, seqs_append] at hasc
    exact (List.pairwise_append.mp hasc).1
  have hnodup : st.sent.Nodup := List.Nodup.of_map LogEntry.seq (hasc.imp fun hlt => Nat.ne_of_lt hlt)
  obtain ⟨s', p', st', hrun, hp', hst', hsent, hall⟩ := drain sha256 E st.queue hp hst hlive hm rfl
  refine ⟨hlive.intact hm, hdelivered, s', p', st', hrun, hp', hst', hsent, hall, by rw [hall]; exact hasc, fun e he => ?_⟩
  rw [hall]
  exact List.count_eq_one_of_mem hnodup he

/-- A live stream, then two handlers at once: one entry and a batch of two. -/
def twoWriters : List Ev :=
  [.restart .zero true, .watch (.subscribe 0),
   .append (.request (.append [1] [10]) true), .append (.reserve 5), .append .write, .append .merkle, .append .unlock,
   .append (.request (.batchAppend [([2], [20]), ([3], [30])]) true), .append (.reserve 6), .append .write,
   .append .merkle, .append .merkle, .append .unlock]

/-- What a stream was sent, delivered, has in its queue and missed, by numbers. -/
def Stream.report (st : Stream) : Nat × List Nat × List Nat × List Nat × Nat :=
  (st.fromSeq, seqs st.sent, seqs st.delivered, seqs st.queue, st.missed)

theorem live_watch_complete_two_writers : ∃ s p st s' p' st', Reach (step Sha256.sha256 plainKeys) sendsAscend .init s ∧
    s.proc = some p ∧ p.streams[0]? = some st ∧ st.report = (0, [0, 1, 2], [0], [1, 2], 0) ∧
    run (step Sha256.sha256 plainKeys) sendsAscend s (List.replicate st.queue.length (.watch (.next 0))) = some s' ∧
    s'.proc = some p' ∧ p'.streams[0]? = some st' ∧ st'.delivered = st.sent := by
  have hrun : ((run (step Sha256.sha256 plainKeys) sendsAscend .init (twoWriters ++
      [Ev.append (.send 0), .watch (.next 0), .append (.send 1), .append (.send 1)])).bind (·.proc)).map
        (fun p => p.streams[0]?.map Stream.report) = some (some (0, [0, 1, 2], [0], [1, 2], 0)) := by decide +kernel
  obtain ⟨p, hp, hst⟩ := Option.map_eq_some_iff.mp hrun
  obtain ⟨s, hs, hp⟩ := Option.bind_eq_some_iff.mp hp
  obtain ⟨st, hst, hrep⟩ := Option.map_eq_some_iff.mp hst
  have hr : Reach (step Sha256.sha256 plainKeys) sendsAscend .init s := Reach.init.run hs
  have h0 : st.fromSeq = 0 := congrArg (·.1) hrep
  have hm : st.missed = 0 := congrArg (·.2.2.2.2) hrep
  obtain ⟨-, -, s', p', st', hrun', hp', hst', -, hall, -⟩ :=
    live_watch_complete Sha256.sha256 plainKeys hr hp hst h0 hm
  exact ⟨s, p, st, s', p', st', hr, hp, hst, hrep, hrun', hp', hst', hall⟩

/-- The batch's handler broadcasts its first entry before the other handler broadcasts
    entry 0: the stream has received both and delivered only the former. -/
theorem live_watch_drops : ∃ s p st e, Reach (step Sha256.sha256 plainKeys) (fun _ _ => true) .init s ∧
    s.proc = some p ∧ p.streams[0]? = some st ∧ st.fromSeq = 0 ∧ st.missed = 0 ∧ st.queue = [] ∧
    e ∈ st.sent ∧ e ∉ st.delivered := by
  have hrun : ((run (step Sha256.sha256 plainKeys) (fun _ _ => true) .init (twoWriters ++
      [Ev.append (.send 1), .append (.send 0), .watch (.next 0), .watch (.next 0)])).bind (·.proc)).map
        (fun p => p.streams[0]?.map Stream.report) = some (some (0, [1, 0], [1], [], 0)) := by decide +kernel
  obtain ⟨p, hp, hst⟩ := Option.map_eq_some_iff.mp hrun
  obtain ⟨s, hs, hp⟩ := Option.bind_eq_some_iff.mp hp
  obtain ⟨st, hst, hrep⟩ := Option.map_eq_some_iff.mp hst
  have hsent : seqs st.sent = [1, 0] := congrArg (·.2.1) hrep
  have hdelivered : seqs st.delivered = [1] := congrArg (·.2.2.1) hrep
  have hqueue : seqs st.queue = [] := congrArg (·.2.2.2.1) hrep
  obtain ⟨e, he, h0⟩ := mem_seqs.mp (show 0 ∈ seqs st.sent by rw [hsent]; decide)
  refine ⟨s, p, st, e, Reach.init.run hs, hp, hst, congrArg (·.1) hrep, congrArg (·.2.2.2.2) hrep,
    List.map_eq_nil_iff.mp hqueue, he, fun he' => ?_⟩
  have hmem : 0 ∈ seqs st.delivered := mem_seqs.mpr ⟨e, he', h0⟩
  rw [hdelivered] at hmem
  exact absurd hmem (by decide)

end Settled.Server
