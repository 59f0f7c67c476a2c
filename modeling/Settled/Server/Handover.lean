/-
  Settled.Server.Handover — a Watch stream from replay to live, with handlers one at a
  time (`watch` in `service.rs`).

  The stream subscribes before it reads history, so every entry committed after the
  subscription comes through the channel; what replay has delivered is then skipped by
  number. With handlers one at a time (`handlersOneAtATime`) what is to be broadcast is the
  end of the log, in its order, and so is what a stream was sent (`Follow.sent`). In each
  phase `Follow` says how much of the log is delivered and that the rest is in reach:
  still to be read, in the receiver, or still to be broadcast.

  Once an entry was replayed, the stream has delivered at every moment the stored entries
  from `from_seq` on, in order, up to some point. So their numbers are `from_seq`,
  `from_seq + 1`, ... as long as no log write fails (`replay_then_live`). A failed write
  burns its numbers, and the stream goes from the number before to the number after
  (`replay_skips_burnt`).
-/

import Settled.Server.Replay

namespace Settled.Server

open Settled.Lib Settled.Core Settled.Storage

variable (sha256 : Bytes → Hash) (E : Ed25519)

/-! ## Parts of the log -/

/-- The entries with numbers in `[first, stop)`. -/
def window (first stop : Nat) (es : List LogEntry) : List LogEntry := es.filter fun e => first ≤ e.seq ∧ e.seq < stop

theorem window_append (first stop : Nat) (es fs : List LogEntry) :
    window first stop (es ++ fs) = window first stop es ++ window first stop fs := List.filter_append ..

theorem window_eq_nil {first stop : Nat} {es : List LogEntry} (h : ∀ e ∈ es, first ≤ e.seq → stop ≤ e.seq) :
    window first stop es = [] := by
  apply List.filter_eq_nil_iff.mpr
  intro e he
  rw [decide_eq_true_iff]
  intro ⟨h1, h2⟩
  have := h e he h1
  omega

theorem window_eq_since {first stop : Nat} {es : List LogEntry} (h : ∀ e ∈ es, e.seq < stop) :
    window first stop es = since first es := by
  apply List.filter_congr
  intro e he
  have := h e he
  rw [decide_eq_decide]
  omega

/-- A page read at `cursor` goes on where the window before it ends. -/
theorem window_page {log page rest : List LogEntry} {first cursor : Nat} (hasc : (seqs log).Pairwise (· < ·))
    (hle : first ≤ cursor) (hdrop : log.dropWhile (fun e => e.seq < cursor) = page ++ rest) :
    (rest = [] → window first cursor log ++ page = since first log) ∧
    ∀ init last, page = init ++ [last] →
      last ∈ log ∧ cursor ≤ last.seq ∧ window first cursor log ++ page = window first (last.seq + 1) log := by
  obtain ⟨lo, hi, hlog, hlo, hhi, hd⟩ := cut cursor hasc
  rw [hdrop] at hd
  subst hd
  have hbefore : window first cursor log = since first lo := by
    rw [hlog, window_append, window_eq_since hlo, window_eq_nil fun e he _ => hhi e he, List.append_nil]
  have hpage : since first page = page :=
    since_eq_self fun e he => Nat.le_trans hle (hhi e (List.mem_append_left _ he))
  refine ⟨fun h => ?_, fun init last h => ?_⟩
  · rw [hbefore, hlog, h, List.append_nil, since_append, hpage]
  · subst h
    have hmem : last ∈ init ++ [last] := by simp
    rw [hlog, seqs_append, seqs_append, seqs_append, List.pairwise_append] at hasc
    obtain ⟨-, hasc, -⟩ := hasc
    rw [List.pairwise_append] at hasc
    obtain ⟨hpasc, -, hrest⟩ := hasc
    have hinit : ∀ e ∈ init, e.seq < last.seq := fun e he =>
      (List.pairwise_append.mp hpasc).2.2 e.seq (List.mem_map_of_mem he) last.seq (by simp [seqs])
    have hcur := hhi last (List.mem_append_left _ hmem)
    refine ⟨by rw [hlog]; simp, hcur, ?_⟩
    have hwithin : ∀ e ∈ lo ++ (init ++ [last]), e.seq < last.seq + 1 := by
      intro e he
      rcases List.mem_append.mp he with he | he
      · have := hlo e he
        omega
      · rcases List.mem_append.mp he with he | he
        · have := hinit e he
          omega
        · rw [List.mem_singleton.mp he]
          exact Nat.lt_succ_self _
    have hafter : ∀ e ∈ rest, first ≤ e.seq → last.seq + 1 ≤ e.seq := fun e he _ =>
      hrest last.seq (by simp [seqs]) e.seq (List.mem_map_of_mem he)
    have hcut : log = (lo ++ (init ++ [last])) ++ rest := by rw [hlog, List.append_assoc lo]
    rw [hbefore, hcut, window_append, window_eq_since hwithin, window_eq_nil hafter, List.append_nil, since_append, hpage]

theorem window_prefix {log : List LogEntry} (hasc : (seqs log).Pairwise (· < ·)) (first stop : Nat) :
    window first stop log <+: since first log := by
  obtain ⟨lo, hi, hlog, hlo, hhi, -⟩ := cut stop hasc
  rw [hlog, window_append, window_eq_since hlo, window_eq_nil fun e he _ => hhi e he, List.append_nil, since_append]
  exact List.prefix_append _ _

theorem suffix_append_both {es fs : List LogEntry} (h : es <:+ fs) (gs : List LogEntry) : es ++ gs <:+ fs ++ gs := by
  obtain ⟨t, rfl⟩ := h
  exact ⟨t, (List.append_assoc ..).symm⟩

/-! ## Following the log -/

/-- How far a stream has come in the log. In replay it has delivered a window of it; with
    its last page it has all of `old`, and what came `new` was or will be broadcast to it;
    in the live phase its receiver and what is to be broadcast hold, after entries it will
    skip, exactly the `new` ones. A stream whose first entry is below its start, for which
    replay found nothing, is out of this. -/
structure Follow (log pending : List LogEntry) (st : Stream) : Prop where
  last : st.lastSent = (seqs st.delivered).getLast?
  sent : st.sent ++ pending <:+ log
  queue : st.phase ≠ .live → st.missed = 0 → st.queue = st.sent
  replay : ∀ cursor, st.phase = .replay cursor → st.fromSeq ≤ cursor ∧
    (cursor = st.fromSeq ∨ ∃ e ∈ log, cursor = e.seq + 1) ∧ st.delivered = window st.fromSeq cursor log
  more : ∀ page next, st.phase = .paging page next → next ≠ 0 → st.fromSeq ≤ next ∧
    (∃ e ∈ log, next = e.seq + 1) ∧ st.delivered ++ page = window st.fromSeq next log
  lastPage : ∀ page, st.phase = .paging page 0 →
    ∃ old new, log = old ++ new ∧ new <:+ st.sent ++ pending ∧ st.delivered ++ page = since st.fromSeq old
  live : st.phase = .live → (∀ d ∈ st.delivered.head?, st.fromSeq ≤ d.seq) →
    ∃ old new, log = old ++ new ∧ st.delivered = since st.fromSeq old ∧
      (st.missed = 0 → ∃ skip, (∀ e ∈ skip, e ∈ old) ∧ st.queue ++ pending = skip ++ new)

theorem Follow.subscribe {fromSeq : Nat} (h : 0 < fromSeq) {log pending : List LogEntry} (hpend : pending <:+ log) :
    Follow log pending (.subscribe fromSeq) := by
  rw [Stream.subscribe, if_pos h]
  refine ⟨rfl, hpend, fun _ _ => rfl, fun cursor hc => ?_, fun page next hp => by (cases hp), fun page hp => by (cases hp),
    fun hl => by cases hl⟩
  cases hc
  exact ⟨Nat.le_refl _, Or.inl rfl, (window_eq_nil fun e _ he => he).symm⟩

section

variable {log pending : List LogEntry} {st st' : Stream}

/-- The next batch, with nothing of the one before left to broadcast. -/
theorem Follow.commit (h : Follow log [] st) {fs : List LogEntry} (habove : ∀ e ∈ log, ∀ f ∈ fs, e.seq < f.seq) :
    Follow (log ++ fs) fs st := by
  have hsent : st.sent <:+ log := by
    have := h.sent
    rw [List.append_nil] at this
    exact this
  have hwindow : ∀ {stop : Nat}, (stop = st.fromSeq ∨ ∃ e ∈ log, stop = e.seq + 1) →
      window st.fromSeq stop (log ++ fs) = window st.fromSeq stop log := by
    intro stop hstop
    have hnew : window st.fromSeq stop fs = [] := by
      apply window_eq_nil
      intro f hf hle
      rcases hstop with rfl | ⟨e, he, rfl⟩
      · exact hle
      · exact habove e he f hf
    rw [window_append, hnew, List.append_nil]
  refine ⟨h.last, suffix_append_both hsent fs, h.queue, fun cursor hc => ?_, fun page next hp h0 => ?_, fun page hp => ?_,
    fun hl hhead => ?_⟩
  · obtain ⟨hle, hcur, hd⟩ := h.replay cursor hc
    refine ⟨hle, ?_, by rw [hwindow hcur]; exact hd⟩
    rcases hcur with hcur | ⟨e, he, hcur⟩
    · exact Or.inl hcur
    · exact Or.inr ⟨e, List.mem_append_left _ he, hcur⟩
  · obtain ⟨hle, ⟨e, he, hnext⟩, hd⟩ := h.more page next hp h0
    exact ⟨hle, ⟨e, List.mem_append_left _ he, hnext⟩, by rw [hwindow (Or.inr ⟨e, he, hnext⟩)]; exact hd⟩
  · obtain ⟨old, new, hlog, hnew, hd⟩ := h.lastPage page hp
    rw [List.append_nil] at hnew
    exact ⟨old, new ++ fs, by rw [hlog, List.append_assoc], suffix_append_both hnew fs, hd⟩
  · obtain ⟨old, new, hlog, hd, hrest⟩ := h.live hl hhead
    refine ⟨old, new ++ fs, by rw [hlog, List.append_assoc], hd, fun hm => ?_⟩
    obtain ⟨skip, hskip, hq⟩ := hrest hm
    rw [List.append_nil] at hq
    exact ⟨skip, hskip, by rw [hq, List.append_assoc]⟩

/-- The first entry still to be broadcast. -/
theorem Follow.push {e : LogEntry} (h : Follow log (e :: pending) st) : Follow log pending (st.push e) := by
  obtain ⟨queue, missed, hpush, -, hm⟩ := push_cases st e
  have hmove : ∀ es : List LogEntry, (es ++ [e]) ++ pending = es ++ e :: pending := fun es => by
    rw [List.append_assoc, List.singleton_append]
  rw [hpush]
  refine ⟨h.last, by rw [hmove]; exact h.sent, fun hl hm0 => ?_, h.replay, h.more, fun page hp => ?_, fun hl hhead => ?_⟩
  · obtain ⟨hm0, hq⟩ := hm hm0
    rw [hq, h.queue hl hm0]
  · obtain ⟨old, new, hlog, hnew, hd⟩ := h.lastPage page hp
    exact ⟨old, new, hlog, by rw [hmove]; exact hnew, hd⟩
  · obtain ⟨old, new, hlog, hd, hrest⟩ := h.live hl hhead
    refine ⟨old, new, hlog, hd, fun hm0 => ?_⟩
    obtain ⟨hm0, hq⟩ := hm hm0
    obtain ⟨skip, hskip, heq⟩ := hrest hm0
    exact ⟨skip, hskip, by rw [hq, hmove]; exact heq⟩

theorem Follow.of_paging {page : List LogEntry} {next : Nat} (hph : st.phase = .paging page next)
    (last : st.lastSent = (seqs st.delivered).getLast?) (sent : st.sent ++ pending <:+ log)
    (queue : st.missed = 0 → st.queue = st.sent)
    (more : next ≠ 0 → st.fromSeq ≤ next ∧ (∃ e ∈ log, next = e.seq + 1) ∧ st.delivered ++ page = window st.fromSeq next log)
    (lastPage : next = 0 →
      ∃ old new, log = old ++ new ∧ new <:+ st.sent ++ pending ∧ st.delivered ++ page = since st.fromSeq old) :
    Follow log pending st := by
  refine ⟨last, sent, fun _ => queue, fun c hc => ?_, fun page' next' hp => ?_, fun page' hp => ?_, fun hl => ?_⟩
  · rw [hph] at hc
    cases hc
  · rw [hph] at hp
    cases hp
    exact more
  · rw [hph] at hp
    cases hp
    exact lastPage rfl
  · rw [hph] at hl
    cases hl

theorem Follow.of_live (hph : st.phase = .live) (last : st.lastSent = (seqs st.delivered).getLast?)
    (sent : st.sent ++ pending <:+ log)
    (live : (∀ d ∈ st.delivered.head?, st.fromSeq ≤ d.seq) → ∃ old new, log = old ++ new ∧ st.delivered = since st.fromSeq old ∧
      (st.missed = 0 → ∃ skip, (∀ e ∈ skip, e ∈ old) ∧ st.queue ++ pending = skip ++ new)) : Follow log pending st := by
  refine ⟨last, sent, fun hl => absurd hph hl, fun c hc => ?_, fun page next hp => ?_, fun page hp => ?_, fun _ => live⟩
  · rw [hph] at hc
    cases hc
  all_goals
    rw [hph] at hp
    cases hp

theorem last_deliver (e : LogEntry) : (st.deliver e).lastSent = (seqs (st.deliver e).delivered).getLast? := by
  show some e.seq = (seqs (st.delivered ++ [e])).getLast?
  rw [seqs_append]
  exact List.getLast?_concat.symm

theorem Follow.delivered_nil (h : Follow log pending st) (hnone : st.lastSent = none) : st.delivered = [] := by
  have hlast := h.last
  rw [hnone] at hlast
  exact List.map_eq_nil_iff.mp (List.getLast?_eq_none_iff.mp hlast.symm)

/-- The last number delivered is that of an entry delivered, and the highest. -/
theorem last_of_since {old : List LogEntry} (hasc : (seqs old).Pairwise (· < ·)) (hlast : st.lastSent = (seqs st.delivered).getLast?)
    (hd : st.delivered = since st.fromSeq old) {n : Nat} (hn : st.lastSent = some n) :
    (∃ d ∈ old, d.seq = n) ∧ st.fromSeq ≤ n ∧ ∀ e ∈ old, e.seq ≤ n := by
  rw [hn] at hlast
  obtain ⟨init, hinit⟩ := List.getLast?_eq_some_iff.mp hlast.symm
  obtain ⟨d, hmem, hdn⟩ := mem_seqs.mp (show n ∈ seqs st.delivered by rw [hinit]; simp)
  rw [hd, mem_since] at hmem
  refine ⟨⟨d, hmem.1, hdn⟩, by rw [← hdn]; exact hmem.2, fun e he => ?_⟩
  by_cases hle : st.fromSeq ≤ e.seq
  · have hdel : (seqs st.delivered).Pairwise (· < ·) := by
      rw [hd]
      exact hasc.sublist (List.filter_sublist.map _)
    have he' : e.seq ∈ seqs st.delivered := mem_seqs.mpr ⟨e, by rw [hd, mem_since]; exact ⟨he, hle⟩, rfl⟩
    rw [hinit] at hdel he'
    rcases List.mem_append.mp he' with he' | he'
    · exact Nat.le_of_lt ((List.pairwise_append.mp hdel).2.2 e.seq he' n (by simp))
    · rw [List.mem_singleton.mp he']
  · have := hmem.2
    omega

/-- The receiver's next entry: one to skip, or the next of the log. -/
theorem Follow.receive (h : Follow log pending st) (hasc : (seqs log).Pairwise (· < ·)) {e : LogEntry} {queue : List LogEntry}
    (hl : st.phase = .live) (hm : st.missed = 0) (hq : st.queue = e :: queue) (hhead : ∀ d ∈ st.delivered.head?, st.fromSeq ≤ d.seq) :
    ∃ old new, log = old ++ new ∧ st.delivered = since st.fromSeq old ∧
      ((∃ skip, (∀ f ∈ skip, f ∈ old) ∧ queue ++ pending = skip ++ new ∧
          (st.lastSent = none → e.seq < st.fromSeq) ∧ ∀ n, st.lastSent = some n → e.seq ≤ n) ∨
        (new = e :: (queue ++ pending) ∧ ∀ n, st.lastSent = some n → st.fromSeq ≤ n ∧ n < e.seq)) := by
  obtain ⟨old, new, hlog, hd, hrest⟩ := h.live hl hhead
  obtain ⟨skip, hskip, heq⟩ := hrest hm
  rw [hlog, seqs_append, List.pairwise_append] at hasc
  obtain ⟨hold, -, hnew⟩ := hasc
  rw [hq] at heq
  refine ⟨old, new, hlog, hd, ?_⟩
  cases skip with
  | cons f skip =>
    rw [List.cons_append, List.cons_append, List.cons.injEq] at heq
    obtain ⟨rfl, heq⟩ := heq
    have he : e ∈ old := hskip e List.mem_cons_self
    refine Or.inl ⟨skip, fun f hf => hskip f (List.mem_cons_of_mem _ hf), heq, fun hnone => ?_, fun n hn => ?_⟩
    · apply Nat.lt_of_not_le
      intro hle
      have hmem : e ∈ st.delivered := by rw [hd, mem_since]; exact ⟨he, hle⟩
      rw [h.delivered_nil hnone] at hmem
      cases hmem
    · exact (last_of_since hold h.last hd hn).2.2 e he
  | nil =>
    rw [List.nil_append] at heq
    refine Or.inr ⟨heq.symm, fun n hn => ?_⟩
    obtain ⟨⟨d, hdm, rfl⟩, hle, -⟩ := last_of_since hold h.last hd hn
    exact ⟨hle, hnew d.seq (List.mem_map_of_mem hdm) e.seq (by rw [← heq]; simp [seqs])⟩

/-- The receiver's next entry, delivered: it is the next of the log, since one to skip is
    not delivered. -/
theorem Follow.deliver_live (h : Follow log pending st) (hasc : (seqs log).Pairwise (· < ·)) {e : LogEntry} {queue : List LogEntry}
    (hl : st.phase = .live) (hm : st.missed = 0) (hq : st.queue = e :: queue) (hlast : ∀ n, st.lastSent = some n → n < e.seq)
    (hhead : ∀ d ∈ (st.delivered ++ [e]).head?, st.fromSeq ≤ d.seq) :
    ∃ old, log = old ++ (queue ++ pending) ∧ st.delivered ++ [e] = since st.fromSeq old := by
  have hhead' : ∀ d ∈ st.delivered.head?, st.fromSeq ≤ d.seq := by
    intro d hd
    apply hhead d
    rw [List.head?_append, hd]
    rfl
  have hfirst : st.lastSent = none → st.fromSeq ≤ e.seq := by
    intro hnone
    rw [h.delivered_nil hnone] at hhead
    exact hhead e rfl
  obtain ⟨old, new, hold, hd, hcase⟩ := h.receive hasc hl hm hq hhead'
  rcases hcase with ⟨skip, -, -, hlow, hskip⟩ | ⟨hnew, hle⟩
  · cases hl : st.lastSent with
    | none => exact absurd (hfirst hl) (Nat.not_le.mpr (hlow hl))
    | some n => exact absurd (hlast n hl) (Nat.not_lt.mpr (hskip n hl))
  · have hge : st.fromSeq ≤ e.seq := by
      cases hl : st.lastSent with
      | none => exact hfirst hl
      | some n => exact Nat.le_trans (hle n hl).1 (Nat.le_of_lt (hle n hl).2)
    have hone : since st.fromSeq [e] = [e] := since_eq_self fun f hf => by rw [List.mem_singleton.mp hf]; exact hge
    refine ⟨old ++ [e], by rw [hold, hnew, List.append_assoc, List.singleton_append], ?_⟩
    rw [since_append, hone, hd]

theorem Follow.next {store : Store} (h : Follow log pending st) (hlog : Logged store log) (hs : StreamStep store st st') :
    Follow log pending st' := by
  have hasc := logged_ascending hlog
  have hqueue : st.phase ≠ .live → st.missed = 0 → st.queue = st.sent := h.queue
  cases hs with
  | @read cursor page next hph hpage =>
    obtain ⟨hle, -, hd⟩ := h.replay cursor hph
    obtain ⟨rest, hdrop, hnext⟩ := replayPage_cases hlog cursor hpage
    obtain ⟨hend, hfull⟩ := window_page hasc hle hdrop
    rw [hph] at hqueue
    refine .of_paging rfl h.last h.sent (hqueue StreamPhase.noConfusion) (fun h0 => ?_) fun h0 => ?_
    · rcases hnext with ⟨h0', -⟩ | ⟨init, last, hlast, rfl⟩
      · exact absurd h0' h0
      · obtain ⟨hmem, hcur, hw⟩ := hfull init last hlast
        exact ⟨Nat.le_succ_of_le (Nat.le_trans hle hcur), ⟨last, hmem, rfl⟩, by rw [← hw, ← hd]⟩
    · rcases hnext with ⟨-, hrest⟩ | ⟨init, last, -, hnext⟩
      · exact ⟨log, [], (List.append_nil _).symm, List.nil_suffix, by rw [← hend hrest, ← hd]⟩
      · exact absurd (hnext.symm.trans h0) (Nat.succ_ne_zero _)
  | turned hph h0 =>
    obtain ⟨hle, hmem, hd⟩ := h.more _ _ hph h0
    rw [List.append_nil] at hd
    rw [hph] at hqueue
    refine ⟨h.last, h.sent, fun _ => hqueue StreamPhase.noConfusion, fun c hc => ?_,
      fun page next hp => by (cases hp), fun page hp => by (cases hp), fun hl => by cases hl⟩
    cases hc
    exact ⟨hle, Or.inr hmem, hd⟩
  | wentLive hph =>
    obtain ⟨old, new, hold, hnew, hd⟩ := h.lastPage _ hph
    rw [List.append_nil] at hd
    rw [hph] at hqueue
    refine .of_live rfl h.last h.sent fun _ => ⟨old, new, hold, hd, fun hm => ?_⟩
    -- nothing was received yet: the receiver holds all that was sent
    have hq : st.queue = st.sent := hqueue StreamPhase.noConfusion hm
    obtain ⟨skip, hskip⟩ := hnew
    obtain ⟨t, ht⟩ := h.sent
    refine ⟨skip, fun e he => ?_, by rw [← hq] at hskip; exact hskip.symm⟩
    rw [← hskip, ← List.append_assoc, hold] at ht
    rw [← List.append_cancel_right ht]
    exact List.mem_append_right _ he
  | @replayed e page next hph =>
    have hmove : (st.delivered ++ [e]) ++ page = st.delivered ++ e :: page := by rw [List.append_assoc, List.singleton_append]
    rw [hph] at hqueue
    refine .of_paging rfl (last_deliver e) h.sent (hqueue StreamPhase.noConfusion) (fun h0 => ?_) fun h0 => ?_
    · obtain ⟨hle, hmem, hd⟩ := h.more _ _ hph h0
      exact ⟨hle, hmem, hmove.trans hd⟩
    · subst h0
      obtain ⟨old, new, hold, hnew, hd⟩ := h.lastPage _ hph
      exact ⟨old, new, hold, hnew, hmove.trans hd⟩
  | @skipped e queue last hph hm hq hlast hle =>
    refine .of_live hph h.last h.sent fun hhead => ?_
    obtain ⟨old, new, hold, hd, hcase⟩ := h.receive hasc hph hm hq hhead
    rcases hcase with ⟨skip, hskip, heq, -, -⟩ | ⟨-, hnew⟩
    · exact ⟨old, new, hold, hd, fun _ => ⟨skip, hskip, heq⟩⟩
    · have := (hnew last hlast).2
      omega
  | @received e queue hph hm hq hlast =>
    refine .of_live hph (last_deliver e) h.sent fun hhead => ?_
    obtain ⟨old, hold, hd⟩ := h.deliver_live hasc hph hm hq hlast hhead
    exact ⟨old, queue ++ pending, hold, hd, fun _ => ⟨[], fun f hf => by (cases hf), rfl⟩⟩

/-- What is delivered is an initial part of the stored entries from the start on. -/
theorem Follow.delivered_begins (h : Follow log pending st) (hasc : (seqs log).Pairwise (· < ·))
    (hhead : ∀ d ∈ st.delivered.head?, st.fromSeq ≤ d.seq) : st.delivered <+: since st.fromSeq log := by
  cases hph : st.phase with
  | replay cursor =>
    rw [(h.replay cursor hph).2.2]
    exact window_prefix hasc _ _
  | paging page next =>
    by_cases h0 : next = 0
    · subst h0
      obtain ⟨old, new, hlog, -, hd⟩ := h.lastPage page hph
      refine (List.prefix_append st.delivered page).trans ?_
      rw [hd, hlog, since_append]
      exact List.prefix_append _ _
    · obtain ⟨-, -, hd⟩ := h.more page next hph h0
      refine (List.prefix_append st.delivered page).trans ?_
      rw [hd]
      exact window_prefix hasc _ _
  | live =>
    obtain ⟨old, new, hlog, hd, -⟩ := h.live hph hhead
    rw [hd, hlog, since_append]
    exact List.prefix_append _ _

end

/-! ## Handlers one at a time -/

structure InOrder (F : Feed) : Prop where
  pending : F.pending <:+ F.log
  streams : ∀ st ∈ F.streams, 0 < st.fromSeq → Follow F.log F.pending st

/-- Each commit finds nothing to broadcast, and broadcasts are in the order of the log. -/
theorem FeedStep.inOrder {store : Store} {F F' : Feed} {ev : FeedEv} (hf : FeedOk F) (hlog : Logged store F.log)
    (h : InOrder F) (hcommit : ∀ fs, ev = .commit fs → F.pending = []) (hsend : ∀ before e, ev = .send before e → before = [])
    (hs : FeedStep store F ev F') : InOrder F' := by
  cases hs with
  | idle hlog' hpend hstreams _ => exact ⟨by rw [hlog', hpend]; exact h.pending, by rw [hlog', hpend, hstreams]; exact h.streams⟩
  | @commit fs hfs =>
    have hnil := hcommit fs rfl
    have hp : F.pending ++ fs = fs := by rw [hnil, List.nil_append]
    refine ⟨by rw [hp]; exact List.suffix_append _ _, fun st hst h0 => ?_⟩
    have hst := h.streams st hst h0
    rw [hnil] at hst
    rw [hp]
    exact hst.commit fun e he f hf' => Nat.lt_of_lt_of_le (hf.below e he) (mem_range_of_seqs hfs hf').1
  | @send before after e hpend =>
    have hbefore := hsend before e rfl
    subst hbefore
    rw [List.nil_append] at hpend
    refine ⟨?_, fun st hst h0 => ?_⟩
    · have hsuf := h.pending
      rw [hpend] at hsuf
      exact (List.suffix_cons e after).trans hsuf
    · obtain ⟨st0, hst0, rfl⟩ := List.mem_map.mp hst
      rw [push_fromSeq] at h0
      have hst0 := h.streams st0 hst0 h0
      rw [hpend] at hst0
      exact hst0.push
  | subscribe =>
    refine ⟨h.pending, fun st hst h0 => ?_⟩
    rcases List.mem_append.mp hst with hst | hst
    · exact h.streams st hst h0
    · rw [List.mem_singleton.mp hst] at h0 ⊢
      exact .subscribe h0 h.pending
  | next hi hn =>
    refine ⟨h.pending, fun st hst h0 => ?_⟩
    rcases List.mem_or_eq_of_mem_set hst with hst | rfl
    · exact h.streams st hst h0
    · rw [next_fromSeq hn] at h0
      exact (h.streams _ (List.mem_of_getElem? hi) h0).next hlog (next_step hn)
  | close => exact ⟨h.pending, fun st hst h0 => h.streams st (List.mem_of_mem_eraseIdx hst) h0⟩

/-- A batch is written when everything written before it is broadcast. -/
def handlersOneAtATime (s : St) : Ev → Bool
  | .append .write =>
    match s.proc with
    | none => true
    | some p => p.unsent.isEmpty
  | _ => true

/-- At most one handler has entries to broadcast. -/
structure Serial (p : Proc) : Prop where
  crit : p.unsent = [] ∨ critUnsent p.mu = []
  writers : p.writers.Pairwise fun v w => v.unsent = [] ∨ w.unsent = []

theorem Serial.start {p : Proc} (hmu : p.mu = none) (hw : p.writers = []) : Serial p :=
  ⟨Or.inr (by rw [hmu]; rfl), by rw [hw]; exact List.Pairwise.nil⟩

theorem Serial.keep {p p' : Proc} (h : Serial p) (hmu : critUnsent p'.mu = critUnsent p.mu) (hw : p'.writers = p.writers) :
    Serial p' := ⟨by rw [hmu, Proc.unsent, hw]; exact h.crit, by rw [hw]; exact h.writers⟩

theorem AppendStep.serial {s s' : St} {p : Proc} (h : Serial p) (hp : s.proc = some p) {e : AppendEv}
    (hok : handlersOneAtATime s (.append e) = true) (hs : AppendStep sha256 s p e s') : ∀ p', s'.proc = some p' → Serial p' := by
  have hsym : ∀ {v w : Writer}, (v.unsent = [] ∨ w.unsent = []) → (w.unsent = [] ∨ v.unsent = []) := fun h => h.symm
  intro p' hp'
  cases hs with
  | refused | emptyBatch =>
    have hp' : s.proc = some p' := hp'
    rw [hp] at hp'
    cases hp'
    exact h
  | locked ha hmu => cases hp'; exact h.keep (by rw [hmu]; rfl) rfl
  | reserved hmu hle => cases hp'; exact h.keep (by rw [hmu]; rfl) rfl
  | failed hmu => cases hp'; exact h.keep (by rw [hmu]; rfl) rfl
  | leaf hmu => cases hp'; exact h.keep (by rw [hmu]; rfl) rfl
  | written hmu hres =>
    cases hp'
    simp only [handlersOneAtATime, hp, List.isEmpty_iff] at hok
    exact ⟨Or.inl hok, h.writers⟩
  | @unlocked req results hmu =>
    cases hp'
    refine ⟨Or.inr rfl, pairwise_push hsym h.writers fun w hw => ?_⟩
    rcases h.crit with hnil | hnil
    · exact Or.inr (List.flatMap_eq_nil_iff.mp hnil w hw)
    · rw [hmu] at hnil
      exact Or.inl hnil
  | @sent i req results unsent e hw =>
    cases hp'
    have hrest := pairwise_rest hsym h.writers hw
    refine ⟨h.crit.elim (fun hnil => ?_) Or.inr, pairwise_set hsym h.writers hw fun w hw' => ?_⟩
    · exact absurd (List.flatMap_eq_nil_iff.mp hnil _ (List.mem_of_getElem? hw)) (List.cons_ne_nil _ _)
    · exact Or.inr ((hrest w hw').resolve_left (List.cons_ne_nil _ _))
  | @replied i req results hw =>
    cases hp'
    refine ⟨?_, pairwise_eraseIdx h.writers i⟩
    rw [show Proc.unsent { p with writers := p.writers.eraseIdx i } = p.unsent from unsent_reply hw]
    exact h.crit

theorem Step.serial {s s' : St} {e : Ev} (h : ∀ p, s.proc = some p → Serial p) (hok : handlersOneAtATime s e = true)
    (hs : Step sha256 E s e s') : ∀ p', s'.proc = some p' → Serial p' := by
  have quiet : Quiet s s' → ∀ p', s'.proc = some p' → Serial p' := by
    intro hq p' hp'
    obtain ⟨p, hp, -, -, hmu, hw, -⟩ := hq.proc p' hp'
    exact (h p hp).keep (by rw [hmu]) hw
  cases hs with
  | append hp hs => exact hs.serial sha256 (h _ hp) hp hok
  | sign hp hs =>
    intro p' hp'
    cases hs <;> cases hp' <;> exact (h _ hp).keep rfl rfl
  | rotate hp hs => exact quiet (hs.quiet E hp)
  | proof hp hs => exact quiet (hs.quiet sha256 hp)
  | watch hp hs => exact quiet (hs.quiet hp)
  | crash => intro p' hp'; cases hp'
  | restart hp hr =>
    intro p' hp'
    obtain ⟨-, -, hmu, hw, -⟩ := (restart_restarted sha256 E hp hr).proc p' hp'
    exact .start hmu hw

/-- A handler that has something to broadcast is the only one. -/
theorem Serial.before_nil {p : Proc} (h : Serial p) {l₁ l₂ : List Writer} {w : Writer} (hl : p.writers = l₁ ++ w :: l₂)
    (hw : w.unsent ≠ []) : l₁.flatMap (·.unsent) = [] := by
  apply List.flatMap_eq_nil_iff.mpr
  intro v hv
  have hpair := h.writers
  rw [hl, List.pairwise_append] at hpair
  exact (hpair.2.2 v hv w List.mem_cons_self).resolve_right hw

theorem Step.inOrder {s s' : St} {e : Ev} (hi : FeedInv s) (hser : ∀ p, s.proc = some p → Serial p)
    (h : ∀ p, s.proc = some p → InOrder (feedOf s p)) (hok : handlersOneAtATime s e = true) (hs : Step sha256 E s e s') :
    FeedInv s' ∧ ∀ p, s'.proc = some p → InOrder (feedOf s' p) := by
  obtain ⟨hi', hp'⟩ := hs.fed sha256 E hi
  refine ⟨hi', fun p' hp => ?_⟩
  rcases hp' p' hp with ⟨hmu, hw, hst⟩ | ⟨p, hp, ev, hof, hfed⟩
  · have hpend : p'.unsent ++ critUnsent p'.mu = [] := by rw [Proc.unsent, hw, hmu]; rfl
    refine ⟨?_, fun st hmem => ?_⟩
    · show p'.unsent ++ critUnsent p'.mu <:+ _
      rw [hpend]
      exact List.nil_suffix
    · have hmem : st ∈ p'.streams := hmem
      rw [hst] at hmem
      cases hmem
  · refine hfed.inOrder (hi.feed p hp) hi.logged (h p hp) (fun fs hev => ?_) fun before x hev => ?_
    · subst hev
      obtain ⟨he, hcrit⟩ := hof
      rw [he] at hok
      simp only [handlersOneAtATime, hp, List.isEmpty_iff] at hok
      show p.unsent ++ critUnsent p.mu = []
      rw [hok, hcrit, List.append_nil]
    · subst hev
      obtain ⟨l₁, w, l₂, hl, hw, hbefore⟩ := hof
      rw [hbefore]
      exact (hser p hp).before_nil hl hw

/-! ## What was replayed -/

/-- What the next step of a stream delivers from a page. -/
def Stream.paged (st : Stream) : List LogEntry :=
  match st.phase with
  | .paging (e :: _) _ => [e]
  | _ => []

/-- Beside the server, for each stream, the entries its replay has delivered. -/
def replaysAfter (s : St) (g : List (List LogEntry)) : Ev → List (List LogEntry)
  | .watch (.subscribe _) => g ++ [[]]
  | .watch (.close i) => g.eraseIdx i
  | .watch (.next i) =>
    match s.proc.bind (·.streams[i]?) with
    | none => g
    | some st =>
      match st.next s.store with
      | some none => g.eraseIdx i
      | _ => g.modify i (· ++ st.paged)
  | .crash => []
  | .restart _ _ => []
  | _ => g

def stepReplays (s : St × List (List LogEntry)) (e : Ev) : Option (St × List (List LogEntry)) :=
  (step sha256 E s.1 e).map fun s' => (s', replaysAfter s.1 s.2 e)

/-- What was replayed came first, and is not below the start. -/
structure Replays (streams : List Stream) (g : List (List LogEntry)) : Prop where
  length : g.length = streams.length
  first : ∀ (i : Nat) (st : Stream) (r : List LogEntry), streams[i]? = some st → g[i]? = some r →
    r <+: st.delivered ∧ (st.phase ≠ .live → r = st.delivered) ∧ (0 < st.fromSeq → ∀ e ∈ r, st.fromSeq ≤ e.seq)

theorem Replays.nil : Replays [] [] := ⟨rfl, fun i st r h => by cases h⟩

section

variable {streams : List Stream} {g : List (List LogEntry)}

theorem Replays.eraseIdx (h : Replays streams g) (i : Nat) : Replays (streams.eraseIdx i) (g.eraseIdx i) := by
  refine ⟨?_, fun j st r hst hr => ?_⟩
  · rw [List.length_eraseIdx, List.length_eraseIdx, h.length]
  · rw [List.getElem?_eraseIdx] at hst hr
    split at hst
    next hlt => rw [if_pos hlt] at hr; exact h.first j st r hst hr
    next hlt => rw [if_neg hlt] at hr; exact h.first (j + 1) st r hst hr

theorem Replays.push (h : Replays streams g) (e : LogEntry) : Replays (streams.map (·.push e)) g := by
  refine ⟨by rw [List.length_map]; exact h.length, fun i st r hst hr => ?_⟩
  rw [List.getElem?_map, Option.map_eq_some_iff] at hst
  obtain ⟨st0, hst0, rfl⟩ := hst
  obtain ⟨queue, missed, hpush, -⟩ := push_cases st0 e
  rw [hpush]
  exact h.first i st0 r hst0 hr

theorem Replays.subscribe (h : Replays streams g) (fromSeq : Nat) : Replays (streams ++ [.subscribe fromSeq]) (g ++ [[]]) := by
  refine ⟨by simp [h.length], fun i st r hst hr => ?_⟩
  by_cases hlt : i < streams.length
  · rw [List.getElem?_append_left hlt] at hst
    rw [List.getElem?_append_left (by rw [h.length]; exact hlt)] at hr
    exact h.first i st r hst hr
  · rw [List.getElem?_append_right (by omega), List.getElem?_singleton] at hst
    rw [List.getElem?_append_right (by rw [h.length]; omega), h.length, List.getElem?_singleton] at hr
    split at hst
    next hi =>
      rw [if_pos hi] at hr
      cases hst
      cases hr
      exact ⟨List.nil_prefix, fun _ => rfl, fun _ e he => by cases he⟩
    next => cases hst

theorem Replays.next (h : Replays streams g) {store : Store} {i : Nat} {st st' : Stream} (hst : streams[i]? = some st)
    (hn : st.next store = some (some st'))
    (hpage : ∀ e page next, st.phase = .paging (e :: page) next → 0 < st.fromSeq → st.fromSeq ≤ e.seq) :
    Replays (streams.set i st') (g.modify i (· ++ st.paged)) := by
  refine ⟨by rw [List.length_set, List.length_modify]; exact h.length, fun j st0 r hst0 hr => ?_⟩
  by_cases hij : i = j
  · subst hij
    rw [List.getElem?_set_self (List.getElem?_eq_some_iff.mp hst).1] at hst0
    cases hst0
    rw [List.getElem?_modify_eq] at hr
    obtain ⟨r, hr', rfl⟩ := Option.map_eq_some_iff.mp hr
    obtain ⟨hpre, heq, hge⟩ := h.first i st r hst hr'
    unfold Stream.paged
    cases next_step hn with
    | read hph | turned hph | wentLive hph =>
      rw [hph, List.append_nil]
      exact ⟨hpre, fun _ => heq (by rw [hph]; exact StreamPhase.noConfusion), hge⟩
    | skipped hph =>
      rw [hph, List.append_nil]
      exact ⟨hpre, fun hl => absurd rfl hl, hge⟩
    | received hph =>
      simp only [hph, List.append_nil]
      exact ⟨hpre.trans (List.prefix_append _ _), fun hl => absurd rfl hl, hge⟩
    | @replayed e page next hph =>
      have hall : r = st.delivered := heq (by rw [hph]; exact StreamPhase.noConfusion)
      simp only [hph]
      refine ⟨by rw [hall]; exact List.prefix_rfl, fun _ => by rw [hall]; rfl, fun h0 f hf => ?_⟩
      rcases List.mem_append.mp hf with hf | hf
      · exact hge h0 f hf
      · rw [List.mem_singleton.mp hf]
        exact hpage e page next hph h0
  · rw [List.getElem?_set_ne hij] at hst0
    rw [List.getElem?_modify_ne _ _ hij] at hr
    exact h.first j st0 r hst0 hr

end

/-- The next entry of a page is not below the start. -/
theorem Follow.page_ge {log pending : List LogEntry} {st : Stream} (h : Follow log pending st) {e : LogEntry}
    {page : List LogEntry} {next : Nat} (hph : st.phase = .paging (e :: page) next) : st.fromSeq ≤ e.seq := by
  have hmem : e ∈ st.delivered ++ e :: page := by simp
  by_cases h0 : next = 0
  · subst h0
    obtain ⟨old, new, -, -, hd⟩ := h.lastPage _ hph
    rw [hd, mem_since] at hmem
    exact hmem.2
  · obtain ⟨-, -, hd⟩ := h.more _ _ hph h0
    rw [hd, window, List.mem_filter, decide_eq_true_iff] at hmem
    exact hmem.2.1

theorem stepWatch_replays {s s' : St} {p : Proc} {g : List (List LogEntry)} {e : WatchEv} (hp : s.proc = some p)
    (h : Replays p.streams g) (hord : InOrder (feedOf s p)) (hs : stepWatch s p e = some s') :
    ∀ p', s'.proc = some p' → Replays p'.streams (replaysAfter s g (.watch e)) := by
  intro p' hp'
  cases e with
  | subscribe fromSeq => cases hs; cases hp'; exact h.subscribe fromSeq
  | close i =>
    simp only [stepWatch] at hs
    split at hs
    · cases hs; cases hp'; exact h.eraseIdx i
    · cases hs
  | next i =>
    simp only [stepWatch] at hs
    split at hs
    · cases hs
    next st hst =>
      simp only [replaysAfter, hp, Option.bind_some, hst]
      split at hs
      · cases hs
      next hn => cases hs; cases hp'; rw [hn]; exact h.eraseIdx i
      next st' hn =>
        cases hs
        cases hp'
        rw [hn]
        exact h.next hst hn fun e page next hph h0 => (hord.streams st (List.mem_of_getElem? hst) h0).page_ge hph

/-- Handlers broadcast; nothing else but a stream's own steps changes what streams have. -/
theorem AppendStep.replays {s s' : St} {p : Proc} {g : List (List LogEntry)} {e : AppendEv} (hp : s.proc = some p)
    (h : Replays p.streams g) (hs : AppendStep sha256 s p e s') : ∀ p', s'.proc = some p' → Replays p'.streams g := by
  intro p' hp'
  cases hs with
  | refused | emptyBatch =>
    have hp' : s.proc = some p' := hp'
    rw [hp] at hp'
    cases hp'
    exact h
  | sent => cases hp'; exact h.push _
  | locked | reserved | written | failed | leaf | unlocked | replied => cases hp'; exact h

theorem step_replays {s s' : St} {g : List (List LogEntry)} {e : Ev} (h : ∀ p, s.proc = some p → Replays p.streams g)
    (hord : ∀ p, s.proc = some p → InOrder (feedOf s p)) (hs : step sha256 E s e = some s') :
    ∀ p', s'.proc = some p' → Replays p'.streams (replaysAfter s g e) := by
  cases e with
  | append e =>
    obtain ⟨p, hp, hs⟩ := Option.bind_eq_some_iff.mp hs
    exact (stepAppend_step sha256 hs).replays sha256 hp (h p hp)
  | sign e =>
    obtain ⟨p, hp, hs⟩ := Option.bind_eq_some_iff.mp hs
    intro p' hp'
    cases stepSign_step sha256 E hs <;> cases hp' <;> exact h p hp
  | rotate e =>
    obtain ⟨p, hp, hs⟩ := Option.bind_eq_some_iff.mp hs
    intro p' hp'
    cases stepRotate_step E hs <;> cases hp' <;> exact h p hp
  | proof e =>
    obtain ⟨p, hp, hs⟩ := Option.bind_eq_some_iff.mp hs
    intro p' hp'
    cases stepProof_step sha256 hs with
    | refused => exact h p' hp'
    | sized | unproved | proved | headRead | answered => cases hp'; exact h p hp
  | watch e =>
    obtain ⟨p, hp, hs⟩ := Option.bind_eq_some_iff.mp hs
    exact stepWatch_replays hp (h p hp) (hord p hp) hs
  | crash =>
    obtain ⟨p, hp, rfl⟩ := Option.map_eq_some_iff.mp hs
    intro p' hp'
    cases hp'
  | restart newKey seeded =>
    intro p' hp'
    simp only [step] at hs
    split at hs
    · cases hs
    next hp =>
      obtain ⟨-, -, -, -, hst, -⟩ := (restart_restarted sha256 E hp hs).proc p' hp'
      rw [hst]
      exact .nil

/-! ## Runs -/

/-- An ascending list of numbers from `first` on that skips none below its last is
    `first`, `first + 1`, ... -/
theorem ascending_eq_range {l : List Nat} {first : Nat} (hasc : l.Pairwise (· < ·)) (hge : ∀ n ∈ l, first ≤ n)
    (hall : ∀ n ∈ l, ∀ m, first ≤ m → m < n → m ∈ l) : l = List.range' first l.length := by
  induction l generalizing first with
  | nil => rfl
  | cons a l ih =>
    obtain ⟨hlt, hasc⟩ := List.pairwise_cons.mp hasc
    have hfirst : a = first := by
      -- a larger head would have skipped `first`
      by_contra hne
      have hle := hge a List.mem_cons_self
      obtain rfl | hmem := List.mem_cons.mp (hall a List.mem_cons_self first (Nat.le_refl _) (by omega))
      · exact hne rfl
      · have := hlt first hmem
        omega
    subst hfirst
    have htail : l = List.range' (a + 1) l.length := ih hasc hlt fun n hn m hm hmn => by
      obtain rfl | hmem := List.mem_cons.mp (hall n (List.mem_cons_of_mem _ hn) m (by omega) hmn)
      · omega
      · exact hmem
    rw [List.length_cons, List.range'_succ, ← htail]

/-- What an ascending list begins with: all of it up to a member. -/
theorem mem_prefix_of_le {l t : List Nat} (hasc : l.Pairwise (· < ·)) (hpre : t <+: l) {m n : Nat} (hn : n ∈ t) (hm : m ∈ l)
    (hle : m ≤ n) : m ∈ t := by
  obtain ⟨rest, rfl⟩ := hpre
  obtain hm | hm := List.mem_append.mp hm
  · exact hm
  · have := (List.pairwise_append.mp hasc).2.2 n hn m hm
    omega

theorem reach_server {ok ok' : St → Ev → Bool} (himp : ∀ s e, ok s e = true → ok' s e = true) {x : St × List (List LogEntry)}
    (h : Reach (stepReplays sha256 E) (fun s e => ok s.1 e) (.init, []) x) : Reach (step sha256 E) ok' .init x.1 := by
  induction h with
  | init => exact .init
  | step _ hok hs ih =>
    obtain ⟨s', hstep, rfl⟩ := Option.map_eq_some_iff.mp hs
    exact .step ih (himp _ _ hok) hstep

/-- The feed, the handlers and the streams, while handlers are one at a time. -/
theorem reach_inOrder {x : St × List (List LogEntry)}
    (h : Reach (stepReplays sha256 E) (fun s e => handlersOneAtATime s.1 e) (.init, []) x) :
    FeedInv x.1 ∧ ∀ p, x.1.proc = some p → Serial p ∧ InOrder (feedOf x.1 p) ∧ Replays p.streams x.2 := by
  apply h.inv (P := fun x => FeedInv x.1 ∧ ∀ p, x.1.proc = some p → Serial p ∧ InOrder (feedOf x.1 p) ∧ Replays p.streams x.2)
    ⟨.init, fun p hp => by cases hp⟩
  intro ⟨s, g⟩ e ⟨s', g'⟩ ⟨hi, hall⟩ hok hs
  obtain ⟨s1, hstep, heq⟩ := Option.map_eq_some_iff.mp hs
  obtain ⟨rfl, rfl⟩ := Prod.mk.inj heq
  have hs : step sha256 E s e = some s1 := hstep
  have hstep := step_step sha256 E hs
  obtain ⟨hi', hord⟩ := hstep.inOrder sha256 E hi (fun p hp => (hall p hp).1) (fun p hp => (hall p hp).2.1) hok
  refine ⟨hi', fun p' hp' => ⟨hstep.serial sha256 E (fun p hp => (hall p hp).1) hok p' hp', hord p' hp', ?_⟩⟩
  exact step_replays sha256 E (fun p hp => (hall p hp).2.2) (fun p hp => (hall p hp).2.1) hs p' hp'

/-- An initial part of the stored entries from `first` on has the numbers `first`,
    `first + 1`, ... exactly if every number below its last has an entry. -/
theorem range_iff_stored {store : Store} {log delivered : List LogEntry} {first : Nat} (hlog : Logged store log)
    (hpre : delivered <+: since first log) : delivered.map (·.seq) = List.range' first delivered.length ↔
      ∀ d ∈ delivered, ∀ n, first ≤ n → n < d.seq → (store.getBySeq n).isSome = true := by
  have hsorted : (seqs (since first log)).Pairwise (· < ·) := (logged_ascending hlog).sublist (List.filter_sublist.map _)
  have hpre' : seqs delivered <+: seqs (since first log) := hpre.map LogEntry.seq
  constructor
  · intro hrange d hd n hn hlt
    have hd : d.seq ∈ List.range' first delivered.length := by
      rw [← hrange]
      exact List.mem_map_of_mem hd
    obtain ⟨-, hle⟩ := List.mem_range'_1.mp hd
    have hn : n ∈ seqs delivered := by
      rw [seqs, hrange]
      exact List.mem_range'_1.mpr ⟨hn, by omega⟩
    obtain ⟨e, he, rfl⟩ := mem_seqs.mp hn
    rw [hlog.getBySeq (mem_since.mp (hpre.subset he)).1]
    rfl
  · intro hgap
    have hrange : seqs delivered = List.range' first (seqs delivered).length := by
      apply ascending_eq_range (hsorted.sublist hpre'.sublist)
      · intro n hn
        obtain ⟨e, he, rfl⟩ := mem_seqs.mp (hpre'.subset hn)
        exact (mem_since.mp he).2
      · intro n hn m hm hmn
        obtain ⟨d, hd, rfl⟩ := mem_seqs.mp hn
        obtain ⟨e, he⟩ := Option.isSome_iff_exists.mp (hgap d hd m hm hmn)
        have := OrdMap.mem_entries.mpr he
        rw [hlog.log] at this
        obtain ⟨e', he', heq⟩ := List.mem_map.mp this
        cases heq
        exact mem_prefix_of_le hsorted hpre' hn (mem_seqs.mpr ⟨_, mem_since.mpr ⟨he', hm⟩, rfl⟩) (Nat.le_of_lt hmn)
    rw [seqs, List.length_map] at hrange
    exact hrange

/-- While no log write fails, every number below a stored one has an entry. -/
theorem stored_below {s : St} (h : Reach (step sha256 E) noLogWriteError .init s) {d : LogEntry} (hd : d ∈ stored s.store)
    {n : Nat} (hn : n < d.seq) : (s.store.getBySeq n).isSome = true := by
  obtain ⟨es, hi⟩ := reach_inv sha256 E h
  rw [stored, Holds.entries sha256 hi.holds] at hd
  obtain ⟨i, hlt, rfl⟩ := List.mem_iff_getElem.mp hd
  have hseq := (hi.holds.numbered i es[i] (List.getElem?_eq_getElem hlt)).1
  rw [hi.holds.getBySeq, List.getElem?_eq_getElem (by omega)]
  rfl

/-- With handlers one at a time, in every run: a stream from `from_seq > 0` for which at
    least one entry was replayed has delivered an initial part of the stored entries from
    `from_seq` on, in ascending order, each once and none left out. Their numbers are
    `from_seq`, `from_seq + 1`, ... exactly if no number below the last of them is without
    an entry, and so at every moment of a run in which no log write fails. -/
theorem replay_then_live {s : St} {g : List (List LogEntry)} {p : Proc} {i : Nat} {st : Stream} {r : List LogEntry}
    (h : Reach (stepReplays sha256 E) (fun s e => handlersOneAtATime s.1 e) (.init, []) (s, g)) (hp : s.proc = some p)
    (hst : p.streams[i]? = some st) (h0 : 0 < st.fromSeq) (hr : g[i]? = some r) (hne : r ≠ []) :
    st.delivered <+: (stored s.store).filter (fun e => st.fromSeq ≤ e.seq) ∧
    (st.delivered.map (·.seq)).Pairwise (· < ·) ∧
    (st.delivered.map (·.seq) = List.range' st.fromSeq st.delivered.length ↔
      ∀ d ∈ st.delivered, ∀ n, st.fromSeq ≤ n → n < d.seq → (s.store.getBySeq n).isSome = true) ∧
    (Reach (stepReplays sha256 E) (fun s e => handlersOneAtATime s.1 e && noLogWriteError s.1 e) (.init, []) (s, g) →
      st.delivered.map (·.seq) = List.range' st.fromSeq st.delivered.length) := by
  obtain ⟨hi, hall⟩ := reach_inOrder sha256 E h
  obtain ⟨-, hord, hrep⟩ := hall p hp
  obtain ⟨hpre, -, hge⟩ := hrep.first i st r hst hr
  have hasc := logged_ascending hi.logged
  -- the first entry delivered was replayed
  have hhead : ∀ d ∈ st.delivered.head?, st.fromSeq ≤ d.seq := by
    intro d hd
    obtain ⟨e, r', rfl⟩ := List.exists_cons_of_ne_nil hne
    obtain ⟨rest, hrest⟩ := hpre
    rw [← hrest] at hd
    cases hd
    exact hge h0 _ List.mem_cons_self
  have hdelivered : st.delivered <+: since st.fromSeq (stored s.store) :=
    (hord.streams st (List.mem_of_getElem? hst) h0).delivered_begins hasc hhead
  have hexact := range_iff_stored hi.logged hdelivered
  refine ⟨hdelivered, hasc.sublist ((hdelivered.sublist.trans List.filter_sublist).map _), hexact, fun hgood => ?_⟩
  have hreach : Reach (step sha256 E) noLogWriteError .init s :=
    reach_server sha256 E (fun s e hok => (Bool.and_eq_true_iff.mp hok).2) hgood
  exact hexact.mpr fun d hd n _ hn => stored_below sha256 E hreach (mem_since.mp (hdelivered.subset hd)).1 hn

/-- The first stream at the end of a run, and what its replay has delivered. -/
theorem run_report {ok : St × List (List LogEntry) → Ev → Bool} {evs : List Ev} {report : Nat × List Nat × List Nat × List Nat × Nat}
    {replayed : List Nat} (h : ((run (stepReplays sha256 E) ok (.init, []) evs).bind fun x => x.1.proc.bind fun p =>
      p.streams[0]?.bind fun st => x.2[0]?.map fun r => (st.report, seqs r)) = some (report, replayed)) :
    ∃ s g p st r, Reach (stepReplays sha256 E) ok (.init, []) (s, g) ∧ s.proc = some p ∧ p.streams[0]? = some st ∧
      st.report = report ∧ g[0]? = some r ∧ seqs r = replayed := by
  obtain ⟨⟨s, g⟩, hs, hp⟩ := Option.bind_eq_some_iff.mp h
  obtain ⟨p, hp, hst⟩ := Option.bind_eq_some_iff.mp hp
  obtain ⟨st, hst, hr⟩ := Option.bind_eq_some_iff.mp hst
  obtain ⟨r, hr, heq⟩ := Option.map_eq_some_iff.mp hr
  obtain ⟨hreport, hseqs⟩ := Prod.mk.inj heq
  exact ⟨s, g, p, st, r, Reach.init.run hs, hp, hst, hreport, hr, hseqs⟩

/-- Two entries; a stream from 1; a third entry, committed before the page is read and
    broadcast after it, so that it comes by both routes; a fourth. -/
def overlap : List Ev :=
  [Ev.restart .zero true] ++ appendEvs [1] [10] 5 ++ appendEvs [2] [20] 6 ++
    [Ev.watch (.subscribe 1),
     .append (.request (.append [3] [30]) true), .append (.reserve 7), .append .write, .append .merkle, .append .unlock,
     .watch (.next 0), .append (.send 0), .append (.reply 0), .watch (.next 0), .watch (.next 0), .watch (.next 0),
     .watch (.next 0)] ++
    appendEvs [4] [40] 8 ++ [Ev.watch (.next 0)]

theorem replay_then_live_overlap : ∃ s g p st r,
    Reach (stepReplays Sha256.sha256 plainKeys) (fun s e => handlersOneAtATime s.1 e) (.init, []) (s, g) ∧ s.proc = some p ∧
    p.streams[0]? = some st ∧ st.fromSeq = 1 ∧ st.sent.map (·.seq) = [2, 3] ∧ g[0]? = some r ∧ r.map (·.seq) = [1, 2] ∧
    st.delivered.map (·.seq) = List.range' 1 st.delivered.length := by
  have hrun : ((run (stepReplays Sha256.sha256 plainKeys) (fun s e => handlersOneAtATime s.1 e && noLogWriteError s.1 e)
      (.init, []) overlap).bind fun x => x.1.proc.bind fun p => p.streams[0]?.bind fun st => x.2[0]?.map fun r =>
        (st.report, seqs r)) = some ((1, [2, 3], [1, 2, 3], [], 0), [1, 2]) := by decide +kernel
  obtain ⟨s, g, p, st, r, hgood, hp, hst, hrep, hr, hseqs⟩ := run_report Sha256.sha256 plainKeys hrun
  have hreach : Reach (stepReplays Sha256.sha256 plainKeys) (fun s e => handlersOneAtATime s.1 e) (.init, []) (s, g) :=
    hgood.mono fun s e hok => (Bool.and_eq_true_iff.mp hok).1
  have hfrom : st.fromSeq = 1 := congrArg (·.1) hrep
  have hne : r ≠ [] := fun h => by rw [h] at hseqs; cases hseqs
  obtain ⟨-, -, -, hexact⟩ := replay_then_live Sha256.sha256 plainKeys hreach hp hst (by rw [hfrom]; decide) hr hne
  have hdelivered := hexact hgood
  rw [hfrom] at hdelivered
  exact ⟨s, g, p, st, r, hreach, hp, hst, hfrom, congrArg (·.2.1) hrep, hr, hseqs, hdelivered⟩

/-- Two entries; the write of a third fails; another one, under the number after; then a
    stream from 1. -/
def burntNumber : List Ev :=
  [Ev.restart .zero true] ++ appendEvs [1] [10] 5 ++ appendEvs [2] [20] 6 ++
    [Ev.append (.request (.append [3] [30]) true), .append (.reserve 7), .append (.writeFails "IO error")] ++
    appendEvs [4] [40] 8 ++ [Ev.watch (.subscribe 1), .watch (.next 0), .watch (.next 0), .watch (.next 0)]

theorem replay_skips_burnt : ∃ s g p st r,
    Reach (stepReplays Sha256.sha256 plainKeys) (fun s e => handlersOneAtATime s.1 e) (.init, []) (s, g) ∧ s.proc = some p ∧
    p.streams[0]? = some st ∧ st.fromSeq = 1 ∧ st.missed = 0 ∧ g[0]? = some r ∧ r ≠ [] ∧ st.delivered.map (·.seq) = [1, 3] ∧
    st.delivered.map (·.seq) ≠ List.range' st.fromSeq st.delivered.length := by
  have hrun : ((run (stepReplays Sha256.sha256 plainKeys) (fun s e => handlersOneAtATime s.1 e) (.init, [])
      burntNumber).bind fun x => x.1.proc.bind fun p => p.streams[0]?.bind fun st => x.2[0]?.map fun r =>
        (st.report, seqs r)) = some ((1, [], [1, 3], [], 0), [1, 3]) := by decide +kernel
  obtain ⟨s, g, p, st, r, hreach, hp, hst, hrep, hr, hseqs⟩ := run_report Sha256.sha256 plainKeys hrun
  have hfrom : st.fromSeq = 1 := congrArg (·.1) hrep
  have hdelivered : st.delivered.map (·.seq) = [1, 3] := congrArg (·.2.2.1) hrep
  have hlen : st.delivered.length = 2 := by rw [← List.length_map (·.seq), hdelivered]; rfl
  have hne : r ≠ [] := fun h => by rw [h] at hseqs; cases hseqs
  refine ⟨s, g, p, st, r, hreach, hp, hst, hfrom, congrArg (·.2.2.2.2) hrep, hr, hne, hdelivered, ?_⟩
  rw [hdelivered, hfrom, hlen]
  decide

end Settled.Server
