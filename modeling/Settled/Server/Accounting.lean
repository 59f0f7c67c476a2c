/-
  Settled.Server.Accounting — what a Watch stream can lose, in every run (`watch` in
  `service.rs`).

  Handlers broadcast outside `append_mu`, so entries may come to a stream out of order,
  and a slow stream's receiver drops its oldest. Whatever comes, a stream delivers stored
  entries in ascending order, each at most once, and an initial part of the log from
  `from_seq` on while it replays. A stream that has missed nothing loses an entry only by
  overtaking: each entry it was sent, and each stored entry from its start on, is
  delivered, in the receiver, still to be broadcast, or below a number it has delivered
  (`watch_accounted`). With handlers one at a time nothing is overtaken
  (`Server.Handover`).
-/

import Settled.Server.Handover

namespace Settled.Server

open Settled.Lib Settled.Core Settled.Storage

variable (sha256 : Bytes → Hash) (E : Ed25519)

/-! ## The account of a stream -/

/-- A higher number went out before it: the stream skips `e` when it comes. -/
def Overtaken (st : Stream) (e : LogEntry) : Prop := ∃ d ∈ st.delivered, e.seq < d.seq

def Accounted (pending : List LogEntry) (st : Stream) (e : LogEntry) : Prop :=
  e ∈ st.delivered ∨ e ∈ st.queue ∨ e ∈ pending ∨ Overtaken st e

/-- A stream in replay has delivered a window of the log, and with its last page all of
    `old`; what came `new` is in its receiver or still to be broadcast, if it missed
    nothing. In the live phase the log from its start on is accounted for. -/
structure Account (log pending : List LogEntry) (st : Stream) : Prop where
  last : st.lastSent = (seqs st.delivered).getLast?
  ascending : (seqs st.delivered).Pairwise (· < ·)
  queued : ∀ e ∈ st.queue, e ∈ log
  stored : ∀ e ∈ st.delivered, e ∈ log
  sent : st.missed = 0 → ∀ e ∈ st.sent, e ∈ st.delivered ∨ e ∈ st.queue ∨ Overtaken st e
  replay : ∀ cursor, st.phase = .replay cursor → st.fromSeq ≤ cursor ∧
    (cursor = st.fromSeq ∨ ∃ e ∈ log, cursor = e.seq + 1) ∧ st.delivered = window st.fromSeq cursor log
  more : ∀ page next, st.phase = .paging page next → next ≠ 0 → st.fromSeq ≤ next ∧
    (∃ e ∈ log, next = e.seq + 1) ∧ st.delivered ++ page = window st.fromSeq next log
  lastPage : ∀ page, st.phase = .paging page 0 → ∃ old new, log = old ++ new ∧ st.delivered ++ page = since st.fromSeq old ∧
    (st.missed = 0 → ∀ e ∈ new, e ∈ st.queue ∨ e ∈ pending)
  live : st.phase = .live → 0 < st.fromSeq → st.missed = 0 → ∀ e ∈ log, st.fromSeq ≤ e.seq → Accounted pending st e

theorem Account.subscribe (fromSeq : Nat) (log pending : List LogEntry) : Account log pending (.subscribe fromSeq) := by
  have hphase : (Stream.subscribe fromSeq).phase = if 0 < fromSeq then .replay fromSeq else .live := rfl
  refine ⟨rfl, .nil, fun e he => (by cases he), fun e he => (by cases he), fun _ e he => (by cases he), fun cursor hc => ?_,
    fun page next hp => ?_, fun page hp => ?_, fun hl h0 => ?_⟩
  · rw [hphase] at hc
    split at hc <;> cases hc
    exact ⟨Nat.le_refl _, Or.inl rfl, (window_eq_nil fun e _ he => he).symm⟩
  · rw [hphase] at hp
    split at hp <;> cases hp
  · rw [hphase] at hp
    split at hp <;> cases hp
  · have h0 : 0 < fromSeq := h0
    rw [hphase, if_pos h0] at hl
    cases hl

/-- Later entries are in no window that ends at the start or after an entry. -/
theorem window_commit {log fs : List LogEntry} (habove : ∀ e ∈ log, ∀ f ∈ fs, e.seq < f.seq) {first stop : Nat}
    (hstop : stop = first ∨ ∃ e ∈ log, stop = e.seq + 1) : window first stop (log ++ fs) = window first stop log := by
  have hnew : window first stop fs = [] := by
    apply window_eq_nil
    intro f hf hle
    rcases hstop with rfl | ⟨e, he, rfl⟩
    · exact hle
    · exact habove e he f hf
  rw [window_append, hnew, List.append_nil]

section

variable {log pending : List LogEntry} {st st' : Stream}

theorem Account.of_paging {page : List LogEntry} {next : Nat} (hph : st.phase = .paging page next)
    (last : st.lastSent = (seqs st.delivered).getLast?) (ascending : (seqs st.delivered).Pairwise (· < ·))
    (queued : ∀ e ∈ st.queue, e ∈ log) (stored : ∀ e ∈ st.delivered, e ∈ log)
    (sent : st.missed = 0 → ∀ e ∈ st.sent, e ∈ st.delivered ∨ e ∈ st.queue ∨ Overtaken st e)
    (more : next ≠ 0 → st.fromSeq ≤ next ∧ (∃ e ∈ log, next = e.seq + 1) ∧ st.delivered ++ page = window st.fromSeq next log)
    (lastPage : next = 0 → ∃ old new, log = old ++ new ∧ st.delivered ++ page = since st.fromSeq old ∧
      (st.missed = 0 → ∀ e ∈ new, e ∈ st.queue ∨ e ∈ pending)) : Account log pending st := by
  refine ⟨last, ascending, queued, stored, sent, fun c hc => ?_, fun page' next' hp => ?_, fun page' hp => ?_, fun hl => ?_⟩
  · rw [hph] at hc
    cases hc
  · rw [hph] at hp
    cases hp
    exact more
  · rw [hph] at hp
    cases hp
    exact lastPage rfl
  · rw [hph] at hl
    cases hl

theorem Account.of_live (hph : st.phase = .live) (last : st.lastSent = (seqs st.delivered).getLast?)
    (ascending : (seqs st.delivered).Pairwise (· < ·)) (queued : ∀ e ∈ st.queue, e ∈ log) (stored : ∀ e ∈ st.delivered, e ∈ log)
    (sent : st.missed = 0 → ∀ e ∈ st.sent, e ∈ st.delivered ∨ e ∈ st.queue ∨ Overtaken st e)
    (live : 0 < st.fromSeq → st.missed = 0 → ∀ e ∈ log, st.fromSeq ≤ e.seq → Accounted pending st e) :
    Account log pending st := by
  refine ⟨last, ascending, queued, stored, sent, fun c hc => ?_, fun page next hp => ?_, fun page hp => ?_, fun _ => live⟩
  · rw [hph] at hc
    cases hc
  all_goals
    rw [hph] at hp
    cases hp

/-- A batch is committed: it is still to be broadcast. -/
theorem Account.commit (h : Account log pending st) {fs : List LogEntry} (habove : ∀ e ∈ log, ∀ f ∈ fs, e.seq < f.seq) :
    Account (log ++ fs) (pending ++ fs) st := by
  have hlog : ∀ {e}, e ∈ log → e ∈ log ++ fs := fun he => List.mem_append_left _ he
  refine ⟨h.last, h.ascending, fun e he => hlog (h.queued e he), fun e he => hlog (h.stored e he), h.sent, fun cursor hc => ?_,
    fun page next hp h0 => ?_, fun page hp => ?_, fun hl h0 hm e he hle => ?_⟩
  · obtain ⟨hle, hcur, hd⟩ := h.replay cursor hc
    refine ⟨hle, ?_, by rw [window_commit habove hcur]; exact hd⟩
    rcases hcur with hcur | ⟨e, he, hcur⟩
    · exact Or.inl hcur
    · exact Or.inr ⟨e, hlog he, hcur⟩
  · obtain ⟨hle, ⟨e, he, hnext⟩, hd⟩ := h.more page next hp h0
    exact ⟨hle, ⟨e, hlog he, hnext⟩, by rw [window_commit habove (Or.inr ⟨e, he, hnext⟩)]; exact hd⟩
  · obtain ⟨old, new, hold, hd, hnew⟩ := h.lastPage page hp
    refine ⟨old, new ++ fs, by rw [hold, List.append_assoc], hd, fun hm e he => ?_⟩
    rcases List.mem_append.mp he with he | he
    · exact (hnew hm e he).imp_right (List.mem_append_left _)
    · exact Or.inr (List.mem_append_right _ he)
  · rcases List.mem_append.mp he with he | he
    · rcases h.live hl h0 hm e he hle with hd | hq | hp | ho
      · exact Or.inl hd
      · exact Or.inr (Or.inl hq)
      · exact Or.inr (Or.inr (Or.inl (List.mem_append_left _ hp)))
      · exact Or.inr (Or.inr (Or.inr ho))
    · exact Or.inr (Or.inr (Or.inl (List.mem_append_right _ he)))

/-- An entry is broadcast: it goes to the receiver, whichever of the pending it is. -/
theorem Account.push {pending' : List LogEntry} {e : LogEntry} (h : Account log pending st) (he : e ∈ log)
    (hpend : ∀ f ∈ pending, f = e ∨ f ∈ pending') : Account log pending' (st.push e) := by
  obtain ⟨queue, missed, hpush, hmem, hm⟩ := push_cases st e
  have hqueue : missed = 0 → ∀ f, f ∈ st.queue ∨ f = e → f ∈ queue := by
    intro hm0 f hf
    rw [(hm hm0).2]
    exact List.mem_append.mpr (hf.imp_right List.mem_singleton.mpr)
  rw [hpush]
  refine ⟨h.last, h.ascending, fun f hf => ?_, h.stored, fun hm0 f hf => ?_, h.replay, h.more, fun page hp => ?_,
    fun hl h0 hm0 f hf hle => ?_⟩
  · rcases hmem f hf with hf | rfl
    · exact h.queued f hf
    · exact he
  · rcases List.mem_append.mp hf with hf | hf
    · rcases h.sent (hm hm0).1 f hf with hd | hq | ho
      · exact Or.inl hd
      · exact Or.inr (Or.inl (hqueue hm0 f (Or.inl hq)))
      · exact Or.inr (Or.inr ho)
    · exact Or.inr (Or.inl (hqueue hm0 f (Or.inr (List.mem_singleton.mp hf))))
  · obtain ⟨old, new, hold, hd, hnew⟩ := h.lastPage page hp
    refine ⟨old, new, hold, hd, fun hm0 f hf => ?_⟩
    rcases hnew (hm hm0).1 f hf with hq | hp
    · exact Or.inl (hqueue hm0 f (Or.inl hq))
    · rcases hpend f hp with hf | hp
      · exact Or.inl (hqueue hm0 f (Or.inr hf))
      · exact Or.inr hp
  · rcases h.live hl h0 (hm hm0).1 f hf hle with hd | hq | hp | ho
    · exact Or.inl hd
    · exact Or.inr (Or.inl (hqueue hm0 f (Or.inl hq)))
    · rcases hpend f hp with hf | hp
      · exact Or.inr (Or.inl (hqueue hm0 f (Or.inr hf)))
      · exact Or.inr (Or.inr (Or.inl hp))
    · exact Or.inr (Or.inr (Or.inr ho))

/-- The last number is that of an entry delivered. -/
theorem Account.last_mem (h : Account log pending st) {n : Nat} (hn : st.lastSent = some n) : ∃ d ∈ st.delivered, d.seq = n := by
  have hlast := h.last
  rw [hn] at hlast
  exact mem_seqs.mp (List.mem_of_getLast? hlast.symm)

/-- Above the last number is above all delivered. -/
theorem Account.deliver_ascending (h : Account log pending st) {e : LogEntry} (hlast : ∀ n, st.lastSent = some n → n < e.seq) :
    (seqs (st.delivered ++ [e])).Pairwise (· < ·) := by
  rw [seqs_append, List.pairwise_append]
  refine ⟨h.ascending, List.pairwise_singleton _ _, fun a ha b hb => ?_⟩
  rw [seqs, List.map_singleton, List.mem_singleton] at hb
  subst hb
  have hl := h.last
  obtain ⟨init, n, hinit⟩ : ∃ init n, seqs st.delivered = init ++ [n] := by
    obtain hnil | ⟨init, n, hinit⟩ := List.eq_nil_or_concat (seqs st.delivered)
    · rw [hnil] at ha
      cases ha
    · exact ⟨init, n, by rw [hinit, List.concat_eq_append]⟩
  have hn : st.lastSent = some n := by rw [hl, hinit, List.getLast?_concat]
  have hasc := h.ascending
  rw [hinit] at ha hasc
  rcases List.mem_append.mp ha with ha | ha
  · exact Nat.lt_trans ((List.pairwise_append.mp hasc).2.2 a ha n (by simp)) (hlast n hn)
  · rw [List.mem_singleton.mp ha]
    exact hlast n hn

end

/-! ## One step of the stream -/

section

variable {log pending : List LogEntry} {st st' : Stream}

theorem Overtaken.deliver {e : LogEntry} (h : Overtaken st e) (f : LogEntry) : Overtaken (st.deliver f) e := by
  obtain ⟨d, hd, hlt⟩ := h
  exact ⟨d, List.mem_append_left _ hd, hlt⟩

/-- The entry taken from the receiver is delivered, or was overtaken. -/
theorem Account.received (h : Account log pending st) {e : LogEntry} {queue : List LogEntry} (hph : st.phase = .live)
    (hm : st.missed = 0) (hq : st.queue = e :: queue) (st' : Stream) (hkept : st'.phase = st.phase ∧ st'.fromSeq = st.fromSeq ∧
      st'.sent = st.sent ∧ st'.queue = queue ∧ st.delivered <+: st'.delivered)
    (last : st'.lastSent = (seqs st'.delivered).getLast?) (ascending : (seqs st'.delivered).Pairwise (· < ·))
    (stored : ∀ d ∈ st'.delivered, d ∈ log) (hgone : e ∈ st'.delivered ∨ Overtaken st' e) : Account log pending st' := by
  obtain ⟨hph', hfrom, hsent, hqueue, hdel⟩ := hkept
  have hover : ∀ {f}, Overtaken st f → Overtaken st' f := by
    intro f ⟨d, hd, hlt⟩
    exact ⟨d, hdel.subset hd, hlt⟩
  have htaken : ∀ f ∈ st.queue, f ∈ st'.delivered ∨ f ∈ st'.queue ∨ Overtaken st' f := by
    intro f hf
    rw [hq] at hf
    rcases List.mem_cons.mp hf with rfl | hf
    · exact hgone.imp_right Or.inr
    · exact Or.inr (Or.inl (by rw [hqueue]; exact hf))
  refine .of_live (hph'.trans hph) last ascending (fun f hf => ?_) stored (fun _ f hf => ?_) fun h0 _ f hf hle => ?_
  · rw [hqueue] at hf
    exact h.queued f (by rw [hq]; exact List.mem_cons_of_mem _ hf)
  · rw [hsent] at hf
    rcases h.sent hm f hf with hd | hq' | ho
    · exact Or.inl (hdel.subset hd)
    · exact htaken f hq'
    · exact Or.inr (Or.inr (hover ho))
  · rw [hfrom] at h0 hle
    rcases h.live hph h0 hm f hf hle with hd | hq' | hp | ho
    · exact Or.inl (hdel.subset hd)
    · rcases htaken f hq' with hd | hq' | ho
      · exact Or.inl hd
      · exact Or.inr (Or.inl hq')
      · exact Or.inr (Or.inr (Or.inr ho))
    · exact Or.inr (Or.inr (Or.inl hp))
    · exact Or.inr (Or.inr (Or.inr (hover ho)))

theorem Account.next {store : Store} (h : Account log pending st) (hlog : Logged store log) (hs : StreamStep store st st') :
    Account log pending st' := by
  have hasc := logged_ascending hlog
  cases hs with
  | @read cursor page next hph hpage =>
    obtain ⟨hle, -, hd⟩ := h.replay cursor hph
    obtain ⟨rest, hdrop, hnext⟩ := replayPage_cases hlog cursor hpage
    obtain ⟨hend, hfull⟩ := window_page hasc hle hdrop
    refine .of_paging rfl h.last h.ascending h.queued h.stored h.sent (fun h0 => ?_) fun h0 => ?_
    · rcases hnext with ⟨h0', -⟩ | ⟨init, last, hlast, rfl⟩
      · exact absurd h0' h0
      · obtain ⟨hmem, hcur, hw⟩ := hfull init last hlast
        exact ⟨Nat.le_succ_of_le (Nat.le_trans hle hcur), ⟨last, hmem, rfl⟩, by rw [← hw, ← hd]⟩
    · rcases hnext with ⟨-, hrest⟩ | ⟨init, last, -, hnext⟩
      · exact ⟨log, [], (List.append_nil _).symm, by rw [← hend hrest, ← hd], fun _ e he => by cases he⟩
      · exact absurd (hnext.symm.trans h0) (Nat.succ_ne_zero _)
  | turned hph h0 =>
    obtain ⟨hle, hmem, hd⟩ := h.more _ _ hph h0
    rw [List.append_nil] at hd
    refine ⟨h.last, h.ascending, h.queued, h.stored, h.sent, fun c hc => ?_, fun page next hp => by (cases hp),
      fun page hp => by (cases hp), fun hl => by cases hl⟩
    cases hc
    exact ⟨hle, Or.inr hmem, hd⟩
  | wentLive hph =>
    obtain ⟨old, new, hold, hd, hnew⟩ := h.lastPage _ hph
    rw [List.append_nil] at hd
    refine .of_live rfl h.last h.ascending h.queued h.stored h.sent fun _ hm e he hle => ?_
    rw [hold] at he
    rcases List.mem_append.mp he with he | he
    · refine Or.inl ?_
      show e ∈ st.delivered
      rw [hd, mem_since]
      exact ⟨he, hle⟩
    · exact Or.inr ((hnew hm e he).imp_right Or.inl)
  | @replayed e page next hph =>
    have hmove : (st.delivered ++ [e]) ++ page = st.delivered ++ e :: page := by rw [List.append_assoc, List.singleton_append]
    -- what is delivered and on the page is a part of the log, in its order
    have hpart : (st.delivered ++ e :: page).Sublist log := by
      by_cases h0 : next = 0
      · subst h0
        obtain ⟨old, new, hold, hd, -⟩ := h.lastPage _ hph
        rw [hd, hold]
        exact List.filter_sublist.trans (List.sublist_append_left _ _)
      · obtain ⟨-, -, hd⟩ := h.more _ _ hph h0
        rw [hd]
        exact List.filter_sublist
    have hdel : (st.delivered ++ [e]).Sublist log := by
      rw [← hmove] at hpart
      exact (List.sublist_append_left _ _).trans hpart
    refine .of_paging rfl (last_deliver e) (hasc.sublist (hdel.map _)) h.queued (fun f hf => hdel.subset hf)
      (fun hm f hf => ?_) (fun h0 => ?_) fun h0 => ?_
    · rcases h.sent hm f hf with hd | hq | ho
      · exact Or.inl (List.mem_append_left _ hd)
      · exact Or.inr (Or.inl hq)
      · exact Or.inr (Or.inr (ho.deliver e))
    · obtain ⟨hle, hmem, hd⟩ := h.more _ _ hph h0
      exact ⟨hle, hmem, hmove.trans hd⟩
    · subst h0
      obtain ⟨old, new, hold, hd, hnew⟩ := h.lastPage _ hph
      exact ⟨old, new, hold, hmove.trans hd, hnew⟩
  | @skipped e queue last hph hm hq hlast hle =>
    refine h.received hph hm hq _ ⟨rfl, rfl, rfl, rfl, List.prefix_rfl⟩ h.last h.ascending h.stored ?_
    obtain ⟨d, hd, rfl⟩ := h.last_mem hlast
    rcases Nat.lt_or_eq_of_le hle with hlt | heq
    · exact Or.inr ⟨d, hd, hlt⟩
    · -- the log has one entry of each number
      have hmem : e ∈ log := h.queued e (by rw [hq]; exact List.mem_cons_self)
      rw [hlog.eq_of_seq hmem (h.stored d hd) heq]
      exact Or.inl hd
  | @received e queue hph hm hq hlast =>
    refine h.received hph hm hq _ ⟨rfl, rfl, rfl, rfl, List.prefix_append _ _⟩ (last_deliver e) (h.deliver_ascending hlast)
      (fun d hd => ?_) (Or.inl (List.mem_append_right _ (List.mem_singleton.mpr rfl)))
    rcases List.mem_append.mp hd with hd | hd
    · exact h.stored d hd
    · rw [List.mem_singleton.mp hd]
      exact h.queued e (by rw [hq]; exact List.mem_cons_self)

/-- What a stream in replay has delivered is an initial part of the log from its start on. -/
theorem Account.replay_begins (h : Account log pending st) (hasc : (seqs log).Pairwise (· < ·)) (hl : st.phase ≠ .live) :
    st.delivered <+: since st.fromSeq log := by
  cases hph : st.phase with
  | replay cursor =>
    rw [(h.replay cursor hph).2.2]
    exact window_prefix hasc _ _
  | paging page next =>
    refine (List.prefix_append st.delivered page).trans ?_
    by_cases h0 : next = 0
    · subst h0
      obtain ⟨old, new, hlog, hd, -⟩ := h.lastPage page hph
      rw [hd, hlog, since_append]
      exact List.prefix_append _ _
    · obtain ⟨-, -, hd⟩ := h.more page next hph h0
      rw [hd]
      exact window_prefix hasc _ _
  | live => exact absurd hph hl

end

/-! ## Runs -/

structure AccountInv (F : Feed) : Prop where
  pending : ∀ e ∈ F.pending, e ∈ F.log
  streams : ∀ st ∈ F.streams, Account F.log F.pending st

theorem FeedStep.account {store : Store} {F F' : Feed} {ev : FeedEv} (hf : FeedOk F) (hlog : Logged store F.log)
    (h : AccountInv F) (hs : FeedStep store F ev F') : AccountInv F' := by
  cases hs with
  | idle hlog' hpend hstreams _ => exact ⟨by rw [hlog', hpend]; exact h.pending, by rw [hlog', hpend, hstreams]; exact h.streams⟩
  | @commit fs hfs =>
    refine ⟨fun e he => ?_, fun st hst => ?_⟩
    · exact List.mem_append.mpr ((List.mem_append.mp he).imp_left (h.pending e))
    · exact (h.streams st hst).commit fun e he f hf' => Nat.lt_of_lt_of_le (hf.below e he) (mem_range_of_seqs hfs hf').1
  | @send before after e hpend =>
    have hmem : ∀ f, f ∈ F.pending ↔ f = e ∨ f ∈ before ++ after := by
      intro f
      rw [hpend, List.mem_append, List.mem_cons, List.mem_append]
      exact or_left_comm
    refine ⟨fun f hf => h.pending f ((hmem f).mpr (Or.inr hf)), fun st hst => ?_⟩
    obtain ⟨st0, hst0, rfl⟩ := List.mem_map.mp hst
    exact (h.streams st0 hst0).push (h.pending e ((hmem e).mpr (Or.inl rfl))) fun f hf => (hmem f).mp hf
  | subscribe =>
    refine ⟨h.pending, fun st hst => ?_⟩
    rcases List.mem_append.mp hst with hst | hst
    · exact h.streams st hst
    · rw [List.mem_singleton.mp hst]
      exact .subscribe _ _ _
  | next hi hn =>
    refine ⟨h.pending, fun st hst => ?_⟩
    rcases List.mem_or_eq_of_mem_set hst with hst | rfl
    · exact h.streams st hst
    · exact (h.streams _ (List.mem_of_getElem? hi)).next hlog (next_step hn)
  | close => exact ⟨h.pending, fun st hst => h.streams st (List.mem_of_mem_eraseIdx hst)⟩

theorem Step.account {s s' : St} {e : Ev} (hi : FeedInv s) (h : ∀ p, s.proc = some p → AccountInv (feedOf s p))
    (hs : Step sha256 E s e s') : FeedInv s' ∧ ∀ p, s'.proc = some p → AccountInv (feedOf s' p) := by
  obtain ⟨hi', hp'⟩ := hs.fed sha256 E hi
  refine ⟨hi', fun p' hp => ?_⟩
  rcases hp' p' hp with ⟨hmu, hw, hst⟩ | ⟨p, hp, ev, -, hfed⟩
  · have hpend : (feedOf s' p').pending = [] := by
      show p'.unsent ++ critUnsent p'.mu = []
      rw [Proc.unsent, hw, hmu]
      rfl
    refine ⟨fun e he => ?_, fun st hmem => ?_⟩
    · rw [hpend] at he
      cases he
    · have hmem : st ∈ p'.streams := hmem
      rw [hst] at hmem
      cases hmem
  · exact hfed.account (hi.feed p hp) hi.logged (h p hp)

theorem reach_account {s : St} (h : Reach (step sha256 E) (fun _ _ => true) .init s) :
    FeedInv s ∧ ∀ p, s.proc = some p → AccountInv (feedOf s p) := by
  apply h.inv (P := fun s => FeedInv s ∧ ∀ p, s.proc = some p → AccountInv (feedOf s p)) ⟨.init, fun p hp => by cases hp⟩
  intro s e s' ⟨hi, hacc⟩ _ hs
  exact (step_step sha256 E hs).account sha256 E hi hacc

/-- In every run of the server, with handlers that overlap, log writes that fail, streams
    that lag, crashes and restarts: what a stream has delivered are stored entries in
    strictly ascending order, and while it replays an initial part of the log from its
    start on. If it has missed nothing, every entry it was sent, and once live every
    stored entry from its start on, is delivered, or in its receiver, or still to be
    broadcast, or was overtaken by a higher number that the stream delivered before. -/
theorem watch_accounted {s : St} {p : Proc} {st : Stream} (h : Reach (step sha256 E) (fun _ _ => true) .init s)
    (hp : s.proc = some p) (hst : st ∈ p.streams) :
    (st.delivered.map (·.seq)).Pairwise (· < ·) ∧ (∀ e ∈ st.delivered, s.store.getBySeq e.seq = some e) ∧
    (st.phase ≠ .live → st.delivered <+: (stored s.store).filter fun e => st.fromSeq ≤ e.seq) ∧
    (st.missed = 0 → (∀ e ∈ st.sent, e ∈ st.delivered ∨ e ∈ st.queue ∨ Overtaken st e) ∧
      (st.phase = .live → 0 < st.fromSeq → ∀ e ∈ stored s.store, st.fromSeq ≤ e.seq →
        Accounted (p.unsent ++ critUnsent p.mu) st e)) := by
  obtain ⟨hi, hacc⟩ := reach_account sha256 E h
  have hst : Account (stored s.store) (p.unsent ++ critUnsent p.mu) st := (hacc p hp).streams st hst
  exact ⟨hst.ascending, fun e he => hi.logged.getBySeq (hst.stored e he), hst.replay_begins (logged_ascending hi.logged),
    fun hm => ⟨hst.sent hm, fun hl h0 => hst.live hl h0 hm⟩⟩

/-- One entry, and a stream from 0 on; two handlers commit entries 1 and 2, and the later
    one broadcasts first. -/
def overtakenEntry : List Ev := [
    [Ev.restart .zero true], appendEvs [1] [10] 5, appendEvs [2] [20] 6,
    [.watch (.subscribe 1), .watch (.next 0), .watch (.next 0), .watch (.next 0),
     .append (.request (.append [3] [30]) true), .append (.reserve 7), .append .write, .append .merkle, .append .unlock,
     .append (.request (.append [4] [40]) true), .append (.reserve 8), .append .write, .append .merkle, .append .unlock,
     .append (.send 1), .append (.send 0), .watch (.next 0), .watch (.next 0)]].flatten

theorem overtakenEntry_stream : ∃ s p st, Reach (step Sha256.sha256 plainKeys) (fun _ _ => true) .init s ∧
    s.proc = some p ∧ st ∈ p.streams ∧ st.report = (1, [3, 2], [1, 3], [], 0) := by
  have hrun : ((run (step Sha256.sha256 plainKeys) (fun _ _ => true) .init overtakenEntry).bind (·.proc)).map
      (fun p => p.streams[0]?.map Stream.report) = some (some (1, [3, 2], [1, 3], [], 0)) := by decide +kernel
  obtain ⟨p, hp, hst⟩ := Option.map_eq_some_iff.mp hrun
  obtain ⟨s, hs, hp⟩ := Option.bind_eq_some_iff.mp hp
  obtain ⟨st, hst, hrep⟩ := Option.map_eq_some_iff.mp hst
  exact ⟨s, p, st, Reach.init.run hs, hp, List.mem_of_getElem? hst, hrep⟩

theorem watch_accounted_overtaken : ∃ s p st e, Reach (step Sha256.sha256 plainKeys) (fun _ _ => true) .init s ∧
    s.proc = some p ∧ st ∈ p.streams ∧ st.report = (1, [3, 2], [1, 3], [], 0) ∧
    (st.delivered.map (·.seq)).Pairwise (· < ·) ∧ e ∈ st.sent ∧ e.seq = 2 ∧ Overtaken st e := by
  obtain ⟨s, p, st, hr, hp, hmem, hrep⟩ := overtakenEntry_stream
  obtain ⟨hasc, -, -, hkept⟩ := watch_accounted Sha256.sha256 plainKeys hr hp hmem
  have hsent : seqs st.sent = [3, 2] := congrArg (·.2.1) hrep
  have hdelivered : seqs st.delivered = [1, 3] := congrArg (·.2.2.1) hrep
  have hqueue : seqs st.queue = [] := congrArg (·.2.2.2.1) hrep
  obtain ⟨e, he, h2⟩ := mem_seqs.mp (show 2 ∈ seqs st.sent by rw [hsent]; decide)
  refine ⟨s, p, st, e, hr, hp, hmem, hrep, hasc, he, h2, ?_⟩
  rcases (hkept (congrArg (·.2.2.2.2) hrep)).1 e he with hd | hq | ho
  · have hin : 2 ∈ seqs st.delivered := mem_seqs.mpr ⟨e, hd, h2⟩
    rw [hdelivered] at hin
    exact absurd hin (by decide)
  · rw [List.map_eq_nil_iff.mp hqueue] at hq
    cases hq
  · exact ho

end Settled.Server
