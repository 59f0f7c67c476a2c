/-
  Settled.Server.Replay — Watch streams with `from_seq > 0`: replay in pages, then live
  (`watch` in `service.rs`).

  The lower bound is enforced by the replay query alone. If replay finds nothing, the live
  phase has no last number to skip by and delivers whatever comes: entries below
  `from_seq`, if it lies beyond the end of the log, or if an entry committed before the
  subscription is broadcast after it (`live_below_start`). Otherwise nothing below
  `from_seq` is delivered, in whatever order handlers broadcast (`watch_from_start`).
-/

import Settled.Server.Feed

namespace Settled.Server

open Settled.Lib Settled.Core Settled.Storage

variable (sha256 : Bytes → Hash) (E : Ed25519)

/-! ## Steps of a stream -/

/-- What a stream that goes on can do. -/
inductive StreamStep (store : Store) (st : Stream) : Stream → Prop
  | read {cursor : Nat} {page : List LogEntry} {next : Nat} : st.phase = .replay cursor →
      store.seqRangePaged cursor 0 replayPage = (page, next) → StreamStep store st { st with phase := .paging page next }
  | turned {next : Nat} : st.phase = .paging [] next → next ≠ 0 → StreamStep store st { st with phase := .replay next }
  | wentLive : st.phase = .paging [] 0 → StreamStep store st { st with phase := .live }
  | replayed {e : LogEntry} {page : List LogEntry} {next : Nat} : st.phase = .paging (e :: page) next →
      StreamStep store st { st.deliver e with phase := .paging page next }
  | skipped {e : LogEntry} {queue : List LogEntry} {last : Nat} : st.phase = .live → st.missed = 0 → st.queue = e :: queue →
      st.lastSent = some last → e.seq ≤ last → StreamStep store st { st with queue := queue }
  | received {e : LogEntry} {queue : List LogEntry} : st.phase = .live → st.missed = 0 → st.queue = e :: queue →
      (∀ last, st.lastSent = some last → last < e.seq) → StreamStep store st ({ st with queue := queue }.deliver e)

theorem next_step {store : Store} {st st' : Stream} (h : st.next store = some (some st')) : StreamStep store st st' := by
  unfold Stream.next at h
  split at h
  next cursor hph => cases h; exact .read hph rfl
  next next hph =>
    cases h
    by_cases h0 : next = 0
    · subst h0
      exact .wentLive hph
    · rw [if_neg h0]
      exact .turned hph h0
  next e page next hph => cases h; exact .replayed hph
  next hph =>
    split at h
    · cases h
    next hm =>
      have hm : st.missed = 0 := by omega
      split at h
      · cases h
      next e queue hq =>
        dsimp only at h
        cases hlast : st.lastSent with
        | none =>
          rw [hlast] at h
          cases h
          exact .received hph hm hq fun last hl => by rw [hlast] at hl; cases hl
        | some last =>
          rw [hlast, Option.any_some] at h
          by_cases hle : e.seq ≤ last
          · rw [decide_eq_true hle, if_pos rfl] at h
            cases h
            rw [← hlast]
            exact .skipped hph hm hq hlast hle
          · rw [decide_eq_false hle, if_neg Bool.false_ne_true] at h
            cases h
            rw [← hlast]
            refine .received hph hm hq fun last' hl => ?_
            rw [hlast] at hl
            cases hl
            omega

theorem push_cases (st : Stream) (e : LogEntry) : ∃ queue missed, st.push e =
      { st with queue := queue, missed := missed, sent := st.sent ++ [e] } ∧ (∀ f ∈ queue, f ∈ st.queue ∨ f = e) ∧
    (missed = 0 → st.missed = 0 ∧ queue = st.queue ++ [e]) := by
  have hmem : ∀ f ∈ st.queue ++ [e], f ∈ st.queue ∨ f = e := by
    intro f hf
    rcases List.mem_append.mp hf with hf | hf
    · exact Or.inl hf
    · exact Or.inr (List.mem_singleton.mp hf)
  unfold Stream.push
  extract_lets queue
  split
  · exact ⟨_, _, rfl, fun f hf => hmem f (List.mem_of_mem_drop hf), fun h => absurd h (Nat.succ_ne_zero _)⟩
  · exact ⟨_, _, rfl, hmem, fun h => ⟨h, rfl⟩⟩

/-! ## Pages of the log -/

/-- The entries from number `first` on. -/
def since (first : Nat) (es : List LogEntry) : List LogEntry := es.filter fun e => first ≤ e.seq

theorem mem_since {first : Nat} {es : List LogEntry} {e : LogEntry} : e ∈ since first es ↔ e ∈ es ∧ first ≤ e.seq := by
  rw [since, List.mem_filter, decide_eq_true_iff]

theorem since_append (first : Nat) (es fs : List LogEntry) : since first (es ++ fs) = since first es ++ since first fs :=
  List.filter_append ..

theorem since_eq_self {first : Nat} {es : List LogEntry} (h : ∀ e ∈ es, first ≤ e.seq) : since first es = es :=
  List.filter_eq_self.mpr fun e he => by rw [decide_eq_true_iff]; exact h e he

/-- An ascending log cut at a number. -/
theorem cut (c : Nat) : ∀ {es : List LogEntry}, (seqs es).Pairwise (· < ·) →
    ∃ lo hi, es = lo ++ hi ∧ (∀ e ∈ lo, e.seq < c) ∧ (∀ e ∈ hi, c ≤ e.seq) ∧ es.dropWhile (fun e => e.seq < c) = hi := by
  intro es
  induction es with
  | nil => intro _; exact ⟨[], [], rfl, fun e he => by (cases he), fun e he => by (cases he), rfl⟩
  | cons e es ih =>
    intro h
    obtain ⟨hlt, h'⟩ := List.pairwise_cons.mp h
    rw [List.dropWhile_cons]
    by_cases he : e.seq < c
    · obtain ⟨lo, hi, hes, hlo, hhi, hd⟩ := ih h'
      refine ⟨e :: lo, hi, by rw [hes]; rfl, fun f hf => ?_, hhi, by rw [if_pos (decide_eq_true he)]; exact hd⟩
      rcases List.mem_cons.mp hf with rfl | hf
      · exact he
      · exact hlo f hf
    · refine ⟨[], e :: es, rfl, fun f hf => by (cases hf), fun f hf => ?_, by rw [if_neg (by rw [decide_eq_true_iff]; exact he)]⟩
      rcases List.mem_cons.mp hf with rfl | hf
      · omega
      · have hef : e.seq < f.seq := hlt f.seq (List.mem_map_of_mem hf)
        omega

/-- A page of the replay: the rest of the log, or a full page and the number after it. -/
theorem replayPage_cases {s : Store} {es : List LogEntry} (h : Logged s es) (cursor : Nat) {page : List LogEntry} {next : Nat}
    (hpage : s.seqRangePaged cursor 0 replayPage = (page, next)) :
    ∃ rest, es.dropWhile (fun e => e.seq < cursor) = page ++ rest ∧
      ((next = 0 ∧ rest = []) ∨ ∃ init last, page = init ++ [last] ∧ next = last.seq + 1) := by
  rw [Store.seqRangePaged, if_neg (by decide)] at hpage
  simp only [if_true, h.log, List.dropWhile_map, Function.comp_def, ← List.map_take, List.map_map, List.map_id',
    List.getLast?_map, List.length_map, true_or] at hpage
  generalize es.dropWhile (fun e => e.seq < cursor) = tail at hpage ⊢
  obtain ⟨rfl, hnext⟩ := Prod.mk.inj hpage
  refine ⟨tail.drop replayPage, (List.take_append_drop _ _).symm, ?_⟩
  have hshort : (tail.take replayPage).length < replayPage → tail.drop replayPage = [] := by
    intro hlt
    rw [List.length_take] at hlt
    exact List.drop_eq_nil_of_le (by omega)
  cases hlast : (tail.take replayPage).getLast? with
  | none =>
    rw [hlast] at hnext
    rw [List.getLast?_eq_none_iff.mp hlast] at hshort
    exact Or.inl ⟨hnext.symm, hshort (by decide)⟩
  | some last =>
    rw [hlast] at hnext
    dsimp only [Option.map_some] at hnext
    split at hnext
    next hlt => exact Or.inl ⟨hnext.symm, hshort hlt⟩
    next =>
      obtain ⟨init, hinit⟩ := List.getLast?_eq_some_iff.mp hlast
      exact Or.inr ⟨init, last, hinit, hnext.symm⟩

/-! ## The starting point -/

/-- A stream that has delivered nothing below its start and will not: in the live phase
    it has a last number, or all that may still come is at or above the start. -/
structure StartOk (pending : List LogEntry) (fresh : Nat) (st : Stream) : Prop where
  delivered : ∀ e ∈ st.delivered, st.fromSeq ≤ e.seq
  last : ∀ n, st.lastSent = some n → st.fromSeq ≤ n
  cursor : ∀ cursor, st.phase = .replay cursor → st.fromSeq ≤ cursor
  page : ∀ page next, st.phase = .paging page next → (∀ e ∈ page, st.fromSeq ≤ e.seq) ∧ (next = 0 ∨ st.fromSeq ≤ next)
  live : st.phase = .live → st.lastSent = none → st.missed = 0 →
    st.fromSeq ≤ fresh ∧ ∀ e ∈ st.queue ++ pending, st.fromSeq ≤ e.seq

theorem StartOk.subscribe {fromSeq : Nat} (h : 0 < fromSeq) (pending : List LogEntry) (fresh : Nat) :
    StartOk pending fresh (.subscribe fromSeq) where
  delivered e he := by cases he
  last n hn := by cases hn
  cursor cursor hc := by
    rw [Stream.subscribe, if_pos h] at hc
    cases hc
    exact Nat.le_refl _
  page page next hp := by
    rw [Stream.subscribe, if_pos h] at hp
    cases hp
  live hl := by
    rw [Stream.subscribe, if_pos h] at hl
    cases hl

section

variable {pending pending' : List LogEntry} {fresh fresh' : Nat} {st st' : Stream}

theorem StartOk.mono (h : StartOk pending fresh st) (hle : fresh ≤ fresh')
    (hpend : ∀ e ∈ pending', e ∈ pending ∨ fresh ≤ e.seq) : StartOk pending' fresh' st where
  delivered := h.delivered
  last := h.last
  cursor := h.cursor
  page := h.page
  live hl hlast hm := by
    obtain ⟨hfresh, hcome⟩ := h.live hl hlast hm
    refine ⟨Nat.le_trans hfresh hle, fun e he => ?_⟩
    rcases List.mem_append.mp he with he | he
    · exact hcome e (List.mem_append_left _ he)
    · rcases hpend e he with he | he
      · exact hcome e (List.mem_append_right _ he)
      · exact Nat.le_trans hfresh he

theorem StartOk.push (h : StartOk pending fresh st) {e : LogEntry} (he : e ∈ pending) (hsub : ∀ f ∈ pending', f ∈ pending) :
    StartOk pending' fresh (st.push e) := by
  obtain ⟨queue, missed, hpush, hqueue, hm⟩ := push_cases st e
  rw [hpush]
  refine ⟨h.delivered, h.last, h.cursor, h.page, fun hl hlast hm0 => ?_⟩
  obtain ⟨hfresh, hcome⟩ := h.live hl hlast (hm hm0).1
  refine ⟨hfresh, fun f hf => ?_⟩
  rcases List.mem_append.mp hf with hf | hf
  · rcases hqueue f hf with hf | rfl
    · exact hcome f (List.mem_append_left _ hf)
    · exact hcome f (List.mem_append_right _ he)
  · exact hcome f (List.mem_append_right _ (hsub f hf))

/-- A stream that goes live with nothing replayed finds nothing below its start: not in
    its receiver, not among the entries to be broadcast, and not by a number to come. -/
def inTime (pending : List LogEntry) (fresh : Nat) (st : Stream) : Bool :=
  match st.phase, st.lastSent with
  | .paging [] 0, none => 0 < st.missed || (st.fromSeq ≤ fresh && (st.queue ++ pending).all fun e => st.fromSeq ≤ e.seq)
  | _, _ => true

theorem StartOk.deliver (h : StartOk pending fresh st) {e : LogEntry} (he : st.fromSeq ≤ e.seq) :
    (∀ f ∈ (st.deliver e).delivered, st.fromSeq ≤ f.seq) ∧ ∀ n, (st.deliver e).lastSent = some n → st.fromSeq ≤ n := by
  refine ⟨fun f hf => ?_, fun n hn => ?_⟩
  · rcases List.mem_append.mp hf with hf | hf
    · exact h.delivered f hf
    · rw [List.mem_singleton.mp hf]
      exact he
  · cases hn
    exact he

theorem StartOk.next {store : Store} (h : StartOk pending fresh st) (hlog : Logged store (stored store))
    (hok : inTime pending fresh st = true) (hs : StreamStep store st st') : StartOk pending fresh st' := by
  cases hs with
  | @read cursor page next hph hpage =>
    have hc := h.cursor cursor hph
    refine ⟨h.delivered, h.last, fun c hc' => by (cases hc'), fun page' next' hp => ?_, fun hl => by cases hl⟩
    cases hp
    obtain ⟨rest, hdrop, hnext⟩ := replayPage_cases hlog cursor hpage
    have hge : ∀ e ∈ page, st.fromSeq ≤ e.seq := by
      intro e he
      obtain ⟨lo, hi, -, -, hhi, hd⟩ := cut cursor (logged_ascending hlog)
      rw [hdrop] at hd
      exact Nat.le_trans hc (hhi e (by rw [← hd]; exact List.mem_append_left _ he))
    refine ⟨hge, ?_⟩
    rcases hnext with ⟨h0, -⟩ | ⟨init, last, rfl, rfl⟩
    · exact Or.inl h0
    · exact Or.inr (Nat.le_succ_of_le (hge last (by simp)))
  | turned hph h0 =>
    refine ⟨h.delivered, h.last, fun c hc => ?_, fun page next hp => by (cases hp), fun hl => by cases hl⟩
    cases hc
    exact ((h.page _ _ hph).2).resolve_left h0
  | wentLive hph =>
    refine ⟨h.delivered, h.last, fun c hc => by (cases hc), fun page next hp => by (cases hp), fun _ hlast hm => ?_⟩
    have hlast : st.lastSent = none := hlast
    have hm : st.missed = 0 := hm
    rw [inTime, hph, hlast, hm] at hok
    simp only [Nat.lt_irrefl, decide_false, Bool.false_or, Bool.and_eq_true, decide_eq_true_eq, List.all_eq_true] at hok
    exact hok
  | @replayed e page next hph =>
    obtain ⟨hpage, hnext⟩ := h.page _ _ hph
    obtain ⟨hd, hl⟩ := h.deliver (hpage e List.mem_cons_self)
    refine ⟨hd, hl, fun c hc => by (cases hc), fun page' next' hp => ?_, fun hl => by cases hl⟩
    cases hp
    exact ⟨fun f hf => hpage f (List.mem_cons_of_mem _ hf), hnext⟩
  | @skipped e queue last hph hm hq hlast hle =>
    refine ⟨h.delivered, h.last, h.cursor, h.page, fun hl hnone => ?_⟩
    have hnone : st.lastSent = none := hnone
    rw [hlast] at hnone
    cases hnone
  | @received e queue hph hm hq hlast =>
    have he : st.fromSeq ≤ e.seq := by
      cases hl : st.lastSent with
      | none => exact (h.live hph hl hm).2 e (by rw [hq]; exact List.mem_cons_self)
      | some last => exact Nat.le_trans (h.last last hl) (Nat.le_of_lt (hlast last hl))
    obtain ⟨hd, hl⟩ := h.deliver he
    exact ⟨hd, hl, h.cursor, h.page, fun _ hnone => by cases hnone⟩

end

def StartInv (F : Feed) : Prop := ∀ st ∈ F.streams, 0 < st.fromSeq → StartOk F.pending F.fresh st

theorem FeedStep.startInv {store : Store} {F F' : Feed} {ev : FeedEv} (hlog : Logged store (stored store)) (h : StartInv F)
    (hok : ∀ i st, ev = .next i → F.streams[i]? = some st → inTime F.pending F.fresh st = true)
    (hs : FeedStep store F ev F') : StartInv F' := by
  intro st hst h0
  cases hs with
  | idle _ hpend hstreams hle =>
    rw [hstreams] at hst
    rw [hpend]
    exact (h st hst h0).mono hle fun e he => Or.inl he
  | commit hfs =>
    refine (h st hst h0).mono (Nat.le_add_right _ _) fun e he => ?_
    rcases List.mem_append.mp he with he | he
    · exact Or.inl he
    · exact Or.inr (mem_range_of_seqs hfs he).1
  | send hpend =>
    obtain ⟨st0, hst0, rfl⟩ := List.mem_map.mp hst
    rw [push_fromSeq] at h0
    refine (h st0 hst0 h0).push (by rw [hpend]; simp) fun f hf => ?_
    rw [hpend]
    rcases List.mem_append.mp hf with hf | hf
    · exact List.mem_append_left _ hf
    · exact List.mem_append_right _ (List.mem_cons_of_mem _ hf)
  | subscribe =>
    rcases List.mem_append.mp hst with hst | hst
    · exact h st hst h0
    · rw [List.mem_singleton.mp hst] at h0 ⊢
      exact .subscribe h0 _ _
  | next hi hn =>
    rcases List.mem_or_eq_of_mem_set hst with hst | rfl
    · exact h st hst h0
    · rw [next_fromSeq hn] at h0
      exact (h _ (List.mem_of_getElem? hi) h0).next hlog (hok _ _ rfl hi) (next_step hn)
  | close => exact h st (List.mem_of_mem_eraseIdx hst) h0

/-- Every stream that goes live does so in time. -/
def startsInTime (s : St) : Ev → Bool
  | .watch (.next i) =>
    match s.proc with
    | none => true
    | some p =>
      match p.streams[i]? with
      | none => true
      | some st => inTime (p.unsent ++ critUnsent p.mu) p.fresh st
  | _ => true

theorem Step.startInv {s s' : St} {e : Ev} (hi : FeedInv s) (h : ∀ p, s.proc = some p → StartInv (feedOf s p))
    (hok : startsInTime s e = true) (hs : Step sha256 E s e s') :
    FeedInv s' ∧ ∀ p, s'.proc = some p → StartInv (feedOf s' p) := by
  obtain ⟨hi', hp'⟩ := hs.fed sha256 E hi
  refine ⟨hi', fun p' hp => ?_⟩
  rcases hp' p' hp with ⟨-, -, hst⟩ | ⟨p, hp, ev, hof, hfed⟩
  · intro st hmem
    rw [feedOf, hst] at hmem
    cases hmem
  · refine hfed.startInv hi.logged (h p hp) fun i st hev hst => ?_
    subst hev
    have he : e = .watch (.next i) := hof
    have hst : p.streams[i]? = some st := hst
    rw [he] at hok
    simp only [startsInTime, hp, hst] at hok
    exact hok

/-- In every run in which a stream that goes live with nothing replayed finds nothing
    below its start, no stream has delivered an entry below its start. -/
theorem watch_from_start {s : St} {p : Proc} {st : Stream} (h : Reach (step sha256 E) startsInTime .init s)
    (hp : s.proc = some p) (hst : st ∈ p.streams) (h0 : 0 < st.fromSeq) : ∀ e ∈ st.delivered, st.fromSeq ≤ e.seq := by
  have hinv : FeedInv s ∧ ∀ p, s.proc = some p → StartInv (feedOf s p) := by
    apply h.inv (P := fun s => FeedInv s ∧ ∀ p, s.proc = some p → StartInv (feedOf s p)) ⟨.init, fun p hp => by cases hp⟩
    intro s e s' ⟨hi, hstart⟩ hok hs
    exact (step_step sha256 E hs).startInv sha256 E hi hstart hok
  exact (hinv.2 p hp st hst h0).delivered

/-- One entry in the log, all broadcast; a stream from `fromSeq` reads an empty page and
    goes live; a second entry. -/
def emptyReplay (fromSeq : Nat) : List Ev :=
  [Ev.restart .zero true] ++ appendEvs [1] [10] 5 ++ [Ev.watch (.subscribe fromSeq), .watch (.next 0), .watch (.next 0)] ++
    appendEvs [2] [20] 6 ++ [Ev.watch (.next 0)]

theorem watch_from_start_at_end : ∃ s p st, Reach (step Sha256.sha256 plainKeys) startsInTime .init s ∧
    s.proc = some p ∧ st ∈ p.streams ∧ st.report = (1, [1], [1], [], 0) ∧ ∀ e ∈ st.delivered, st.fromSeq ≤ e.seq := by
  have hrun : ((run (step Sha256.sha256 plainKeys) startsInTime .init (emptyReplay 1)).bind (·.proc)).map
      (fun p => p.streams[0]?.map Stream.report) = some (some (1, [1], [1], [], 0)) := by decide +kernel
  obtain ⟨p, hp, hst⟩ := Option.map_eq_some_iff.mp hrun
  obtain ⟨s, hs, hp⟩ := Option.bind_eq_some_iff.mp hp
  obtain ⟨st, hst, hrep⟩ := Option.map_eq_some_iff.mp hst
  have hr : Reach (step Sha256.sha256 plainKeys) startsInTime .init s := Reach.init.run hs
  have h0 : 0 < st.fromSeq := by rw [show st.fromSeq = 1 from congrArg (·.1) hrep]; decide
  have hmem := List.mem_of_getElem? hst
  exact ⟨s, p, st, hr, hp, hmem, hrep, watch_from_start Sha256.sha256 plainKeys hr hp hmem h0⟩

/-- A stream from 5 on a log of one entry is sent entry 1. -/
theorem live_below_start : ∃ s p st e, Reach (step Sha256.sha256 plainKeys) (fun _ _ => true) .init s ∧
    s.proc = some p ∧ st ∈ p.streams ∧ 0 < st.fromSeq ∧ e ∈ st.delivered ∧ ¬ st.fromSeq ≤ e.seq := by
  have hrun : ((run (step Sha256.sha256 plainKeys) (fun _ _ => true) .init (emptyReplay 5)).bind (·.proc)).map
      (fun p => p.streams[0]?.map Stream.report) = some (some (5, [1], [1], [], 0)) := by decide +kernel
  obtain ⟨p, hp, hst⟩ := Option.map_eq_some_iff.mp hrun
  obtain ⟨s, hs, hp⟩ := Option.bind_eq_some_iff.mp hp
  obtain ⟨st, hst, hrep⟩ := Option.map_eq_some_iff.mp hst
  have hfrom : st.fromSeq = 5 := congrArg (·.1) hrep
  have hdelivered : seqs st.delivered = [1] := congrArg (·.2.2.1) hrep
  obtain ⟨e, he, h1⟩ := mem_seqs.mp (show 1 ∈ seqs st.delivered by rw [hdelivered]; decide)
  refine ⟨s, p, st, e, Reach.init.run hs, hp, List.mem_of_getElem? hst, ?_, he, ?_⟩
  · rw [hfrom]; decide
  · rw [hfrom, h1]; decide

end Settled.Server
